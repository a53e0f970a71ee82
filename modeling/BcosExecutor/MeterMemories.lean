import BcosExecutor.CheckedInjector
import BcosExecutor.FloatFree

namespace BcosExecutor

open ExceptRuns GasInjector

/-- What the injector writes to the limits of a memory, with room for the initial pages. -/
def Limits.Bounded (memory : Limits) : Prop :=
  memory.hasMax = true ∧ memory.max = WASM_MEMORY_PAGES_MAX ∧ memory.initial ≤ memory.max

instance (memory : Limits) : Decidable memory.Bounded :=
  inferInstanceAs (Decidable (_ ∧ _ ∧ _))

/-- The instructions that the switch takes in the build without floating point. -/
def Instr.allowed : Instr → Bool
  | binary op | compare op | convert op | unary op => !isFloatOpcode op
  | const type _ => type = .i32 || type = .i64
  | other _ => false
  | _ => true

namespace Module

def MemoriesBounded (m : Module ExprList) : Prop :=
  ∀ memory ∈ m.memories, memory.Bounded

def Allowed (m : Module ExprList) : Prop :=
  ∀ func ∈ m.funcs, func.exprs.Forall fun i => i.allowed = true

/-- The first memory begins within the maximum; the others are not looked at, so that they have
to stand as the output needs them. -/
def MemoriesFit (m : Module ExprList) : Prop :=
  (∀ memory ∈ m.memories.head?, memory.initial ≤ WASM_MEMORY_PAGES_MAX) ∧
    ∀ memory ∈ m.memories.tail, memory.Bounded

end Module

/-- A status without a read outside a vector, and with success only memories that are bounded. -/
def InjectsTotally (costTable : CostTable) (m : Module ExprList) : Prop :=
  checkedInjectMeter costTable m ≠ .undefined ∧
    ∀ out, checkedInjectMeter costTable m = .success out → out.MemoriesBounded

theorem limitMemory_bounded_iff (memory : Limits) :
    (limitMemory memory).Bounded ↔ memory.initial ≤ WASM_MEMORY_PAGES_MAX := by
  unfold Limits.Bounded limitMemory WASM_MEMORY_PAGES_MAX WASM_MEMORY_PAGES_INIT
  simp only [true_and]
  split <;> omega

section
variable (table : InstructionTable) (info : ImportsInfo)

theorem visitInstr_ok_iff {i : Instr} :
    (∃ r, visitInstr table info i = .ok r) ↔ i.allowed = true := by
  cases i with
  | binary op | compare op | convert op | unary op =>
    simp only [visitInstr, visitOpcode, Instr.allowed]
    cases isFloatOpcode op <;> simp
  | const type value => cases type <;> simp [visitInstr, visitConst, Instr.allowed]
  | _ => simp [visitInstr, Instr.allowed]

/-- A list is metered exactly when every instruction of it is allowed, at any depth. -/
theorem meterSegment_ok_iff {l : ExprList} :
    (∃ s, meterSegment table info l = .ok s) ↔ l.Forall fun i => i.allowed = true := by
  constructor
  · rintro ⟨s, hs⟩
    exact (visited hs).imp fun i hi => (visitInstr_ok_iff table info).mp hi
  · intro h
    induction l with
    | nil => exact ⟨_, rfl⟩
    | instr i rest ih =>
      obtain ⟨r, hr⟩ := (visitInstr_ok_iff table info).mpr h.1
      obtain ⟨s, hs⟩ := ih h.2
      exact ⟨_, bind_eq_ok.mpr ⟨r, hr, bind_eq_ok.mpr ⟨s, hs, rfl⟩⟩⟩
    | block sig body rest ihb ih | loop sig body rest ihb ih =>
      obtain ⟨b, hb⟩ := ihb h.1
      obtain ⟨s, hs⟩ := ih h.2
      exact ⟨_, bind_eq_ok.mpr ⟨b, hb, bind_eq_ok.mpr ⟨s, hs, rfl⟩⟩⟩
    | ifElse sig true_ false_ rest iht ihf ih =>
      obtain ⟨t, ht⟩ := iht h.1
      obtain ⟨f, hf⟩ := ihf h.2.1
      obtain ⟨s, hs⟩ := ih h.2.2
      exact ⟨_, bind_eq_ok.mpr ⟨t, ht, bind_eq_ok.mpr ⟨f, hf, bind_eq_ok.mpr ⟨s, hs, rfl⟩⟩⟩⟩

theorem injectFunc_ok_iff {func : Func ExprList} :
    (∃ out, injectFunc (injectMeterExprList table info) func = .ok out) ↔
      func.exprs.Forall fun i => i.allowed = true := by
  rw [← meterSegment_ok_iff table info, injectFunc, injectMeterExprList_eq,
    meter]
  cases meterSegment table info func.exprs with
  | error e => simp [Except.map, bind, Except.bind]
  | ok s => simp [Except.map, bind, Except.bind]

end

/-- The bodies go through the injector exactly when none has a forbidden instruction. -/
theorem allowed_iff (table : InstructionTable) (info : ImportsInfo) (m : Module ExprList) :
    (∃ funcs, m.funcs.mapM (injectFunc (injectMeterExprList table info)) = .ok funcs) ↔
      m.Allowed :=
  mapM_eq_ok.trans (forall₂_congr fun _ _ => injectFunc_ok_iff table info)

section
variable (costTable : CostTable) {m : Module ExprList}

theorem checkedInjectMeter_nil (h : m.memories = []) :
    checkedInjectMeter costTable m = .undefined := by
  rw [checkedInjectMeter_eq, injectMeter, injectModule_eq, dif_neg (not_not_intro h)]

theorem checkedInjectMeter_forbidden (h : m.memories ≠ []) (hallowed : ¬m.Allowed) :
    checkedInjectMeter costTable m = .forbiddenOpcode := by
  rw [checkedInjectMeter_eq, injectMeter, injectModule_eq, dif_pos h]
  cases hfuncs : m.funcs.mapM
      (injectFunc (injectMeterExprList costTable.entries (importsInfo m))) with
  | error e => rfl
  | ok funcs => exact absurd ((allowed_iff _ _ m).mp ⟨funcs, hfuncs⟩) hallowed

theorem checkedInjectMeter_success (h : m.memories ≠ []) (hallowed : m.Allowed) : ∃ out,
    checkedInjectMeter costTable m = .success out ∧
      out.memories = limitMemory (m.memories.head h) :: m.memories.tail := by
  obtain ⟨funcs, hfuncs⟩ := (allowed_iff costTable.entries (importsInfo m) m).mpr hallowed
  rw [checkedInjectMeter_eq, injectMeter, injectModule_eq, dif_pos h, hfuncs]
  exact ⟨_, rfl, rfl⟩

/-- The memories of an output are bounded exactly when those of the module fit. -/
theorem memoriesFit_iff (h : m.memories ≠ []) :
    (∀ memory ∈ limitMemory (m.memories.head h) :: m.memories.tail, memory.Bounded) ↔
      m.MemoriesFit := by
  rw [List.forall_mem_cons, limitMemory_bounded_iff, Module.MemoriesFit]
  refine and_congr_left fun _ => ?_
  rw [List.head?_eq_some_head h]
  simp

end

/-- The injector is total and bounds the memories exactly when there is one, and in a module
without forbidden instructions the memories fit. -/
theorem injectsTotally_iff (costTable : CostTable) (m : Module ExprList) :
    InjectsTotally costTable m ↔ m.memories ≠ [] ∧ (m.Allowed → m.MemoriesFit) := by
  unfold InjectsTotally
  by_cases h : m.memories = []
  · simp [checkedInjectMeter_nil costTable h, h]
  · by_cases hallowed : m.Allowed
    · obtain ⟨out, hout, hmemories⟩ := checkedInjectMeter_success costTable h hallowed
      have hbounded : out.MemoriesBounded ↔ m.MemoriesFit := by
        rw [Module.MemoriesBounded, hmemories]
        exact memoriesFit_iff h
      simp [hout, h, hallowed, hbounded]
    · simp [checkedInjectMeter_forbidden costTable h hallowed, h, hallowed]

/-- A module that has nothing but memories. -/
def memoryModule (memories : List Limits) : Module ExprList where
  types := []
  imports := []
  funcs := []
  globals := []
  memories := memories
  exports := []
  elemSegments := []
  dataOffsets := []
  starts := []

def defaultCosts : CostTable :=
  Vector.ofFn fun code => GetInstructionTable (fun _ => true) (UInt8.ofNat code)

/-- No memory, one that begins above the maximum, and a second one without a maximum. -/
theorem not_injectsTotally :
    ¬InjectsTotally defaultCosts (memoryModule []) ∧
    ¬InjectsTotally defaultCosts (memoryModule [⟨2000, 0, false⟩]) ∧
    ¬InjectsTotally defaultCosts (memoryModule [⟨1, 0, false⟩, ⟨1, 0, false⟩]) := by
  refine ⟨fun h => h.1 rfl, fun h => ?_, fun h => ?_⟩
  · have hbounded := h.2 _ rfl _ (List.mem_cons_self ..)
    revert hbounded
    decide
  · have hbounded := h.2 _ rfl _ (List.mem_cons_of_mem _ (List.mem_cons_self ..))
    revert hbounded
    decide

end BcosExecutor
