import BcosExecutor.InjectMeter
import BcosExecutor.MeterMeaning

namespace BcosExecutor

open GasInjector Halting WasmHost

/-- The number of expressions, at any depth. -/
def ExprList.length : ExprList → Nat
  | nil => 0
  | instr _ rest => rest.length + 1
  | block _ body rest | loop _ body rest => body.length + rest.length + 1
  | ifElse _ true_ false_ rest => true_.length + false_.length + rest.length + 1

theorem length_reindex (info : ImportsInfo) (l : ExprList) :
    (l.reindex info).length = l.length := by
  induction l with
  | nil => rfl
  | instr i rest ih => simp only [ExprList.reindex, ExprList.length, ih]
  | block sig body rest ihb ih | loop sig body rest ihb ih =>
    simp only [ExprList.reindex, ExprList.length, ihb, ih]
  | ifElse sig true_ false_ rest iht ihf ih =>
    simp only [ExprList.reindex, ExprList.length, iht, ihf, ih]

theorem cost_lt (table : InstructionTable) (i : Instr) : i.cost table < 2 ^ 32 := by
  unfold Instr.cost
  split
  · exact Nat.two_pow_pos 32
  · exact UInt32.toNat_lt _

/-- An expression costs less than `2^32`. -/
theorem prepaid_le (table : InstructionTable) (m : Metered) :
    m.prepaid table ≤ m.original.length * 2 ^ 32 := by
  induction m with
  | nil | charge _ _ _ | block _ _ _ _ _ | loop _ _ _ _ _ => exact Nat.zero_le _
  | instr i rest ih =>
    have hcost := cost_lt table i
    simp only [Metered.prepaid, Metered.original, ExprList.length]
    split <;> omega
  | ifElse sig true_ false_ rest _ _ _ =>
    have helse : false_.elseCost table < 2 ^ 32 := by
      unfold Metered.elseCost
      split
      · exact UInt32.toNat_lt _
      · exact Nat.two_pow_pos 32
    simp only [Metered.prepaid, Metered.original, ExprList.length]
    omega

/-- In code that is not too long every charge fits the counter. -/
theorem all_of_balanced {table : InstructionTable} {gas : UInt32} {m : Metered}
    (hbalanced : m.Balanced table) (hlength : m.original.length < 2 ^ 31)
    (havoid : gas ∉ m.original.operands Instr.globalOperand) :
    m.All fun i => gas ∉ i.globalOperand := by
  induction m with
  | nil => trivial
  | charge cost rest ih =>
    obtain ⟨rfl, hrest⟩ := hbalanced
    have hle := prepaid_le table rest
    simp only [Metered.original] at hlength havoid
    exact ⟨by omega, ih hrest hlength havoid⟩
  | instr i rest ih =>
    simp only [Metered.original, ExprList.length] at hlength
    simp only [Metered.original, ExprList.operands, List.mem_append, not_or] at havoid
    exact ⟨havoid.1, ih hbalanced.2 (by omega) havoid.2⟩
  | block sig body rest ihb ih | loop sig body rest ihb ih =>
    obtain ⟨⟨-, hbody⟩, -, hrest⟩ := hbalanced
    simp only [Metered.original, ExprList.length] at hlength
    simp only [Metered.original, ExprList.operands, List.mem_append, not_or] at havoid
    exact ⟨ihb hbody (by omega) havoid.1, ih hrest (by omega) havoid.2⟩
  | ifElse sig true_ false_ rest iht ihf ih =>
    obtain ⟨⟨-, htrue⟩, ⟨-, hfalse⟩, -, hrest⟩ := hbalanced
    simp only [Metered.original, ExprList.length] at hlength
    simp only [Metered.original, ExprList.operands, List.mem_append, not_or] at havoid
    exact ⟨iht htrue (by omega) havoid.1, ihf hfalse (by omega) havoid.2.1,
      ih hrest (by omega) havoid.2.2⟩

namespace Module

variable {β : Type}

/-- The bodies by the indices of the functions. -/
def code (f : β → Metered) (m : Module β) (index : UInt32) : Option Metered :=
  match m.funcEntity index with
  | some (.defined n) => m.funcs[n]?.map fun func => f func.exprs
  | _ => none

/-- A call of a function comes to a stop. A module without marks has no charges, so that no global
counts gas by itself. -/
def Runs {ρ : Type} (host : WasmHost ρ) (m : Module ExprList) (index : UInt32) (s : WasmStore ρ)
    (r : WasmStop ρ) : Prop :=
  Evaluates (host.step 0 (m.code ExprList.plain)) ⟨.instr (.call index) .nil, [], s⟩ r

/-- A contract that imports functions only, names no global by the largest index, which would be
shifted to the gas counter, and whose functions are not so long that a charge overflows. -/
structure Meterable (m : Module ExprList) : Prop where
  imports : ∀ x ∈ m.imports, x.desc.kind = .func
  globals : ∀ i ∈ m.bodyOperands Instr.globalOperand, i ≠ 0xffffffff
  bodies : ∀ func ∈ m.funcs, func.exprs.length < 2 ^ 31

theorem code_eq (f : β → Metered) (m : Module β) (index : UInt32) :
    m.code f index = if (positions .func m.imports).length ≤ index.toNat then
      (m.funcs[index.toNat - (positions .func m.imports).length]?).map fun func => f func.exprs
    else none := by
  unfold code funcEntity
  by_cases hle : (positions .func m.imports).length ≤ index.toNat
  · rw [if_pos hle, entity_ge hle]
    by_cases hlt : index.toNat - (positions .func m.imports).length < m.funcs.length
    · rw [if_pos hlt]
    · rw [if_neg hlt, List.getElem?_eq_none (Nat.not_lt.mp hlt)]
      rfl
  · rw [if_neg hle, entity_lt (Nat.not_le.mp hle)]

theorem positions_length_of_func {imports : List Import}
    (h : ∀ x ∈ imports, x.desc.kind = .func) :
    (positions .func imports).length = imports.length := by
  rw [positions_length, List.countP_eq_length]
  intro x hx
  exact decide_eq_true (h x hx)

end Module

/-- A machine that runs the output: the inserted instructions do what WebAssembly says, the import
`outOfGas` does not return, and nothing adds to the gas. -/
structure WasmHost.RunsMetered {ρ : Type} (host : WasmHost ρ) (out : Module ExprList) : Prop where
  exec : ∀ {i s m}, Instr.Inserted 0 i → s.machine.step i = .done m →
    host.exec i s = some ⟨m, s.rest⟩
  outOfGas : ∀ index, out.IsImport (out.funcEntity index) .func OUT_OF_GAS_NAME →
    ∀ s, host.external index s = .outOfGas
  frugal : host.Frugal 0

section

variable {ρ : Type} {table : InstructionTable} {m : ReadModule} {marked : Module Metered}

theorem globalGasIndex_importsInfo (m : Module ExprList) : (importsInfo m).globalGasIndex = 0 := by
  unfold importsInfo
  split <;> rfl

theorem code_mapBodies (info : ImportsInfo) (marked : Module Metered) :
    (marked.mapBodies (Metered.emit info)).code ExprList.plain =
      writtenFuncs info (marked.code id) := by
  funext index
  simp only [writtenFuncs, Module.code_eq, Module.mapBodies, List.getElem?_map, Option.map_map,
    Function.comp_def]
  split
  · rw [Option.map_map]
    rfl
  · rfl

theorem rel_getElem? {α γ : Type} {R : α → γ → Prop} {l : List α} {l' : List γ}
    (h : List.Forall₂ R l l') (n : Nat) : Option.Rel R l[n]? l'[n]? := by
  induction h generalizing n with
  | nil => exact .none
  | cons hab _ ih =>
    cases n with
    | zero => exact .some hab
    | succ n => exact ih n

/-- A body of the contract, and what became of it. -/
def MeteredFrom (table : InstructionTable) (m : Module ExprList) (l body : Metered) : Prop :=
  ∃ func ∈ m.funcs, l = func.exprs.plain ∧ meter table (importsInfo m) func.exprs = .ok body

theorem rel_bodies (h : meterModule table m.toModule = .success marked) (n : Nat) :
    Option.Rel (MeteredFrom table m.toModule) (m.funcs[n]?.map fun func => func.exprs.plain)
      (marked.funcs[n]?.map fun func => func.exprs) := by
  have hrel := rel_getElem? (meterModule_bodies h) n
  cases hfunc : m.funcs[n]? with
  | none =>
    rw [hfunc] at hrel
    generalize marked.funcs[n]? = o at hrel ⊢
    cases hrel
    exact .none
  | some func =>
    rw [hfunc] at hrel
    generalize marked.funcs[n]? = o at hrel ⊢
    cases hrel with
    | some hmeter => exact .some ⟨func, List.mem_of_getElem? hfunc, rfl, hmeter⟩

/-- The output has the metered bodies at the shifted indices. -/
theorem code_marked (h : meterModule table m.toModule = .success marked)
    (himports : ∀ x ∈ m.imports, x.desc.kind = .func) (index : UInt32) :
    Option.Rel (MeteredFrom table m.toModule) (m.toModule.code ExprList.plain index)
      (marked.code id (shiftCall (importsInfo m.toModule) index)) := by
  obtain ⟨himp, hlen, _⟩ := meterModule_output h
  have hfuncs := Module.positions_length_of_func himports
  have hbound := m.funcs_bounded
  have hindex := index.toNat_lt
  simp only [Module.code_eq, himp, positions_func_prepare]
  cases hfound : findOutOfGas m.imports with
  | some k =>
    have hsame : shiftCall (importsInfo m.toModule) index = index := shiftCall_some hfound index
    simp only [hsame, Option.isSome_some, if_true, List.append_nil, id]
    split
    · exact rel_bodies h _
    · exact .none
  | none =>
    rw [shiftCall_none hfound]
    simp only [Option.isSome_none, Bool.false_eq_true, if_false, List.length_append,
      List.length_singleton, hfuncs, id]
    by_cases hle : m.imports.length ≤ index.toNat
    · rw [if_pos hle, if_pos hle]
      by_cases hlast : index.toNat + 1 < 2 ^ 32
      · rw [toNat_succ hlast, if_pos (Nat.succ_le_succ hle), Nat.succ_sub_succ]
        exact rel_bodies h _
      · have hnone : m.funcs[index.toNat - m.imports.length]? = none :=
          List.getElem?_eq_none (by omega)
        have hzero : (index + 1).toNat = 0 := by
          rw [UInt32.toNat_add]
          change (index.toNat + 1) % 2 ^ 32 = 0
          omega
        rw [hnone, hzero, if_neg (by omega)]
        exact .none
    · rw [if_neg hle, if_neg hle, if_neg (by omega)]
      exact .none

theorem meters_of_meteredFrom (hm : m.toModule.Meterable) {l body : Metered}
    (h : MeteredFrom table m.toModule l body) :
    MeteredBody table 0 body ∧ Meters (importsInfo m.toModule) l body := by
  obtain ⟨func, hfunc, rfl, hmeter⟩ := h
  obtain ⟨horiginal, hfresh⟩ := meter_spec hmeter
  have hall : body.All fun i => 0 ∉ i.globalOperand := by
    refine all_of_balanced hfresh.2 ?_ ?_
    · rw [horiginal, length_reindex]
      exact hm.bodies func hfunc
    · rw [horiginal, operands_globals_reindex, List.mem_map]
      rintro ⟨i, hi, hzero⟩
      refine hm.globals i (List.mem_flatMap.mpr ⟨func, hfunc, hi⟩) ?_
      exact (UInt32.add_sub_cancel i 1).symm.trans (congrArg (· - 1) hzero)
  refine ⟨⟨hfresh, hall⟩, func.exprs, rfl, horiginal, ?_⟩
  rwa [globalGasIndex_importsInfo]

theorem meteredBody_of_code (h : meterModule table m.toModule = .success marked)
    (hm : m.toModule.Meterable) {index : UInt32} {body : Metered}
    (hbody : marked.code id index = some body) : MeteredBody table 0 body := by
  rw [Module.code_eq] at hbody
  split at hbody
  · have hrel := rel_bodies h (index.toNat - (positions .func marked.imports).length)
    simp only [id] at hbody
    rw [hbody] at hrel
    generalize (m.funcs[index.toNat - (positions .func marked.imports).length]?).map
      (fun func => func.exprs.plain) = o at hrel
    cases hrel with
    | some hfrom => exact (meters_of_meteredFrom hm hfrom).1
  · cases hbody

/-- `outOfGas` has no body in the output, and a machine does not return from it. -/
theorem gasFunction_marked (h : meterModule table m.toModule = .success marked)
    (himports : ∀ x ∈ m.imports, x.desc.kind = .func) :
    marked.IsImport (marked.funcEntity (importsInfo m.toModule).gasFuncIndex) .func
        OUT_OF_GAS_NAME ∧
      marked.code id (importsInfo m.toModule).gasFuncIndex = none := by
  have himport := (isImport_gasFunc_iff h).mpr fun x hx => himports x (List.mem_of_mem_take hx)
  refine ⟨himport, ?_⟩
  obtain ⟨n, x, hn, _⟩ := himport
  rw [Module.code, hn]

theorem links_of_runsMetered {host : WasmHost ρ}
    (h : meterModule table m.toModule = .success marked)
    (himports : ∀ x ∈ m.imports, x.desc.kind = .func)
    (hhost : host.RunsMetered (marked.mapBodies (Metered.emit (importsInfo m.toModule)))) :
    host.Links (importsInfo m.toModule) where
  exec := by
    rw [globalGasIndex_importsInfo]
    exact hhost.exec
  outOfGas := by
    refine hhost.outOfGas _ ?_
    obtain ⟨n, x, hn, hx⟩ := (gasFunction_marked h himports).1
    refine ⟨n, x, ?_, hx⟩
    unfold Module.funcEntity Module.mapBodies
    rw [List.length_map]
    exact hn

/-- What the injector makes of a contract is metered code. -/
theorem meteredRun_marked (defined : UInt8 → Bool) {host : WasmHost ρ} {bound : Nat}
    (h : meterModule (GetInstructionTable defined) m.toModule = .success marked)
    (hm : m.toModule.Meterable) (hfrugal : host.Frugal 0) (hbound : bound < 2 ^ 63) :
    host.MeteredRun (GetInstructionTable defined) (importsInfo m.toModule).globalGasIndex
      (marked.code id) bound := by
  rw [globalGasIndex_importsInfo]
  exact ⟨fun _ => cost_pos_of_endsSegment defined, hfrugal,
    fun _ _ => meteredBody_of_code h hm, hbound⟩

/-- A call of a function is ready to run. -/
theorem ready_call {gas : UInt32} (index : UInt32) {s : WasmStore ρ} {bound : Nat}
    (hs : s.GasAtMost gas bound) :
    Ready table gas bound ⟨.instr (.call index) .nil, [], s⟩ where
  paid := ⟨⟨fun _ => rfl, trivial⟩, fun _ hk => absurd hk List.not_mem_nil⟩
  within := ⟨⟨rfl, List.not_mem_nil, trivial⟩, .nil, rfl, hs⟩

theorem related_call {info : ImportsInfo} {R : WasmStore ρ → WasmStore ρ → Prop} (index : UInt32)
    {s s' : WasmStore ρ} (hR : R s s') : Related (reindexing info) (Meters info) R
      ⟨.instr (.call index) .nil, [], s⟩
      ⟨.instr (.call (shiftCall info index)) .nil, [], s'⟩ where
  cur := ⟨.instr (.call index) .nil, rfl, rfl, List.not_mem_nil, trivial⟩
  controls := .nil
  store := hR

end

end BcosExecutor
