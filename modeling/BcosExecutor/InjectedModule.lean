import BcosExecutor.References

namespace BcosExecutor

open ExceptRuns GasInjector

theorem operands_calls_reindex (info : ImportsInfo) (l : ExprList) :
    (l.reindex info).operands Instr.callOperand =
      (l.operands Instr.callOperand).map (shiftCall info) := by
  induction l with
  | nil => rfl
  | instr i rest ih => cases i <;> simp [ExprList.reindex, ExprList.operands, Instr.callOperand,
      Instr.reindex, ih]
  | block sig body rest ihb ih | loop sig body rest ihb ih =>
    simp [ExprList.reindex, ExprList.operands, ihb, ih]
  | ifElse sig true_ false_ rest iht ihf ih =>
    simp [ExprList.reindex, ExprList.operands, iht, ihf, ih]

theorem operands_globals_reindex (info : ImportsInfo) (l : ExprList) :
    (l.reindex info).operands Instr.globalOperand =
      (l.operands Instr.globalOperand).map (· + 1) := by
  induction l with
  | nil => rfl
  | instr i rest ih => cases i <;> simp [ExprList.reindex, ExprList.operands, Instr.globalOperand,
      Instr.reindex, ih]
  | block sig body rest ihb ih | loop sig body rest ihb ih =>
    simp [ExprList.reindex, ExprList.operands, ihb, ih]
  | ifElse sig true_ false_ rest iht ihf ih =>
    simp [ExprList.reindex, ExprList.operands, iht, ihf, ih]

/-- Some gas logic is inserted. -/
def Metered.HasCharge : Metered → Prop
  | nil => False
  | charge _ _ => True
  | instr _ rest => rest.HasCharge
  | block _ body rest | loop _ body rest => body.HasCharge ∨ rest.HasCharge
  | ifElse _ true_ false_ rest => true_.HasCharge ∨ false_.HasCharge ∨ rest.HasCharge

/-- The inserted operands are those of one piece of gas logic. -/
theorem mem_inserted {info : ImportsInfo} {f : Instr → List UInt32} {index i : UInt32}
    (hf : ∀ gas, ∀ j, j ∈ (useGas info gas).operands f ↔ j = index) (m : Metered) :
    i ∈ m.inserted info f ↔ m.HasCharge ∧ i = index := by
  induction m with
  | nil => simp [Metered.inserted, Metered.HasCharge]
  | charge gas rest ih =>
    simp only [Metered.inserted, Metered.HasCharge, List.mem_append, hf, ih, true_and]
    tauto
  | instr i rest ih => exact ih
  | block sig body rest ihb ih | loop sig body rest ihb ih =>
    simp only [Metered.inserted, Metered.HasCharge, List.mem_append, ihb, ih]
    tauto
  | ifElse sig true_ false_ rest iht ihf ih =>
    simp only [Metered.inserted, Metered.HasCharge, List.mem_append, iht, ihf, ih]
    tauto

theorem hasCharge_openSegment (s : Nat × Metered) :
    (GasInjector.openSegment s).HasCharge ↔ 0 < s.1 ∨ s.2.HasCharge := by
  unfold GasInjector.openSegment
  split
  next h => simp [Metered.HasCharge, h]
  next h => simp [h]

theorem cost_reindex (table : InstructionTable) (info : ImportsInfo) (i : Instr) :
    (i.reindex info).cost table = i.cost table := by
  cases i <;> simp [Instr.reindex, Instr.cost, Instr.code]

/-- Gas logic is inserted exactly when something costs gas. -/
theorem hasCharge_iff {table : InstructionTable} {info : ImportsInfo} {l : ExprList}
    {s : Nat × Metered} (h : meterSegment table info l = .ok s) :
    (GasInjector.openSegment s).HasCharge ↔ l.HasCost table := by
  induction l generalizing s with
  | nil => cases h; simp [GasInjector.openSegment, Metered.HasCharge, ExprList.HasCost]
  | instr i rest ih =>
    obtain ⟨r, hr, h⟩ := bind_eq_ok.mp h
    obtain ⟨s', hs', h⟩ := bind_eq_ok.mp h
    have hrest := ih hs'
    rw [hasCharge_openSegment] at hrest
    rw [visitInstr_spec hr, cost_reindex] at h
    simp only at h
    rw [hasCharge_openSegment]
    split at h
    · cases h
      simp only [Metered.HasCharge, hasCharge_openSegment, ExprList.HasCost, hrest]
    · cases h
      simp only [Metered.HasCharge, ExprList.HasCost, ← hrest, Nat.add_pos_iff_pos_or_pos,
        or_assoc]
  | block sig body rest ihb ih | loop sig body rest ihb ih =>
    obtain ⟨b, hb, h⟩ := bind_eq_ok.mp h
    obtain ⟨s', hs', h⟩ := bind_eq_ok.mp h
    cases h
    simp only [hasCharge_openSegment (0, _), Metered.HasCharge, ExprList.HasCost, ihb hb, ih hs',
      Nat.lt_irrefl, false_or]
  | ifElse sig true_ false_ rest iht ihf ih =>
    obtain ⟨t, ht, h⟩ := bind_eq_ok.mp h
    obtain ⟨f, hf, h⟩ := bind_eq_ok.mp h
    obtain ⟨s', hs', h⟩ := bind_eq_ok.mp h
    cases h
    rw [hasCharge_openSegment]
    simp only [Metered.HasCharge, ExprList.HasCost, iht ht, ihf hf, ih hs']
    by_cases hne : false_ = .nil
    · simp [hne]
    · simp [hne]

theorem hasCharge_meter {table : InstructionTable} {info : ImportsInfo} {l : ExprList}
    {m : Metered} (h : meter table info l = .ok m) : m.HasCharge ↔ l.HasCost table := by
  unfold meter at h
  cases hs : meterSegment table info l with
  | error e => rw [hs] at h; cases h
  | ok s =>
    rw [hs] at h
    cases h
    exact hasCharge_iff hs

theorem findOutOfGas_concat (imports : List Import) (x : Import) :
    findOutOfGas (imports ++ [x]) =
      if isOutOfGas x then some imports.length else findOutOfGas imports := by
  simp [findOutOfGas, List.zipIdx_append]

theorem findOutOfGas_spec {imports : List Import} {k : Nat} (h : findOutOfGas imports = some k) :
    (∃ x, imports[k]? = some x ∧ isOutOfGas x = true) ∧
      ∀ n x, imports[n]? = some x → isOutOfGas x = true → n ≤ k := by
  induction imports using List.reverseRecOn with
  | nil => cases h
  | append_singleton imports y ih =>
    rw [findOutOfGas_concat] at h
    split at h
    next hy =>
      cases h
      refine ⟨⟨y, by simp, hy⟩, fun n x hx _ => ?_⟩
      have := (List.getElem?_eq_some_iff.mp hx).1
      simp only [List.length_append, List.length_singleton] at this
      omega
    next hy =>
      obtain ⟨⟨x, hx, hg⟩, hlast⟩ := ih h
      have hk := (List.getElem?_eq_some_iff.mp hx).1
      refine ⟨⟨x, by rw [List.getElem?_append_left hk, hx], hg⟩, fun n x hx hg => ?_⟩
      by_cases hn : n < imports.length
      · exact hlast n x (by rwa [List.getElem?_append_left hn] at hx) hg
      · have hlt := (List.getElem?_eq_some_iff.mp hx).1
        simp only [List.length_append, List.length_singleton] at hlt
        have heq : n = imports.length := by omega
        subst heq
        rw [List.getElem?_concat_length] at hx
        cases hx
        exact absurd hg hy

theorem entity_eq_imported {ps : List Nat} {defs i n : Nat} :
    entity ps defs i = some (.imported n) ↔ ps[i]? = some n := by
  unfold entity
  cases ps[i]? with
  | none => simp
  | some m => simp

theorem countP_eq_length_take {imports : List Import} {k : Nat} (hk : k ≤ imports.length)
    (p : Import → Bool) :
    (imports.take k).countP p = k ↔ ∀ x ∈ imports.take k, p x = true := by
  have hlen : (imports.take k).length = k := List.length_take_of_le hk
  rw [← List.countP_eq_length, hlen]

/-- The position of `outOfGas` is its index exactly when all imports before it are functions. -/
theorem isImport_outOfGas_iff {imports : List Import} {k : Nat}
    (h : findOutOfGas imports = some k) (defs : Nat) :
    (∃ n x, entity (positions .func imports) defs k = some (.imported n) ∧
        imports[n]? = some x ∧ x.desc.kind = .func ∧ x.moduleName = MODULE_NAME ∧
        x.fieldName = OUT_OF_GAS_NAME) ↔
      ∀ x ∈ imports.take k, x.desc.kind = .func := by
  obtain ⟨⟨x, hx, hg⟩, hlast⟩ := findOutOfGas_spec h
  have hgas (x : Import) : isOutOfGas x = true ↔ x.desc.kind = .func ∧
      x.moduleName = MODULE_NAME ∧ x.fieldName = OUT_OF_GAS_NAME := by
    simp [isOutOfGas, and_assoc]
  have hk : k ≤ imports.length := Nat.le_of_lt (List.getElem?_eq_some_iff.mp hx).1
  have hcount := countP_eq_length_take hk (fun x => x.desc.kind = .func)
  simp only [decide_eq_true_eq] at hcount
  rw [← hcount]
  constructor
  · rintro ⟨n, y, hn, hy, hname⟩
    obtain ⟨_, hcountn⟩ := getElem?_positions.mp (entity_eq_imported.mp hn)
    have hle := hlast n y hy ((hgas y).mpr hname)
    have hcle := List.countP_le_length (p := fun x => x.desc.kind = .func) (l := imports.take n)
    have := List.length_take_le n imports
    have heq : n = k := by omega
    exact heq ▸ hcountn
  · intro hall
    refine ⟨k, x, entity_eq_imported.mpr (getElem?_positions.mpr ⟨⟨x, hx, ?_⟩, hall⟩), hx,
      (hgas x).mp hg⟩
    exact ((hgas x).mp hg).1

/-- The module that the bodies are put into. -/
def prepare (m : Module ExprList) : Module ExprList :=
  addGlobalGas (if (importsInfo m).foundGasFunction then m else addOutOfGas m)

theorem injectModule_success {β : Type}
    {inject : ImportsInfo → ExprList → Except InvalidInstruction β} {m : Module ExprList}
    {out : Module β} (h : injectModule inject m = .success out) :
    ∃ memory memories funcs, (prepare m).memories = memory :: memories ∧
      (prepare m).funcs.mapM (injectFunc (inject (importsInfo m))) = .ok funcs ∧
      out = { prepare m with memories := limitMemory memory :: memories, funcs := funcs } := by
  unfold injectModule at h
  dsimp only at h
  rw [show addGlobalGas (if (importsInfo m).foundGasFunction = true then m else addOutOfGas m) =
    prepare m from rfl] at h
  split at h
  next => cases h
  next memory memories hm =>
    split at h
    next => cases h
    next funcs hf =>
      cases h
      exact ⟨memory, memories, funcs, hm, hf, rfl⟩

theorem prepare_funcs (m : Module ExprList) : (prepare m).funcs = m.funcs := by
  unfold prepare
  split <;> rfl

/-- A body of the output is the metered body of the function at its place. -/
theorem meterModule_bodies {table : InstructionTable} {m : Module ExprList} {out : Module Metered}
    (h : meterModule table m = .success out) :
    List.Forall₂ (fun func func' => meter table (importsInfo m) func.exprs = .ok func'.exprs)
      m.funcs out.funcs := by
  obtain ⟨_, _, funcs, _, hf, rfl⟩ := injectModule_success h
  rw [prepare_funcs] at hf
  refine (mapM_ok_forall2 hf).imp fun func func' hfunc => ?_
  obtain ⟨exprs, hexprs, hfunc⟩ := bind_eq_ok.mp hfunc
  cases hfunc
  exact hexprs

end BcosExecutor
