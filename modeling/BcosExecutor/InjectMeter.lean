import BcosExecutor.InjectedModule

namespace BcosExecutor

open GasInjector

/-- The index behind the imported globals of the module, which the gas counter is given, or one
under which the module imports the counter itself. -/
def Module.DenotesGas (m : Module ExprList) (i : UInt32) : Prop :=
  i.toNat = m.numGlobalImports ∨ m.IsImport (m.globalEntity i) .global GLOBAL_GAS_NAME

theorem toNat_succ {i : UInt32} (h : i.toNat + 1 < 2 ^ 32) : (i + 1).toNat = i.toNat + 1 := by
  rw [UInt32.toNat_add]
  exact Nat.mod_eq_of_lt h

theorem kept_map {old new : UInt32 → Option Entity} {f : UInt32 → UInt32} {l : List UInt32} :
    Kept old new l (l.map f) ↔ ∀ i ∈ l, ∀ e, old i = some e → new (f i) = some e := by
  rw [Kept, List.forall₂_map_right_iff, List.forall₂_same]

theorem kept_self {old new : UInt32 → Option Entity} {l : List UInt32} :
    Kept old new l l ↔ ∀ i ∈ l, ∀ e, old i = some e → new i = some e :=
  List.forall₂_same

section
variable {ps : List Nat} {n defs : Nat}

/-- One more import in an index space, and an index that is left alone. -/
theorem kept_same (l : List UInt32) :
    Kept (fun i => entity ps defs i.toNat) (fun i => entity (ps ++ [n]) defs i.toNat) l l ↔
      ∀ i ∈ l, i.toNat < ps.length + defs → i.toNat < ps.length := by
  simp only [kept_self, entity_same_iff]

theorem entity_succ32_iff (hn : n ∉ ps) (hnodup : ps.Nodup) (hb : ps.length + defs < 2 ^ 32 - 1)
    (i : UInt32) : (∀ e, entity ps defs i.toNat = some e →
        entity (ps ++ [n]) defs (i + 1).toNat = some e) ↔
      (i.toNat < ps.length + defs → ps.length ≤ i.toNat) := by
  by_cases hi : i.toNat < ps.length + defs
  · rw [toNat_succ (by omega), entity_succ_iff hn hnodup]
  · have hnone : entity ps defs i.toNat = none := by
      rw [entity_ge (by omega), if_neg (by omega)]
    simp [hnone, hi]

/-- An index that is shifted from `k` on. -/
theorem kept_shift (hn : n ∉ ps) (hnodup : ps.Nodup) (hb : ps.length + defs < 2 ^ 32 - 1) {k : Nat}
    (hk : ps.length ≤ k) (l : List UInt32) :
    Kept (fun i => entity ps defs i.toNat) (fun i => entity (ps ++ [n]) defs i.toNat) l
        (l.map fun i => if k ≤ i.toNat then i + 1 else i) ↔
      ∀ i ∈ l, i.toNat < ps.length + defs → i.toNat < ps.length ∨ k ≤ i.toNat := by
  rw [kept_map]
  refine forall₂_congr fun i _ => ?_
  by_cases hi : k ≤ i.toNat
  · simp only [hi, if_true, entity_succ32_iff hn hnodup hb, or_true, implies_true, iff_true]
    exact fun _ => Nat.le_trans hk hi
  · simp only [hi, if_false, entity_same_iff, or_false]

theorem kept_succ (hn : n ∉ ps) (hnodup : ps.Nodup) (hb : ps.length + defs < 2 ^ 32 - 1)
    (l : List UInt32) :
    Kept (fun i => entity ps defs i.toNat) (fun i => entity (ps ++ [n]) defs i.toNat) l
        (l.map (· + 1)) ↔
      ∀ i ∈ l, i.toNat < ps.length + defs → ps.length ≤ i.toNat := by
  simp only [kept_map, entity_succ32_iff hn hnodup hb]

end

section
variable {table : InstructionTable} {m : Module ExprList} {out : Module Metered}

theorem importsInfo_found (m : Module ExprList) :
    (importsInfo m).foundGasFunction = (findOutOfGas m.imports).isSome := by
  unfold importsInfo
  cases findOutOfGas m.imports <;> rfl

theorem prepare_some {k : Nat} (h : findOutOfGas m.imports = some k) :
    prepare m = addGlobalGas m := by
  rw [prepare, importsInfo_found, h]
  rfl

theorem prepare_none (h : findOutOfGas m.imports = none) :
    prepare m = addGlobalGas (addOutOfGas m) := by
  rw [prepare, importsInfo_found, h]
  rfl

theorem isOutOfGas_outOfGas (i : Nat) :
    isOutOfGas ⟨MODULE_NAME, OUT_OF_GAS_NAME, .func i⟩ = true :=
  rfl

theorem isOutOfGas_globalGas : isOutOfGas ⟨MODULE_NAME, GLOBAL_GAS_NAME, .global .i64 true⟩ = false :=
  rfl

/-- The last import of `outOfGas` in the output. -/
theorem findOutOfGas_prepare (m : Module ExprList) :
    findOutOfGas (prepare m).imports = some m.gasPosition := by
  unfold Module.gasPosition
  cases h : findOutOfGas m.imports with
  | some k =>
    rw [prepare_some h]
    simp only [addGlobalGas, findOutOfGas_concat, isOutOfGas_globalGas, h]
    rfl
  | none =>
    rw [prepare_none h]
    simp only [addGlobalGas, addOutOfGas, findOutOfGas_concat, isOutOfGas_globalGas,
      isOutOfGas_outOfGas]
    rfl

theorem gasPosition_le (m : Module ExprList) : m.gasPosition ≤ m.imports.length := by
  unfold Module.gasPosition
  cases h : findOutOfGas m.imports with
  | none => exact Nat.le_refl _
  | some k =>
    obtain ⟨⟨x, hx, _⟩, _⟩ := findOutOfGas_spec h
    exact Nat.le_of_lt (List.getElem?_eq_some_iff.mp hx).1

theorem prepare_take (m : Module ExprList) :
    (prepare m).imports.take m.gasPosition = m.imports.take m.gasPosition := by
  have hle := gasPosition_le m
  cases h : findOutOfGas m.imports with
  | some k =>
    rw [prepare_some h]
    exact List.take_append_of_le_length hle
  | none =>
    rw [prepare_none h]
    simp only [addGlobalGas, addOutOfGas, List.append_assoc]
    exact List.take_append_of_le_length hle

theorem prepare_getElem? {n : Nat} (hn : n < m.imports.length) :
    (prepare m).imports[n]? = m.imports[n]? := by
  cases h : findOutOfGas m.imports with
  | some k =>
    rw [prepare_some h]
    exact List.getElem?_append_left hn
  | none =>
    rw [prepare_none h]
    simp only [addGlobalGas, addOutOfGas, List.append_assoc]
    exact List.getElem?_append_left hn

theorem positions_addGlobalGas (kind : ExternalKind) (m : Module ExprList) :
    positions kind (addGlobalGas m).imports =
      positions kind m.imports ++ if kind = .global then [m.imports.length] else [] := by
  simp only [addGlobalGas, positions_concat, ImportDesc.kind, eq_comm]

theorem positions_addOutOfGas (kind : ExternalKind) (m : Module ExprList) :
    positions kind (addOutOfGas m).imports =
      positions kind m.imports ++ if kind = .func then [m.imports.length] else [] := by
  simp only [addOutOfGas, positions_concat, ImportDesc.kind, eq_comm]

theorem positions_func_prepare (m : Module ExprList) : positions .func (prepare m).imports =
    positions .func m.imports ++
      if (findOutOfGas m.imports).isSome then [] else [m.imports.length] := by
  cases h : findOutOfGas m.imports with
  | some k => rw [prepare_some h]; simp [positions_addGlobalGas]
  | none => rw [prepare_none h]; simp [positions_addGlobalGas, positions_addOutOfGas]

/-- The gas counter is the last of the imported globals. -/
theorem positions_global_prepare (m : Module ExprList) : ∃ n, m.imports.length ≤ n ∧
    (prepare m).imports[n]? = some ⟨MODULE_NAME, GLOBAL_GAS_NAME, .global .i64 true⟩ ∧
    positions .global (prepare m).imports = positions .global m.imports ++ [n] := by
  cases h : findOutOfGas m.imports with
  | some k =>
    rw [prepare_some h]
    exact ⟨m.imports.length, Nat.le_refl _, by simp [addGlobalGas],
      by simp [positions_addGlobalGas]⟩
  | none =>
    rw [prepare_none h]
    refine ⟨m.imports.length + 1, by omega, by simp [addGlobalGas, addOutOfGas], ?_⟩
    have hlen : (addOutOfGas m).imports.length = m.imports.length + 1 := by simp [addOutOfGas]
    simp [positions_addGlobalGas, positions_addOutOfGas, hlen]

/-- Only the functions are shifted in the exports. -/
theorem exportsOf_addOutOfGas (kind : ExternalKind) (m : Module ExprList) :
    (addOutOfGas m).exportsOf kind =
      (m.exportsOf kind).map fun v => if kind = .func then v + 1 else v := by
  have hkind (e : Export) : (shiftExport e).kind = e.kind := by unfold shiftExport; split <;> rfl
  change ((m.exports.map shiftExport).filter _).map Export.var = _
  simp only [List.filter_map, List.map_map, Module.exportsOf, Function.comp_def, hkind]
  refine List.map_congr_left fun e he => ?_
  have hmem : e.kind = kind := of_decide_eq_true (List.mem_filter.mp he).2
  unfold shiftExport
  rw [hmem]
  split <;> rfl

theorem exportsOf_func_prepare (m : Module ExprList) : (prepare m).exportsOf .func =
    if (findOutOfGas m.imports).isSome then m.exportsOf .func
      else (m.exportsOf .func).map (· + 1) := by
  cases h : findOutOfGas m.imports with
  | some k => rw [prepare_some h]; rfl
  | none =>
    rw [prepare_none h]
    exact exportsOf_addOutOfGas .func m

theorem exportsOf_global_prepare (m : Module ExprList) :
    (prepare m).exportsOf .global = m.exportsOf .global := by
  cases h : findOutOfGas m.imports with
  | some k => rw [prepare_some h]; rfl
  | none =>
    rw [prepare_none h]
    exact (exportsOf_addOutOfGas .global m).trans (List.map_id _)

theorem elemRefs_prepare (m : Module ExprList) : (prepare m).elemRefs =
    if (findOutOfGas m.imports).isSome then m.elemRefs
      else m.elemRefs.map fun i => if UInt32.ofNat m.imports.length ≤ i then i + 1 else i := by
  cases h : findOutOfGas m.imports with
  | some k => rw [prepare_some h]; rfl
  | none =>
    rw [prepare_none h]
    simp only [Module.elemRefs, addGlobalGas, addOutOfGas, List.flatMap_map, List.flatMap_assoc,
      List.map_flatMap, Option.isSome_none, Bool.false_eq_true, if_false]
    refine List.flatMap_congr fun elem _ => List.flatMap_congr fun e _ => ?_
    cases e <;> rfl

theorem initOperands_prepare (f : Instr → List UInt32) (m : Module ExprList) :
    (prepare m).initOperands f = m.initOperands f := by
  cases h : findOutOfGas m.imports with
  | some k => rw [prepare_some h]; rfl
  | none =>
    rw [prepare_none h]
    simp only [Module.initOperands, addGlobalGas, addOutOfGas, List.map_map, Function.comp_def]

theorem flatMap_eq_of_forall2 {α β γ : Type} {R : α → β → Prop} {g : α → List γ} {g' : β → List γ}
    (hR : ∀ a b, R a b → g' b = g a) {l : List α} {l' : List β} (h : List.Forall₂ R l l') :
    l'.flatMap g' = l.flatMap g := by
  induction h with
  | nil => rfl
  | cons hab _ ih => rw [List.flatMap_cons, List.flatMap_cons, hR _ _ hab, ih]

theorem bodyOperands_marked (h : meterModule table m = .success out) (f : Instr → List UInt32) :
    (out.mapBodies Metered.original).bodyOperands f =
      m.funcs.flatMap fun func => (func.exprs.reindex (importsInfo m)).operands f := by
  simp only [Module.bodyOperands, Module.mapBodies, List.flatMap_map]
  refine flatMap_eq_of_forall2 (fun func func' hmeter => ?_) (meterModule_bodies h)
  rw [(meter_spec hmeter).1]

theorem exists_hasCharge_iff (h : meterModule table m = .success out) :
    (∃ func ∈ out.funcs, func.exprs.HasCharge) ↔ ∃ func ∈ m.funcs, func.exprs.HasCost table := by
  have hbodies := meterModule_bodies h
  generalize m.funcs = funcs at hbodies ⊢
  generalize out.funcs = funcs' at hbodies ⊢
  induction hbodies with
  | nil => simp
  | cons hmeter _ ih => simp only [List.mem_cons, exists_eq_or_imp, ih, hasCharge_meter hmeter]

theorem forall_inserted_iff {info : ImportsInfo} {f : Instr → List UInt32} {index : UInt32}
    (hf : ∀ gas, ∀ j, j ∈ (useGas info gas).operands f ↔ j = index) {funcs : List (Func Metered)}
    {P : UInt32 → Prop} : (∀ func ∈ funcs, ∀ i ∈ func.exprs.inserted info f, P i) ↔
      ((∃ func ∈ funcs, func.exprs.HasCharge) → P index) := by
  simp only [mem_inserted hf]
  constructor
  · rintro hall ⟨func, hfunc, hcharge⟩
    exact hall func hfunc index ⟨hcharge, rfl⟩
  · rintro hP func hfunc i ⟨hcharge, rfl⟩
    exact hP ⟨func, hfunc, hcharge⟩

/-- What the output takes over from the module the bodies are put into. -/
theorem meterModule_output (h : meterModule table m = .success out) :
    out.imports = (prepare m).imports ∧ out.funcs.length = m.funcs.length ∧
      out.globals = m.globals ∧ out.starts = m.starts ∧
      (∀ kind, out.exportsOf kind = (prepare m).exportsOf kind) ∧
      out.elemRefs = (prepare m).elemRefs ∧
      ∀ f, out.initOperands f = (prepare m).initOperands f := by
  have hlen := (meterModule_bodies h).length_eq
  obtain ⟨_, _, funcs, _, _, rfl⟩ := injectModule_success h
  have hglobals : (prepare m).globals = m.globals := by unfold prepare; split <;> rfl
  have hstarts : (prepare m).starts = m.starts := by unfold prepare; split <;> rfl
  exact ⟨rfl, hlen.symm, hglobals, hstarts, fun _ => rfl, rfl, fun _ => rfl⟩

/-- The gas counter stands behind the imported globals. -/
theorem isImport_gas_at_iff (h : meterModule table m = .success out) (i : UInt32) :
    out.IsImport (out.globalEntity i) .global GLOBAL_GAS_NAME ↔ m.DenotesGas i := by
  obtain ⟨himports, _⟩ := meterModule_output h
  obtain ⟨p, hle, hp, hpositions⟩ := positions_global_prepare m
  unfold Module.DenotesGas Module.IsImport Module.globalEntity Module.numGlobalImports
  simp only [himports, hpositions, entity_eq_imported]
  by_cases hi : i.toNat < (positions .global m.imports).length
  · have hne : i.toNat ≠ (positions .global m.imports).length := Nat.ne_of_lt hi
    rw [List.getElem?_append_left hi]
    simp only [hne, false_or]
    refine exists_congr fun n => exists_congr fun x => and_congr_right fun hn => ?_
    rw [prepare_getElem? (positions_lt (List.mem_of_getElem? hn))]
  · have hnone : (positions .global m.imports)[i.toNat]? = none :=
      List.getElem?_eq_none (by omega)
    rw [List.getElem?_append_right (by omega), hnone, List.getElem?_singleton]
    simp only [reduceCtorEq, false_and, exists_false, or_false]
    constructor
    · rintro ⟨n, x, hn, _⟩
      split at hn
      next hsub => omega
      next => cases hn
    · intro heq
      have hsub : i.toNat - (positions .global m.imports).length = 0 := by omega
      exact ⟨p, _, by rw [if_pos hsub], hp, rfl, rfl, rfl⟩

/-- The first global of the output is the gas counter, or a counter the module imports. -/
theorem isImport_gas_iff (h : meterModule table m = .success out) :
    out.IsImport (out.globalEntity 0) .global GLOBAL_GAS_NAME ↔
      ∀ n, (positions .global m.imports).head? = some n → ∃ x, m.imports[n]? = some x ∧
        x.moduleName = MODULE_NAME ∧ x.fieldName = GLOBAL_GAS_NAME := by
  rw [isImport_gas_at_iff h]
  unfold Module.DenotesGas Module.IsImport Module.globalEntity Module.numGlobalImports
  simp only [UInt32.toNat_zero, entity_eq_imported, ← List.head?_eq_getElem?]
  cases hps : positions .global m.imports with
  | nil => simp
  | cons q qs =>
    have hq : (positions .global m.imports)[0]? = some q := by rw [hps]; rfl
    obtain ⟨⟨x, hx, hkind⟩, _⟩ := getElem?_positions.mp hq
    simp [hx, hkind]

/-- The operands on globals are shifted whatever they denote. -/
theorem bodyGlobals_marked (h : meterModule table m = .success out) :
    (out.mapBodies Metered.original).bodyOperands Instr.globalOperand =
      (m.bodyOperands Instr.globalOperand).map (· + 1) := by
  rw [bodyOperands_marked h]
  simp only [operands_globals_reindex, Module.bodyOperands, List.map_flatMap]

end

/-- `outOfGas` is at its position in the index space exactly when all imports before it are
functions. -/
theorem isImport_gasFunc_iff {table : InstructionTable} {m : ReadModule} {out : Module Metered}
    (h : meterModule table m.toModule = .success out) :
    out.IsImport (out.funcEntity (importsInfo m.toModule).gasFuncIndex) .func OUT_OF_GAS_NAME ↔
      ∀ x ∈ m.imports.take m.gasPosition, x.desc.kind = .func := by
  obtain ⟨himports, _⟩ := meterModule_output h
  have hindex : (importsInfo m.toModule).gasFuncIndex.toNat = m.gasPosition := by
    have hle := gasPosition_le m.toModule
    have hbound := m.funcs_bounded
    have hinfo : (importsInfo m.toModule).gasFuncIndex = UInt32.ofNat m.gasPosition := by
      unfold importsInfo Module.gasPosition
      cases findOutOfGas m.imports <;> rfl
    rw [hinfo, UInt32.toNat_ofNat']
    exact Nat.mod_eq_of_lt (by omega)
  rw [Module.IsImport, Module.funcEntity, hindex, himports, ← prepare_take,
    ← isImport_outOfGas_iff (findOutOfGas_prepare m.toModule) out.funcs.length]

theorem shiftCall_some {k : Nat} {m : Module ExprList} (h : findOutOfGas m.imports = some k)
    (i : UInt32) : shiftCall (importsInfo m) i = i := by
  simp [shiftCall, importsInfo_found, h]

theorem shiftCall_none {m : ReadModule} (h : findOutOfGas m.imports = none) (i : UInt32) :
    shiftCall (importsInfo m.toModule) i = if m.imports.length ≤ i.toNat then i + 1 else i := by
  have hinfo : importsInfo m.toModule = ⟨false, UInt32.ofNat m.imports.length, 0,
      UInt32.ofNat m.imports.length⟩ := by rw [importsInfo, h]
  have hbound := m.funcs_bounded
  have hsize : (UInt32.ofNat m.imports.length).toNat = m.imports.length := by
    rw [UInt32.toNat_ofNat']
    exact Nat.mod_eq_of_lt (by omega)
  simp only [shiftCall, hinfo, UInt32.le_iff_toNat_le, hsize, and_true]

section
variable {table : InstructionTable} {m : ReadModule} {out : Module Metered}

theorem bodyCalls_marked (h : meterModule table m.toModule = .success out) :
    (out.mapBodies Metered.original).bodyOperands Instr.callOperand =
      (m.bodyOperands Instr.callOperand).map (shiftCall (importsInfo m.toModule)) := by
  rw [bodyOperands_marked h]
  simp only [operands_calls_reindex, Module.bodyOperands, List.map_flatMap]

theorem positions_length_le (kind : ExternalKind) (imports : List Import) :
    (positions kind imports).length ≤ imports.length := by
  rw [positions_length]
  exact List.countP_le_length

theorem notMem_positions {kind : ExternalKind} {imports : List Import} {n : Nat}
    (h : imports.length ≤ n) : n ∉ positions kind imports := fun hmem => by
  have := positions_lt hmem
  omega

/-- With an `outOfGas` of its own the module keeps its function indices. -/
theorem kept_functions_some (h : meterModule table m.toModule = .success out) {k : Nat}
    (hk : findOutOfGas m.imports = some k) :
    Kept m.funcEntity out.funcEntity (m.bodyOperands Instr.callOperand)
      ((out.mapBodies Metered.original).bodyOperands Instr.callOperand) ∧
    Kept m.funcEntity out.funcEntity m.elemRefs out.elemRefs ∧
    Kept m.funcEntity out.funcEntity (m.exportsOf .func) (out.exportsOf .func) ∧
    Kept m.funcEntity out.funcEntity m.starts out.starts := by
  obtain ⟨himports, hfuncs, _, hstarts, hexports, helems, _⟩ := meterModule_output h
  have hentity : out.funcEntity = m.funcEntity := by
    funext i
    simp [Module.funcEntity, himports, hfuncs, positions_func_prepare, hk]
  have hmap : (m.bodyOperands Instr.callOperand).map (shiftCall (importsInfo m.toModule)) =
      m.bodyOperands Instr.callOperand :=
    (List.map_congr_left fun i _ => shiftCall_some hk i).trans (List.map_id _)
  rw [bodyCalls_marked h, hmap, helems, elemRefs_prepare, hexports, exportsOf_func_prepare, hstarts,
    hentity]
  simp only [hk, Option.isSome_some, if_true, kept_self]
  exact ⟨fun _ _ _ he => he, fun _ _ _ he => he, fun _ _ _ he => he, fun _ _ _ he => he⟩

/-- Without one, only the calls and elements behind all imports, the exports of definitions and
the start at an import go with the shift. -/
theorem kept_functions_none (h : meterModule table m.toModule = .success out)
    (hk : findOutOfGas m.imports = none) :
    (Kept m.funcEntity out.funcEntity (m.bodyOperands Instr.callOperand)
      ((out.mapBodies Metered.original).bodyOperands Instr.callOperand) ↔
      ∀ i ∈ m.bodyOperands Instr.callOperand, i.toNat < m.numFuncImports + m.funcs.length →
        i.toNat < m.numFuncImports ∨ m.imports.length ≤ i.toNat) ∧
    (Kept m.funcEntity out.funcEntity m.elemRefs out.elemRefs ↔
      ∀ i ∈ m.elemRefs, i.toNat < m.numFuncImports + m.funcs.length →
        i.toNat < m.numFuncImports ∨ m.imports.length ≤ i.toNat) ∧
    (Kept m.funcEntity out.funcEntity (m.exportsOf .func) (out.exportsOf .func) ↔
      ∀ i ∈ m.exportsOf .func, i.toNat < m.numFuncImports + m.funcs.length →
        m.numFuncImports ≤ i.toNat) ∧
    (Kept m.funcEntity out.funcEntity m.starts out.starts ↔
      ∀ i ∈ m.starts, i.toNat < m.numFuncImports + m.funcs.length →
        i.toNat < m.numFuncImports) := by
  obtain ⟨himports, hfuncs, _, hstarts, hexports, helems, _⟩ := meterModule_output h
  have hle := positions_length_le .func m.imports
  have hbound := m.funcs_bounded
  have hn : m.imports.length ∉ positions .func m.imports := notMem_positions (Nat.le_refl _)
  have hnodup := positions_nodup .func m.imports
  have hsmall : (positions .func m.imports).length + m.funcs.length < 2 ^ 32 - 1 := by omega
  have hold : m.funcEntity = fun i => entity (positions .func m.imports) m.funcs.length i.toNat :=
    rfl
  have hnew : out.funcEntity = fun i =>
      entity (positions .func m.imports ++ [m.imports.length]) m.funcs.length i.toNat := by
    funext i
    simp [Module.funcEntity, himports, hfuncs, positions_func_prepare, hk]
  have hshift (l : List UInt32) : l.map (shiftCall (importsInfo m.toModule)) =
      l.map fun i => if m.imports.length ≤ i.toNat then i + 1 else i :=
    List.map_congr_left fun i _ => shiftCall_none hk i
  have hsize : (UInt32.ofNat m.imports.length).toNat = m.imports.length := by
    rw [UInt32.toNat_ofNat']
    exact Nat.mod_eq_of_lt (by omega)
  have helem : out.elemRefs = m.elemRefs.map
      fun i => if m.imports.length ≤ i.toNat then i + 1 else i := by
    rw [helems, elemRefs_prepare, hk]
    simp only [Option.isSome_none, Bool.false_eq_true, if_false, UInt32.le_iff_toNat_le, hsize]
  have hexport : out.exportsOf .func = (m.exportsOf .func).map (· + 1) := by
    rw [hexports, exportsOf_func_prepare, hk]
    rfl
  rw [bodyCalls_marked h, hshift, helem, hexport, hstarts, hold, hnew]
  exact ⟨kept_shift hn hnodup hsmall hle _, kept_shift hn hnodup hsmall hle _,
    kept_succ hn hnodup hsmall _, kept_same _⟩

/-- The globals: all operands of instructions are shifted, nothing else is. -/
theorem kept_globals (h : meterModule table m.toModule = .success out) :
    (Kept m.globalEntity out.globalEntity (m.bodyOperands Instr.globalOperand)
      ((out.mapBodies Metered.original).bodyOperands Instr.globalOperand) ↔
      ∀ i ∈ m.bodyOperands Instr.globalOperand, i.toNat < m.numGlobalImports + m.globals.length →
        m.numGlobalImports ≤ i.toNat) ∧
    (Kept m.globalEntity out.globalEntity (m.exportsOf .global) (out.exportsOf .global) ↔
      ∀ i ∈ m.exportsOf .global, i.toNat < m.numGlobalImports + m.globals.length →
        i.toNat < m.numGlobalImports) ∧
    (Kept m.globalEntity out.globalEntity (m.initOperands Instr.globalOperand)
        (out.initOperands Instr.globalOperand) ↔
      ∀ i ∈ m.initOperands Instr.globalOperand, i.toNat < m.numGlobalImports + m.globals.length →
        i.toNat < m.numGlobalImports) := by
  obtain ⟨himports, _, hglobals, _, hexports, _, hinits⟩ := meterModule_output h
  obtain ⟨n, hle, _, hpositions⟩ := positions_global_prepare m.toModule
  have hlength := positions_length_le .global m.imports
  have hbound := m.globals_bounded
  have hn : n ∉ positions .global m.imports := notMem_positions hle
  have hnodup := positions_nodup .global m.imports
  have hsmall : (positions .global m.imports).length + m.globals.length < 2 ^ 32 - 1 := by omega
  have hold : m.globalEntity =
      fun i => entity (positions .global m.imports) m.globals.length i.toNat := rfl
  have hnew : out.globalEntity = fun i =>
      entity (positions .global m.imports ++ [n]) m.globals.length i.toNat := by
    funext i
    simp only [Module.globalEntity, himports, hglobals, hpositions]
  rw [bodyGlobals_marked h, hexports, exportsOf_global_prepare, hinits, initOperands_prepare, hold,
    hnew]
  exact ⟨kept_succ hn hnodup hsmall _, kept_same _, kept_same _⟩

theorem inserted_calls_iff (h : meterModule table m.toModule = .success out) :
    (∀ func ∈ out.funcs, ∀ i ∈ func.exprs.inserted (importsInfo m.toModule) Instr.callOperand,
      out.IsImport (out.funcEntity i) .func OUT_OF_GAS_NAME) ↔
    ((∃ func ∈ m.funcs, func.exprs.HasCost table) →
      ∀ x ∈ m.imports.take m.gasPosition, x.desc.kind = .func) := by
  have hoperand (gas : Nat) (j : UInt32) :
      j ∈ (useGas (importsInfo m.toModule) gas).operands Instr.callOperand ↔
        j = (importsInfo m.toModule).gasFuncIndex := List.mem_singleton
  rw [forall_inserted_iff hoperand, exists_hasCharge_iff h, isImport_gasFunc_iff h]

theorem inserted_globals_iff (h : meterModule table m.toModule = .success out) :
    (∀ func ∈ out.funcs, ∀ i ∈ func.exprs.inserted (importsInfo m.toModule) Instr.globalOperand,
      out.IsImport (out.globalEntity i) .global GLOBAL_GAS_NAME) ↔
    ((∃ func ∈ m.funcs, func.exprs.HasCost table) →
      ∀ n, (positions .global m.imports).head? = some n → ∃ x, m.imports[n]? = some x ∧
        x.moduleName = MODULE_NAME ∧ x.fieldName = GLOBAL_GAS_NAME) := by
  have hzero : (importsInfo m.toModule).globalGasIndex = 0 := by
    unfold importsInfo
    split <;> rfl
  have hoperand (gas : Nat) (j : UInt32) :
      j ∈ (useGas (importsInfo m.toModule) gas).operands Instr.globalOperand ↔ j = 0 := by
    simp [useGas, subAndCheck, ExprList.operands, Instr.globalOperand, hzero]
  rw [forall_inserted_iff hoperand, exists_hasCharge_iff h, isImport_gas_iff h]

theorem sameReferences_iff (h : meterModule table m.toModule = .success out) :
    SameReferences m.toModule out ↔ m.toModule.Injectable table := by
  obtain ⟨hglobals, hexports, hinits⟩ := kept_globals h
  have hcalls := inserted_calls_iff h
  have hgas := inserted_globals_iff h
  have hinit : (∀ i ∈ m.exportsOf .global ++ m.initOperands Instr.globalOperand,
      i.toNat < m.numGlobalImports + m.globals.length → i.toNat < m.numGlobalImports) ↔
      Kept m.globalEntity out.globalEntity (m.exportsOf .global) (out.exportsOf .global) ∧
      Kept m.globalEntity out.globalEntity (m.initOperands Instr.globalOperand)
        (out.initOperands Instr.globalOperand) := by
    rw [hexports, hinits, List.forall_mem_append]
  cases hk : findOutOfGas m.imports with
  | some k =>
    obtain ⟨hc, he, hf, hs⟩ := kept_functions_some h hk
    constructor
    · intro hsame
      exact ⟨by simp [hk], by simp [hk], by simp [hk], hglobals.mp hsame.globals,
        hinit.mpr ⟨hsame.globalExports, hsame.initGlobals⟩, hcalls.mp hsame.insertedCalls,
        hgas.mp hsame.insertedGlobals⟩
    · intro hinj
      obtain ⟨hx, hi⟩ := hinit.mp hinj.initGlobals
      exact ⟨hc, he, hf, hs, hglobals.mpr hinj.globals, hx, hi, hcalls.mpr hinj.gasFunction,
        hgas.mpr hinj.gasGlobal⟩
  | none =>
    obtain ⟨hc, he, hf, hs⟩ := kept_functions_none h hk
    constructor
    · intro hsame
      exact ⟨fun _ => List.forall_mem_append.mpr ⟨hc.mp hsame.calls, he.mp hsame.elems⟩,
        fun _ => hf.mp hsame.funcExports, fun _ => hs.mp hsame.starts, hglobals.mp hsame.globals,
        hinit.mpr ⟨hsame.globalExports, hsame.initGlobals⟩, hcalls.mp hsame.insertedCalls,
        hgas.mp hsame.insertedGlobals⟩
    · intro hinj
      obtain ⟨hx, hi⟩ := hinit.mp hinj.initGlobals
      obtain ⟨hc', he'⟩ := List.forall_mem_append.mp (hinj.calls hk)
      exact ⟨hc.mpr hc', he.mpr he', hf.mpr (hinj.funcExports hk), hs.mpr (hinj.starts hk),
        hglobals.mpr hinj.globals, hx, hi, hcalls.mpr hinj.gasFunction, hgas.mpr hinj.gasGlobal⟩

end

/-- `InjectMeter` keeps the meaning of every reference exactly for the injectable modules. -/
theorem injectMeter_references (table : InstructionTable) (m : ReadModule) {out : Module ExprList}
    (h : injectMeter table m.toModule = .success out) :
    ∃ marked, meterModule table m.toModule = .success marked ∧
      out = marked.mapBodies (Metered.emit (importsInfo m.toModule)) ∧
      (SameReferences m.toModule marked ↔ m.toModule.Injectable table) := by
  obtain ⟨marked, hm, rfl⟩ := meterModule_of_injectMeter h
  exact ⟨marked, hm, rfl, sameReferences_iff hm⟩

/-- A module with a memory and one function that drops a constant. -/
def dropModule (starts : List UInt32) : ReadModule where
  types := [some ⟨[], []⟩]
  imports := []
  funcs := [⟨0, [], .instr (.const .i32 1) (.instr .drop .nil)⟩]
  globals := []
  memories := [⟨1, 0, false⟩]
  exports := [⟨"main", .func, 0⟩]
  elemSegments := []
  dataOffsets := []
  starts := starts
  funcs_bounded := by decide
  globals_bounded := by decide

theorem injectMeter_references_drop : ∃ marked,
    meterModule (GetInstructionTable fun _ => false) (dropModule []).toModule = .success marked ∧
      SameReferences (dropModule []).toModule marked := by
  obtain ⟨out, hout⟩ : ∃ out, injectMeter (GetInstructionTable fun _ => false)
    (dropModule []).toModule = .success out := ⟨_, rfl⟩
  obtain ⟨marked, hm, _, hiff⟩ := injectMeter_references _ (dropModule []) hout
  refine ⟨marked, hm, hiff.mpr ⟨?_, ?_, ?_, ?_, ?_, ?_, ?_⟩⟩ <;>
    simp [dropModule, Module.bodyOperands, ExprList.operands, Instr.callOperand,
      Instr.globalOperand, Module.elemRefs, Module.exportsOf, Module.initOperands,
      Module.numFuncImports, positions]

theorem not_sameReferences_start : ∃ marked,
    meterModule (GetInstructionTable fun _ => false) (dropModule [0]).toModule = .success marked ∧
      ¬ SameReferences (dropModule [0]).toModule marked := by
  refine ⟨_, rfl, fun hsame => ?_⟩
  have hstart := (List.forall₂_cons.mp hsame.starts).1 (.defined 0) (by decide)
  exact absurd hstart (by decide)

end BcosExecutor
