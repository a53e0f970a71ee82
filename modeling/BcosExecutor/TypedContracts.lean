import BcosExecutor.FloatFree
import BcosExecutor.MeterPays

namespace BcosExecutor

open GasInjector ExceptRuns

/-- What the code of a function is validated against; a function has the index of its type. -/
structure CodeContext where
  types : List (Option FuncSignature)
  funcs : List Nat
  globals : List (ValType × Bool)
  locals : List ValType
  results : List ValType
  tables : UInt32 → Prop
  memory : Prop

namespace Instr

def opcode : Instr → Option Opcode
  | binary op | compare op | convert op | unary op | load op _ _ | store op _ _ => some op
  | _ => none

/-- Loads, stores and the two that ask for pages. -/
def needsMemory : Instr → Bool
  | load _ _ _ | store _ _ _ | memorySize | memoryGrow => true
  | _ => false

/-- The typing rules of WebAssembly, with the operand stacks before and after from the top down and
the label types from the inside out. -/
inductive HasType (C : CodeContext) (labels : List (List ValType)) :
    Instr → List ValType → List ValType → Prop
  | numeric {i op sig} : i.opcode = some op → op.signature = some sig →
      (i.needsMemory = true → C.memory) →
      HasType C labels i sig.paramTypes.reverse sig.resultTypes.reverse
  | const {type value} : type ∈ [ValType.i32, .i64, .f32, .f64] →
      HasType C labels (.const type value) [] [type]
  | drop {t} : HasType C labels .drop [t] []
  | nop : HasType C labels .nop [] []
  | select {t} : t ∈ [ValType.i32, .i64, .f32, .f64] →
      HasType C labels .select [.i32, t, t] [t]
  | unreachable {ts us} : HasType C labels .unreachable ts us
  | memorySize : C.memory → HasType C labels .memorySize [] [.i32]
  | memoryGrow : C.memory → HasType C labels .memoryGrow [.i32] [.i32]
  | «return» {ts us} : HasType C labels .return (C.results.reverse ++ ts) us
  | br {label ls ts us} : labels[label]? = some ls →
      HasType C labels (.br label) (ls.reverse ++ ts) us
  | brIf {label ls} : labels[label]? = some ls →
      HasType C labels (.brIf label) (.i32 :: ls.reverse) ls.reverse
  | brTable {targets label ls ts us} : (∀ l ∈ label :: targets, labels[l]? = some ls) →
      HasType C labels (.brTable targets label) (.i32 :: ls.reverse ++ ts) us
  | call {index type sig} : C.funcs[index.toNat]? = some type →
      C.types[type]? = some (some sig) →
      HasType C labels (.call index) sig.paramTypes.reverse sig.resultTypes.reverse
  | callIndirect {type table sig} : C.types[type.toNat]? = some (some sig) → C.tables table →
      HasType C labels (.callIndirect type table) (.i32 :: sig.paramTypes.reverse)
        sig.resultTypes.reverse
  | globalGet {index t mutable} : C.globals[index.toNat]? = some (t, mutable) →
      HasType C labels (.globalGet index) [] [t]
  | globalSet {index t} : C.globals[index.toNat]? = some (t, true) →
      HasType C labels (.globalSet index) [t] []
  | localGet {index t} : C.locals[index.toNat]? = some t →
      HasType C labels (.localGet index) [] [t]
  | localSet {index t} : C.locals[index.toNat]? = some t →
      HasType C labels (.localSet index) [t] []
  | localTee {index t} : C.locals[index.toNat]? = some t →
      HasType C labels (.localTee index) [t] [t]

end Instr

namespace ExprList

/-- A branch to a block finds its results on the stack, a branch to a loop its parameters. -/
inductive HasType (C : CodeContext) : List (List ValType) → ExprList →
    List ValType → List ValType → Prop
  | nil {labels ts} : HasType C labels .nil ts ts
  | instr {labels i rest ps rs ts us} : i.HasType C labels ps rs →
      HasType C labels rest (rs ++ ts) us → HasType C labels (.instr i rest) (ps ++ ts) us
  | block {labels sig body rest ts us} :
      HasType C (sig.resultTypes :: labels) body sig.paramTypes.reverse sig.resultTypes.reverse →
      HasType C labels rest (sig.resultTypes.reverse ++ ts) us →
      HasType C labels (.block sig body rest) (sig.paramTypes.reverse ++ ts) us
  | loop {labels sig body rest ts us} :
      HasType C (sig.paramTypes :: labels) body sig.paramTypes.reverse sig.resultTypes.reverse →
      HasType C labels rest (sig.resultTypes.reverse ++ ts) us →
      HasType C labels (.loop sig body rest) (sig.paramTypes.reverse ++ ts) us
  | ifElse {labels sig true_ false_ rest ts us} :
      HasType C (sig.resultTypes :: labels) true_ sig.paramTypes.reverse sig.resultTypes.reverse →
      HasType C (sig.resultTypes :: labels) false_ sig.paramTypes.reverse
        sig.resultTypes.reverse →
      HasType C labels rest (sig.resultTypes.reverse ++ ts) us →
      HasType C labels (.ifElse sig true_ false_ rest) (.i32 :: sig.paramTypes.reverse ++ ts) us

theorem HasType.push {C : CodeContext} {labels : List (List ValType)} {i : Instr}
    {rest : ExprList} {t : ValType} {ts us : List ValType} (hi : i.HasType C labels [] [t])
    (hrest : rest.HasType C labels (t :: ts) us) : (ExprList.instr i rest).HasType C labels ts us :=
  @HasType.instr C labels i rest [] [t] ts us hi hrest

theorem HasType.append {C : CodeContext} {labels : List (List ValType)} {l r : ExprList}
    {ts us vs : List ValType} (hl : l.HasType C labels ts us) (hr : r.HasType C labels us vs) :
    (l ++ r).HasType C labels ts vs := by
  induction hl with
  | nil => exact hr
  | instr hi _ ih => exact .instr hi (ih hr)
  | block hbody _ _ ih => exact .block hbody (ih hr)
  | loop hbody _ _ ih => exact .loop hbody (ih hr)
  | ifElse htrue hfalse _ _ _ ih => exact .ifElse htrue hfalse (ih hr)

end ExprList

/-- What an injected instruction finds in the output is what the original one finds. -/
structure CodeContext.Extends (info : ImportsInfo) (C C' : CodeContext) : Prop where
  types : ∀ (i : Nat) sig, C.types[i]? = some sig → C'.types[i]? = some sig
  funcs : ∀ (i : UInt32) type, C.funcs[i.toNat]? = some type →
    C'.funcs[(shiftCall info i).toNat]? = some type
  globals : ∀ (i : UInt32) g, C.globals[i.toNat]? = some g → C'.globals[(i + 1).toNat]? = some g
  locals : ∀ (i : Nat) t, C.locals[i]? = some t → C'.locals[i]? = some t
  results : C'.results = C.results
  tables : C'.tables = C.tables
  memory : C'.memory = C.memory

section

variable {info : ImportsInfo} {C C' : CodeContext} {labels : List (List ValType)}

theorem Instr.opcode_reindex (i : Instr) : (i.reindex info).opcode = i.opcode := by
  cases i <;> rfl

theorem Instr.needsMemory_reindex (i : Instr) :
    (i.reindex info).needsMemory = i.needsMemory := by
  cases i <;> rfl

theorem Instr.HasType.reindex {i : Instr} {ts us : List ValType} (h : i.HasType C labels ts us)
    (hext : C.Extends info C') : (i.reindex info).HasType C' labels ts us := by
  have hmem := hext.memory
  cases h with
  | numeric hop hsig hneeds =>
    refine .numeric ((opcode_reindex i).trans hop) hsig fun hi => ?_
    rw [hmem]
    exact hneeds ((needsMemory_reindex i).symm.trans hi)
  | const htype => exact .const htype
  | drop => exact .drop
  | nop => exact .nop
  | select htype => exact .select htype
  | unreachable => exact .unreachable
  | memorySize hm => exact .memorySize (hmem ▸ hm)
  | memoryGrow hm => exact .memoryGrow (hmem ▸ hm)
  | «return» => exact hext.results ▸ .return
  | br hl => exact .br hl
  | brIf hl => exact .brIf hl
  | brTable hl => exact .brTable hl
  | call htype hsig => exact .call (hext.funcs _ _ htype) (hext.types _ _ hsig)
  | callIndirect hsig htable =>
    exact .callIndirect (hext.types _ _ hsig) (by rw [hext.tables]; exact htable)
  | globalGet hg => exact .globalGet (hext.globals _ _ hg)
  | globalSet hg => exact .globalSet (hext.globals _ _ hg)
  | localGet hl => exact .localGet (hext.locals _ _ hl)
  | localSet hl => exact .localSet (hext.locals _ _ hl)
  | localTee hl => exact .localTee (hext.locals _ _ hl)

theorem ExprList.HasType.reindex {l : ExprList} {ts us : List ValType}
    (h : l.HasType C labels ts us) (hext : C.Extends info C') :
    (l.reindex info).HasType C' labels ts us := by
  induction h with
  | nil => exact .nil
  | instr hi _ ih => exact .instr (hi.reindex hext) ih
  | block _ _ ihb ih => exact .block ihb ih
  | loop _ _ ihb ih => exact .loop ihb ih
  | ifElse _ _ _ iht ihf ih => exact .ifElse iht ihf ih

theorem I64Sub_hasType : (Instr.binary I64Sub).HasType C labels [.i64, .i64] [.i64] :=
  have hsig : I64Sub.signature = some ⟨[.i64, .i64], [.i64]⟩ := by decide
  .numeric rfl hsig nofun

theorem I64LeS_hasType : (Instr.binary I64LeS).HasType C labels [.i64, .i64] [.i32] :=
  have hsig : I64LeS.signature = some ⟨[.i64, .i64], [.i32]⟩ := by decide
  .numeric rfl hsig nofun

/-- The gas logic leaves every stack as it is. -/
theorem useGas_hasType {type : Nat} (hfunc : C.funcs[info.gasFuncIndex.toNat]? = some type)
    (htype : C.types[type]? = some (some ⟨[], []⟩))
    (hglobal : C.globals[info.globalGasIndex.toNat]? = some (.i64, true)) (gas : Nat)
    (ts : List ValType) : (useGas info gas).HasType C labels ts ts := by
  have hget : (Instr.globalGet info.globalGasIndex).HasType C labels [] [.i64] :=
    .globalGet hglobal
  have hset : (Instr.globalSet info.globalGasIndex).HasType C labels [.i64] [] :=
    .globalSet hglobal
  have hconst (value : Nat) : (Instr.const .i64 value).HasType C labels [] [.i64] :=
    .const (by simp)
  have hcall : (Instr.call info.gasFuncIndex).HasType C ([] :: labels) [] [] := .call hfunc htype
  have hcheck : ExprList.HasType C labels (.instr (.globalGet info.globalGasIndex)
      (.instr (.const .i64 0) (.instr (.binary I64LeS)
        (.ifElse ⟨[], []⟩ (.instr (.call info.gasFuncIndex) .nil) .nil .nil)))) ts ts :=
    .push hget (.push (hconst 0) (.instr I64LeS_hasType (.ifElse (.instr hcall .nil) .nil .nil)))
  exact .push hget (.push (hconst gas) (.instr I64Sub_hasType (.instr hset hcheck)))

/-- Charges can stand anywhere in typed code. -/
theorem Metered.emit_hasType (hcharge : ∀ labels gas ts, (useGas info gas).HasType C labels ts ts)
    (m : Metered) {ts us : List ValType} (h : m.original.HasType C labels ts us) :
    (m.emit info).HasType C labels ts us := by
  induction m generalizing labels ts us with
  | nil => exact h
  | charge gas rest ih => exact (hcharge labels gas ts).append (ih h)
  | instr i rest ih =>
    cases h with
    | instr hi hrest => exact .instr hi (ih hrest)
  | block sig body rest ihb ih =>
    cases h with
    | block hbody hrest => exact .block (ihb hbody) (ih hrest)
  | loop sig body rest ihb ih =>
    cases h with
    | loop hbody hrest => exact .loop (ihb hbody) (ih hrest)
  | ifElse sig true_ false_ rest iht ihf ih =>
    cases h with
    | ifElse htrue hfalse hrest => exact .ifElse (iht htrue) (ihf hfalse) (ih hrest)

end

def ImportDesc.typeVar : ImportDesc → Option Nat
  | func typeVar => some typeVar
  | _ => none

def ImportDesc.globalType : ImportDesc → Option (ValType × Bool)
  | global type mutable => some (type, mutable)
  | _ => none

@[simp] theorem ImportDesc.typeVar_func (type : Nat) : (func type).typeVar = some type := rfl

@[simp] theorem ImportDesc.typeVar_global (type : ValType) (mutable : Bool) :
    (global type mutable).typeVar = none := rfl

@[simp] theorem ImportDesc.globalType_func (type : Nat) : (func type).globalType = none := rfl

@[simp] theorem ImportDesc.globalType_global (type : ValType) (mutable : Bool) :
    (global type mutable).globalType = some (type, mutable) := rfl

namespace Module

variable {β : Type} (m : Module β)

/-- The types of the functions, the imported ones first. -/
def funcVars : List Nat :=
  m.imports.filterMap (fun x => x.desc.typeVar) ++ m.funcs.map Func.typeVar

def globalTypes : List (ValType × Bool) :=
  m.imports.filterMap (fun x => x.desc.globalType) ++ m.globals.map fun g => (g.type, g.mutable)

def context (tables : UInt32 → Prop) (func : Func β) (sig : FuncSignature) : CodeContext where
  types := m.types
  funcs := m.funcVars
  globals := m.globalTypes
  locals := sig.paramTypes ++ func.localTypes
  results := sig.resultTypes
  tables := tables
  memory := m.memories ≠ []

/-- The body of every function has the type of the function. The tables are not part of the IR
that the injector looks at. -/
def WellTyped (tables : UInt32 → Prop) (m : Module ExprList) : Prop :=
  ∀ func ∈ m.funcs, ∃ sig, m.types[func.typeVar]? = some (some sig) ∧
    func.exprs.HasType (m.context tables func sig) [sig.resultTypes] [] sig.resultTypes.reverse

end Module

theorem findSignature_concat (types : List (Option FuncSignature)) (type : Option FuncSignature) :
    findSignature (types ++ [type]) =
      if type = some ⟨[], []⟩ then some types.length else findSignature types := by
  simp [findSignature, List.zipIdx_append]

theorem findSignature_spec {types : List (Option FuncSignature)} {k : Nat}
    (h : findSignature types = some k) : types[k]? = some (some ⟨[], []⟩) := by
  induction types using List.reverseRecOn with
  | nil => cases h
  | append_singleton types type ih =>
    rw [findSignature_concat] at h
    split at h
    next htype =>
      cases h
      rw [List.getElem?_concat_length, htype]
    next htype =>
      have hk := ih h
      rw [List.getElem?_append_left (List.getElem?_eq_some_iff.mp hk).1, hk]

theorem gasSignature_spec (types : List (Option FuncSignature)) :
    (∀ (i : Nat) sig, types[i]? = some sig → (gasSignature types).1[i]? = some sig) ∧
      (gasSignature types).1[(gasSignature types).2]? = some (some ⟨[], []⟩) := by
  unfold gasSignature
  cases h : findSignature types with
  | some k => exact ⟨fun _ _ hi => hi, findSignature_spec h⟩
  | none =>
    refine ⟨fun i sig hi => ?_, List.getElem?_concat_length⟩
    exact (List.getElem?_append_left (List.getElem?_eq_some_iff.mp hi).1).trans hi

section

variable {m : ReadModule}

/-- The import of `outOfGas`, if the module has one, has the type that it is called with. -/
def Module.GasTyped {β : Type} (m : Module β) : Prop :=
  ∀ x ∈ m.imports, isOutOfGas x = true → ∀ type, x.desc.typeVar = some type →
    m.types[type]? = some (some ⟨[], []⟩)

theorem exists_typeVar {x : Import} (h : x.desc.kind = .func) : ∃ type, x.desc = .func type := by
  cases hx : x.desc with
  | func type => exact ⟨type, rfl⟩
  | _ => rw [hx] at h; cases h

theorem typeVars_eq {imports : List Import} (h : ∀ x ∈ imports, x.desc.kind = .func) :
    imports.filterMap (fun x => x.desc.typeVar) =
      imports.map fun x => x.desc.typeVar.getD 0 := by
  rw [← List.filterMap_eq_map]
  refine List.filterMap_congr fun x hx => ?_
  obtain ⟨type, htype⟩ := exists_typeVar (h x hx)
  simp only [htype, ImportDesc.typeVar_func, Function.comp_apply, Option.getD_some]

theorem globalTypes_imports_eq {imports : List Import} (h : ∀ x ∈ imports, x.desc.kind = .func) :
    imports.filterMap (fun x => x.desc.globalType) = [] := by
  refine List.filterMap_eq_nil_iff.mpr fun x hx => ?_
  obtain ⟨type, htype⟩ := exists_typeVar (h x hx)
  rw [htype]
  rfl

theorem prepare_types (m : Module ExprList) (i : Nat) (sig : Option FuncSignature)
    (h : m.types[i]? = some sig) : (prepare m).types[i]? = some sig := by
  cases hfound : findOutOfGas m.imports with
  | some k => rw [prepare_some hfound]; exact h
  | none =>
    rw [prepare_none hfound]
    exact (gasSignature_spec m.types).1 i sig h

theorem prepare_globalTypes (himports : ∀ x ∈ m.imports, x.desc.kind = .func) :
    (prepare m.toModule).globalTypes = (.i64, true) :: m.globalTypes := by
  have hnone := globalTypes_imports_eq himports
  cases hfound : findOutOfGas m.imports with
  | some k =>
    rw [prepare_some hfound]
    simp [Module.globalTypes, addGlobalGas, hnone]
  | none =>
    rw [prepare_none hfound]
    simp [Module.globalTypes, addGlobalGas, addOutOfGas, hnone, List.filterMap_cons]

/-- The charges call a function of the type that they need, and the other functions are found where
the calls lead. -/
structure FuncsFollow (info : ImportsInfo) (m out : Module ExprList) : Prop where
  gas : ∃ type, out.funcVars[info.gasFuncIndex.toNat]? = some type ∧
    out.types[type]? = some (some ⟨[], []⟩)
  others : ∀ (i : UInt32) type, m.funcVars[i.toNat]? = some type →
    out.funcVars[(shiftCall info i).toNat]? = some type

theorem prepare_funcVars_some (himports : ∀ x ∈ m.imports, x.desc.kind = .func)
    (hgas : m.toModule.GasTyped) {k : Nat} (hfound : findOutOfGas m.imports = some k) :
    FuncsFollow (importsInfo m.toModule) m.toModule (prepare m.toModule) := by
  obtain ⟨⟨x, hx, hout⟩, _⟩ := findOutOfGas_spec hfound
  obtain ⟨type, htype⟩ := exists_typeVar (himports x (List.mem_of_getElem? hx))
  have hfuncVars : (prepare m.toModule).funcVars = m.funcVars := by
    rw [prepare_some hfound]
    simp [Module.funcVars, addGlobalGas]
  have hk := (List.getElem?_eq_some_iff.mp hx).1
  have hbounded := m.funcs_bounded
  have hindex : (UInt32.ofNat k).toNat = k :=
    UInt32.toNat_ofNat_of_lt' (by rw [UInt32.size]; omega)
  constructor
  · refine ⟨type, ?_, prepare_types _ _ _
      (hgas x (List.mem_of_getElem? hx) hout type (by rw [htype]; rfl))⟩
    rw [hfuncVars, importsInfo, hfound]
    show m.funcVars[(UInt32.ofNat k).toNat]? = some type
    rw [hindex, Module.funcVars, typeVars_eq himports,
      List.getElem?_append_left (by simpa using hk), List.getElem?_map, hx, Option.map_some, htype]
    rfl
  · intro i type hi
    rw [hfuncVars, shiftCall_some hfound]
    exact hi

theorem prepare_funcVars_none (himports : ∀ x ∈ m.imports, x.desc.kind = .func)
    (hfound : findOutOfGas m.imports = none) :
    FuncsFollow (importsInfo m.toModule) m.toModule (prepare m.toModule) := by
  have hvars := typeVars_eq himports
  have hfuncVars : (prepare m.toModule).funcVars =
      m.imports.map (fun x => x.desc.typeVar.getD 0) ++
        (gasSignature m.types).2 :: m.funcs.map Func.typeVar := by
    rw [prepare_none hfound]
    simp [Module.funcVars, addGlobalGas, addOutOfGas, ← hvars]
  have hbounded := m.funcs_bounded
  have hlength : (UInt32.ofNat m.imports.length).toNat = m.imports.length :=
    UInt32.toNat_ofNat_of_lt' (by rw [UInt32.size]; omega)
  constructor
  · refine ⟨(gasSignature m.types).2, ?_, ?_⟩
    · rw [hfuncVars, importsInfo, hfound]
      show (_ ++ _)[(UInt32.ofNat m.imports.length).toNat]? = _
      rw [hlength, List.getElem?_append_right (by simp)]
      simp
    · rw [prepare_none hfound]
      exact (gasSignature_spec m.types).2
  · intro i type hi
    have hlt : i.toNat < m.funcVars.length := (List.getElem?_eq_some_iff.mp hi).1
    rw [Module.funcVars, hvars] at hi hlt
    simp only [List.length_append, List.length_map] at hlt
    rw [hfuncVars, shiftCall_none hfound]
    by_cases hle : m.imports.length ≤ i.toNat
    · rw [if_pos hle, toNat_succ (by omega), List.getElem?_append_right (by simp; omega)]
      rw [List.getElem?_append_right (by simpa using hle)] at hi
      simp only [List.length_map] at hi ⊢
      rw [Nat.sub_add_comm hle, List.getElem?_cons_succ]
      exact hi
    · rw [if_neg hle, List.getElem?_append_left (by simpa using hle)]
      rwa [List.getElem?_append_left (by simpa using hle)] at hi

theorem prepare_funcVars (himports : ∀ x ∈ m.imports, x.desc.kind = .func)
    (hgas : m.toModule.GasTyped) :
    FuncsFollow (importsInfo m.toModule) m.toModule (prepare m.toModule) := by
  cases hfound : findOutOfGas m.imports with
  | some k => exact prepare_funcVars_some himports hgas hfound
  | none => exact prepare_funcVars_none himports hfound

/-- What becomes of one function. -/
structure InjectedFunc (table : InstructionTable) (info : ImportsInfo) (func func' : Func ExprList) :
    Prop where
  typeVar : func'.typeVar = func.typeVar
  locals : ∃ extra, func'.localTypes = func.localTypes ++ extra
  exprs : injectMeterExprList table info func.exprs = .ok func'.exprs

variable {table : InstructionTable} {out : Module ExprList}

theorem injectedFunc_of_ok {info : ImportsInfo} {func func' : Func ExprList}
    (h : injectFunc (injectMeterExprList table info) func = .ok func') :
    InjectedFunc table info func func' := by
  obtain ⟨exprs, hexprs, hfunc⟩ := bind_eq_ok.mp h
  cases hfunc
  refine ⟨rfl, ?_, hexprs⟩
  split
  · exact ⟨[], (List.append_nil _).symm⟩
  · exact ⟨[.i32], rfl⟩

theorem injectMeter_funcs {m : Module ExprList} (h : injectMeter table m = .success out) :
    List.Forall₂ (InjectedFunc table (importsInfo m)) m.funcs out.funcs := by
  obtain ⟨_, _, funcs, _, hf, rfl⟩ := injectModule_success h
  rw [prepare_funcs] at hf
  exact (mapM_ok_forall2 hf).imp fun func func' hfunc => injectedFunc_of_ok hfunc

theorem prepare_memories (m : Module ExprList) : (prepare m).memories = m.memories := by
  unfold prepare
  split <;> rfl

theorem funcVars_injected {m : Module ExprList} (h : injectMeter table m = .success out) :
    out.funcVars = (prepare m).funcVars := by
  have hfuncs := injectMeter_funcs h
  obtain ⟨_, _, funcs, _, _, rfl⟩ := injectModule_success h
  have hvars : funcs.map Func.typeVar = m.funcs.map Func.typeVar := by
    rw [← List.forall₂_eq_eq_eq, List.forall₂_map_left_iff, List.forall₂_map_right_iff]
    exact hfuncs.flip.imp fun func' func hinjected => hinjected.typeVar
  show (prepare m).imports.filterMap _ ++ funcs.map Func.typeVar = _
  rw [hvars, Module.funcVars, prepare_funcs]

/-- A body of the output finds what the body of the module found. -/
theorem extends_injected (h : injectMeter table m.toModule = .success out)
    (himports : ∀ x ∈ m.imports, x.desc.kind = .func) (hgas : m.toModule.GasTyped)
    (tables : UInt32 → Prop) {func func' : Func ExprList}
    (hfunc : InjectedFunc table (importsInfo m.toModule) func func') (sig : FuncSignature) :
    (m.context tables func sig).Extends (importsInfo m.toModule)
      (out.context tables func' sig) := by
  have hfuncs := funcVars_injected h
  obtain ⟨memory, memories, funcs, hmemories, -, rfl⟩ := injectModule_success h
  obtain ⟨extra, hextra⟩ := hfunc.locals
  have hbounded := m.globals_bounded
  refine ⟨prepare_types _, fun i type hi => ?_, fun i g hi => ?_, fun i t hi => ?_, rfl, rfl, ?_⟩
  · exact (congrArg (·[_]?) hfuncs).trans ((prepare_funcVars himports hgas).others i type hi)
  · have hlt : i.toNat < m.globalTypes.length := (List.getElem?_eq_some_iff.mp hi).1
    have hlength : m.globalTypes.length = m.globals.length := by
      simp [Module.globalTypes, globalTypes_imports_eq himports]
    show (prepare m.toModule).globalTypes[(i + 1).toNat]? = some g
    rw [prepare_globalTypes himports, toNat_succ (by omega), List.getElem?_cons_succ]
    exact hi
  · show (sig.paramTypes ++ func'.localTypes)[i]? = some t
    rw [hextra, ← List.append_assoc]
    exact (List.getElem?_append_left (List.getElem?_eq_some_iff.mp hi).1).trans hi
  · rw [prepare_memories] at hmemories
    show (limitMemory memory :: memories ≠ []) = (m.memories ≠ [])
    rw [hmemories]
    simp

/-- The gas logic in a body of the output. -/
theorem useGas_injected (h : injectMeter table m.toModule = .success out)
    (himports : ∀ x ∈ m.imports, x.desc.kind = .func) (hgas : m.toModule.GasTyped)
    (tables : UInt32 → Prop) (func : Func ExprList) (sig : FuncSignature)
    (labels : List (List ValType)) (gas : Nat) (ts : List ValType) :
    (useGas (importsInfo m.toModule) gas).HasType (out.context tables func sig) labels ts ts := by
  have hfuncVars := funcVars_injected h
  have hinfo := globalGasIndex_importsInfo m.toModule
  have hglobals := prepare_globalTypes himports
  obtain ⟨type, hgasFunc, hgasType⟩ := (prepare_funcVars himports hgas).gas
  obtain ⟨_, _, _, _, _, rfl⟩ := injectModule_success h
  refine useGas_hasType ((congrArg (·[_]?) hfuncVars).trans hgasFunc) hgasType ?_ gas ts
  rw [hinfo]
  exact congrArg (·[0]?) hglobals

theorem forall_mem_of_forall2 {α γ : Type} {R : α → γ → Prop} {P : α → Prop} {Q : γ → Prop}
    (hR : ∀ a b, R a b → P a → Q b) {l : List α} {l' : List γ} (h : List.Forall₂ R l l')
    (hl : ∀ a ∈ l, P a) : ∀ b ∈ l', Q b := by
  induction h with
  | nil => nofun
  | cons hab _ ih =>
    obtain ⟨ha, hl⟩ := List.forall_mem_cons.mp hl
    exact List.forall_mem_cons.mpr ⟨hR _ _ hab ha, ih hl⟩

/-- A contract that was well typed is still well typed when it is metered: the charges leave the
operand stack alone, and every updated index is one of the same type. -/
theorem injectMeter_wellTyped (table : InstructionTable) (m : ReadModule) {out : Module ExprList}
    (h : injectMeter table m.toModule = .success out)
    (himports : ∀ x ∈ m.imports, x.desc.kind = .func) (hgas : m.toModule.GasTyped)
    {tables : UInt32 → Prop} (hm : m.toModule.WellTyped tables) : out.WellTyped tables := by
  refine forall_mem_of_forall2 (fun func func' hinjected hfunc => ?_) (injectMeter_funcs h) hm
  obtain ⟨sig, hsig, hbody⟩ := hfunc
  have hextends := extends_injected h himports hgas tables hinjected sig
  have hexprs := hinjected.exprs
  rw [injectMeterExprList_eq] at hexprs
  cases hmeter : meter table (importsInfo m.toModule) func.exprs with
  | error e => rw [hmeter] at hexprs; cases hexprs
  | ok metered =>
    rw [hmeter] at hexprs
    obtain ⟨horiginal, -⟩ := meter_spec hmeter
    refine ⟨sig, ?_, ?_⟩
    · rw [hinjected.typeVar]
      exact hextends.types _ _ hsig
    · rw [← Except.ok.inj hexprs]
      refine Metered.emit_hasType (useGas_injected h himports hgas tables func' sig) metered ?_
      rw [horiginal]
      exact hbody.reindex hextends

end

theorem injectMeter_wellTyped_sub : ∃ out,
    injectMeter (GetInstructionTable fun _ => false) subModule.toModule = .success out ∧
      out.WellTyped fun _ => False := by
  have hsub : subModule.toModule.WellTyped fun _ => False := by
    intro func hfunc
    obtain rfl := List.mem_singleton.mp hfunc
    exact ⟨⟨[], [.i64]⟩, rfl, .push (.const (by simp)) (.push (.const (by simp))
      (.instr I64Sub_hasType .nil))⟩
  exact ⟨_, rfl, injectMeter_wellTyped (GetInstructionTable fun _ => false) subModule rfl
    (fun _ hx => absurd hx List.not_mem_nil) (fun _ hx => absurd hx List.not_mem_nil) hsub⟩

end BcosExecutor
