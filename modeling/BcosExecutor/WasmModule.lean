import BcosExecutor.Metered
import BcosExecutor.ExceptRuns

namespace BcosExecutor

open ExceptRuns

inductive ExternalKind
  | func | table | memory | global | event
  deriving DecidableEq

inductive ImportDesc
  | func (typeVar : Nat)
  | table
  | memory
  | global (type : ValType) (mutable : Bool)
  | event
  deriving DecidableEq

def ImportDesc.kind : ImportDesc → ExternalKind
  | func _ => .func
  | table => .table
  | memory => .memory
  | global _ _ => .global
  | event => .event

structure Import where
  moduleName : String
  fieldName : String
  desc : ImportDesc
  deriving DecidableEq

/-- A defined function; the imported ones have no expressions. -/
structure Func (β : Type) where
  typeVar : Nat
  localTypes : List ValType
  exprs : β
  deriving DecidableEq

structure Global where
  type : ValType
  mutable : Bool
  initExpr : ExprList
  deriving DecidableEq

structure Limits where
  initial : Nat
  max : Nat
  hasMax : Bool
  deriving DecidableEq

structure Export where
  name : String
  kind : ExternalKind
  var : UInt32
  deriving DecidableEq

inductive ElemExpr
  | refFunc (var : UInt32)
  | refNull
  deriving DecidableEq

structure ElemSegment where
  offset : ExprList
  elemExprs : List ElemExpr
  deriving DecidableEq

/-- The IR of a module: `funcs` and `globals` are the definitions, `imports` the imports of all
kinds, `memories` the imported and the defined ones. A type that is not a function type is
`none`; of a data segment only the offset matters here. -/
structure Module (β : Type) where
  types : List (Option FuncSignature)
  imports : List Import
  funcs : List (Func β)
  globals : List Global
  memories : List Limits
  exports : List Export
  elemSegments : List ElemSegment
  dataOffsets : List ExprList
  starts : List UInt32
  deriving DecidableEq

/-- The reader fills the index spaces from sections of at most `2^32 - 1` bytes. An import takes
four of them and a function body or a global at least three. -/
structure ReadModule extends Module ExprList where
  funcs_bounded : imports.length + funcs.length < 2 ^ 32 - 1
  globals_bounded : imports.length + globals.length < 2 ^ 32 - 1

/-- `undefined` is the access to the first memory of a module without memories. -/
inductive InjectResult (β : Type)
  | success (m : Module β)
  | forbiddenOpcode
  | undefined
  deriving DecidableEq

namespace GasInjector

def MODULE_NAME := "bcos"
def OUT_OF_GAS_NAME := "outOfGas"
def GLOBAL_GAS_NAME := "gas"

def WASM_MEMORY_PAGES_INIT := 16
def WASM_MEMORY_PAGES_MAX := 1024

def isOutOfGas (imp : Import) : Bool :=
  imp.desc.kind = .func && imp.moduleName = MODULE_NAME && imp.fieldName = OUT_OF_GAS_NAME

/-- The position in `module.imports` of the last import of `outOfGas`. -/
def findOutOfGas (imports : List Import) : Option Nat :=
  imports.zipIdx.foldl (fun found (imp, i) => if isOutOfGas imp then some i else found) none

/-- The last type without parameters and results. -/
def findSignature (types : List (Option FuncSignature)) : Option Nat :=
  types.zipIdx.foldl (fun found (type, i) => if type = some ⟨[], []⟩ then some i else found) none

def shiftExport (exportItem : Export) : Export :=
  if exportItem.kind = .func then { exportItem with var := exportItem.var + 1 } else exportItem

def shiftElem (outOfGasIndex : UInt32) : ElemExpr → ElemExpr
  | .refFunc var => .refFunc (if outOfGasIndex ≤ var then var + 1 else var)
  | .refNull => .refNull

/-- The types with the one of `outOfGas`, and its index. -/
def gasSignature (types : List (Option FuncSignature)) : List (Option FuncSignature) × Nat :=
  match findSignature types with
  | some i => (types, i)
  | none => (types ++ [some ⟨[], []⟩], types.length)

/-- The module with the import of `outOfGas`; its index is the number of imports before. -/
def addOutOfGas {β : Type} (m : Module β) : Module β :=
  let outOfGasIndex := UInt32.ofNat m.imports.length
  { m with
    types := (gasSignature m.types).1
    imports := m.imports ++
      [⟨MODULE_NAME, OUT_OF_GAS_NAME, .func (gasSignature m.types).2⟩]
    exports := m.exports.map shiftExport
    elemSegments := m.elemSegments.map fun elem =>
      ⟨elem.offset, elem.elemExprs.map (shiftElem outOfGasIndex)⟩ }

def addGlobalGas {β : Type} (m : Module β) : Module β :=
  { m with imports := m.imports ++ [⟨MODULE_NAME, GLOBAL_GAS_NAME, .global .i64 true⟩] }

def limitMemory (memory : Limits) : Limits :=
  { initial := if memory.initial < WASM_MEMORY_PAGES_INIT then WASM_MEMORY_PAGES_INIT
      else memory.initial
    max := WASM_MEMORY_PAGES_MAX
    hasMax := true }

def importsInfo {β : Type} (m : Module β) : ImportsInfo :=
  let originImportSize := UInt32.ofNat m.imports.length
  match findOutOfGas m.imports with
  | some i => ⟨true, UInt32.ofNat i, 0, originImportSize⟩
  | none => ⟨false, originImportSize, 0, originImportSize⟩

/-- Functions without expressions are left alone; the others get a local for memory gas. -/
def injectFunc {β : Type} (inject : ExprList → Except InvalidInstruction β) (func : Func ExprList) :
    Except InvalidInstruction (Func β) := do
  let exprs ← inject func.exprs
  let localTypes := if func.exprs = .nil then func.localTypes else func.localTypes ++ [.i32]
  .ok ⟨func.typeVar, localTypes, exprs⟩

/-- `InjectMeter` between the reader and the writer, for a way to inject one body. -/
def injectModule {β : Type} (inject : ImportsInfo → ExprList → Except InvalidInstruction β)
    (m : Module ExprList) : InjectResult β :=
  let info := importsInfo m
  let m := addGlobalGas (if info.foundGasFunction then m else addOutOfGas m)
  match m.memories with
  | [] => .undefined
  | memory :: memories =>
    match m.funcs.mapM (injectFunc (inject info)) with
    | .error _ => .forbiddenOpcode
    | .ok funcs => .success { m with
        memories := limitMemory memory :: memories
        funcs := funcs }

def injectMeter (table : InstructionTable) (m : Module ExprList) : InjectResult ExprList :=
  injectModule (injectMeterExprList table) m

/-- The output with the inserted gas logic marked. -/
def meterModule (table : InstructionTable) (m : Module ExprList) : InjectResult Metered :=
  injectModule (meter table) m

end GasInjector

def Module.mapBodies {β γ : Type} (f : β → γ) (m : Module β) : Module γ :=
  { m with funcs := m.funcs.map fun func => ⟨func.typeVar, func.localTypes, f func.exprs⟩ }

def InjectResult.map {β γ : Type} (f : Module β → Module γ) : InjectResult β → InjectResult γ
  | success m => success (f m)
  | forbiddenOpcode => forbiddenOpcode
  | undefined => undefined

namespace GasInjector

theorem injectFunc_map {β γ : Type} (f : β → γ) (inject : ExprList → Except InvalidInstruction β)
    (func : Func ExprList) : injectFunc (fun l => (inject l).map f) func =
      (injectFunc inject func).map fun func => ⟨func.typeVar, func.localTypes, f func.exprs⟩ := by
  simp only [injectFunc]
  cases inject func.exprs <;> rfl

/-- The output is the marked module with the inserted instructions written out. -/
theorem injectMeter_eq (table : InstructionTable) (m : Module ExprList) :
    injectMeter table m =
      (meterModule table m).map (Module.mapBodies (Metered.emit (importsInfo m))) := by
  have hinject : injectMeterExprList table (importsInfo m) =
      fun l => (meter table (importsInfo m) l).map (Metered.emit (importsInfo m)) :=
    funext fun l => injectMeterExprList_eq table (importsInfo m) l
  have hfunc := funext (injectFunc_map (Metered.emit (importsInfo m))
    (meter table (importsInfo m)))
  unfold injectMeter meterModule injectModule
  simp only [hinject, hfunc, mapM_map]
  split
  · rfl
  · cases List.mapM (injectFunc (meter table (importsInfo m))) _ <;> rfl

theorem meterModule_of_injectMeter {table : InstructionTable} {m out : Module ExprList}
    (h : injectMeter table m = .success out) :
    ∃ marked, meterModule table m = .success marked ∧
      out = marked.mapBodies (Metered.emit (importsInfo m)) := by
  rw [injectMeter_eq] at h
  cases hm : meterModule table m with
  | forbiddenOpcode => rw [hm] at h; cases h
  | undefined => rw [hm] at h; cases h
  | success marked =>
    rw [hm] at h
    cases h
    exact ⟨marked, rfl, rfl⟩

end GasInjector

end BcosExecutor
