import BcosExecutor.IndexSpaces
import BcosExecutor.MeterSegments

namespace BcosExecutor

namespace Instr

def callOperand : Instr → List UInt32
  | call index => [index]
  | _ => []

def globalOperand : Instr → List UInt32
  | globalGet index | globalSet index => [index]
  | _ => []

end Instr

/-- The operands of the instructions, in the order of the text. -/
def ExprList.operands (f : Instr → List UInt32) : ExprList → List UInt32
  | nil => []
  | instr i rest => f i ++ rest.operands f
  | block _ body rest | loop _ body rest => body.operands f ++ rest.operands f
  | ifElse _ true_ false_ rest => true_.operands f ++ (false_.operands f ++ rest.operands f)

/-- The operands of the inserted instructions. -/
def Metered.inserted (info : ImportsInfo) (f : Instr → List UInt32) : Metered → List UInt32
  | nil => []
  | charge gas rest => (GasInjector.useGas info gas).operands f ++ rest.inserted info f
  | instr _ rest => rest.inserted info f
  | block _ body rest | loop _ body rest => body.inserted info f ++ rest.inserted info f
  | ifElse _ true_ false_ rest =>
    true_.inserted info f ++ (false_.inserted info f ++ rest.inserted info f)

namespace Module

variable {β : Type}

def funcEntity (m : Module β) (i : UInt32) : Option Entity :=
  entity (positions .func m.imports) m.funcs.length i.toNat

def globalEntity (m : Module β) (i : UInt32) : Option Entity :=
  entity (positions .global m.imports) m.globals.length i.toNat

def bodyOperands (f : Instr → List UInt32) (m : Module ExprList) : List UInt32 :=
  m.funcs.flatMap fun func => func.exprs.operands f

def elemRefs (m : Module β) : List UInt32 :=
  (m.elemSegments.flatMap ElemSegment.elemExprs).flatMap fun
    | .refFunc var => [var]
    | .refNull => []

def exportsOf (kind : ExternalKind) (m : Module β) : List UInt32 :=
  (m.exports.filter fun exportItem => exportItem.kind = kind).map Export.var

/-- The operands in the initialisers of globals and the offsets of segments. -/
def initOperands (f : Instr → List UInt32) (m : Module β) : List UInt32 :=
  ((m.globals.map Global.initExpr ++ m.elemSegments.map ElemSegment.offset) ++
    m.dataOffsets).flatMap (ExprList.operands f)

/-- The index denotes an import of the kind under the name. -/
def IsImport (m : Module β) (e : Option Entity) (kind : ExternalKind) (fieldName : String) : Prop :=
  ∃ n x, e = some (.imported n) ∧ m.imports[n]? = some x ∧ x.desc.kind = kind ∧
    x.moduleName = GasInjector.MODULE_NAME ∧ x.fieldName = fieldName

end Module

/-- References, and what became of them: whatever one denoted, the other denotes. -/
def Kept (old new : UInt32 → Option Entity) : List UInt32 → List UInt32 → Prop :=
  List.Forall₂ fun i i' => ∀ e, old i = some e → new i' = some e

/-- Every reference of the module means the same in the output, and the inserted ones mean the
two imports of the injector. -/
structure SameReferences (m : Module ExprList) (out : Module Metered) : Prop where
  calls : Kept m.funcEntity out.funcEntity (m.bodyOperands Instr.callOperand)
    ((out.mapBodies Metered.original).bodyOperands Instr.callOperand)
  elems : Kept m.funcEntity out.funcEntity m.elemRefs out.elemRefs
  funcExports : Kept m.funcEntity out.funcEntity (m.exportsOf .func) (out.exportsOf .func)
  starts : Kept m.funcEntity out.funcEntity m.starts out.starts
  globals : Kept m.globalEntity out.globalEntity (m.bodyOperands Instr.globalOperand)
    ((out.mapBodies Metered.original).bodyOperands Instr.globalOperand)
  globalExports : Kept m.globalEntity out.globalEntity (m.exportsOf .global) (out.exportsOf .global)
  initGlobals : Kept m.globalEntity out.globalEntity (m.initOperands Instr.globalOperand)
    (out.initOperands Instr.globalOperand)
  insertedCalls : ∀ func ∈ out.funcs,
    ∀ i ∈ func.exprs.inserted (GasInjector.importsInfo m) Instr.callOperand,
      out.IsImport (out.funcEntity i) .func GasInjector.OUT_OF_GAS_NAME
  insertedGlobals : ∀ func ∈ out.funcs,
    ∀ i ∈ func.exprs.inserted (GasInjector.importsInfo m) Instr.globalOperand,
      out.IsImport (out.globalEntity i) .global GasInjector.GLOBAL_GAS_NAME

/-- Some instruction costs something, so that gas logic is inserted. -/
def ExprList.HasCost (table : InstructionTable) : ExprList → Prop
  | nil => False
  | instr i rest => 0 < i.cost table ∨ rest.HasCost table
  | block _ body rest | loop _ body rest => body.HasCost table ∨ rest.HasCost table
  | ifElse _ true_ false_ rest => (false_ ≠ nil ∧ 0 < (table Instruction.Else).toNat) ∨
    true_.HasCost table ∨ false_.HasCost table ∨ rest.HasCost table

namespace Module

def numFuncImports (m : Module ExprList) : Nat :=
  (positions .func m.imports).length

def numGlobalImports (m : Module ExprList) : Nat :=
  (positions .global m.imports).length

/-- The position of the import of `outOfGas`, which a new one gets after all the others. -/
def gasPosition (m : Module ExprList) : Nat :=
  (GasInjector.findOutOfGas m.imports).getD m.imports.length

/-- The modules whose references the injector does not break. A reference that denotes nothing
(its index is too large) is not asked for. -/
structure Injectable (table : InstructionTable) (m : Module ExprList) : Prop where
  calls : GasInjector.findOutOfGas m.imports = none →
    ∀ i ∈ m.bodyOperands Instr.callOperand ++ m.elemRefs,
      i.toNat < m.numFuncImports + m.funcs.length →
      i.toNat < m.numFuncImports ∨ m.imports.length ≤ i.toNat
  funcExports : GasInjector.findOutOfGas m.imports = none → ∀ i ∈ m.exportsOf .func,
    i.toNat < m.numFuncImports + m.funcs.length → m.numFuncImports ≤ i.toNat
  starts : GasInjector.findOutOfGas m.imports = none → ∀ i ∈ m.starts,
    i.toNat < m.numFuncImports + m.funcs.length → i.toNat < m.numFuncImports
  globals : ∀ i ∈ m.bodyOperands Instr.globalOperand,
    i.toNat < m.numGlobalImports + m.globals.length → m.numGlobalImports ≤ i.toNat
  initGlobals : ∀ i ∈ m.exportsOf .global ++ m.initOperands Instr.globalOperand,
    i.toNat < m.numGlobalImports + m.globals.length → i.toNat < m.numGlobalImports
  gasFunction : (∃ func ∈ m.funcs, func.exprs.HasCost table) →
    ∀ x ∈ m.imports.take m.gasPosition, x.desc.kind = .func
  gasGlobal : (∃ func ∈ m.funcs, func.exprs.HasCost table) →
    ∀ n, (positions .global m.imports).head? = some n → ∃ x, m.imports[n]? = some x ∧
      x.moduleName = GasInjector.MODULE_NAME ∧ x.fieldName = GasInjector.GLOBAL_GAS_NAME

end Module

end BcosExecutor
