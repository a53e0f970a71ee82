import BcosExecutor.Metric

namespace BcosExecutor

/-- The exception of the injector, without the location that is only logged. -/
structure InvalidInstruction where
  opName : String
  deriving DecidableEq

structure ImportsInfo where
  foundGasFunction : Bool
  gasFuncIndex : UInt32
  globalGasIndex : UInt32
  originSize : UInt32

namespace GasInjector

def I64Sub : Opcode := ⟨"i64.sub", none, 0x7d⟩

def I64LeS : Opcode := ⟨"i64.le_s", none, 0x57⟩

/-- `isFloatOpcode` in the build without `WASM_FLOAT_ENABLE`. -/
def isFloatOpcode (opcode : Opcode) : Bool :=
  let op := opcode.code
  (0x2A ≤ op && op ≤ 0x2B) || (0x38 ≤ op && op ≤ 0x39) ||
    (0x43 ≤ op && op ≤ 0x44) || (0x5B ≤ op && op ≤ 0x66) ||
    (0x8B ≤ op && op ≤ 0xA6) || (0xB2 ≤ op && op ≤ 0xBF)

/-- Subtract, store the gas, and call `outOfGas` when what is left is not positive. -/
def subAndCheck (info : ImportsInfo) : ExprList :=
  .instr (.binary I64Sub) (.instr (.globalSet info.globalGasIndex)
    (.instr (.globalGet info.globalGasIndex) (.instr (.const .i64 0) (.instr (.binary I64LeS)
      (.ifElse ⟨[], []⟩ (.instr (.call info.gasFuncIndex) .nil) .nil .nil)))))

def useGas (info : ImportsInfo) (gas : Nat) : ExprList :=
  .instr (.globalGet info.globalGasIndex) (.instr (.const .i64 gas) (subAndCheck info))

/-- What stands before the insert point after `insertUseGasLogic`. -/
def insertUseGasLogic (info : ImportsInfo) (before : ExprList) (gas : Nat) : ExprList :=
  if 0 < gas then before ++ useGas info gas else before

def unsupported : InvalidInstruction :=
  ⟨"unreachable"⟩

/-- The arithmetic cases of the switch, which refuse the float opcodes. -/
def visitOpcode (table : InstructionTable) (opcode : Opcode) (i : Instr) :
    Except InvalidInstruction (Instr × Nat × Bool) :=
  if isFloatOpcode opcode then .error ⟨opcode.name⟩
  else .ok (i, (table opcode.code).toNat, false)

def visitConst (table : InstructionTable) (type : ValType) (i : Instr) :
    Except InvalidInstruction (Instr × Nat × Bool) :=
  match type with
  | .i32 => .ok (i, (table Instruction.I32Const).toNat, false)
  | .i64 => .ok (i, (table Instruction.I64Const).toNat, false)
  | .f32 => .error ⟨"f32.const"⟩
  | _ => .error ⟨"f64.const"⟩

/-- `outOfGas` is imported in front of the functions of the module. -/
def shiftCall (info : ImportsInfo) (index : UInt32) : UInt32 :=
  if info.originSize ≤ index ∧ info.foundGasFunction = false then index + 1 else index

/-- The switch of `InjectMeterExprList` for an expression without a body: the expression with its
index updated, the cost, and whether the gas used so far is inserted after it is counted. -/
def visitInstr (table : InstructionTable) (info : ImportsInfo) (i : Instr) :
    Except InvalidInstruction (Instr × Nat × Bool) :=
  match i with
  | .binary opcode | .compare opcode | .convert opcode | .unary opcode =>
    visitOpcode table opcode i
  | .load opcode _ _ | .store opcode _ _ => .ok (i, (table opcode.code).toNat, false)
  | .const type _ => visitConst table type i
  | .drop => .ok (i, (table Instruction.Drop).toNat, false)
  | .nop => .ok (i, (table Instruction.Nop).toNat, false)
  | .select => .ok (i, (table Instruction.Select).toNat, false)
  | .unreachable => .ok (i, (table Instruction.Unreachable).toNat, false)
  | .memorySize => .ok (i, (table Instruction.MemorySize).toNat, false)
  | .memoryGrow => .ok (i, 0, false)
  | .return => .ok (i, (table Instruction.Return).toNat, true)
  | .br _ => .ok (i, (table Instruction.Br).toNat, true)
  | .brIf _ => .ok (i, (table Instruction.BrIf).toNat, true)
  | .brTable _ _ => .ok (i, (table Instruction.BrTable).toNat, true)
  | .call index => .ok (.call (shiftCall info index), (table Instruction.Call).toNat, true)
  | .callIndirect _ _ => .ok (i, (table Instruction.CallIndirect).toNat, true)
  | .globalGet index => .ok (.globalGet (index + 1), (table Instruction.GlobalGet).toNat, false)
  | .globalSet index => .ok (.globalSet (index + 1), (table Instruction.GlobalSet).toNat, false)
  | .localGet _ => .ok (i, (table Instruction.LocalGet).toNat, false)
  | .localSet _ => .ok (i, (table Instruction.LocalSet).toNat, false)
  | .localTee _ => .ok (i, (table Instruction.LocalTee).toNat, false)
  | .other _ => .error unsupported

/-- The loop of `InjectMeterExprList`: `before` stands before the insert point and `segment`
between it and the current expression. -/
def injectLoop (table : InstructionTable) (info : ImportsInfo) (before segment : ExprList)
    (gasCost : Nat) : ExprList → Except InvalidInstruction ExprList
  | .nil =>
    .ok ((if gasCost ≠ 0 then insertUseGasLogic info before gasCost else before) ++ segment)
  | .instr i rest => do
    let (i, cost, flush) ← visitInstr table info i
    let segment := segment ++ .instr i .nil
    if flush then
      injectLoop table info (insertUseGasLogic info before (gasCost + cost) ++ segment) .nil 0 rest
    else injectLoop table info before segment (gasCost + cost) rest
  | .block sig body rest => do
    let before := insertUseGasLogic info before gasCost
    let body ← injectLoop table info .nil .nil 0 body
    injectLoop table info (before ++ segment ++ .block sig body .nil) .nil 0 rest
  | .loop sig body rest => do
    let before := insertUseGasLogic info before gasCost
    let body ← injectLoop table info .nil .nil 0 body
    injectLoop table info (before ++ segment ++ .loop sig body .nil) .nil 0 rest
  | .ifElse sig true_ false_ rest => do
    let true_ ← injectLoop table info .nil .nil 0 true_
    let (false_, gasCost) ←
      if false_ ≠ .nil then do
        let body ← injectLoop table info .nil .nil 0 false_
        .ok (body, gasCost + (table Instruction.Else).toNat)
      else .ok (.nil, gasCost)
    let before := insertUseGasLogic info before gasCost
    injectLoop table info (before ++ segment ++ .ifElse sig true_ false_ .nil) .nil 0 rest

def injectMeterExprList (table : InstructionTable) (info : ImportsInfo) (exprs : ExprList) :
    Except InvalidInstruction ExprList :=
  injectLoop table info .nil .nil 0 exprs

end GasInjector

end BcosExecutor
