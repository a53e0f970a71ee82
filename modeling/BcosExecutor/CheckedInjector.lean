import BcosExecutor.IndexReads
import BcosExecutor.InjectedModule

namespace BcosExecutor

open IndexReads

/-- The costs in `std::array<Instruction, 256>`. -/
abbrev CostTable := Vector UInt32 256

/-- The costs by the code of an instruction: a code is one byte. -/
def CostTable.entries (costTable : CostTable) : InstructionTable := fun code =>
  costTable.get ⟨code.toNat, UInt8.toNat_lt code⟩

namespace GasInjector

/-- `m_costTable[code].Cost`. -/
def readCost (costTable : CostTable) (code : UInt8) :
    Except (ReadFault InvalidInstruction) Nat := do
  let cost ← read costTable.toList code.toNat
  .ok cost.toNat

/-- A case of the switch that adds the cost of a code. -/
def checkedCost (costTable : CostTable) (i : Instr) (code : UInt8) (flush : Bool) :
    Except (ReadFault InvalidInstruction) (Instr × Nat × Bool) := do
  let cost ← readCost costTable code
  .ok (i, cost, flush)

/-- The switch of `InjectMeterExprList` with its reads of the cost table. -/
def checkedInstr (costTable : CostTable) (info : ImportsInfo) (i : Instr) :
    Except (ReadFault InvalidInstruction) (Instr × Nat × Bool) :=
  match i with
  | .binary opcode | .compare opcode | .convert opcode | .unary opcode =>
    if isFloatOpcode opcode then .error (.exception ⟨opcode.name⟩)
    else checkedCost costTable i opcode.code false
  | .load opcode _ _ | .store opcode _ _ => checkedCost costTable i opcode.code false
  | .const .i32 _ => checkedCost costTable i Instruction.I32Const false
  | .const .i64 _ => checkedCost costTable i Instruction.I64Const false
  | .const .f32 _ => .error (.exception ⟨"f32.const"⟩)
  | .const _ _ => .error (.exception ⟨"f64.const"⟩)
  | .drop => checkedCost costTable i Instruction.Drop false
  | .nop => checkedCost costTable i Instruction.Nop false
  | .select => checkedCost costTable i Instruction.Select false
  | .unreachable => checkedCost costTable i Instruction.Unreachable false
  | .memorySize => checkedCost costTable i Instruction.MemorySize false
  | .memoryGrow => .ok (i, 0, false)
  | .return => checkedCost costTable i Instruction.Return true
  | .br _ => checkedCost costTable i Instruction.Br true
  | .brIf _ => checkedCost costTable i Instruction.BrIf true
  | .brTable _ _ => checkedCost costTable i Instruction.BrTable true
  | .call index => checkedCost costTable (.call (shiftCall info index)) Instruction.Call true
  | .callIndirect _ _ => checkedCost costTable i Instruction.CallIndirect true
  | .globalGet index => checkedCost costTable (.globalGet (index + 1)) Instruction.GlobalGet false
  | .globalSet index => checkedCost costTable (.globalSet (index + 1)) Instruction.GlobalSet false
  | .localGet _ => checkedCost costTable i Instruction.LocalGet false
  | .localSet _ => checkedCost costTable i Instruction.LocalSet false
  | .localTee _ => checkedCost costTable i Instruction.LocalTee false
  | .other _ => do
    -- the exception takes its text from the entry of `unreachable`
    let _ ← readCost costTable Instruction.Unreachable
    .error (.exception unsupported)

/-- The loop of `InjectMeterExprList`. Behind the list there is no expression: an insert point
there cannot be advanced. -/
def checkedLoop (costTable : CostTable) (info : ImportsInfo) (before segment : ExprList)
    (gasCost : Nat) : ExprList → Except (ReadFault InvalidInstruction) ExprList
  | .nil =>
    if gasCost = 0 then .ok (before ++ segment)
    else if segment = .nil then .error .outOfRange
    else .ok (insertUseGasLogic info before gasCost ++ segment)
  | .instr i rest => do
    let (i, cost, flush) ← checkedInstr costTable info i
    let segment := segment ++ .instr i .nil
    if flush then
      checkedLoop costTable info (insertUseGasLogic info before (gasCost + cost) ++ segment) .nil 0
        rest
    else checkedLoop costTable info before segment (gasCost + cost) rest
  | .block sig body rest => do
    let before := insertUseGasLogic info before gasCost
    let body ← checkedLoop costTable info .nil .nil 0 body
    checkedLoop costTable info (before ++ segment ++ .block sig body .nil) .nil 0 rest
  | .loop sig body rest => do
    let before := insertUseGasLogic info before gasCost
    let body ← checkedLoop costTable info .nil .nil 0 body
    checkedLoop costTable info (before ++ segment ++ .loop sig body .nil) .nil 0 rest
  | .ifElse sig true_ false_ rest => do
    let true_ ← checkedLoop costTable info .nil .nil 0 true_
    let (false_, gasCost) ←
      if false_ ≠ .nil then do
        let cost ← readCost costTable Instruction.Else
        let body ← checkedLoop costTable info .nil .nil 0 false_
        .ok (body, gasCost + cost)
      else .ok (.nil, gasCost)
    let before := insertUseGasLogic info before gasCost
    checkedLoop costTable info (before ++ segment ++ .ifElse sig true_ false_ .nil) .nil 0 rest

def checkedFunc (costTable : CostTable) (info : ImportsInfo) (func : Func ExprList) :
    Except (ReadFault InvalidInstruction) (Func ExprList) := do
  let exprs ← checkedLoop costTable info .nil .nil 0 func.exprs
  let localTypes := if func.exprs = .nil then func.localTypes else func.localTypes ++ [.i32]
  .ok ⟨func.typeVar, localTypes, exprs⟩

/-- The import of `outOfGas`, with the search for its type. -/
def checkedAddOutOfGas (m : Module ExprList) :
    Except (ReadFault InvalidInstruction) (Module ExprList) := do
  let signature ← scan m.types
    (fun found (type, i) => if type = some ⟨[], []⟩ then some i else found) none
  let outOfGasIndex := UInt32.ofNat m.imports.length
  .ok { m with
    types := if signature = none then m.types ++ [some ⟨[], []⟩] else m.types
    imports := m.imports ++
      [⟨MODULE_NAME, OUT_OF_GAS_NAME, .func (signature.getD m.types.length)⟩]
    exports := m.exports.map shiftExport
    elemSegments := m.elemSegments.map fun elem =>
      ⟨elem.offset, elem.elemExprs.map (shiftElem outOfGasIndex)⟩ }

/-- `InjectMeter` between the reader and the writer, with its reads of vectors. -/
def checkedModule (costTable : CostTable) (m : Module ExprList) :
    Except (ReadFault InvalidInstruction) (Module ExprList) := do
  let found ← scan m.imports (fun found (imp, i) => if isOutOfGas imp then some i else found) none
  let originImportSize := UInt32.ofNat m.imports.length
  let outOfGasIndex := (found.map UInt32.ofNat).getD originImportSize
  let m ← if found = none then checkedAddOutOfGas m else .ok m
  let m := addGlobalGas m
  let memory ← read m.memories 0
  let funcs ← m.funcs.mapM
    (checkedFunc costTable ⟨found.isSome, outOfGasIndex, 0, originImportSize⟩)
  .ok { m with memories := m.memories.set 0 (limitMemory memory), funcs := funcs }

/-- Only the exceptions of the injector are caught. -/
def checkedInjectMeter (costTable : CostTable) (m : Module ExprList) : InjectResult ExprList :=
  match checkedModule costTable m with
  | .ok out => .success out
  | .error (.exception _) => .forbiddenOpcode
  | .error .outOfRange => .undefined

section
variable {costTable : CostTable} {info : ImportsInfo}

theorem readCost_eq (costTable : CostTable) (code : UInt8) :
    readCost costTable code = .ok (costTable.entries code).toNat := by
  have hlt : code.toNat < costTable.toList.length := by
    rw [Vector.length_toList]
    exact UInt8.toNat_lt code
  rw [readCost, read_of_lt hlt, Vector.getElem_toList]
  rfl

theorem checkedCost_eq (i : Instr) (code : UInt8) (flush : Bool) :
    checkedCost costTable i code flush = .ok (i, (costTable.entries code).toNat, flush) := by
  rw [checkedCost, readCost_eq]
  rfl

theorem checkedInstr_eq (info : ImportsInfo) (i : Instr) :
    checkedInstr costTable info i = inRange (visitInstr costTable.entries info i) := by
  cases i with
  | binary opcode | compare opcode | convert opcode | unary opcode =>
    simp only [checkedInstr, visitInstr, visitOpcode, checkedCost_eq]
    split <;> rfl
  | const type value =>
    cases type <;> simp [checkedInstr, visitInstr, visitConst, checkedCost_eq, inRange]
  | other type =>
    rw [checkedInstr, readCost_eq]
    rfl
  | memoryGrow => rfl
  | _ => simp only [checkedInstr, visitInstr, checkedCost_eq, inRange]

theorem append_instr_ne_nil (l : ExprList) (i : Instr) : l ++ .instr i .nil ≠ .nil := by
  cases l <;> simp

/-- With something to charge there is an expression behind the insert point, and with that the loop
reads inside the table and the list. -/
theorem checkedLoop_eq (l before segment : ExprList) (gasCost : Nat)
    (h : segment = .nil → gasCost = 0) : checkedLoop costTable info before segment gasCost l =
      inRange (injectLoop costTable.entries info before segment gasCost l) := by
  induction l generalizing before segment gasCost with
  | nil =>
    rw [checkedLoop, injectLoop]
    by_cases hgas : gasCost = 0
    · simp [hgas, inRange]
    · simp [hgas, mt h hgas, inRange]
  | instr i rest ih =>
    rw [checkedLoop, injectLoop, checkedInstr_eq, inRange_bind]
    congr 1
    funext r
    obtain ⟨i', cost, flush⟩ := r
    cases flush with
    | true => exact ih _ .nil 0 fun _ => rfl
    | false => exact ih before _ _ fun hnil => absurd hnil (append_instr_ne_nil segment i')
  | block sig body rest ihb ih | loop sig body rest ihb ih =>
    rw [checkedLoop, injectLoop, ihb .nil .nil 0 fun _ => rfl, inRange_bind]
    congr 1
    funext body'
    exact ih _ .nil 0 fun _ => rfl
  | ifElse sig true_ false_ rest iht ihf ih =>
    rw [checkedLoop, injectLoop, iht .nil .nil 0 fun _ => rfl, inRange_bind]
    congr 1
    funext true'
    by_cases hfalse : false_ = .nil
    · simp only [hfalse, ne_eq, not_true_eq_false, if_false]
      exact ih _ .nil 0 fun _ => rfl
    · simp only [hfalse, ne_eq, not_false_eq_true, if_true, readCost_eq,
        ihf .nil .nil 0 fun _ => rfl, inRange_bind]
      cases injectLoop costTable.entries info .nil .nil 0 false_ with
      | error e => rfl
      | ok false' => exact ih _ .nil 0 fun _ => rfl

theorem checkedFunc_eq (info : ImportsInfo) (func : Func ExprList) :
    checkedFunc costTable info func =
      inRange (injectFunc (injectMeterExprList costTable.entries info) func) := by
  rw [checkedFunc, injectFunc, inRange_bind, checkedLoop_eq _ _ _ _ fun _ => rfl]
  rfl

end

theorem checkedAddOutOfGas_eq (m : Module ExprList) :
    checkedAddOutOfGas m = .ok (addOutOfGas m) := by
  rw [checkedAddOutOfGas, scan_eq]
  unfold addOutOfGas gasSignature
  rw [show (m.types.zipIdx.foldl (fun found (type, i) =>
    if type = some ⟨[], []⟩ then some i else found) none) = findSignature m.types from rfl]
  cases findSignature m.types <;> rfl

/-- The module the bodies are put into, and the indices they are injected with. -/
theorem checkedModule_eq (costTable : CostTable) (m : Module ExprList) :
    checkedModule costTable m = (do
      let memory ← read m.memories 0
      let funcs ← inRange (m.funcs.mapM
        (injectFunc (injectMeterExprList costTable.entries (importsInfo m))))
      .ok { prepare m with
        memories := m.memories.set 0 (limitMemory memory), funcs := funcs }) := by
  have hfuncs (info : ImportsInfo) : checkedFunc costTable info =
      fun func => inRange (injectFunc (injectMeterExprList costTable.entries info) func) :=
    funext (checkedFunc_eq info)
  rw [checkedModule, scan_eq]
  rw [show (m.imports.zipIdx.foldl (fun found (imp, i) =>
    if isOutOfGas imp then some i else found) none) = findOutOfGas m.imports from rfl]
  unfold prepare importsInfo
  cases findOutOfGas m.imports with
  | none =>
    simp only [hfuncs, inRange_mapM, checkedAddOutOfGas_eq]
    rfl
  | some k =>
    simp only [hfuncs, inRange_mapM]
    rfl

theorem prepare_memories (m : Module ExprList) : (prepare m).memories = m.memories := by
  unfold prepare
  split <;> rfl

theorem injectModule_eq {β : Type} (inject : ImportsInfo → ExprList → Except InvalidInstruction β)
    (m : Module ExprList) : injectModule inject m =
      if h : m.memories ≠ [] then
        ((m.funcs.mapM (injectFunc (inject (importsInfo m)))).toOption.map fun funcs =>
          .success { prepare m with
            memories := limitMemory (m.memories.head h) :: m.memories.tail
            funcs := funcs }).getD .forbiddenOpcode
      else .undefined := by
  unfold injectModule
  dsimp only
  rw [show addGlobalGas (if (importsInfo m).foundGasFunction = true then m else addOutOfGas m) =
    prepare m from rfl, prepare_memories, prepare_funcs]
  cases m.memories with
  | nil => rfl
  | cons memory memories =>
    rw [dif_pos (List.cons_ne_nil memory memories)]
    cases m.funcs.mapM (injectFunc (inject (importsInfo m))) <;> rfl

/-- The first memory is the only read of the injector that no loop and no type keeps in range. -/
theorem checkedInjectMeter_eq (costTable : CostTable) (m : Module ExprList) :
    checkedInjectMeter costTable m = injectMeter costTable.entries m := by
  rw [checkedInjectMeter, checkedModule_eq, injectMeter, injectModule_eq]
  cases m.memories with
  | nil => rfl
  | cons memory memories =>
    rw [dif_pos (List.cons_ne_nil memory memories)]
    cases m.funcs.mapM (injectFunc (injectMeterExprList costTable.entries (importsInfo m))) <;> rfl

end GasInjector

end BcosExecutor
