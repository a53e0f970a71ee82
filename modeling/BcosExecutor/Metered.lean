import BcosExecutor.GasInjector

namespace BcosExecutor

/-- A list of expressions in which the inserted gas logic is one item. -/
inductive Metered
  | nil
  | charge (gas : Nat) (rest : Metered)
  | instr (i : Instr) (rest : Metered)
  | block (sig : FuncSignature) (body rest : Metered)
  | loop (sig : FuncSignature) (body rest : Metered)
  | ifElse (sig : FuncSignature) (true_ false_ rest : Metered)
  deriving DecidableEq

namespace Metered

/-- The instructions that stand in the output. -/
def emit (info : ImportsInfo) : Metered → ExprList
  | nil => .nil
  | charge gas rest => GasInjector.useGas info gas ++ rest.emit info
  | instr i rest => .instr i (rest.emit info)
  | block sig body rest => .block sig (body.emit info) (rest.emit info)
  | loop sig body rest => .loop sig (body.emit info) (rest.emit info)
  | ifElse sig true_ false_ rest =>
    .ifElse sig (true_.emit info) (false_.emit info) (rest.emit info)

/-- What is left when the inserted instructions are deleted. -/
def original : Metered → ExprList
  | nil => .nil
  | charge _ rest => rest.original
  | instr i rest => .instr i rest.original
  | block sig body rest => .block sig body.original rest.original
  | loop sig body rest => .loop sig body.original rest.original
  | ifElse sig true_ false_ rest => .ifElse sig true_.original false_.original rest.original

end Metered

namespace GasInjector

/-- The gas logic at the head of a segment, left out when there is nothing to charge. -/
def openSegment (segment : Nat × Metered) : Metered :=
  if 0 < segment.1 then .charge segment.1 segment.2 else segment.2

/-- A list of expressions with its cost up to the end of the first segment. -/
def meterSegment (table : InstructionTable) (info : ImportsInfo) :
    ExprList → Except InvalidInstruction (Nat × Metered)
  | .nil => .ok (0, .nil)
  | .instr i rest => do
    let (i, cost, flush) ← visitInstr table info i
    let segment ← meterSegment table info rest
    .ok (if flush then (cost, .instr i (openSegment segment))
      else (cost + segment.1, .instr i segment.2))
  | .block sig body rest => do
    let body ← meterSegment table info body
    let segment ← meterSegment table info rest
    .ok (0, .block sig (openSegment body) (openSegment segment))
  | .loop sig body rest => do
    let body ← meterSegment table info body
    let segment ← meterSegment table info rest
    .ok (0, .loop sig (openSegment body) (openSegment segment))
  | .ifElse sig true_ false_ rest => do
    let body ← meterSegment table info true_
    let elseBody ← meterSegment table info false_
    let segment ← meterSegment table info rest
    .ok (if false_ ≠ .nil then (table Instruction.Else).toNat else 0,
      .ifElse sig (openSegment body) (openSegment elseBody) (openSegment segment))

def meter (table : InstructionTable) (info : ImportsInfo) (exprs : ExprList) :
    Except InvalidInstruction Metered :=
  (meterSegment table info exprs).map openSegment

@[simp] theorem insertUseGasLogic_zero (info : ImportsInfo) (before : ExprList) :
    insertUseGasLogic info before 0 = before := rfl

theorem insertUseGasLogic_append (info : ImportsInfo) (a b : ExprList) (gas : Nat) :
    insertUseGasLogic info (a ++ b) gas = a ++ (b ++ insertUseGasLogic info .nil gas) := by
  unfold insertUseGasLogic
  split <;> simp

theorem emit_openSegment (info : ImportsInfo) (s : Nat × Metered) :
    (openSegment s).emit info = insertUseGasLogic info .nil s.1 ++ s.2.emit info := by
  unfold insertUseGasLogic openSegment
  split <;> simp [Metered.emit]

/-- The loop with its insert point puts out the segments one after the other. -/
theorem injectLoop_eq (table : InstructionTable) (info : ImportsInfo) (l before segment : ExprList)
    (gasCost : Nat) : injectLoop table info before segment gasCost l =
      (meterSegment table info l).map fun s =>
        insertUseGasLogic info before (gasCost + s.1) ++ (segment ++ s.2.emit info) := by
  induction l generalizing before segment gasCost with
  | nil =>
    by_cases hg : gasCost = 0
    · simp [injectLoop, meterSegment, Except.map, hg, Metered.emit]
    · simp [injectLoop, meterSegment, Except.map, hg, Metered.emit]
  | instr i rest ih =>
    simp only [injectLoop, meterSegment]
    cases visitInstr table info i with
    | error e => rfl
    | ok v =>
      obtain ⟨i', cost, flush⟩ := v
      cases flush with
      | true =>
        simp only [bind, Except.bind, if_true, ih]
        cases meterSegment table info rest with
        | error e => rfl
        | ok s =>
          simp [Except.map, Metered.emit, emit_openSegment, insertUseGasLogic_append]
      | false =>
        simp only [bind, Except.bind, Bool.false_eq_true, if_false, ih]
        cases meterSegment table info rest with
        | error e => rfl
        | ok s => simp [Except.map, Metered.emit, Nat.add_assoc]
  | block sig body rest ihb ih | loop sig body rest ihb ih =>
    simp only [injectLoop, meterSegment, ihb, ih]
    cases meterSegment table info body with
    | error e => rfl
    | ok b =>
      cases meterSegment table info rest with
      | error e => rfl
      | ok s =>
        simp [bind, Except.bind, Except.map, Metered.emit, emit_openSegment,
          insertUseGasLogic_append]
  | ifElse sig true_ false_ rest iht ihf ih =>
    simp only [injectLoop, meterSegment, iht, ihf, ih]
    cases meterSegment table info true_ with
    | error e => rfl
    | ok t =>
      by_cases hf : false_ = .nil
      · subst hf
        cases meterSegment table info rest with
        | error e => rfl
        | ok s =>
          simp [bind, Except.bind, Except.map, Metered.emit, emit_openSegment, meterSegment,
            insertUseGasLogic_append]
      · cases meterSegment table info false_ with
        | error e => simp [bind, Except.bind, Except.map, hf]
        | ok f =>
          cases meterSegment table info rest with
          | error e => simp [bind, Except.bind, Except.map, hf]
          | ok s =>
            simp [bind, Except.bind, Except.map, Metered.emit, emit_openSegment, hf,
              insertUseGasLogic_append]

/-- The injector computes the metered list and puts out its instructions. -/
theorem injectMeterExprList_eq (table : InstructionTable) (info : ImportsInfo) (l : ExprList) :
    injectMeterExprList table info l = (meter table info l).map (Metered.emit info) := by
  rw [injectMeterExprList, injectLoop_eq, meter]
  cases meterSegment table info l with
  | error e => rfl
  | ok s => simp [Except.map, emit_openSegment]

end GasInjector

end BcosExecutor
