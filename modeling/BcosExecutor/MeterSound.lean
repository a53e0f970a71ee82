import BcosExecutor.MeterPaths
import Mathlib.Algebra.Ring.Nat

namespace BcosExecutor

namespace Metered

/-- What executing the first item costs. -/
def headCost (table : InstructionTable) : Metered → Nat
  | instr i _ => i.cost table
  | ifElse _ _ false_ _ => elseCost table false_
  | _ => 0

/-- Whether control leaves its segment at the first item, or at the end of the list. -/
def endsSegment : Metered → Bool
  | instr i _ => i.endsSegment
  | charge _ _ => false
  | _ => true

def size : Metered → Nat
  | nil => 0
  | charge _ rest | instr _ rest => rest.size + 1
  | block _ body rest | loop _ body rest => body.size + rest.size + 2
  | ifElse _ true_ false_ rest => true_.size + false_.size + rest.size + 2

end Metered

def Position.size (pos : Position) : Nat :=
  pos.cur.size + (pos.frames.map fun f => f.rest.size + 1).sum

namespace Path

variable {table : InstructionTable}

end Path

theorem branch_cost_pos (defined : UInt8 → Bool) (i : Instr) (label : Nat)
    (h : label ∈ i.targets) : 0 < i.cost (GetInstructionTable defined) := by
  cases i with
  | br _ =>
    have hcost : instructionCosts.lookup Instruction.Br = some 2 := by decide
    simp [Instr.cost, Instr.code, GetInstructionTable, hcost]
  | brIf _ =>
    have hcost : instructionCosts.lookup Instruction.BrIf = some 3 := by decide
    simp [Instr.cost, Instr.code, GetInstructionTable, hcost]
  | brTable _ _ =>
    have hcost : instructionCosts.lookup Instruction.BrTable = some 2 := by decide
    simp [Instr.cost, Instr.code, GetInstructionTable, hcost]
  | _ => cases h

namespace GasInjector

open BcosExecutor.Path

end GasInjector

end BcosExecutor
