import BcosExecutor.Metered

namespace BcosExecutor

inductive Value
  | i32 (v : BitVec 32)
  | i64 (v : BitVec 64)
  deriving DecidableEq

structure Machine where
  globals : UInt32 → Value
  stack : List Value

/-- A run of straight code ends, or it stops at a call, or it gets stuck. -/
inductive Outcome
  | done (m : Machine)
  | called (index : UInt32) (m : Machine)
  | stuck

namespace Machine

/-- The instructions the injector inserts; `i64.sub` and `i64.le_s` take the upper operand as
their second one. -/
def step (m : Machine) (i : Instr) : Outcome :=
  match i, m.stack with
  | .globalGet index, stack => .done { m with stack := m.globals index :: stack }
  | .globalSet index, v :: stack => .done ⟨Function.update m.globals index v, stack⟩
  | .const .i64 value, stack => .done { m with stack := .i64 (BitVec.ofNat 64 value) :: stack }
  | .binary opcode, .i64 b :: .i64 a :: stack =>
    if opcode.code = 0x7d then .done { m with stack := .i64 (a - b) :: stack }
    else if opcode.code = 0x57 then
      .done { m with stack := .i32 (if a.sle b then 1 else 0) :: stack }
    else .stuck
  | .call index, _ => .called index m
  | _, _ => .stuck

def run : ExprList → Machine → Outcome
  | .nil, m => .done m
  | .instr i rest, m =>
    match m.step i with
    | .done m => run rest m
    | o => o
  | .ifElse _ true_ false_ rest, m =>
    match m.stack with
    | .i32 c :: stack =>
      match (if c ≠ 0 then run true_ { m with stack := stack }
        else run false_ { m with stack := stack }) with
      | .done m => run rest m
      | o => o
    | _ => .stuck
  | _, _ => .stuck

end Machine

end BcosExecutor
