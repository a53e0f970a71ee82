import Mathlib.Data.List.Basic
import Mathlib.Algebra.Group.Nat.Defs

namespace BcosExecutor

inductive ValType
  | i32 | i64 | f32 | f64 | v128 | funcref | externref
  deriving DecidableEq

structure FuncSignature where
  paramTypes : List ValType
  resultTypes : List ValType
  deriving DecidableEq

/-- An opcode keeps one byte of code; those with a prefix share the codes of the others. -/
structure Opcode where
  name : String
  prefixByte : Option UInt8
  code : UInt8
  deriving DecidableEq

/-- The expressions without a body. -/
inductive Instr
  | binary (opcode : Opcode)
  | compare (opcode : Opcode)
  | convert (opcode : Opcode)
  | unary (opcode : Opcode)
  | load (opcode : Opcode) (align offset : Nat)
  | store (opcode : Opcode) (align offset : Nat)
  | const (type : ValType) (value : Nat)
  | drop | nop | select | unreachable | memorySize | memoryGrow | «return»
  | br (label : Nat)
  | brIf (label : Nat)
  | brTable (targets : List Nat) (defaultTarget : Nat)
  | call (index : UInt32)
  | callIndirect (type table : UInt32)
  | globalGet (index : UInt32)
  | globalSet (index : UInt32)
  | localGet (index : UInt32)
  | localSet (index : UInt32)
  | localTee (index : UInt32)
  -- the kinds outside the MVP: atomics, bulk memory, references, exceptions, tail calls, SIMD
  | other (type : String)
  deriving DecidableEq

/-- A list of expressions, with the bodies of the structured ones. -/
inductive ExprList
  | nil
  | instr (i : Instr) (rest : ExprList)
  | block (sig : FuncSignature) (body rest : ExprList)
  | loop (sig : FuncSignature) (body rest : ExprList)
  | ifElse (sig : FuncSignature) (true_ false_ rest : ExprList)
  deriving DecidableEq

namespace ExprList

def append : ExprList → ExprList → ExprList
  | nil, l => l
  | instr i rest, l => instr i (rest.append l)
  | block sig body rest, l => block sig body (rest.append l)
  | loop sig body rest, l => loop sig body (rest.append l)
  | ifElse sig true_ false_ rest, l => ifElse sig true_ false_ (rest.append l)

instance : Append ExprList := ⟨append⟩

@[simp] theorem nil_append (l : ExprList) : nil ++ l = l := rfl

@[simp] theorem instr_append (i : Instr) (r l : ExprList) : instr i r ++ l = instr i (r ++ l) := rfl

@[simp] theorem block_append (s : FuncSignature) (b r l : ExprList) :
    block s b r ++ l = block s b (r ++ l) := rfl

@[simp] theorem loop_append (s : FuncSignature) (b r l : ExprList) :
    loop s b r ++ l = loop s b (r ++ l) := rfl

@[simp] theorem ifElse_append (s : FuncSignature) (t f r l : ExprList) :
    ifElse s t f r ++ l = ifElse s t f (r ++ l) := rfl

@[simp] theorem append_nil (l : ExprList) : l ++ nil = l := by
  induction l <;> simp_all

@[simp] theorem append_assoc (a b c : ExprList) : a ++ b ++ c = a ++ (b ++ c) := by
  induction a <;> simp_all

end ExprList

end BcosExecutor
