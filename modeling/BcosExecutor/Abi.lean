import BcosExecutor.HostContext
import BcosExecutor.ScaleUtils
import Mathlib.Algebra.Group.Int.Defs

namespace BcosExecutor

/-- The values of the parser's library. A floating-point number is known by its text, by what it
is as an unsigned number and by whether it counts as true. -/
inductive Json
  | null
  | bool (b : Bool)
  | int (i : Int)
  | real (text : String) (toUInt : Option Nat) (toBool : Bool)
  | string (s : String)
  | array (items : List Json)
  | object (members : List (String × Json))

namespace Json

def isNull : Json → Bool
  | null => true
  | _ => false

/-- What a loop over the value visits. -/
def items : Json → List Json
  | array items => items
  | object members => members.map Prod.snd
  | _ => []

/-- The member of that name, which is null when there is none. -/
def get (key : String) : Json → Json
  | object members => (members.lookup key).getD null
  | _ => null

/-- The library throws where the value is no record. -/
def isRecord : Json → Bool
  | null | object _ => true
  | _ => false

def logicError : Fault :=
  .thrown (.stdException "Json::LogicError")

def member (value : Json) (key : String) : Checked Json :=
  if value.isRecord then .ok (value.get key) else .error logicError

def asString : Json → Checked String
  | null => .ok ""
  | bool b => .ok (if b then "true" else "false")
  | int i => .ok (toString i)
  | real text _ _ => .ok text
  | string s => .ok s
  | array _ | object _ => .error logicError

def asBool : Json → Checked Bool
  | null => .ok false
  | bool b => .ok b
  | int i => .ok (i ≠ 0)
  | real _ _ b => .ok b
  | string _ | array _ | object _ => .error logicError

def asUInt : Json → Checked Nat
  | null => .ok 0
  | bool b => .ok b.toNat
  | int i => if 0 ≤ i ∧ i < 2 ^ 32 then .ok i.toNat else .error logicError
  | real _ (some n) _ => .ok n
  | real _ none _ | string _ | array _ | object _ => .error logicError

/-- The elements by their indices, which an object with members does not have. -/
def elements : Json → Checked (List Json)
  | array items => .ok items
  | object (_ :: _) => .error logicError
  | _ => .ok []

theorem sizeOf_lt_of_mem_items {value item : Json} (h : item ∈ value.items) :
    sizeOf item < sizeOf value := by
  cases value with
  | array items =>
    have hlt := List.sizeOf_lt_of_mem (show item ∈ items from h)
    simp only [array.sizeOf_spec]
    omega
  | object members =>
    obtain ⟨⟨key, found⟩, hmem, rfl⟩ := List.mem_map.mp h
    have hlt := List.sizeOf_lt_of_mem hmem
    simp only [object.sizeOf_spec, Prod.mk.sizeOf_spec] at hlt ⊢
    omega
  | _ => cases h

theorem sizeOf_get_le (key : String) (value : Json) : sizeOf (value.get key) ≤ sizeOf value := by
  cases value with
  | object members =>
    rw [get]
    cases hl : members.lookup key with
    | none =>
      simp only [Option.getD_none, null.sizeOf_spec, object.sizeOf_spec]
      omega
    | some found =>
      obtain ⟨l₁, l₂, rfl, _⟩ := List.lookup_eq_some_iff.mp hl
      have hmem : (key, found) ∈ l₁ ++ (key, found) :: l₂ := by simp
      have hlt := List.sizeOf_lt_of_mem hmem
      simp only [object.sizeOf_spec, Prod.mk.sizeOf_spec, Option.getD_some] at hlt ⊢
      omega
  | _ => simp [get]

end Json

structure Abi.ConflictField where
  kind : Nat
  accessPath : List Nat
  readOnly : Bool
  slot : Nat
  deriving DecidableEq, Repr

structure FunctionAbi where
  name : String
  inputs : List ParameterAbi
  conflictFields : List Abi.ConflictField

def isTuple (type : String) : Bool :=
  "tuple".toList.isPrefixOf type.toList

def parseParameter (input : Json) : Checked ParameterAbi := do
  let type ← (← input.member "type").asString
  if isTuple type then
    let paramComponents ← input.member "components"
    assertThat !paramComponents.isNull
    let components ← (input.get "components").items.attach.mapM fun component =>
      parseParameter component.val
    return ⟨type, components⟩
  else
    return ⟨type, []⟩
termination_by sizeOf input
decreasing_by
  exact Nat.lt_of_lt_of_le (Json.sizeOf_lt_of_mem_items component.property)
    (Json.sizeOf_get_le "components" input)

mutual

def canonizeParamter : ParameterAbi → String
  | ⟨type, components⟩ =>
    if isTuple type then
      "(" ++ ",".intercalate (canonizeComponents components) ++ ")" ++
        String.ofList (type.toList.drop "tuple".length)
    else type

def canonizeComponents : List ParameterAbi → List String
  | [] => []
  | component :: components => canonizeParamter component :: canonizeComponents components

end

def parseConflictField (field : Json) : Checked Abi.ConflictField := do
  let accessPath ← (← field.member "path").items.mapM Json.asUInt
  let kind ← (← field.member "kind").asUInt
  let readOnly ← (← field.member "read_only").asBool
  let slot ← (← field.member "slot").asUInt
  return {
    kind := kind % 256
    accessPath := accessPath.map (· % 256)
    readOnly
    slot := slot % 256 }

/-- What is deserialized besides the text: the parser, which may throw, and the hash. -/
structure AbiReader where
  parse : Bytes → Except Exc (Option Json)
  hash : Bytes → Bytes

namespace FunctionAbi

def signature (name : String) (inputs : List ParameterAbi) : String :=
  name ++ "(" ++ ",".intercalate (canonizeComponents inputs) ++ ")"

/-- `selector.resize(4)`. -/
def selectorOf (r : AbiReader) (signature : String) : Bytes :=
  (r.hash (ascii signature) ++ List.replicate 4 0).take 4

/-- Whether the loop goes on with the entry. -/
def isMutableFunction (function : Json) : Checked Bool := do
  let type ← (← function.member "type").asString
  if type ≠ "function" then return false
  else
    let constant ← function.member "constant"
    let isConstant ← constant.asBool
    return !constant.isNull && !isConstant

def readSignature (function : Json) : Checked (String × List ParameterAbi) := do
  let functionName ← function.member "name"
  assertThat !functionName.isNull
  let name ← functionName.asString
  let functionInputs ← function.member "inputs"
  assertThat !functionInputs.isNull
  let inputs ← (← functionInputs.elements).mapM parseParameter
  return (name, inputs)

def readConflictFields (function : Json) : Checked (List Abi.ConflictField) := do
  let functionConflictFields ← function.member "conflictFields"
  functionConflictFields.items.mapM parseConflictField

/-- The body of the loop; nothing is returned where it continues. -/
def readFunction (r : AbiReader) (expected : Bytes) (function : Json) :
    Checked (Option FunctionAbi) := do
  if ← isMutableFunction function then
    let (name, inputs) ← readSignature function
    if selectorOf r (signature name inputs) = expected then
      let conflictFields ← readConflictFields function
      return some { name, inputs, conflictFields }
    else return none
  else return none

def findFunction (r : AbiReader) (expected : Bytes) : List Json → Checked (Option FunctionAbi)
  | [] => .ok none
  | function :: functions => do
    match ← readFunction r expected function with
    | some functionAbi => return some functionAbi
    | none => findFunction r expected functions

def deserialize (r : AbiReader) (abiStr expected : Bytes) : Checked (Option FunctionAbi) := do
  assertThat (expected.length = 4)
  match ← orThrow (r.parse abiStr) with
  | some (.array functions) => findFunction r expected functions
  | _ => return none

end FunctionAbi

end BcosExecutor
