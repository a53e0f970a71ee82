import BcosExecutor.ParamData
import Mathlib.Algebra.Group.Nat.Defs

namespace BcosExecutor

structure ParameterAbi where
  type : String
  components : List ParameterAbi := []

def readByte (bytes : Bytes) (i : Nat) : Checked UInt8 :=
  match bytes[i]? with
  | some byte => .ok byte
  | none => .error .undefined

/-- `encodedBytes.size() - startPos` of type `size_t`. -/
def sizeFrom (encodedBytes : Bytes) (startPos : Nat) : Nat :=
  (encodedBytes.length + 2 ^ 64 - startPos) % 2 ^ 64

def readBytes (bytes : Bytes) (start : Nat) : Nat → Checked Bytes
  | 0 => .ok []
  | n + 1 => do
    let byte ← readByte bytes start
    let rest ← readBytes bytes (start + 1) n
    return byte :: rest

/-- The sum of a loop that multiplies by 256 as it goes on, with 32 bits. -/
def littleEndian : Bytes → Nat
  | [] => 0
  | byte :: rest => (byte.toNat + 256 * littleEndian rest) % 2 ^ 32

def decodeCompactInteger (encodedBytes : Bytes) (startPos : Nat) : Checked (Option Nat) :=
  if sizeFrom encodedBytes startPos < 1 then .ok none
  else do
    let firstByte ← readByte encodedBytes startPos
    match firstByte.toNat % 4 with
    | 0 => return some (firstByte.toNat / 4)
    | 1 =>
      if sizeFrom encodedBytes startPos < 2 then return none
      else
        let secondByte ← readByte encodedBytes (startPos + 1)
        return some ((firstByte.toNat / 4 * 4 + secondByte.toNat * 256) / 4)
    | 2 =>
      if sizeFrom encodedBytes startPos < 4 then return none
      else
        let rest ← readBytes encodedBytes (startPos + 1) 3
        return some (littleEndian (firstByte :: rest) / 4)
    | _ =>
      let bytesCount := firstByte.toNat / 4 + 4
      if sizeFrom encodedBytes startPos < bytesCount + 1 then return none
      else
        let rest ← readBytes encodedBytes (startPos + 1) bytesCount
        return some (littleEndian rest)

example : decodeCompactInteger [253, 7] 0 = .ok (some 511) := rfl

example : decodeCompactInteger [3, 0, 0, 0, 64] 0 = .ok (some 1073741824) := rfl

/-- The unsigned number that a string begins with. Nothing comes out where the code throws. -/
def stoul (s : List Char) : Option Nat :=
  let s := s.dropWhile fun c => c.isWhitespace || c.toNat = 11 || c.toNat = 12
  let negative := s.head? = some '-'
  let digits := (if negative || s.head? = some '+' then s.drop 1 else s).takeWhile Char.isDigit
  let value := digits.foldl (fun n c => 10 * n + (c.toNat - 48)) 0
  if digits.isEmpty || 2 ^ 64 ≤ value then none
  else some (if negative then (2 ^ 64 - value) % 2 ^ 64 else value)

/-- The position of the last such character. -/
def rfind (c : Char) (s : List Char) : Option Nat :=
  let after := (s.reverse.takeWhile (· ≠ c)).length
  if after < s.length then some (s.length - 1 - after) else none

example : rfind '[' "uint8[][2]".toList = some 7 := by decide

/-- The rest of the string after the last such character, or all of it. -/
def afterLast (c : Char) (s : List Char) : List Char :=
  match rfind c s with
  | some i => s.drop (i + 1)
  | none => s

/-- The loop over the elements of an array. -/
def elementsLength (element : Nat → Checked (Option Nat)) :
    Nat → Nat → Nat → Checked (Option Nat)
  | 0, _, length => .ok (some length)
  | n + 1, startPos, length =>
    element startPos >>= ifPresent fun value =>
      elementsLength element n ((startPos + value) % 2 ^ 64) ((length + value) % 2 ^ 32)

section

variable (compactLen : Nat → Nat)

/-- The length by the name of the type, for given components. Every array suffix shortens the
name, so that its length is enough fuel. -/
def typeLength (tuple : Bytes → Nat → Checked (Option Nat)) :
    Nat → List Char → Bytes → Nat → Checked (Option Nat)
  | 0, _, _, _ => .ok none
  | fuel + 1, type, encodedBytes, startPos =>
    if type.getLast? = some ']' then
      match rfind '[' type with
      | none => .ok none
      | some leftBracketPos =>
        let element := typeLength tuple fuel (type.take leftBracketPos) encodedBytes
        if leftBracketPos + 2 = type.length then
          decodeCompactInteger encodedBytes startPos >>= ifPresent fun size =>
            let length := compactLen size % 2 ^ 32
            elementsLength element size ((startPos + length) % 2 ^ 64) length
        else
          match stoul (type.drop (leftBracketPos + 1)) with
          | none => .ok none
          | some size => elementsLength element (size % 2 ^ 32) startPos 0
    else if "uint".toList.isPrefixOf type || "int".toList.isPrefixOf type then
      .ok ((stoul (afterLast 't' type)).map fun digitsNum => digitsNum % 2 ^ 32 / 8)
    else if type = "string".toList ∨ type = "bytes".toList then
      decodeCompactInteger encodedBytes startPos >>= ifPresent fun value =>
        .ok (some (value + compactLen value))
    else if type = "bool".toList ∨ type = "byte".toList then
      .ok (some 1)
    else if "bytes".toList.isPrefixOf type then
      .ok ((stoul (afterLast 's' type)).map (· % 2 ^ 32))
    else if type = "tuple".toList then
      tuple encodedBytes startPos
    else
      .ok none

mutual

def scaleEncodingLength : ParameterAbi → Bytes → Nat → Checked (Option Nat)
  | ⟨type, components⟩, encodedBytes, startPos =>
    typeLength compactLen (fun bytes pos => componentsLength components bytes pos 0)
      (type.length + 1) type.toList encodedBytes startPos

def componentsLength : List ParameterAbi → Bytes → Nat → Nat → Checked (Option Nat)
  | [], _, _, length => .ok (some length)
  | component :: components, encodedBytes, startPos, length =>
    scaleEncodingLength component encodedBytes startPos >>= ifPresent fun value =>
      componentsLength components encodedBytes ((startPos + value) % 2 ^ 64)
        ((length + value) % 2 ^ 32)

end

end

end BcosExecutor
