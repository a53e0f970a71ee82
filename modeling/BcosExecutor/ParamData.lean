import BcosExecutor.CallParameters
import BcosExecutor.ExceptRuns

namespace BcosExecutor

open ExceptRuns

/-- What ends a computation early: an exception, an assertion that does not hold, or an access
outside of an object. -/
inductive Fault
  | thrown (e : Exc)
  | assertion
  | undefined
  deriving DecidableEq, Repr

abbrev Checked := Except Fault

def orThrow {α : Type} : Except Exc α → Checked α
  | .ok a => .ok a
  | .error e => .error (.thrown e)

def assertThat (condition : Bool) : Checked Unit :=
  if condition then .ok () else .error .assertion

/-- What follows where there is a value; without one there is none either. -/
def ifPresent {α β : Type} (f : α → Checked (Option β)) : Option α → Checked (Option β)
  | some a => f a
  | none => .ok none

/-- Without so many bytes there is an empty reference. -/
def getCroppedData (data : Bytes) (start count : Nat) : Bytes :=
  if start + count ≤ data.length then (data.drop start).take count else []

/-- The pointer is read without a look at the size. -/
def loadUInt32 : Bytes → Checked UInt32
  | b₀ :: b₁ :: b₂ :: b₃ :: _ =>
    .ok (b₀.toUInt32 ||| b₁.toUInt32 <<< 8 ||| b₂.toUInt32 <<< 16 ||| b₃.toUInt32 <<< 24)
  | _ => .error .undefined

def getParamFunc (param : Bytes) : Checked UInt32 := do
  let func ← loadUInt32 (getCroppedData param 0 4)
  return ((func &&& 0x000000FF) <<< 24) ||| ((func &&& 0x0000FF00) <<< 8) |||
    ((func &&& 0x00FF0000) >>> 8) ||| ((func &&& 0xFF000000) >>> 24)

def getParamData (param : Bytes) : Bytes :=
  param.drop 4

example : getParamFunc [0x12, 0x34, 0x56, 0x78, 0x9a] = .ok 0x12345678 := rfl

section

variable {α β : Type}

theorem ifPresent_bind_eq_ok {x : Checked (Option α)} {f : α → Checked (Option β)} {P : Prop}
    {Q : α → Prop} (hx : (∃ a, x = .ok a) ↔ P)
    (hf : ∀ a, x = .ok (some a) → ((∃ b, f a = .ok b) ↔ Q a)) :
    (∃ b, (x >>= ifPresent f) = .ok b) ↔ P ∧ ∀ a, x = .ok (some a) → Q a := by
  rw [ok_bind_iff, ← hx]
  constructor
  · rintro ⟨found, hfound, h⟩
    refine ⟨⟨found, hfound⟩, fun a ha => ?_⟩
    cases hfound.symm.trans ha
    exact (hf a ha).mp h
  · rintro ⟨⟨found, hfound⟩, h⟩
    refine ⟨found, hfound, ?_⟩
    cases found with
    | none => exact ⟨none, rfl⟩
    | some a => exact (hf a hfound).mpr (h a hfound)

theorem ifPresent_bind_eq_some {x : Checked (Option α)} {f : α → Checked (Option β)} {b : β}
    (h : (x >>= ifPresent f) = .ok (some b)) : ∃ a, x = .ok (some a) ∧ f a = .ok (some b) := by
  cases x with
  | error fault => cases h
  | ok found =>
    cases found with
    | none => cases h
    | some a => exact ⟨a, rfl, h⟩

theorem assertThat_bind_eq_ok {condition : Bool} {f : Unit → Checked β} :
    (∃ b, (assertThat condition >>= f) = .ok b) ↔ condition = true ∧ ∃ b, f () = .ok b := by
  cases condition with
  | true => exact ⟨fun h => ⟨rfl, h⟩, And.right⟩
  | false => exact ⟨nofun, nofun⟩

theorem orThrow_eq_ok {x : Except Exc α} {a : α} : orThrow x = .ok a ↔ x = .ok a := by
  cases x with
  | error e => exact ⟨nofun, nofun⟩
  | ok a' => exact ⟨fun h => by cases h; rfl, fun h => by cases h; rfl⟩

end

theorem length_getCroppedData (data : Bytes) (count : Nat) :
    (getCroppedData data 0 count).length = if count ≤ data.length then count else 0 := by
  unfold getCroppedData
  rw [Nat.zero_add]
  split
  next h => simp [h]
  next => rfl

end BcosExecutor
