import Mathlib.Logic.Function.Basic

namespace UndoLog

variable {Key Val : Type} [DecidableEq Key]

/-- The overwritten values of a store, the latest first. -/
abbrev Log (Key Val : Type) := List (Key × Val)

/-- The value that was noted first for a key, which is the one an undo ends with. -/
def first : Log Key Val → Key → Option Val
  | [], _ => none
  | (key, val) :: rest, k => (first rest k).or (if key = k then some val else none)

def note (store : Key → Val) (log : Log Key Val) (key : Key) : Log Key Val :=
  (key, store key) :: log

def undo (log : Log Key Val) (store : Key → Val) : Key → Val :=
  log.foldl (fun store note => Function.update store note.1 note.2) store

theorem first_note (store : Key → Val) (log : Log Key Val) (key k : Key) :
    first (note store log key) k =
      (first log k).or (if key = k then some (store k) else none) := by
  by_cases h : key = k
  · subst h
    simp [note, first]
  · simp [note, first, h]

theorem undo_apply (log : Log Key Val) (store : Key → Val) (k : Key) :
    undo log store k = (first log k).getD (store k) := by
  induction log generalizing store with
  | nil => rfl
  | cons entry rest ih =>
    obtain ⟨key, val⟩ := entry
    have h := ih (Function.update store key val)
    simp only [undo, List.foldl_cons] at h ⊢
    rw [h]
    by_cases hk : key = k
    · subst hk
      cases hf : first rest key <;> simp [first, hf]
    · cases hf : first rest k <;> simp [first, hf, hk, Function.update_of_ne (Ne.symm hk)]

end UndoLog
