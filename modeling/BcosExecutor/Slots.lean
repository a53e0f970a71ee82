import Mathlib.Data.List.Perm.Basic
import Mathlib.Data.List.Basic

namespace Slots

variable {α β : Type*}

/-- A loop whose body changes the slot of its own number, in the order in which the bodies
ran. -/
def run (body : Nat → α → α) (order : List Nat) (slots : List α) : List α :=
  order.foldl (fun slots i => slots.modify i (body i)) slots

@[simp] theorem length_run (body : Nat → α → α) (order : List Nat) (slots : List α) :
    (run body order slots).length = slots.length := by
  induction order generalizing slots with
  | nil => rfl
  | cons i order ih => exact (ih _).trans (List.length_modify ..)

theorem getElem?_run_of_notMem (body : Nat → α → α) {order : List Nat} {i : Nat}
    (h : i ∉ order) (slots : List α) : (run body order slots)[i]? = slots[i]? := by
  induction order generalizing slots with
  | nil => rfl
  | cons j order ih =>
    obtain ⟨hj, hi⟩ := not_or.mp (List.mem_cons.not.mp h)
    exact (ih hi _).trans (List.getElem?_modify_ne _ slots (Ne.symm hj))

/-- The order of the bodies is of no importance to a slot. -/
theorem getElem?_run (body : Nat → α → α) {order : List Nat} (nodup : order.Nodup) (i : Nat)
    (slots : List α) : (run body order slots)[i]? =
      if i ∈ order then slots[i]?.map (body i) else slots[i]? := by
  induction order generalizing slots with
  | nil => rfl
  | cons j order ih =>
    obtain ⟨hj, nodup⟩ := List.nodup_cons.mp nodup
    by_cases hi : i = j
    · subst hi
      refine (getElem?_run_of_notMem body hj _).trans ?_
      rw [List.getElem?_modify, if_pos List.mem_cons_self]
      simp
    · refine (ih nodup _).trans ?_
      have hmem : i ∈ j :: order ↔ i ∈ order := by simp [hi]
      simp only [hmem, List.getElem?_modify_ne _ slots (Ne.symm hi)]

theorem modify_comm (body : Nat → α → α) {i j : Nat} (slots : List α) :
    (slots.modify i (body i)).modify j (body j) = (slots.modify j (body j)).modify i (body i) := by
  refine List.ext_getElem? fun k => ?_
  simp only [List.getElem?_modify]
  by_cases hij : i = j
  · rw [hij]
  · by_cases hi : i = k
    · subst hi
      simp [Ne.symm hij]
    · simp [hi]

end Slots
