import Mathlib.Data.Nat.ModEq

namespace RingPositions

variable {n head i k : Nat}

/-- Where a cursor is that has gone so many steps round a ring of `n` places. -/
def place (n head k : Nat) : Nat :=
  (head + k) % n

theorem place_zero (h : head < n) : place n head 0 = head :=
  Nat.mod_eq_of_lt h

theorem place_lt (h : 0 < n) (head k : Nat) : place n head k < n :=
  Nat.mod_lt _ h

/-- The cursor goes back to the first place behind the last one. -/
theorem place_succ (h : 0 < n) (head k : Nat) :
    place n head (k + 1) = if n ≤ place n head k + 1 then 0 else place n head k + 1 := by
  have hlt := place_lt h head k
  unfold place at hlt ⊢
  rw [← Nat.add_assoc, Nat.add_mod]
  by_cases hn : n = 1
  · subst hn
    rw [Nat.mod_one, if_pos (by omega)]
  · rw [Nat.mod_eq_of_lt (show 1 < n by omega)]
    split
    next hle =>
      rw [show (head + k) % n + 1 = n by omega]
      exact Nat.mod_self n
    next hgt => exact Nat.mod_eq_of_lt (by omega)

theorem place_add_round (n head k : Nat) : place n head (k + n) = place n head k := by
  unfold place
  rw [← Nat.add_assoc]
  exact Nat.add_mod_right _ _

theorem place_mod (n head k : Nat) : place n head (k % n) = place n head k := by
  unfold place
  rw [Nat.add_mod_mod]

/-- One round leads to every place. -/
theorem exists_place (hhead : head < n) (hi : i < n) : ∃ k < n, place n head k = i := by
  by_cases hle : head ≤ i
  · refine ⟨i - head, by omega, ?_⟩
    unfold place
    rw [Nat.add_sub_cancel' hle]
    exact Nat.mod_eq_of_lt hi
  · refine ⟨i + n - head, by omega, ?_⟩
    unfold place
    rw [show head + (i + n - head) = i + n by omega, Nat.add_mod_right]
    exact Nat.mod_eq_of_lt hi

/-- The cursor is back where it began exactly after whole rounds. -/
theorem place_eq_head (h : head < n) : place n head k = head ↔ k % n = 0 := by
  have hmod : place n head k = head ↔ head + k ≡ head + 0 [MOD n] := by
    unfold place Nat.ModEq
    rw [Nat.add_zero, Nat.mod_eq_of_lt h]
  rw [hmod]
  constructor
  · intro hround
    have hzero := Nat.ModEq.add_left_cancel' head hround
    unfold Nat.ModEq at hzero
    rw [hzero, Nat.zero_mod]
  · intro hround
    refine Nat.ModEq.add_left head ?_
    unfold Nat.ModEq
    rw [hround, Nat.zero_mod]

/-- The last place of every round is the same. -/
theorem place_last (h : 0 < n) (hk : (k + 1) % n = 0) : place n head k = place n head (n - 1) := by
  have hlt := Nat.mod_lt k h
  rw [← place_mod]
  congr 1
  rw [← Nat.mod_add_mod] at hk
  by_contra hne
  rw [Nat.mod_eq_of_lt (by omega)] at hk
  omega

end RingPositions
