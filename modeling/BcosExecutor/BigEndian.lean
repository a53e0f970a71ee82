import Mathlib.Data.List.GetD
import Mathlib.Data.Nat.Digits.Defs

namespace BigEndian

variable (b : ℕ)

/-- The number of which these are the digits, the greatest in front. -/
def value (digits : List ℕ) : ℕ :=
  Nat.ofDigits b digits.reverse

/-- So many digits from a place on, where zeroes go on past the end. -/
def window (digits : List ℕ) (start count : ℕ) : List ℕ :=
  (List.range count).map fun i => digits.getD (start + i) 0

/-- The last digits of a number, with zeroes in front. -/
def expand (n size : ℕ) : List ℕ :=
  (List.range size).map fun i => n / b ^ (size - 1 - i) % b

theorem value_append (l r : List ℕ) :
    value b (l ++ r) = value b l * b ^ r.length + value b r := by
  unfold value
  rw [List.reverse_append, Nat.ofDigits_append, List.length_reverse]
  ring

theorem value_replicate_zero (n : ℕ) : value b (List.replicate n 0) = 0 := by
  unfold value
  rw [List.reverse_replicate, Nat.ofDigits_replicate_zero]

theorem value_eq_foldl (digits : List ℕ) :
    value b digits = digits.foldl (fun n digit => n * b + digit) 0 := by
  unfold value
  rw [Nat.ofDigits_eq_foldr, List.foldr_reverse]
  congr 1
  funext n digit
  rw [Nat.cast_id, Nat.add_comm, Nat.mul_comm]

theorem window_eq (digits : List ℕ) (start count : ℕ) :
    window digits start count = (digits.drop start).take count ++
      List.replicate (count - ((digits.drop start).take count).length) 0 := by
  have hle : ((digits.drop start).take count).length ≤ count := List.length_take_le _ _
  refine List.ext_getElem ?_ fun i hi hi' => ?_
  · unfold window
    rw [List.length_map, List.length_range, List.length_append, List.length_replicate]
    omega
  · unfold window at hi ⊢
    rw [List.length_map, List.length_range] at hi
    rw [List.getElem_map, List.getElem_range, List.getElem_append]
    split
    next hlt =>
      rw [List.getElem_take, List.getElem_drop]
      exact (List.getElem_eq_getD 0).symm
    next hge =>
      rw [List.length_take, List.length_drop] at hge
      rw [List.getElem_replicate, List.getD_eq_getElem?_getD, List.getElem?_eq_none (by omega),
        Option.getD_none]

/-- The zeroes may as well be written down. -/
theorem window_append_zeroes (digits : List ℕ) (missing start count : ℕ) :
    window (digits ++ List.replicate missing 0) start count = window digits start count := by
  unfold window
  refine List.map_congr_left fun i _ => ?_
  by_cases hlt : start + i < digits.length
  · exact List.getD_append _ _ _ _ hlt
  · have hge : digits.length ≤ start + i := Nat.le_of_not_lt hlt
    rw [List.getD_append_right _ _ _ _ hge, List.getD_eq_default _ _ hge]
    exact List.getElem?_getD_replicate_default_eq _ missing _

/-- A cropped number is shifted by what is missing. -/
theorem value_window (digits : List ℕ) (start count : ℕ) :
    value b (window digits start count) = value b ((digits.drop start).take count) *
      b ^ (count - ((digits.drop start).take count).length) := by
  rw [window_eq, value_append, value_replicate_zero, List.length_replicate, Nat.add_zero]

theorem expand_succ (n size : ℕ) : expand b n (size + 1) = expand b (n / b) size ++ [n % b] := by
  unfold expand
  rw [List.range_succ, List.map_append, List.map_singleton]
  congr 1
  · refine List.map_congr_left fun i hi => ?_
    have hlt := List.mem_range.mp hi
    rw [Nat.div_div_eq_div_mul, ← Nat.pow_succ', show size + 1 - 1 - i = size - 1 - i + 1 by omega]
  · rw [show size + 1 - 1 - size = 0 by omega, Nat.pow_zero, Nat.div_one]

theorem value_expand {n size : ℕ} (h : n < b ^ size) : value b (expand b n size) = n := by
  induction size generalizing n with
  | zero =>
    rw [Nat.pow_zero, Nat.lt_one_iff] at h
    rw [h]
    rfl
  | succ size ih =>
    have hquotient : n / b < b ^ size := Nat.div_lt_of_lt_mul (by rwa [← Nat.pow_succ'])
    rw [expand_succ, value_append, ih hquotient, List.length_singleton, Nat.pow_one]
    have hlast : value b [n % b] = n % b := by
      unfold value
      rw [List.reverse_singleton, Nat.ofDigits_singleton]
    rw [hlast, Nat.mul_comm]
    exact Nat.div_add_mod n b

end BigEndian
