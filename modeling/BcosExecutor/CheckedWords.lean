import Mathlib.Algebra.Ring.Int.Defs
import Mathlib.Algebra.Group.Nat.Defs

namespace CheckedWords

/-- A number where it is a signed word of 64 bits. -/
def signed (n : Int) : Option Int :=
  if -2 ^ 63 ≤ n ∧ n < 2 ^ 63 then some n else none

/-- A number where it is an unsigned word of 64 bits. -/
def unsigned (n : Nat) : Option Nat :=
  if n < 2 ^ 64 then some n else none

theorem signed_of_bounds {n : Int} (hl : -2 ^ 63 ≤ n) (hu : n < 2 ^ 63) : signed n = some n :=
  if_pos ⟨hl, hu⟩

theorem unsigned_of_lt {n : Nat} (h : n < 2 ^ 64) : unsigned n = some n :=
  if_pos h

theorem unsigned_of_le {n : Nat} (h : 2 ^ 64 ≤ n) : unsigned n = none :=
  if_neg (Nat.not_lt_of_le h)

/-- The word that a number is stored as is the number itself where nothing is lost. -/
theorem bmod_of_bounds {n : Int} (hl : -2 ^ 63 ≤ n) (hu : n < 2 ^ 63) : n.bmod (2 ^ 64) = n := by
  apply Int.bmod_eq_of_le
  · omega
  · omega

/-- A conversion to a signed word that stays at the ends of the range. -/
def saturate (n : Int) : Int :=
  max (-2 ^ 63) (min n (2 ^ 63 - 1))

theorem saturate_nonneg {n : Int} (h : 0 ≤ n) : 0 ≤ saturate n := by
  unfold saturate
  omega

theorem saturate_lt (n : Int) : saturate n < 2 ^ 63 := by
  unfold saturate
  omega

section

variable {α : Type*} {product : α → Int} {bound : Int}

/-- A sum of bounded products, each product and each partial sum checked. -/
theorem foldlM_signed (hp : ∀ a, 0 ≤ product a ∧ product a ≤ bound) (l : List α) (total : Int)
    (ht : 0 ≤ total) (hl : total + l.length * bound < 2 ^ 63) :
    l.foldlM (fun total a => do
        let p ← signed (product a)
        signed (total + p)) total = some (total + (l.map product).sum) ∧
      l.foldl (fun total a => (total + (product a).bmod (2 ^ 64)).bmod (2 ^ 64)) total =
        total + (l.map product).sum ∧
      0 ≤ (l.map product).sum ∧ (l.map product).sum ≤ l.length * bound := by
  induction l generalizing total with
  | nil =>
    have hsum : total + (List.map product []).sum = total := Int.add_zero total
    rw [hsum]
    refine ⟨rfl, rfl, Int.le_refl 0, ?_⟩
    show (0 : Int) ≤ (0 : Nat) * bound
    omega
  | cons a l ih =>
    obtain ⟨hnonneg, hle⟩ := hp a
    have hlength : ((a :: l).length : Int) * bound = l.length * bound + bound := by
      rw [List.length_cons, Int.natCast_succ, Int.add_mul, Int.one_mul]
    have hrest : 0 ≤ (l.length : Int) * bound :=
      Int.mul_nonneg (Int.natCast_nonneg _) (Int.le_trans hnonneg hle)
    rw [hlength] at hl
    obtain ⟨hchecked, hstored, hsum, hbound⟩ := ih (total + product a) (by omega) (by omega)
    have hproduct : signed (product a) = some (product a) :=
      signed_of_bounds (by omega) (by omega)
    have hsoFar : signed (total + product a) = some (total + product a) :=
      signed_of_bounds (by omega) (by omega)
    have hmap : (List.map product (a :: l)).sum = product a + (l.map product).sum := rfl
    rw [hmap, hlength]
    refine ⟨?_, ?_, by omega, by omega⟩
    · rw [List.foldlM_cons, hproduct]
      show (signed (total + product a) >>= _) = _
      rw [hsoFar]
      show List.foldlM _ (total + product a) l = _
      rw [hchecked, Int.add_assoc]
    · rw [List.foldl_cons, bmod_of_bounds (n := product a) (by omega) (by omega),
        bmod_of_bounds (n := total + product a) (by omega) (by omega), hstored, Int.add_assoc]

end

end CheckedWords
