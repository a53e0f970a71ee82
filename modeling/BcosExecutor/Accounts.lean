import Mathlib.Algebra.BigOperators.Group.Finset.Basic
import Mathlib.Algebra.Ring.Nat

namespace Accounts

variable {κ α : Type*} [DecidableEq κ]

/-- The keys at which a table has an account, and no others. -/
def Holds (table : κ → Option α) (keys : Finset κ) : Prop :=
  ∀ key, key ∈ keys ↔ (table key).isSome = true

section

variable (value : α → Nat) (table : κ → Option α)

/-- What is held at a key, nothing where there is no account. -/
def valueAt (key : κ) : Nat :=
  (table key).elim 0 value

def total (keys : Finset κ) : Nat :=
  ∑ key ∈ keys, valueAt value table key

end

variable {value : α → Nat} {table : κ → Option α} {keys : Finset κ}

theorem holds_update (h : Holds table keys) (key : κ) (account : α) :
    Holds (Function.update table key (some account)) (insert key keys) := by
  intro key'
  rw [Finset.mem_insert]
  by_cases hkey : key' = key
  · rw [hkey, Function.update_self]
    exact ⟨fun _ => rfl, fun _ => .inl rfl⟩
  · rw [Function.update_of_ne hkey, ← h key']
    exact ⟨fun hmem => hmem.resolve_left hkey, .inr⟩

/-- The total is what is held at one key and the total of the other ones. -/
theorem total_eq_add_erase (value : α → Nat) (h : Holds table keys) (key : κ) :
    total value table keys = valueAt value table key + total value table (keys.erase key) := by
  by_cases hmem : key ∈ keys
  · exact (Finset.add_sum_erase keys (valueAt value table) hmem).symm
  · have hnone : table key = none := by
      rw [h key, Option.not_isSome_iff_eq_none] at hmem
      exact hmem
    have hzero : valueAt value table key = 0 := by
      unfold valueAt
      rw [hnone]
      rfl
    rw [hzero, Nat.zero_add, Finset.erase_eq_of_notMem hmem]

omit [DecidableEq κ] in
theorem total_congr {table' : κ → Option α} (h : ∀ key ∈ keys, table' key = table key) :
    total value table' keys = total value table keys := by
  refine Finset.sum_congr rfl fun key hkey => ?_
  unfold valueAt
  rw [h key hkey]

@[simp] theorem valueAt_update (key : κ) (account : α) :
    valueAt value (Function.update table key (some account)) key = value account := by
  unfold valueAt
  rw [Function.update_self]
  rfl

theorem valueAt_update_of_ne {key key' : κ} (h : key' ≠ key) (account : α) :
    valueAt value (Function.update table key (some account)) key' = valueAt value table key' := by
  unfold valueAt
  rw [Function.update_of_ne h]

/-- A write changes the total by what it puts in place of what was there. -/
theorem total_update (value : α → Nat) (h : Holds table keys) (key : κ) (account : α) :
    total value (Function.update table key (some account)) (insert key keys) +
      valueAt value table key = total value table keys + value account := by
  have hnew := total_eq_add_erase value (holds_update h key account) key
  have hrest : total value (Function.update table key (some account)) (keys.erase key) =
      total value table (keys.erase key) :=
    total_congr fun key' hkey' => Function.update_of_ne (Finset.ne_of_mem_erase hkey') _ _
  rw [valueAt_update, Finset.erase_insert_eq_erase, hrest] at hnew
  rw [hnew, total_eq_add_erase value h key]
  omega

end Accounts
