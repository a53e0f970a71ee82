import Mathlib.Algebra.Group.Nat.Defs
import Mathlib.Data.Nat.Size
import Mathlib.Data.List.Basic

/-- Programs that record the size of what they build and end where a check fails. -/
abbrev Building (α : Type) := StateT (List Nat) Option α

namespace Building

variable {α β : Type}

def build (size : Nat) : Building Unit := fun sizes => some ((), sizes ++ [size])

def check (p : Prop) [Decidable p] : Building Unit := fun sizes =>
  if p then some ((), sizes) else none

/-- A value is reached and nothing above the bound is built on the way. -/
def Reaches (m : Building α) (a : α) (bound : Nat) : Prop :=
  ∀ sizes, ∃ built, m sizes = some (a, sizes ++ built) ∧ ∀ size ∈ built, size ≤ bound

def Fails (m : Building α) : Prop :=
  ∀ sizes, m sizes = none

/-- The value that is come to, where no check fails. -/
def outcome (m : Building α) : Option α :=
  (m []).map Prod.fst

variable {m : Building α} {f : α → Building β} {a : α} {b : β} {bound bound' : Nat}

theorem reaches_pure (a : α) (bound : Nat) : Reaches (pure a) a bound := by
  intro sizes
  exact ⟨[], by rw [List.append_nil]; rfl, by simp⟩

theorem reaches_build {size : Nat} (h : size ≤ bound) : Reaches (build size) () bound := by
  intro sizes
  refine ⟨[size], rfl, fun size' hsize => ?_⟩
  rwa [List.mem_singleton.mp hsize]

theorem reaches_check {p : Prop} [Decidable p] (h : p) (bound : Nat) :
    Reaches (check p) () bound := by
  intro sizes
  refine ⟨[], ?_, by simp⟩
  rw [List.append_nil]
  exact if_pos h

theorem fails_check {p : Prop} [Decidable p] (h : ¬p) : Fails (check p) :=
  fun _ => if_neg h

theorem Reaches.bind (hm : Reaches m a bound) (hf : Reaches (f a) b bound) :
    Reaches (m >>= f) b bound := by
  intro sizes
  obtain ⟨built, hrun, hbuilt⟩ := hm sizes
  obtain ⟨built', hrun', hbuilt'⟩ := hf (sizes ++ built)
  refine ⟨built ++ built', ?_, fun size hsize => ?_⟩
  · show (m sizes).bind (fun x => f x.1 x.2) = _
    rw [hrun, Option.bind_some, hrun', List.append_assoc]
  · rcases List.mem_append.mp hsize with h | h
    · exact hbuilt size h
    · exact hbuilt' size h

theorem Reaches.bind_fails (hm : Reaches m a bound) (hf : Fails (f a)) : Fails (m >>= f) := by
  intro sizes
  obtain ⟨built, hrun, -⟩ := hm sizes
  show (m sizes).bind (fun x => f x.1 x.2) = none
  rw [hrun, Option.bind_some]
  exact hf _

theorem Fails.bind (hm : Fails m) (f : α → Building β) : Fails (m >>= f) := by
  intro sizes
  show (m sizes).bind (fun x => f x.1 x.2) = none
  rw [hm sizes, Option.bind_none]

theorem Reaches.mono (h : Reaches m a bound) (hle : bound ≤ bound') : Reaches m a bound' := by
  intro sizes
  obtain ⟨built, hrun, hbuilt⟩ := h sizes
  exact ⟨built, hrun, fun size hsize => Nat.le_trans (hbuilt size hsize) hle⟩

theorem Reaches.outcome_eq (h : Reaches m a bound) : m.outcome = some a := by
  obtain ⟨built, hrun, -⟩ := h []
  unfold outcome
  rw [hrun, Option.map_some]

theorem Fails.outcome_eq (h : Fails m) : m.outcome = none := by
  unfold outcome
  rw [h [], Option.map_none]

/-- The bytes of a number. -/
def byteSize (n : Nat) : Nat :=
  (n.size + 7) / 8

theorem byteSize_le {n count : Nat} (h : n < 256 ^ count) : byteSize n ≤ count := by
  have hbits : n < 2 ^ (8 * count) := by
    rw [Nat.pow_mul]
    exact h
  have hsize := Nat.size_le.mpr hbits
  unfold byteSize
  omega

end Building
