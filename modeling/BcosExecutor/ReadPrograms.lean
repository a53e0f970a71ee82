import BcosExecutor.BuiltSizes

/-- Programs that read at positions of a memory and record the size of what they build, and that
end where a check fails. -/
inductive Reading (γ α : Type) : Type
  | done (a : α)
  | stop
  | build (size : Nat) (k : Reading γ α)
  | read (i : Nat) (k : γ → Reading γ α)

namespace Reading

variable {γ α β : Type}

def bind : Reading γ α → (α → Reading γ β) → Reading γ β
  | done a, f => f a
  | stop, _ => stop
  | build size k, f => build size (k.bind f)
  | read i k, f => read i fun entry => (k entry).bind f

instance : Monad (Reading γ) where
  pure := done
  bind := bind

def sized (size : Nat) : Reading γ Unit :=
  build size (done ())

def check (p : Prop) [Decidable p] : Reading γ Unit :=
  if p then done () else stop

def readAt (i : Nat) : Reading γ γ :=
  read i done

def readRange : Nat → Nat → Reading γ (List γ)
  | _, 0 => pure []
  | start, count + 1 => do
    let entry ← readAt start
    let entries ← readRange (start + 1) count
    return entry :: entries

/-- What a program comes to over a memory. -/
def run (memory : Nat → γ) : Reading γ α → Building α
  | done a => Pure.pure a
  | stop => fun _ => none
  | build size k => Building.build size >>= fun _ => k.run memory
  | read i k => (k (memory i)).run memory

/-- All positions that are read over a memory are good ones. -/
def Inside (memory : Nat → γ) (P : Nat → Prop) : Reading γ α → Prop
  | done _ => True
  | stop => True
  | build _ k => k.Inside memory P
  | read i k => P i ∧ (k (memory i)).Inside memory P

variable {memory : Nat → γ} {P : Nat → Prop} {m : Reading γ α} {f : α → Reading γ β}

@[simp] theorem run_pure (a : α) :
    (Pure.pure a : Reading γ α).run memory = (Pure.pure a : Building α) := rfl

@[simp] theorem run_bind (m : Reading γ α) (f : α → Reading γ β) :
    (m >>= f).run memory = m.run memory >>= fun a => (f a).run memory := by
  induction m with
  | done a => exact (pure_bind a fun a => (f a).run memory).symm
  | stop => rfl
  | build size k ih =>
    show (Building.build size >>= fun _ => (k >>= f).run memory) = _
    rw [ih]
    exact (bind_assoc _ _ _).symm
  | read i k ih => exact ih (memory i)

@[simp] theorem run_ite (p : Prop) [Decidable p] (m m' : Reading γ α) :
    (if p then m else m').run memory = if p then m.run memory else m'.run memory :=
  apply_ite (run memory) p m m'

@[simp] theorem run_sized (size : Nat) :
    (sized size : Reading γ Unit).run memory = Building.build size :=
  bind_pure (Building.build size)

@[simp] theorem run_check (p : Prop) [Decidable p] :
    (check p : Reading γ Unit).run memory = Building.check p := by
  unfold check
  by_cases hp : p
  · rw [if_pos hp]
    funext sizes
    exact (if_pos hp).symm
  · rw [if_neg hp]
    funext sizes
    exact (if_neg hp).symm

@[simp] theorem run_readAt (i : Nat) :
    (readAt i : Reading γ γ).run memory = (Pure.pure (memory i) : Building γ) := rfl

@[simp] theorem run_readRange (start count : Nat) :
    (readRange start count : Reading γ (List γ)).run memory =
      (Pure.pure ((List.range' start count).map memory) : Building (List γ)) := by
  induction count generalizing start with
  | zero => rfl
  | succ count ih =>
    rw [readRange, run_bind, run_readAt, pure_bind, run_bind, ih, pure_bind]
    rfl

theorem inside_pure (a : α) : (Pure.pure a : Reading γ α).Inside memory P := trivial

theorem inside_bind (hm : m.Inside memory P) (hf : ∀ a, (f a).Inside memory P) :
    (m >>= f).Inside memory P := by
  induction m with
  | done a => exact hf a
  | stop => trivial
  | build size k ih => exact ih hm
  | read i k ih => exact ⟨hm.1, ih (memory i) hm.2⟩

theorem inside_of_bind (h : (m >>= f).Inside memory P) : m.Inside memory P := by
  induction m with
  | done a => trivial
  | stop => trivial
  | build size k ih => exact ih h
  | read i k ih => exact ⟨h.1, ih (memory i) h.2⟩

theorem inside_ite {p : Prop} [Decidable p] {m m' : Reading γ α} (hm : p → m.Inside memory P)
    (hm' : ¬p → m'.Inside memory P) : (if p then m else m').Inside memory P := by
  split
  next h => exact hm h
  next h => exact hm' h

theorem inside_sized (size : Nat) : (sized size : Reading γ Unit).Inside memory P := trivial

theorem inside_check (p : Prop) [Decidable p] : (check p : Reading γ Unit).Inside memory P := by
  unfold check
  split
  · trivial
  · trivial

theorem inside_readAt {i : Nat} (h : P i) : (readAt i : Reading γ γ).Inside memory P :=
  ⟨h, trivial⟩

theorem inside_readRange_iff (start count : Nat) :
    (readRange start count : Reading γ (List γ)).Inside memory P ↔
      ∀ i, start ≤ i → i < start + count → P i := by
  induction count generalizing start with
  | zero => exact iff_of_true trivial fun i hle hlt => by omega
  | succ count ih =>
    have hrest := ih (start + 1)
    constructor
    · rintro ⟨hfirst, htail⟩ i hle hlt
      obtain rfl | hne := eq_or_ne i start
      · exact hfirst
      · exact hrest.mp (inside_of_bind htail) i (by omega) (by omega)
    · intro h
      apply inside_bind (inside_readAt (h start (Nat.le_refl _) (by omega)))
      intro entry
      apply inside_bind (hrest.mpr fun i hle hlt => h i (by omega) (by omega))
      intro entries
      exact inside_pure _

end Reading
