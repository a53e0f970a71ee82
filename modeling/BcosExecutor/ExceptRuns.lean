import Mathlib.Data.List.Forall2

namespace ExceptRuns

variable {ε α β γ : Type}

theorem bind_eq_ok {x : Except ε α} {f : α → Except ε β} {b : β} :
    (x >>= f) = .ok b ↔ ∃ a, x = .ok a ∧ f a = .ok b := by
  cases x with
  | error e => simp [bind, Except.bind]
  | ok a => simp [bind, Except.bind]

theorem ok_bind_iff {x : Except ε α} {f : α → Except ε β} :
    (∃ b, (x >>= f) = .ok b) ↔ ∃ a, x = .ok a ∧ ∃ b, f a = .ok b := by
  simp only [bind_eq_ok]
  constructor
  · rintro ⟨b, a, ha, hb⟩
    exact ⟨a, ha, b, hb⟩
  · rintro ⟨a, ha, b, hb⟩
    exact ⟨b, a, ha, hb⟩

/-- Two steps that can fail, where the second one's condition does not depend on the first. -/
theorem bind_eq_ok_and {x : Except ε α} {f : α → Except ε β} {P Q : Prop}
    (hx : (∃ a, x = .ok a) ↔ P) (hf : ∀ a, x = .ok a → ((∃ b, f a = .ok b) ↔ Q)) :
    (∃ b, (x >>= f) = .ok b) ↔ P ∧ Q := by
  rw [ok_bind_iff, ← hx]
  constructor
  · rintro ⟨a, ha, h⟩
    exact ⟨⟨a, ha⟩, (hf a ha).mp h⟩
  · rintro ⟨⟨a, ha⟩, h⟩
    exact ⟨a, ha, (hf a ha).mpr h⟩

/-- A list goes through exactly when each of its entries does. -/
theorem mapM_eq_ok {f : α → Except ε β} {xs : List α} :
    (∃ ys, xs.mapM f = .ok ys) ↔ ∀ x ∈ xs, ∃ y, f x = .ok y := by
  induction xs with
  | nil => exact ⟨fun _ => nofun, fun _ => ⟨[], rfl⟩⟩
  | cons x xs ih =>
    simp only [List.mapM_cons, ok_bind_iff, List.forall_mem_cons, ← ih]
    constructor
    · rintro ⟨y, hy, ys, hys, _⟩
      exact ⟨⟨y, hy⟩, ys, hys⟩
    · rintro ⟨⟨y, hy⟩, ys, hys⟩
      exact ⟨y, hy, ys, hys, _, rfl⟩

theorem mapM_ok_forall2 {f : α → Except ε β} {l : List α} {r : List β} (h : l.mapM f = .ok r) :
    List.Forall₂ (fun a b => f a = .ok b) l r := by
  induction l generalizing r with
  | nil => cases h; exact .nil
  | cons a l ih =>
    rw [List.mapM_cons] at h
    obtain ⟨b, hb, h⟩ := bind_eq_ok.mp h
    obtain ⟨bs, hbs, h⟩ := bind_eq_ok.mp h
    cases h
    exact .cons hb (ih hbs)

theorem mapM_of_forall2 {f : α → Except ε β} {l : List α} {r : List β}
    (h : List.Forall₂ (fun a b => f a = .ok b) l r) : l.mapM f = .ok r := by
  induction h with
  | nil => rfl
  | cons ha _ ih =>
    rw [List.mapM_cons, ha, ih]
    rfl

/-- There is one error that a run can end with. -/
def FailsOnlyWith (e : ε) (x : Except ε α) : Prop :=
  ∀ e', x = .error e' → e' = e

theorem failsOnlyWith_ok (e : ε) (a : α) : FailsOnlyWith e (.ok a : Except ε α) := nofun

theorem FailsOnlyWith.bind {e : ε} {x : Except ε α} {f : α → Except ε β}
    (hx : FailsOnlyWith e x) (hf : ∀ a, FailsOnlyWith e (f a)) : FailsOnlyWith e (x >>= f) := by
  cases x with
  | error e' =>
    intro e'' h
    cases h
    exact hx e' rfl
  | ok a => exact hf a

theorem FailsOnlyWith.mapM {e : ε} {f : α → Except ε β} (hf : ∀ a, FailsOnlyWith e (f a))
    (l : List α) : FailsOnlyWith e (l.mapM f) := by
  induction l with
  | nil => exact failsOnlyWith_ok e []
  | cons a l ih =>
    rw [List.mapM_cons]
    exact (hf a).bind fun b => ih.bind fun bs => failsOnlyWith_ok e (b :: bs)

theorem FailsOnlyWith.eq_error {e : ε} {x : Except ε α} (h : FailsOnlyWith e x)
    (hnot : ¬∃ a, x = .ok a) : x = .error e := by
  cases x with
  | error e' => rw [h e' rfl]
  | ok a => exact absurd ⟨a, rfl⟩ hnot

theorem mapM_map (f : β → γ) (g : α → Except ε β) (l : List α) :
    l.mapM (fun a => (g a).map f) = (l.mapM g).map (List.map f) := by
  induction l with
  | nil => rfl
  | cons a l ih =>
    simp only [List.mapM_cons, ih]
    cases g a with
    | error e => rfl
    | ok b => cases l.mapM g <;> rfl

end ExceptRuns
