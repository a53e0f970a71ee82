import Mathlib.Data.List.Perm.Basic
import Mathlib.Data.List.Pairwise

namespace Commuting

variable {α σ : Type*} {f : σ → α → σ}

/-- An action moves in front of a block of actions it commutes with. -/
theorem foldl_move_front {l₁ l₂ : List α} {a : α}
    (comm : ∀ b ∈ l₁, ∀ s, f (f s b) a = f (f s a) b) (s : σ) :
    (l₁ ++ a :: l₂).foldl f s = (l₁ ++ l₂).foldl f (f s a) := by
  induction l₁ generalizing s with
  | nil => rfl
  | cons b l₁ ih =>
    simp only [List.cons_append, List.foldl_cons]
    rw [ih (fun c hc => comm c (by simp [hc])), comm b (by simp)]

/-- Two orders of the same actions that agree on the conflicting pairs have one result. -/
theorem foldl_eq_of_conflicts_ordered (conflict lt : α → α → Prop)
    (asymm : ∀ a b, lt a b → ¬ lt b a) {l r : List α} (perm : l.Perm r) (hr : r.Pairwise lt)
    (hl : l.Pairwise fun x y => conflict x y → lt x y)
    (comm : ∀ a ∈ l, ∀ b ∈ l, ¬ conflict a b → ∀ s, f (f s a) b = f (f s b) a) (s : σ) :
    l.foldl f s = r.foldl f s := by
  induction r generalizing l s with
  | nil => rw [List.perm_nil.mp perm]
  | cons a r ih =>
    obtain ⟨l₁, l₂, rfl⟩ := List.append_of_mem (perm.mem_iff.mpr List.mem_cons_self)
    have hperm : (l₁ ++ l₂).Perm r := (List.perm_middle.symm.trans perm).cons_inv
    obtain ⟨h₁, h₂, hcross⟩ := List.pairwise_append.mp hl
    obtain ⟨hfirst, hrest⟩ := List.pairwise_cons.mp hr
    have free : ∀ b ∈ l₁, ∀ s, f (f s b) a = f (f s a) b := by
      intro b hb
      refine comm b (by simp [hb]) a (by simp) fun hc => ?_
      have hab := hfirst b (hperm.mem_iff.mp (by simp [hb]))
      exact asymm a b hab (hcross b hb a (by simp) hc)
    have hsub : (l₁ ++ l₂).Sublist (l₁ ++ a :: l₂) :=
      List.Sublist.append_left (List.sublist_cons_self a l₂) l₁
    rw [foldl_move_front free, List.foldl_cons]
    exact ih hperm hrest (hl.sublist hsub)
      (fun x hx y hy => comm x (hsub.subset hx) y (hsub.subset hy)) (f s a)

/-- An action moves behind a block of actions it commutes with. -/
theorem foldl_move_back {Inv : σ → Prop} (keep : ∀ s a, Inv s → Inv (f s a)) {l : List α} {a : α}
    (comm : ∀ b ∈ l, ∀ s, Inv s → f (f s a) b = f (f s b) a) {s : σ} (hs : Inv s) :
    l.foldl f (f s a) = f (l.foldl f s) a := by
  induction l generalizing s with
  | nil => rfl
  | cons b l ih =>
    obtain ⟨hb, hl⟩ := List.forall_mem_cons.mp comm
    rw [List.foldl_cons, List.foldl_cons, hb s hs]
    exact ih hl (keep s b hs)

/-- The actions of one kind come first when they commute with the others that stand before
them. -/
theorem foldl_partition {Inv : σ → Prop} (keep : ∀ s a, Inv s → Inv (f s a)) {p : α → Bool}
    {l : List α} (comm : l.Pairwise fun a b => p a = false → p b = true →
      ∀ s, Inv s → f (f s a) b = f (f s b) a) {s : σ} (hs : Inv s) :
    l.foldl f s = (l.filter (!p ·)).foldl f ((l.filter p).foldl f s) := by
  induction l generalizing s with
  | nil => rfl
  | cons a l ih =>
    obtain ⟨hfirst, hrest⟩ := List.pairwise_cons.mp comm
    rw [List.foldl_cons, ih hrest (keep s a hs)]
    cases ha : p a with
    | true => simp only [List.filter_cons, ha, if_true, Bool.not_true, Bool.false_eq_true,
        if_false, List.foldl_cons]
    | false =>
      have hback : (l.filter p).foldl f (f s a) = f ((l.filter p).foldl f s) a :=
        foldl_move_back keep (fun b hb => hfirst b (List.mem_filter.mp hb).1 ha
          (List.mem_filter.mp hb).2) hs
      simp only [List.filter_cons, ha, if_true, Bool.not_false, Bool.false_eq_true, if_false,
        List.foldl_cons, hback]

end Commuting
