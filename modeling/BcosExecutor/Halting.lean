import Mathlib.Logic.Relation
import Mathlib.Order.WellFounded

namespace Halting

open Relation (ReflTransGen TransGen)

variable {C D R : Type*} {step : C → C ⊕ R}

/-- One step of a deterministic machine that has not stopped. -/
def Next (step : C → C ⊕ R) (c c' : C) : Prop :=
  step c = .inl c'

/-- The machine stops with the result. -/
inductive Evaluates (step : C → C ⊕ R) : C → R → Prop
  | stop {c r} : step c = .inr r → Evaluates step c r
  | next {c c' r} : Next step c c' → Evaluates step c' r → Evaluates step c r

theorem Evaluates.unique {c : C} {r r' : R} (h : Evaluates step c r) (h' : Evaluates step c r') :
    r = r' := by
  induction h with
  | stop hstop =>
    cases h' with
    | stop hstop' => exact Sum.inr.inj (hstop.symm.trans hstop')
    | next hnext _ => cases hstop.symm.trans hnext
  | next hnext _ ih =>
    cases h' with
    | stop hstop => cases hnext.symm.trans hstop
    | next hnext' h' => exact ih (Sum.inl.inj (hnext'.symm.trans hnext) ▸ h')

theorem Evaluates.of_reach {c c' : C} {r : R} (reach : ReflTransGen (Next step) c c')
    (h : Evaluates step c' r) : Evaluates step c r := by
  induction reach using ReflTransGen.head_induction_on with
  | refl => exact h
  | head hnext _ ih => exact .next hnext ih

/-- What the machine comes to within the fuel. -/
def run (step : C → C ⊕ R) : Nat → C → Option R
  | 0, _ => none
  | fuel + 1, c =>
    match step c with
    | .inl c' => run step fuel c'
    | .inr r => some r

theorem Next.unique {c c' c'' : C} (h : Next step c c') (h' : Next step c c'') : c' = c'' :=
  Sum.inl.inj (h.symm.trans h')

/-- What holds of a configuration as soon as it holds of all that follow holds of one from which the
machine stops. -/
theorem Evaluates.strongInduction {P : C → Prop} {c : C} {r : R} (h : Evaluates step c r)
    (ih : ∀ c, Evaluates step c r → (∀ c', TransGen (Next step) c c' → P c') → P c) : P c := by
  suffices hall : ∀ c', ReflTransGen (Next step) c c' → P c' from hall c .refl
  induction h with
  | @stop c r hstop =>
    have hnone : ∀ c', ¬Next step c c' := fun c' hnext => nomatch hstop.symm.trans hnext
    intro c' hreach
    rcases ReflTransGen.cases_head hreach with rfl | ⟨c₁, hnext, -⟩
    · refine ih c (.stop hstop) fun c' htrans => ?_
      obtain ⟨c₁, hnext, -⟩ := TransGen.head'_iff.mp htrans
      exact absurd hnext (hnone c₁)
    · exact absurd hnext (hnone c₁)
  | @next c c₁ r hnext heval ihc =>
    intro c' hreach
    rcases ReflTransGen.cases_head hreach with rfl | ⟨c₂, hnext', hreach'⟩
    · refine ih c (.next hnext heval) fun c' htrans => ?_
      obtain ⟨c₂, hnext', hreach'⟩ := TransGen.head'_iff.mp htrans
      exact ihc ih c' (hnext.unique hnext' ▸ hreach')
    · exact ihc ih c' (hnext.unique hnext' ▸ hreach')

/-- A machine whose steps come nearer to an end stops. -/
theorem exists_evaluates (Inv : C → Prop) {lt : C → C → Prop} (wf : WellFounded lt)
    (keep : ∀ c c', Inv c → Next step c c' → Inv c' ∧ lt c' c) (c : C) (hc : Inv c) :
    ∃ r, Evaluates step c r := by
  induction c using wf.induction with
  | _ c ih =>
    cases hstep : step c with
    | inr r => exact ⟨r, .stop hstep⟩
    | inl c' =>
      obtain ⟨hinv, hlt⟩ := keep c c' hc hstep
      obtain ⟨r, hr⟩ := ih c' hlt hinv
      exact ⟨r, .next hstep hr⟩

/-- What a machine comes to is told of one that follows it, with any number of steps for each of
its own, unless that one has stopped before. -/
theorem Evaluates.transfer (stepD : D → D ⊕ R) (Sim : C → D → Prop) (P : R → D → Prop)
    (back : ∀ r d d', Next stepD d d' → P r d' → P r d)
    (next : ∀ c d c', Sim c d → Next step c c' →
      (∃ d', ReflTransGen (Next stepD) d d' ∧ Sim c' d') ∨ ∀ r, P r d)
    (stop : ∀ c d r, Sim c d → step c = .inr r → P r d) {c : C} {d : D} {r : R}
    (h : Evaluates step c r) (hsim : Sim c d) : P r d := by
  induction h generalizing d with
  | stop hstop => exact stop _ d _ hsim hstop
  | next hnext _ ih =>
    rcases next _ d _ hsim hnext with ⟨d', hreach, hsim'⟩ | hstopped
    · have hd' := ih hsim'
      clear hsim hsim'
      induction hreach using ReflTransGen.head_induction_on with
      | refl => exact hd'
      | head hd _ ihd => exact back _ _ _ hd ihd
    · exact hstopped _

/-- The machine stops with the result, after steps and a stop of this cost. -/
inductive Costs (step : C → C ⊕ R) (cost : C → Nat) : C → Nat → R → Prop
  | stop {c r} : step c = .inr r → Costs step cost c (cost c) r
  | next {c c' n r} : Next step c c' → Costs step cost c' n r → Costs step cost c (cost c + n) r

end Halting
