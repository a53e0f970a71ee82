import Mathlib.Data.List.Basic
import Mathlib.Logic.Relation
import Mathlib.Order.WellFounded

namespace Runs

variable {State Event : Type*} {step : State → Event → State}

/-- A property of every event of a run, at the state that it meets. -/
def Always (step : State → Event → State) (P : State → Event → Prop) :
    State → List Event → Prop
  | _, [] => True
  | s, e :: es => P s e ∧ Always step P (step s e) es

theorem always_of_invariant (Inv : State → Prop) {C P : State → Event → Prop}
    (hstep : ∀ s e, Inv s → C s e → Inv (step s e)) (h : ∀ s e, Inv s → C s e → P s e)
    {s : State} {es : List Event} (hs : Inv s) (hc : Always step C s es) : Always step P s es := by
  induction es generalizing s with
  | nil => trivial
  | cons e es ih => exact ⟨h s e hs hc.1, ih (hstep s e hs hc.1) hc.2⟩

theorem always_iff (Inv : State → Prop) {P Q : State → Event → Prop}
    (hstep : ∀ s e, Inv s → Inv (step s e)) (h : ∀ s e, Inv s → (P s e ↔ Q s e))
    {s : State} {es : List Event} (hs : Inv s) : Always step P s es ↔ Always step Q s es := by
  constructor
  · exact always_of_invariant Inv (fun s e hs _ => hstep s e hs) (fun s e hs => (h s e hs).mp) hs
  · exact always_of_invariant Inv (fun s e hs _ => hstep s e hs) (fun s e hs => (h s e hs).mpr) hs

theorem always_and {P Q : State → Event → Prop} {s : State} {es : List Event}
    (hp : Always step P s es) (hq : Always step Q s es) :
    Always step (fun s e => P s e ∧ Q s e) s es := by
  induction es generalizing s with
  | nil => trivial
  | cons e es ih => exact ⟨⟨hp.1, hq.1⟩, ih hp.2 hq.2⟩

theorem always_of_forall {P : Event → Prop} {s : State} {es : List Event}
    (h : ∀ e ∈ es, P e) : Always step (fun _ e => P e) s es := by
  induction es generalizing s with
  | nil => trivial
  | cons e es ih =>
    exact ⟨h e List.mem_cons_self, ih fun e' he' => h e' (List.mem_cons_of_mem e he')⟩

section

variable {Output : Type*}

/-- What the events of a run give out, each at the state that it meets. -/
def outputs (step : State → Event → State) (out : State → Event → List Output) :
    State → List Event → List Output
  | _, [] => []
  | s, e :: es => out s e ++ outputs step out (step s e) es

end

variable {α β : Type*} [Preorder β] [WellFoundedLT β]

end Runs
