import BcosExecutor.Script

namespace BcosExecutor

namespace Script

variable {κ α β : Type} {R : CallParameters → CallParameters → Prop} {Q : α → Prop}

/-- Whatever the storage has and whatever is answered to the requests within the relation, a value
that comes out satisfies the predicate. -/
def Ensures (R : CallParameters → CallParameters → Prop) (Q : α → Prop) : Script κ α → Prop
  | pure a => Q a
  | throw _ | abort => True
  | getRow _ k => ∀ entry, (k entry).Ensures R Q
  | setRow _ _ k => k.Ensures R Q
  | externalCall _ request k => ∀ response, R request response → (k response).Ensures R Q

theorem Ensures.mono {m : Script κ α} {Q' : α → Prop} (h : m.Ensures R Q)
    (hQ : ∀ a, Q a → Q' a) : m.Ensures R Q' := by
  induction m with
  | pure a => exact hQ a h
  | throw x => trivial
  | abort => trivial
  | getRow row k ih => exact fun entry => ih entry (h entry)
  | setRow row entry k ih => exact ih h
  | externalCall callee request k ih => exact fun p hp => ih p (h p hp)

theorem ensures_true (m : Script κ α) : m.Ensures R (fun _ => True) := by
  induction m with
  | pure a => trivial
  | throw x => trivial
  | abort => trivial
  | getRow row k ih => exact ih
  | setRow row entry k ih => exact ih
  | externalCall callee request k ih => exact fun p _ => ih p

theorem Ensures.bind {m : Script κ α} {f : α → Script κ β} {Q' : β → Prop}
    (h : m.Ensures R Q) (hf : ∀ a, Q a → (f a).Ensures R Q') : (m >>= f).Ensures R Q' := by
  show (m.bind f).Ensures R Q'
  induction m with
  | pure a => exact hf a h
  | throw x => trivial
  | abort => trivial
  | getRow row k ih => exact fun entry => ih entry (h entry)
  | setRow row entry k ih => exact ih h
  | externalCall callee request k ih => exact fun p hp => ih p (h p hp)

theorem ensures_bind {m : Script κ α} {f : α → Script κ β} {Q' : β → Prop}
    (hf : ∀ a, (f a).Ensures R Q') : (m >>= f).Ensures R Q' :=
  (ensures_true m).bind fun a _ => hf a

theorem Ensures.attempt {m : Script κ α} (h : m.Ensures R Q) :
    m.attempt.Ensures R fun out => ∀ a, out = .ok a → Q a := by
  induction m with
  | pure a =>
    intro a' heq
    cases heq
    exact h
  | throw x => exact nofun
  | abort => trivial
  | getRow row k ih => exact fun entry => ih entry (h entry)
  | setRow row entry k ih => exact ih h
  | externalCall callee request k ih => exact fun p hp => ih p (h p hp)

variable {st : StateStorage} {scheduler : Scheduler st κ}

/-- The value of a run whose scheduler answers within the relation. -/
theorem Ensures.run {m : Script κ α} (h : m.Ensures R Q)
    (hs : ∀ callee request s response, (scheduler callee request s).response = some response →
      R request response) {e e' : Executive st} {a : α}
    (hrun : m.run scheduler e = (some (.ok a), e')) : Q a := by
  induction m generalizing e with
  | pure a' =>
    cases hrun
    exact h
  | throw x => cases hrun
  | abort => cases hrun
  | getRow row k ih => exact ih _ (h _) hrun
  | setRow row entry k ih => exact ih h hrun
  | externalCall callee request k ih =>
    simp only [Script.run] at hrun
    split at hrun
    next p hresponse => exact ih p (h p (hs callee request e.storage p hresponse)) hrun
    next => cases hrun

end Script

end BcosExecutor
