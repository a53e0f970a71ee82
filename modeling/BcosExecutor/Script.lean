import BcosExecutor.CallParameters

namespace BcosExecutor

/-- A program over the block storage. An external call names the callee, whose run is
answered with one message; `abort` stands for the end of the process. -/
inductive Script (κ α : Type)
  | pure (a : α)
  | throw (e : Exc)
  | abort
  | getRow (row : StateRow) (k : Option Entry → Script κ α)
  | setRow (row : StateRow) (entry : Option Entry) (k : Script κ α)
  | externalCall (callee : κ) (request : CallParameters) (k : CallParameters → Script κ α)

/-- What an executive returns, and whether it has called `revert()`. -/
structure Ending where
  message : CallParameters
  reverted : Bool := false

/-- The storage around one executive: at its start, at its end and after its `revert()`. -/
structure Call (st : StateStorage) where
  before : st.State
  storage : st.State
  recoder : st.Recoder
  ending : Ending
  after : st.State

/-- An executive at work. The calls that ended on its behalf are kept for the proofs. -/
structure Executive (st : StateStorage) where
  storage : st.State
  recoder : st.Recoder
  calls : List (Call st) := []

/-- How the scheduler answers a request: nothing comes back when the callee has no message. -/
structure Delivery (st : StateStorage) where
  response : Option CallParameters
  storage : st.State
  calls : List (Call st)

abbrev Scheduler (st : StateStorage) (κ : Type) :=
  κ → CallParameters → st.State → Delivery st

namespace Executive

variable {st : StateStorage}

def start (s : st.State) : Executive st where
  storage := s
  recoder := st.newRecoder s

def setRow (e : Executive st) (row : StateRow) (entry : Option Entry) : Executive st :=
  { e with
    storage := (st.setRow e.storage e.recoder row entry).1
    recoder := (st.setRow e.storage e.recoder row entry).2 }

/-- The parent keeps its own recoder over a call. -/
def resume (e : Executive st) (d : Delivery st) : Executive st :=
  { e with storage := d.storage, calls := e.calls ++ d.calls }

end Executive

namespace Script

variable {κ α β : Type} {st : StateStorage}

protected def bind : Script κ α → (α → Script κ β) → Script κ β
  | pure a, f => f a
  | throw e, _ => throw e
  | abort, _ => abort
  | getRow row k, f => getRow row fun entry => (k entry).bind f
  | setRow row entry k, f => setRow row entry (k.bind f)
  | externalCall callee request k, f => externalCall callee request fun p => (k p).bind f

instance : Monad (Script κ) where
  pure := pure
  bind := Script.bind

/-- The body of a `try` block with the exception it ends in. -/
def attempt : Script κ α → Script κ (Except Exc α)
  | pure a => pure (.ok a)
  | throw e => pure (.error e)
  | abort => abort
  | getRow row k => getRow row fun entry => (k entry).attempt
  | setRow row entry k => setRow row entry k.attempt
  | externalCall callee request k => externalCall callee request fun p => (k p).attempt

/-- The outcome is empty when the process ends before the script does. -/
def run (scheduler : Scheduler st κ) :
    Script κ α → Executive st → Option (Except Exc α) × Executive st
  | pure a, e => (some (.ok a), e)
  | throw x, e => (some (.error x), e)
  | abort, e => (none, e)
  | getRow row k, e => (k (st.getRow e.storage row)).run scheduler e
  | setRow row entry k, e => k.run scheduler (e.setRow row entry)
  | externalCall callee request k, e =>
    let d := scheduler callee request e.storage
    match d.response with
    | some p => (k p).run scheduler (e.resume d)
    | none => (none, e.resume d)

theorem run_bind (scheduler : Scheduler st κ) (m : Script κ α) (f : α → Script κ β)
    (e : Executive st) :
    (m >>= f).run scheduler e =
      match m.run scheduler e with
      | (some (.ok a), e') => (f a).run scheduler e'
      | (some (.error x), e') => (some (.error x), e')
      | (none, e') => (none, e') := by
  show (m.bind f).run scheduler e = _
  induction m generalizing e with
  | pure a => rfl
  | throw x => rfl
  | abort => rfl
  | getRow row k ih => exact ih _ e
  | setRow row entry k ih => exact ih _
  | externalCall callee request k ih =>
    simp only [Script.bind, run]
    split
    · exact ih _ _
    · rfl

theorem run_attempt (scheduler : Scheduler st κ) (m : Script κ α) (e : Executive st) :
    m.attempt.run scheduler e =
      ((m.run scheduler e).1.map Except.ok, (m.run scheduler e).2) := by
  induction m generalizing e with
  | pure a => rfl
  | throw x => rfl
  | abort => rfl
  | getRow row k ih => exact ih _ e
  | setRow row entry k ih => exact ih _
  | externalCall callee request k ih =>
    simp only [attempt, run]
    split
    · exact ih _ _
    · rfl

theorem run_bind_ok {scheduler : Scheduler st κ} {m : Script κ α} {f : α → Script κ β}
    {e e' : Executive st} {b : β} (h : (m >>= f).run scheduler e = (some (.ok b), e')) :
    ∃ a e₁, m.run scheduler e = (some (.ok a), e₁) ∧
      (f a).run scheduler e₁ = (some (.ok b), e') := by
  rw [run_bind] at h
  split at h
  next a e₁ hm => exact ⟨a, e₁, hm, h⟩
  next => cases (Prod.mk.inj h).1
  next => cases (Prod.mk.inj h).1

theorem run_bind_of_ok {scheduler : Scheduler st κ} {m : Script κ α} {e e₁ : Executive st}
    {a : α} (h : m.run scheduler e = (some (.ok a), e₁)) (f : α → Script κ β) :
    (m >>= f).run scheduler e = (f a).run scheduler e₁ := by
  rw [run_bind, h]

theorem run_attempt_ok {scheduler : Scheduler st κ} {m : Script κ α} {e e' : Executive st}
    {r : Except Exc α} (h : m.attempt.run scheduler e = (some (.ok r), e')) :
    m.run scheduler e = (some r, e') := by
  rw [run_attempt] at h
  obtain ⟨h₁, h₂⟩ := Prod.mk.inj h
  obtain ⟨r', hr, h'⟩ := Option.map_eq_some_iff.mp h₁
  cases h'
  exact Prod.ext hr h₂

theorem run_pure_ok {scheduler : Scheduler st κ} {a b : α} {e e' : Executive st}
    (h : (Pure.pure a : Script κ α).run scheduler e = (some (.ok b), e')) : b = a ∧ e' = e := by
  cases h
  exact ⟨rfl, rfl⟩

/-- Whatever is read and answered, what is returned has the property. -/
def Returns (P : α → Prop) : Script κ α → Prop
  | pure a => P a
  | throw _ | abort => True
  | getRow _ k => ∀ entry, (k entry).Returns P
  | setRow _ _ k => k.Returns P
  | externalCall _ _ k => ∀ response, (k response).Returns P

theorem Returns.imp {P Q : α → Prop} (h : ∀ a, P a → Q a) {m : Script κ α}
    (hm : m.Returns P) : m.Returns Q := by
  induction m with
  | pure a => exact h a hm
  | throw x => trivial
  | abort => trivial
  | getRow row k ih => exact fun entry => ih entry (hm entry)
  | setRow row entry k ih => exact ih hm
  | externalCall callee request k ih => exact fun response => ih response (hm response)

theorem returns_true (m : Script κ α) : m.Returns fun _ => True := by
  induction m with
  | pure a => trivial
  | throw x => trivial
  | abort => trivial
  | getRow row k ih => exact ih
  | setRow row entry k ih => exact ih
  | externalCall callee request k ih => exact ih

theorem returns_bind {P : β → Prop} {Q : α → Prop} {m : Script κ α} {f : α → Script κ β}
    (hm : m.Returns Q) (hf : ∀ a, Q a → (f a).Returns P) : (m >>= f).Returns P := by
  show (m.bind f).Returns P
  induction m with
  | pure a => exact hf a hm
  | throw x => trivial
  | abort => trivial
  | getRow row k ih => exact fun entry => ih entry (hm entry)
  | setRow row entry k ih => exact ih hm
  | externalCall callee request k ih => exact fun response => ih response (hm response)

end Script

/-- How `execute` of an executive over the block storage ends. -/
def settle {st : StateStorage} (before : st.State) :
    Option (Except Exc Ending) × Executive st → Delivery st
  | (some (.ok ending), e) =>
    let after := if ending.reverted then st.rollback e.storage e.recoder else e.storage
    { response := some ending.message
      storage := after
      calls := e.calls ++ [⟨before, e.storage, e.recoder, ending, after⟩] }
  | (some (.error _), e) | (none, e) => ⟨none, e.storage, e.calls⟩

end BcosExecutor
