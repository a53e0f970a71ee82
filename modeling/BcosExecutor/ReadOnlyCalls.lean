import BcosExecutor.MessageProtocol

namespace BcosExecutor

/-- The code of `ExecuteError::CALL_ERROR`. -/
def CALL_ERROR : Int := -79997

/-- A request to `call`: its message, what runs if it starts an executive, and the storage that is
read through. -/
structure CallRequest (st : StateStorage) (κ : Type) where
  input : ExecutionMessage
  b : WrappedBehaviour κ
  storage : st.State

def CallRequest.pair {st : StateStorage} {κ : Type} (r : CallRequest st κ) : Int × Int :=
  (r.input.contextID, r.input.seq)

/-- How `asyncExecute` has ended for a request. Nothing comes of it where the process is gone or a
coroutine was resumed after its end. -/
inductive CallOutcome
  | result (message : ExecutionMessage)
  | error (x : Exc)
  | exception (x : Exc)
  | nothing

/-- A turn that ends in an exception. -/
def Turn.Throws {st : StateStorage} {κ : Type} : Turn st κ → Prop
  | .threw _ _ => True
  | .returned _ _ | .handedOut _ _ _ | .exited => False

variable {st : StateStorage} {κ : Type}

namespace Service

/-- What has been added to the record of a block context. -/
def outcome (s s' : Service st κ) : CallOutcome :=
  match s'.callbacks.drop s.callbacks.length with
  | (_, .ok message) :: _ => .result message
  | (_, .error x) :: _ => .error x
  | [] =>
    match s'.escaped.drop s.escaped.length with
    | x :: _ => .exception x
    | [] => .nothing

end Service

/-- The calls, with the block context of each, and a record of what their callers were told. The
calls that wait are those that have handed out a message and are not over. -/
structure ReadOnlyCalls (st : StateStorage) (κ : Type) where
  calledContext : Int × Int → Option (Service st κ)
  waiting : Int × Int → Bool
  callbacks : List (Except Exc ExecutionMessage)

namespace ReadOnlyCalls

def empty : ReadOnlyCalls st κ where
  calledContext _ := none
  waiting _ := false
  callbacks := []

def callback (s : ReadOnlyCalls st κ) (answer : Except Exc ExecutionMessage) :
    ReadOnlyCalls st κ :=
  { s with callbacks := s.callbacks ++ [answer] }

def refuse (s : ReadOnlyCalls st κ) (text : String) : ReadOnlyCalls st κ :=
  s.callback (.error (.error CALL_ERROR text))

def setWaiting (s : ReadOnlyCalls st κ) (pair : Int × Int) (waits : Bool) : ReadOnlyCalls st κ :=
  { s with waiting := Function.update s.waiting pair waits }

/-- The function that is given to `asyncExecute`, and what becomes of an exception. The entry is
erased for a result only. -/
def conclude (s : ReadOnlyCalls st κ) (pair : Int × Int) : CallOutcome → ReadOnlyCalls st κ
  | .error _ => (s.setWaiting pair false).callback (.error (.error (-1) "Call failed"))
  | .exception _ => s.setWaiting pair false
  | .nothing => s.setWaiting pair true
  | .result message =>
    if message.type = .finished ∨ message.type = .revert then
      let s := s.setWaiting pair false
      if (s.calledContext (message.contextID, message.seq)).isSome then
        { s with
          calledContext :=
            Function.update s.calledContext (message.contextID, message.seq) none }.callback
          (.ok message)
      else
        s.refuse ("Call error, erase contextID: " ++ toString message.contextID ++ " seq: " ++
          toString message.seq ++ " does not exists")
    else
      (s.setWaiting pair true).callback (.ok message)

section

variable (S : Setting) (s : ReadOnlyCalls st κ) (r : CallRequest st κ)

/-- `asyncExecute` works on the block context of the entry. -/
def round (service : Service st κ) : ReadOnlyCalls st κ :=
  let service' := service.asyncExecute S r.input true r.b
  { s with calledContext := Function.update s.calledContext r.pair (some service') }.conclude
    r.pair (service.outcome service')

def call : ReadOnlyCalls st κ :=
  match r.input.type with
  | .message =>
    match s.calledContext r.pair with
    | some _ =>
      s.refuse ("Call error, contextID: " ++ toString r.input.contextID ++ " seq: " ++
        toString r.input.seq ++ " exists")
    | none => s.round S r (Service.fresh r.storage)
  | .finished | .revert =>
    match s.calledContext r.pair with
    | none =>
      s.refuse ("Call error, contextID: " ++ toString r.input.contextID ++ " seq: " ++
        toString r.input.seq ++ " does not exists")
    | some service => s.round S r service
  | _ => s.refuse ("Call error, Unknown call type: " ++ S.typeText r.input.type)

/-- The turn that a round gives to an executive. -/
def turn (service : Service st κ) : Option (Turn st κ) :=
  match createCallParameters r.input true with
  | none => none
  | some p =>
    match service.executives r.pair with
    | some (.suspended contractAddress recoder wrapper awaiting) =>
      some (awaiting.resume contractAddress p ⟨service.storage, recoder, wrapper⟩)
    | some .finished | some .failed => none
    | none => some (startTurn S r.b p service.storage)

/-- The block context that a request is for, where `asyncExecute` is reached. -/
def serviceOf : Option (Service st κ) :=
  match r.input.type with
  | .message => if (s.calledContext r.pair).isSome then none else some (Service.fresh r.storage)
  | .finished | .revert => s.calledContext r.pair
  | _ => none

/-- No exception comes out of the executive that the request starts or resumes. -/
def Comes : Prop :=
  ∀ service, s.serviceOf r = some service → ∀ t, turn S r service = some t → ¬t.Throws

end

/-- There is an entry for the calls that wait, and for no other ones. -/
def Exact (s : ReadOnlyCalls st κ) : Prop :=
  ∀ pair, (s.calledContext pair).isSome = s.waiting pair

variable {S : Setting} {s : ReadOnlyCalls st κ} {r : CallRequest st κ} {service : Service st κ}

section Outcomes

variable {service' : Service st κ} {id : Nat} {x : Exc}

theorem outcome_result {message : ExecutionMessage}
    (h : service'.callbacks = service.callbacks ++ [(id, .ok message)]) :
    service.outcome service' = .result message := by
  unfold Service.outcome
  rw [h, List.drop_left]

theorem outcome_error (h : service'.callbacks = service.callbacks ++ [(id, .error x)]) :
    service.outcome service' = .error x := by
  unfold Service.outcome
  rw [h, List.drop_left]

theorem outcome_exception (h : service'.callbacks = service.callbacks)
    (hescaped : service'.escaped = service.escaped ++ [x]) :
    service.outcome service' = .exception x := by
  unfold Service.outcome
  rw [h, List.drop_length, hescaped, List.drop_left]

theorem outcome_nothing (h : service'.callbacks = service.callbacks)
    (hescaped : service'.escaped = service.escaped) :
    service.outcome service' = .nothing := by
  unfold Service.outcome
  rw [h, List.drop_length, hescaped, List.drop_length]

end Outcomes

/-- What an outcome says about a turn: a message of the executive's own numbers, an error or an
exception, or nothing. -/
def Reports (pair : Int × Int) (t : Option (Turn st κ)) (outcome : CallOutcome) : Prop :=
  (∃ t', t = some t' ∧ t'.Throws ∧
      ((∃ x, outcome = .error x) ∨ ∃ x, outcome = .exception x)) ∨
    (∀ t', t = some t' → ¬t'.Throws) ∧
      (outcome = .nothing ∨
        ∃ message, outcome = .result message ∧ (message.contextID, message.seq) = pair)

theorem reports_afterTurn {id : Nat} {pair : Int × Int} {contractAddress : String}
    {thrown : Service st κ → Exc → Service st κ} (t : Turn st κ)
    (hthrown : ∀ (service' : Service st κ) x, service'.callbacks = service.callbacks →
      service'.escaped = service.escaped →
      (∃ x', service.outcome (thrown service' x) = .error x') ∨
        ∃ x', service.outcome (thrown service' x) = .exception x') :
    Reports pair (some t)
      (service.outcome (service.arrive.afterTurn S id pair contractAddress thrown t)) := by
  have hspeaks {t' : Turn st κ} (h : ¬t'.Throws) (t'' : Turn st κ) (heq : some t' = some t'') :
      ¬t''.Throws := Option.some.inj heq ▸ h
  cases t with
  | returned ending e => exact .inr ⟨hspeaks (fun h => h), .inr ⟨_, outcome_result rfl, rfl⟩⟩
  | handedOut message awaiting e =>
    exact .inr ⟨hspeaks (fun h => h), .inr ⟨_, outcome_result rfl, rfl⟩⟩
  | threw x e => exact .inl ⟨_, rfl, trivial, hthrown _ x rfl rfl⟩
  | exited => exact .inr ⟨hspeaks (fun h => h), .inl (outcome_nothing rfl rfl)⟩

/-- The three types that `call` takes. -/
def TakenType (type : ExecutionMessage.Kind) : Prop :=
  type = .message ∨ type = .finished ∨ type = .revert

theorem reports_asyncExecute (htype : TakenType r.input.type) :
    Reports r.pair (turn S r service)
      (service.outcome (service.asyncExecute S r.input true r.b)) := by
  have hkeyLock : r.input.type ≠ .keyLock := by
    rcases htype with h | h | h <;> rw [h] <;> decide
  unfold turn
  cases hp : createCallParameters r.input true with
  | none =>
    rcases htype with h | h | h <;> rcases Service.createCallParameters_eq_none hp with h' | h' | h'
    all_goals
      rw [h] at h'
      cases h'
  | some p =>
    rw [Service.asyncExecute_some hp]
    dsimp only
    have hpair : r.pair = (r.input.contextID, r.input.seq) := rfl
    rw [← hpair]
    cases hexecutive : service.executives r.pair with
    | none =>
      dsimp only
      have harrive : service.arrive.executives r.pair = none := hexecutive
      rw [if_neg hkeyLock]
      unfold Service.insertAndStart
      rw [harrive, if_neg (by simp)]
      exact reports_afterTurn _ fun service' x hcallbacks _ =>
        .inl ⟨_, outcome_error (by rw [← hcallbacks]; rfl)⟩
    | some executive =>
      cases executive with
      | suspended contractAddress recoder wrapper awaiting =>
        exact reports_afterTurn _ fun service' x hcallbacks hescaped =>
          .inr ⟨_, outcome_exception hcallbacks (by rw [← hescaped]; rfl)⟩
      | finished | failed =>
        refine .inr ⟨fun t' heq => ?_, .inl (outcome_nothing rfl rfl)⟩
        cases heq

theorem takenType_of_serviceOf (h : s.serviceOf r = some service) : TakenType r.input.type := by
  unfold serviceOf at h
  cases htype : r.input.type with
  | message => exact .inl rfl
  | finished => exact .inr (.inl rfl)
  | revert => exact .inr (.inr rfl)
  | _ =>
    rw [htype] at h
    cases h

theorem call_of_serviceOf (h : s.serviceOf r = some service) :
    s.call S r = s.round S r service := by
  unfold serviceOf at h
  unfold call
  cases htype : r.input.type with
  | message =>
    rw [htype] at h
    dsimp only at h ⊢
    cases hentry : s.calledContext r.pair with
    | some service' =>
      rw [hentry, if_pos (by rfl)] at h
      cases h
    | none =>
      rw [hentry, if_neg (by simp)] at h
      rw [Option.some.inj h]
  | finished | revert =>
    rw [htype] at h
    dsimp only at h ⊢
    rw [h]
  | _ =>
    rw [htype] at h
    cases h

theorem call_of_serviceOf_none (h : s.serviceOf r = none) : ∃ text, s.call S r = s.refuse text := by
  unfold serviceOf at h
  unfold call
  cases htype : r.input.type with
  | message =>
    rw [htype] at h
    dsimp only at h ⊢
    cases hentry : s.calledContext r.pair with
    | some service' => exact ⟨_, rfl⟩
    | none =>
      rw [hentry, if_neg (by simp)] at h
      cases h
  | finished | revert =>
    rw [htype] at h
    dsimp only at h ⊢
    rw [h]
    exact ⟨_, rfl⟩
  | _ => exact ⟨_, rfl⟩

/-- An entry whose call is over, where the round has ended in an error or an exception. -/
theorem not_exact_round (htype : TakenType r.input.type) {t : Turn st κ}
    (ht : turn S r service = some t) (hthrows : t.Throws) : ¬(s.round S r service).Exact := by
  intro hexact
  have hpair := hexact r.pair
  unfold round at hpair
  dsimp only at hpair
  have hreports : Reports r.pair (turn S r service)
      (service.outcome (service.asyncExecute S r.input true r.b)) := reports_asyncExecute htype
  rcases hreports with
    ⟨t', -, -, ⟨x, hx⟩ | ⟨x, hx⟩⟩ | ⟨hnone, -⟩
  · rw [hx] at hpair
    simp [conclude, setWaiting, callback] at hpair
  · rw [hx] at hpair
    simp [conclude, setWaiting] at hpair
  · exact hnone t ht hthrows

theorem exact_update (h : s.Exact) (pair : Int × Int) (entry : Option (Service st κ))
    {s' : ReadOnlyCalls st κ}
    (hcalled : s'.calledContext = Function.update s.calledContext pair entry)
    (hwaiting : s'.waiting = Function.update s.waiting pair entry.isSome) : s'.Exact := by
  intro pair'
  rw [hcalled, hwaiting]
  by_cases heq : pair' = pair
  · rw [heq, Function.update_self, Function.update_self]
  · rw [Function.update_of_ne heq, Function.update_of_ne heq]
    exact h pair'

theorem exact_round (h : s.Exact) (htype : TakenType r.input.type)
    (hcomes : ∀ t, turn S r service = some t → ¬t.Throws) : (s.round S r service).Exact := by
  unfold round
  dsimp only
  have hreports : Reports r.pair (turn S r service)
      (service.outcome (service.asyncExecute S r.input true r.b)) := reports_asyncExecute htype
  rcases hreports with
    ⟨t, ht, hthrows, -⟩ | ⟨-, hnothing | ⟨message, hmessage, hpair⟩⟩
  · exact absurd hthrows (hcomes t ht)
  · rw [hnothing]
    exact exact_update h r.pair (some (service.asyncExecute S r.input true r.b)) rfl rfl
  · rw [hmessage]
    unfold conclude
    dsimp only
    by_cases hover : message.type = .finished ∨ message.type = .revert
    · have hentry : (Function.update s.calledContext r.pair
          (some (service.asyncExecute S r.input true r.b)) r.pair).isSome = true := by
        rw [Function.update_self]
        rfl
      rw [if_pos hover, hpair]
      unfold setWaiting
      dsimp only
      rw [if_pos hentry]
      exact exact_update h r.pair none (Function.update_idem _ _ _) rfl
    · rw [if_neg hover]
      exact exact_update h r.pair (some (service.asyncExecute S r.input true r.b)) rfl rfl

/-- One request keeps the entries exact exactly where the executive throws nothing. -/
theorem exact_call_iff (h : s.Exact) : (s.call S r).Exact ↔ s.Comes S r := by
  cases hservice : s.serviceOf r with
  | none =>
    obtain ⟨text, hrefuse⟩ := call_of_serviceOf_none (S := S) hservice
    refine iff_of_true ?_ fun service hsome => ?_
    · rw [hrefuse]
      exact h
    · rw [hservice] at hsome
      cases hsome
  | some service =>
    have htype := takenType_of_serviceOf hservice
    rw [call_of_serviceOf hservice]
    constructor
    · intro hexact service' hservice' t ht hthrows
      rw [hservice] at hservice'
      cases hservice'
      exact not_exact_round htype ht hthrows hexact
    · intro hcomes
      exact exact_round h htype (hcomes service hservice)

/-- A call that does not wait can be asked for. -/
theorem call_of_not_waiting (h : s.Exact) (htype : r.input.type = .message)
    (hwaiting : s.waiting r.pair = false) : s.call S r = s.round S r (Service.fresh r.storage) := by
  refine call_of_serviceOf ?_
  unfold serviceOf
  rw [htype]
  dsimp only
  rw [h r.pair, hwaiting, if_neg Bool.false_ne_true]

def run (S : Setting) (s : ReadOnlyCalls st κ) (requests : List (CallRequest st κ)) :
    ReadOnlyCalls st κ :=
  requests.foldl (call S) s

theorem exact_run_iff (h : s.Exact) (requests : List (CallRequest st κ)) :
    (∀ before, before <+: requests → (s.run S before).Exact) ↔
      Runs.Always (call S) (Comes S) s requests := by
  induction requests generalizing s with
  | nil =>
    refine iff_of_true (fun before hbefore => ?_) trivial
    rw [List.prefix_nil.mp hbefore]
    exact h
  | cons r requests ih =>
    have hstep := exact_call_iff (S := S) (r := r) h
    constructor
    · intro hall
      have hcalled : (s.call S r).Exact := hall [r] ⟨requests, rfl⟩
      refine ⟨hstep.mp hcalled, (ih hcalled).mp fun before hbefore => ?_⟩
      exact hall (r :: before) (List.cons_prefix_cons.mpr ⟨rfl, hbefore⟩)
    · rintro ⟨hcomes, hrest⟩ before hbefore
      cases before with
      | nil => exact h
      | cons r' before =>
        obtain ⟨rfl, hshorter⟩ := List.cons_prefix_cons.mp hbefore
        exact (ih (hstep.mpr hcomes)).mpr hrest before hshorter

/-- At every point of a run there is an entry for exactly the calls that wait if no exception
comes out of an executive in any of its rounds, and only then. -/
theorem exact_iff (S : Setting) (requests : List (CallRequest st κ)) :
    (∀ before, before <+: requests → ((empty : ReadOnlyCalls st κ).run S before).Exact) ↔
      Runs.Always (call S) (Comes S) (empty : ReadOnlyCalls st κ) requests :=
  exact_run_iff (fun _ => rfl) requests

/-- A setting of wasm in which nothing can be decoded. -/
def undecodable : Setting :=
  { Service.evmSetting with isWasm := true, decode := fun _ => none }

/-- A creation whose data are no parameters of a constructor. -/
def creation : CallRequest undoLogStorage Empty where
  input := { Service.evmSetting.fresh with type := .message, toAddress := "c", create := true }
  b := .idle
  storage _ := none

theorem not_exact_creation :
    ¬∀ (S : Setting) (requests before : List (CallRequest undoLogStorage Empty)),
      before <+: requests → ((empty : ReadOnlyCalls undoLogStorage Empty).run S before).Exact := by
  intro h
  have hexact := h undecodable [creation] [creation] (List.prefix_refl _) creation.pair
  have hentry : (((empty : ReadOnlyCalls undoLogStorage Empty).run undecodable
      [creation]).calledContext creation.pair).isSome = true := by decide +kernel
  have hwaiting : ((empty : ReadOnlyCalls undoLogStorage Empty).run undecodable
      [creation]).waiting creation.pair = false := by decide +kernel
  rw [hentry, hwaiting] at hexact
  cases hexact

end ReadOnlyCalls

end BcosExecutor
