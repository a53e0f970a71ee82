import BcosExecutor.Coroutine
import BcosExecutor.ExecutiveAtomic
import BcosExecutor.Runs
import Mathlib.Data.List.Perm.Basic

namespace BcosExecutor

/-- The code of `ExecuteError::EXECUTE_ERROR`. -/
def EXECUTE_ERROR : Int := -79996

/-- The executive of a pair of `contextID` and `seq`, by where its coroutine stands. -/
inductive ExecutiveState (st : StateStorage) (κ : Type)
  | suspended (contractAddress : String) (recoder : st.Recoder) (wrapper : SyncStorageWrapper)
      (awaiting : Awaiting κ)
  | finished
  | failed

/-- What the executor has besides the messages: the environment of its executives, the new
message of its factory and the texts of the types. -/
structure Setting extends Environment where
  fresh : ExecutionMessage
  typeText : ExecutionMessage.Kind → String

/-- What arrives for a block context: a message with its callback, or the answer of the pool to
a request for a transaction. `b` is what runs if the arrival starts an executive. -/
inductive Arrival (κ : Type)
  | message (input : ExecutionMessage) (staticCall : Bool) (b : WrappedBehaviour κ)
  | filled (index : Nat) (result : Except Exc (Option (List (Option Transaction))))
      (b : WrappedBehaviour κ)

/-- A block context, with a record of what has become of its requests. They are numbered in the
order of arrival. -/
structure Service (st : StateStorage) (κ : Type) where
  executives : Int × Int → Option (ExecutiveState st κ)
  storage : st.State
  requests : Nat
  filling : List (Nat × ExecutionMessage)
  callbacks : List (Nat × Except Exc ExecutionMessage)
  escaped : List Exc
  resumedEnded : List (Int × Int)

variable {st : StateStorage} {κ : Type}

/-- The transaction that the pool has found. -/
def foundTransaction (input : ExecutionMessage) :
    Except Exc (Option (List (Option Transaction))) → Except Exc Transaction
  | .ok (some (some tx :: _)) => .ok tx
  | .ok (some (none :: _)) =>
    .error (.error EXECUTE_ERROR ("Transaction is null: " ++ toHex input.transactionHash))
  | .ok none | .ok (some []) | .error _ =>
    .error (.error EXECUTE_ERROR ("Transaction does not exists: " ++ toHex input.transactionHash))

/-- The turn of a new executive. -/
def startTurn (S : Setting) (b : WrappedBehaviour κ) (p : CallParameters) (s : st.State) :
    Turn st κ :=
  (Access.execute S.toEnvironment b p).advance p.codeAddress
    ⟨s, st.newRecoder s, SyncStorageWrapper.start p.keyLocks⟩

namespace Service

def fresh (storage : st.State) : Service st κ where
  executives _ := none
  storage
  requests := 0
  filling := []
  callbacks := []
  escaped := []
  resumedEnded := []

def callback (s : Service st κ) (id : Nat) (result : Except Exc ExecutionMessage) :
    Service st κ :=
  { s with callbacks := s.callbacks ++ [(id, result)] }

def escape (s : Service st κ) (x : Exc) : Service st κ :=
  { s with escaped := s.escaped ++ [x] }

def put (s : Service st κ) (pair : Int × Int) (executive : ExecutiveState st κ)
    (storage : st.State) : Service st κ :=
  { s with executives := Function.update s.executives pair (some executive), storage }

/-- What follows a turn, where `thrown` is what becomes of an exception. -/
def afterTurn (S : Setting) (id : Nat) (pair : Int × Int) (contractAddress : String)
    (thrown : Service st κ → Exc → Service st κ) (s : Service st κ) : Turn st κ → Service st κ
  | .returned ending e =>
    let storage := if ending.reverted then st.rollback e.storage e.recoder else e.storage
    (s.put pair .finished storage).callback id
      (.ok (toExecutiveResult S.fresh pair.1 pair.2 { ending.message with keyLocks := [] }))
  | .handedOut message awaiting e =>
    (s.put pair (.suspended contractAddress e.recoder e.wrapper awaiting) e.storage).callback id
      (.ok (toExecutiveResult S.fresh pair.1 pair.2 message))
  | .threw x e => thrown (s.put pair .failed e.storage) x
  -- the process is gone
  | .exited => s

def insertAndStart (S : Setting) (id : Nat) (pair : Int × Int) (p : CallParameters)
    (b : WrappedBehaviour κ) (s : Service st κ) : Service st κ :=
  if (s.executives pair).isSome then
    s.escape (.error (-1) ("Executive exists: " ++ toString pair.1))
  else
    s.afterTurn S id pair p.codeAddress
      (fun s _ => s.callback id (.error (.error (-1) "Execute error")))
      (startTurn S b p s.storage)

def resume (S : Setting) (id : Nat) (pair : Int × Int) (p : CallParameters) (s : Service st κ) :
    ExecutiveState st κ → Service st κ
  | .suspended contractAddress recoder wrapper awaiting =>
    s.afterTurn S id pair contractAddress escape
      (awaiting.resume contractAddress p ⟨s.storage, recoder, wrapper⟩)
  | .finished | .failed => { s with resumedEnded := s.resumedEnded ++ [pair] }

def asyncExecute (S : Setting) (input : ExecutionMessage) (staticCall : Bool)
    (b : WrappedBehaviour κ) (s : Service st κ) : Service st κ :=
  let id := s.requests
  let s := { s with requests := id + 1 }
  let pair := (input.contextID, input.seq)
  match input.type with
  | .txHash => { s with filling := s.filling ++ [(id, input)] }
  | .message | .revert | .finished =>
    match createCallParameters input staticCall with
    | some p =>
      match s.executives pair with
      | some executive => s.resume S id pair p executive
      | none => s.insertAndStart S id pair p b
    | none =>
      s.escape (.error EXECUTE_ERROR
        ("Unexpected execution message type: " ++ S.typeText input.type))
  | .keyLock =>
    match createCallParameters input staticCall with
    | some p =>
      match s.executives pair with
      | some executive => s.resume S id pair p executive
      | none => s.callback id (.error (.error EXECUTE_ERROR "KEY LOCK not found executive"))
    | none =>
      s.escape (.error EXECUTE_ERROR
        ("Unexpected execution message type: " ++ S.typeText input.type))
  | .sendBack | .revertKeyLock =>
    s.callback id (.error (.error EXECUTE_ERROR ("Unknown type" ++ S.typeText input.type)))

/-- The function that `asyncExecute` gives to `asyncFillBlock`. -/
def asyncFilled (S : Setting) (index : Nat)
    (result : Except Exc (Option (List (Option Transaction)))) (b : WrappedBehaviour κ)
    (s : Service st κ) : Service st κ :=
  match s.filling[index]? with
  | none => s
  | some (id, input) =>
    let s := { s with filling := s.filling.eraseIdx index }
    match foundTransaction input result with
    | .error x => s.callback id (.error x)
    | .ok tx =>
      s.insertAndStart S id (input.contextID, input.seq) (createTxCallParameters input tx) b

def step (S : Setting) (s : Service st κ) : Arrival κ → Service st κ
  | .message input staticCall b => s.asyncExecute S input staticCall b
  | .filled index result b => s.asyncFilled S index result b

/-- Every request that waits for no transaction has had its callback once, nothing has come out
of `asyncExecute`, and no coroutine was resumed after its end. -/
structure Right (s : Service st κ) : Prop where
  answered : ∀ id < s.requests, (s.callbacks.map Prod.fst).count id =
    if id ∈ s.filling.map Prod.fst then 0 else 1
  nothingEscapes : s.escaped = []
  noneResumed : s.resumedEnded = []

/-- The executive can be resumed, and comes back with a message. -/
def Resumable (s : Service st κ) (p : CallParameters) : ExecutiveState st κ → Prop
  | .suspended contractAddress recoder wrapper awaiting =>
    (awaiting.resume contractAddress p ⟨s.storage, recoder, wrapper⟩).Speaks
  | .finished | .failed => False

/-- A message finds no executive at its pair where it is to start one, and one that waits where
it is to resume one; the process goes on. -/
def Heeds (S : Setting) (s : Service st κ) : Arrival κ → Prop
  | .message input staticCall b =>
    ∀ p, createCallParameters input staticCall = some p →
      match s.executives (input.contextID, input.seq) with
      | some executive => s.Resumable p executive
      | none => input.type = .keyLock ∨ (startTurn S b p s.storage).Survives
  | .filled index result b =>
    ∀ id input tx, s.filling[index]? = some (id, input) → foundTransaction input result = .ok tx →
      s.executives (input.contextID, input.seq) = none ∧
        (startTurn S b (createTxCallParameters input tx) s.storage).Survives

/-- The request has had its callback, and nothing else has happened. -/
structure CalledBack (id : Nat) (s s' : Service st κ) : Prop where
  callbacks : ∃ result, s'.callbacks = s.callbacks ++ [(id, result)]
  filling : s'.filling = s.filling
  requests : s'.requests = s.requests
  escaped : s'.escaped = s.escaped
  resumedEnded : s'.resumedEnded = s.resumedEnded

/-- The request is gone without a callback. -/
structure Dropped (s s' : Service st κ) : Prop where
  callbacks : s'.callbacks = s.callbacks
  filling : s'.filling = s.filling
  requests : s'.requests = s.requests

variable {S : Setting} {s : Service st κ} {id : Nat} {pair : Int × Int} {p : CallParameters}
  {b : WrappedBehaviour κ}

theorem calledBack_callback (result : Except Exc ExecutionMessage) :
    CalledBack id s (s.callback id result) :=
  ⟨⟨result, rfl⟩, rfl, rfl, rfl, rfl⟩

theorem dropped_escape (x : Exc) : Dropped s (s.escape x) :=
  ⟨rfl, rfl, rfl⟩

theorem afterTurn_speaks {contractAddress : String} {thrown : Service st κ → Exc → Service st κ}
    {turn : Turn st κ} (h : turn.Speaks) :
    CalledBack id s (s.afterTurn S id pair contractAddress thrown turn) := by
  cases turn with
  | returned ending e => exact ⟨⟨_, rfl⟩, rfl, rfl, rfl, rfl⟩
  | handedOut message awaiting e => exact ⟨⟨_, rfl⟩, rfl, rfl, rfl, rfl⟩
  | threw x e => exact h.elim
  | exited => exact h.elim

theorem afterTurn_silent {contractAddress : String} {turn : Turn st κ} (h : ¬turn.Speaks) :
    Dropped s (s.afterTurn S id pair contractAddress escape turn) := by
  cases turn with
  | returned ending e => exact (h trivial).elim
  | handedOut message awaiting e => exact (h trivial).elim
  | threw x e => exact ⟨rfl, rfl, rfl⟩
  | exited => exact ⟨rfl, rfl, rfl⟩

theorem insertAndStart_calledBack (hnone : s.executives pair = none)
    (h : (startTurn S b p s.storage).Survives) :
    CalledBack id s (s.insertAndStart S id pair p b) := by
  unfold insertAndStart
  rw [hnone, if_neg (by simp)]
  cases hturn : startTurn S b p s.storage with
  | returned ending e => exact afterTurn_speaks trivial
  | handedOut message awaiting e => exact afterTurn_speaks trivial
  | threw x e => exact ⟨⟨_, rfl⟩, rfl, rfl, rfl, rfl⟩
  | exited =>
    rw [hturn] at h
    exact h.elim

theorem insertAndStart_dropped
    (h : ¬(s.executives pair = none ∧ (startTurn S b p s.storage).Survives)) :
    Dropped s (s.insertAndStart S id pair p b) := by
  unfold insertAndStart
  split
  next => exact dropped_escape _
  next hsome =>
    have hnone : s.executives pair = none := by simpa using hsome
    cases hturn : startTurn S b p s.storage with
    | exited => exact ⟨rfl, rfl, rfl⟩
    | _ =>
      rw [hturn] at h
      exact (h ⟨hnone, trivial⟩).elim

theorem resume_calledBack {executive : ExecutiveState st κ} (h : s.Resumable p executive) :
    CalledBack id s (s.resume S id pair p executive) := by
  cases executive with
  | suspended contractAddress recoder wrapper awaiting => exact afterTurn_speaks h
  | finished => exact h.elim
  | failed => exact h.elim

theorem resume_dropped {executive : ExecutiveState st κ} (h : ¬s.Resumable p executive) :
    Dropped s (s.resume S id pair p executive) := by
  cases executive with
  | suspended contractAddress recoder wrapper awaiting => exact afterTurn_silent h
  | finished => exact ⟨rfl, rfl, rfl⟩
  | failed => exact ⟨rfl, rfl, rfl⟩

/-- A new request is one more, and waits for nothing yet. -/
def arrive (s : Service st κ) : Service st κ :=
  { s with requests := s.requests + 1 }

section Arrivals

variable {input : ExecutionMessage} {staticCall : Bool}

theorem asyncExecute_txHash (ht : input.type = .txHash) :
    s.asyncExecute S input staticCall b =
      { s.arrive with filling := s.filling ++ [(s.requests, input)] } := by
  unfold asyncExecute arrive
  rw [ht]

theorem createCallParameters_eq_none (h : createCallParameters input staticCall = none) :
    input.type = .txHash ∨ input.type = .sendBack ∨ input.type = .revertKeyLock := by
  unfold createCallParameters at h
  cases ht : input.type with
  | txHash => exact .inl rfl
  | sendBack => exact .inr (.inl rfl)
  | revertKeyLock => exact .inr (.inr rfl)
  | _ => rw [ht] at h; exact nomatch h

theorem createCallParameters_keyLocks (h : createCallParameters input staticCall = some p) :
    p.keyLocks = input.keyLocks := by
  unfold createCallParameters at h
  cases ht : input.type with
  | txHash | sendBack | revertKeyLock => simp only [ht] at h; cases h
  | _ => simp only [ht] at h; cases h; rfl

/-- What `asyncExecute` does with the parameters of a message. -/
theorem asyncExecute_some (hp : createCallParameters input staticCall = some p) :
    s.asyncExecute S input staticCall b =
      match s.executives (input.contextID, input.seq) with
      | some executive =>
        s.arrive.resume S s.requests (input.contextID, input.seq) p executive
      | none =>
        if input.type = .keyLock then
          s.arrive.callback s.requests
            (.error (.error EXECUTE_ERROR "KEY LOCK not found executive"))
        else s.arrive.insertAndStart S s.requests (input.contextID, input.seq) p b := by
  have htype : input.type = .message ∨ input.type = .revert ∨ input.type = .finished ∨
      input.type = .keyLock := by
    unfold createCallParameters at hp
    cases ht : input.type with
    | txHash | sendBack | revertKeyLock => rw [ht] at hp; exact nomatch hp
    | _ => simp
  unfold asyncExecute arrive
  rcases htype with ht | ht | ht | ht <;> rw [ht, hp] <;>
    dsimp only <;> cases s.executives (input.contextID, input.seq) <;> rfl

theorem asyncExecute_calledBack (hheeds : s.Heeds S (.message input staticCall b))
    (ht : input.type ≠ .txHash) :
    CalledBack s.requests s.arrive (s.asyncExecute S input staticCall b) := by
  cases hp : createCallParameters input staticCall with
  | none =>
    unfold asyncExecute
    rcases createCallParameters_eq_none hp with h | h | h
    · exact (ht h).elim
    · rw [h]
      exact calledBack_callback _
    · rw [h]
      exact calledBack_callback _
  | some p =>
    have hcond := hheeds p hp
    rw [asyncExecute_some hp]
    cases hex : s.executives (input.contextID, input.seq) with
    | some executive =>
      rw [hex] at hcond
      exact resume_calledBack hcond
    | none =>
      rw [hex] at hcond
      dsimp only at hcond ⊢
      split
      next => exact calledBack_callback _
      next hlock => exact insertAndStart_calledBack hex (hcond.resolve_left hlock)

theorem asyncExecute_dropped (hheeds : ¬s.Heeds S (.message input staticCall b)) :
    Dropped s.arrive (s.asyncExecute S input staticCall b) := by
  unfold Heeds at hheeds
  push Not at hheeds
  obtain ⟨p, hp, hcond⟩ := hheeds
  rw [asyncExecute_some hp]
  cases hex : s.executives (input.contextID, input.seq) with
  | some executive =>
    rw [hex] at hcond
    exact resume_dropped hcond
  | none =>
    rw [hex] at hcond
    dsimp only at hcond ⊢
    push Not at hcond
    rw [if_neg hcond.1]
    exact insertAndStart_dropped fun h => hcond.2 h.2

variable {index : Nat} {result : Except Exc (Option (List (Option Transaction)))}

theorem asyncFilled_calledBack (hheeds : s.Heeds S (.filled index result b))
    (hat : s.filling[index]? = some (id, input)) :
    CalledBack id { s with filling := s.filling.eraseIdx index }
      (s.asyncFilled S index result b) := by
  unfold asyncFilled
  rw [hat]
  dsimp only
  cases htx : foundTransaction input result with
  | error x => exact calledBack_callback _
  | ok tx =>
    obtain ⟨hnone, hlives⟩ := hheeds id input tx hat htx
    exact insertAndStart_calledBack hnone hlives

theorem asyncFilled_dropped (hheeds : ¬s.Heeds S (.filled index result b)) :
    ∃ id input, s.filling[index]? = some (id, input) ∧
      Dropped { s with filling := s.filling.eraseIdx index }
        (s.asyncFilled S index result b) := by
  unfold Heeds at hheeds
  push Not at hheeds
  obtain ⟨id, input, tx, hat, htx, hcond⟩ := hheeds
  refine ⟨id, input, hat, ?_⟩
  unfold asyncFilled
  rw [hat]
  dsimp only
  rw [htx]
  exact insertAndStart_dropped fun h => hcond h.1 h.2

end Arrivals

/-- How often a request has been called back, and once more where it still waits. -/
def tally (s : Service st κ) (id : Nat) : Nat :=
  (s.callbacks.map Prod.fst).count id + (s.filling.map Prod.fst).count id

/-- The request has come, and nobody will ever call it back. -/
def Lost (s : Service st κ) (id : Nat) : Prop :=
  id < s.requests ∧ s.tally id = 0

/-- No request is lost, and none is counted twice. -/
structure Sound (s : Service st κ) : Prop where
  tally_eq : ∀ id, s.tally id = if id < s.requests then 1 else 0
  nothingEscapes : s.escaped = []
  noneResumed : s.resumedEnded = []

theorem Sound.right (h : s.Sound) : s.Right := by
  refine ⟨fun id hid => ?_, h.nothingEscapes, h.noneResumed⟩
  have htally := h.tally_eq id
  rw [if_pos hid] at htally
  unfold tally at htally
  split
  next hmem =>
    have hpos := List.count_pos_iff.mpr hmem
    omega
  next hmem =>
    have hzero := List.count_eq_zero.mpr hmem
    omega

section Tally

variable {s' : Service st κ} {id' : Nat}

theorem CalledBack.tally (h : CalledBack id s s') :
    s'.tally id' = s.tally id' + if id' = id then 1 else 0 := by
  obtain ⟨result, hcallbacks⟩ := h.callbacks
  unfold Service.tally
  rw [hcallbacks, h.filling, List.map_append, List.count_append]
  simp only [List.map_cons, List.map_nil, List.count_singleton, beq_iff_eq, @eq_comm _ id]
  omega

theorem Dropped.tally (h : Dropped s s') : s'.tally id' = s.tally id' := by
  unfold Service.tally
  rw [h.callbacks, h.filling]

theorem tally_eraseIdx {index : Nat} {input : ExecutionMessage}
    (hat : s.filling[index]? = some (id, input)) (id' : Nat) :
    ({ s with filling := s.filling.eraseIdx index } : Service st κ).tally id' +
      (if id' = id then 1 else 0) = s.tally id' := by
  obtain ⟨hlt, hget⟩ := List.getElem?_eq_some_iff.mp hat
  have hperm := (List.getElem_cons_eraseIdx_perm hlt).map Prod.fst
  have hcount := hperm.count_eq id'
  rw [hget, List.map_cons, List.count_cons] at hcount
  unfold Service.tally
  dsimp only
  simp only [beq_iff_eq, @eq_comm _ id] at hcount
  omega

theorem tally_filling (input : ExecutionMessage) :
    ({ s.arrive with filling := s.filling ++ [(s.requests, input)] } : Service st κ).tally id' =
      s.tally id' + if id' = s.requests then 1 else 0 := by
  unfold Service.tally
  simp only [arrive, List.map_append, List.count_append, List.map_cons, List.map_nil,
    List.count_singleton, beq_iff_eq, @eq_comm _ s.requests]
  omega

end Tally

theorem Sound.tally_next (h : s.Sound) (id : Nat) :
    s.tally id + (if id = s.requests then 1 else 0) = if id < s.requests + 1 then 1 else 0 := by
  rw [h.tally_eq id]
  rcases Nat.lt_trichotomy id s.requests with hlt | heq | hgt
  · rw [if_pos hlt, if_neg (by omega), if_pos (by omega)]
  · rw [if_neg (by omega), if_pos heq, if_pos (by omega)]
  · rw [if_neg (by omega), if_neg (by omega), if_neg (by omega)]

/-- An arrival that is heeded loses nothing. -/
theorem Sound.step (h : s.Sound) {arrival : Arrival κ} (hheeds : s.Heeds S arrival) :
    (s.step S arrival).Sound := by
  cases arrival with
  | message input staticCall b =>
    show (s.asyncExecute S input staticCall b).Sound
    by_cases ht : input.type = .txHash
    · rw [asyncExecute_txHash ht]
      refine ⟨fun id => ?_, h.nothingEscapes, h.noneResumed⟩
      rw [tally_filling]
      exact h.tally_next id
    · have hback := asyncExecute_calledBack hheeds ht
      refine ⟨fun id => ?_, hback.escaped.trans h.nothingEscapes,
        hback.resumedEnded.trans h.noneResumed⟩
      rw [hback.tally, hback.requests]
      exact h.tally_next id
  | filled index result b =>
    show (s.asyncFilled S index result b).Sound
    cases hat : s.filling[index]? with
    | none =>
      unfold asyncFilled
      rw [hat]
      exact h
    | some found =>
      have hback := asyncFilled_calledBack hheeds hat
      refine ⟨fun id => ?_, hback.escaped.trans h.nothingEscapes,
        hback.resumedEnded.trans h.noneResumed⟩
      rw [hback.tally, hback.requests, tally_eraseIdx hat]
      exact h.tally_eq id

theorem Sound.lost (h : s.Sound) {arrival : Arrival κ} (hheeds : ¬s.Heeds S arrival) :
    ∃ id, (s.step S arrival).Lost id := by
  cases arrival with
  | message input staticCall b =>
    have hdropped := asyncExecute_dropped hheeds
    refine ⟨s.requests, ?_, ?_⟩
    · show s.requests < (s.asyncExecute S input staticCall b).requests
      rw [hdropped.requests]
      exact Nat.lt_succ_self _
    · have htally := h.tally_eq s.requests
      rw [if_neg (Nat.lt_irrefl _)] at htally
      exact hdropped.tally.trans htally
  | filled index result b =>
    obtain ⟨id, input, hat, hdropped⟩ := asyncFilled_dropped hheeds
    have herased := tally_eraseIdx hat id
    rw [if_pos rfl] at herased
    have htally := h.tally_eq id
    have hid : id < s.requests := by
      by_contra hge
      rw [if_neg hge] at htally
      omega
    rw [if_pos hid] at htally
    refine ⟨id, ?_, hdropped.tally.trans (by omega)⟩
    show id < (s.asyncFilled S index result b).requests
    rw [hdropped.requests]
    exact hid

/-- A request that is lost stays lost. -/
theorem Lost.step (h : s.Lost id) (arrival : Arrival κ) : (s.step S arrival).Lost id := by
  obtain ⟨hid, htally⟩ := h
  cases arrival with
  | message input staticCall b =>
    show (s.asyncExecute S input staticCall b).Lost id
    by_cases ht : input.type = .txHash
    · rw [asyncExecute_txHash ht]
      refine ⟨Nat.lt_succ_of_lt hid, ?_⟩
      rw [tally_filling, if_neg (by omega)]
      exact htally
    · by_cases hheeds : s.Heeds S (.message input staticCall b)
      · have hback := asyncExecute_calledBack hheeds ht
        refine ⟨by rw [hback.requests]; exact Nat.lt_succ_of_lt hid, ?_⟩
        rw [hback.tally, if_neg (by omega)]
        exact htally
      · have hdropped := asyncExecute_dropped hheeds
        exact ⟨by rw [hdropped.requests]; exact Nat.lt_succ_of_lt hid,
          hdropped.tally.trans htally⟩
  | filled index result b =>
    show (s.asyncFilled S index result b).Lost id
    by_cases hheeds : s.Heeds S (.filled index result b)
    · cases hat : s.filling[index]? with
      | none =>
        unfold asyncFilled
        rw [hat]
        exact ⟨hid, htally⟩
      | some found =>
        have hback := asyncFilled_calledBack hheeds hat
        refine ⟨by rw [hback.requests]; exact hid, ?_⟩
        rw [hback.tally, tally_eraseIdx hat]
        exact htally
    · obtain ⟨id', input, hat, hdropped⟩ := asyncFilled_dropped hheeds
      refine ⟨by rw [hdropped.requests]; exact hid, ?_⟩
      have herased := tally_eraseIdx hat id
      rw [hdropped.tally]
      omega

theorem Lost.run (h : s.Lost id) (arrivals : List (Arrival κ)) :
    (arrivals.foldl (Service.step S) s).Lost id := by
  induction arrivals generalizing s with
  | nil => exact h
  | cons arrival arrivals ih => exact ih (h.step arrival)

def evmSetting : Setting where
  toEnvironment := evmEnvironment
  fresh :=
    { type := .txHash, transactionHash := [], contextID := 0, seq := 0, origin := "",
      fromAddress := "", toAddress := "", create := false, data := [], gasAvailable := 0,
      staticCall := false, createSalt := none, newEVMContractAddress := "", status := .none,
      message := "", logEntries := [], keyLocks := [], keyLockAcquired := "" }
  typeText _ := ""

end Service

end BcosExecutor
