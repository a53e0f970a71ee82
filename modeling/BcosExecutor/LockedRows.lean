import BcosExecutor.LockedTurns
import BcosExecutor.MessageProtocol

namespace BcosExecutor

open Access

variable {st : StateStorage} {κ : Type}

namespace Service

/-- The executive of the pair waits for a message. -/
def Waits (s : Service st κ) (pair : Int × Int) : Prop :=
  ∃ contractAddress recoder wrapper awaiting,
    s.executives pair = some (.suspended contractAddress recoder wrapper awaiting)

/-- The locks that the messages of an executive have carried to the scheduler. -/
def reported (s : Service st κ) (pair : Int × Int) : Set Bytes :=
  {key | ∃ id message, (id, .ok message) ∈ s.callbacks ∧ (message.contextID, message.seq) = pair ∧
    key ∈ message.keyLocks.map ascii}

def Holds (s : Service st κ) (pair : Int × Int) (key : Bytes) : Prop :=
  s.Waits pair ∧ key ∈ s.reported pair

/-- What the executives of the other contexts hold. -/
def heldByOthers (s : Service st κ) (contextID : Int) : Set Bytes :=
  {key | ∃ pair, pair.1 ≠ contextID ∧ s.Holds pair key}

/-- The scheduler keeps the locks: a message carries those of the other contexts, it grants none
of them, and what it starts keeps to the locks. -/
def Orderly (S : Setting) (s : Service st κ) : Arrival κ → Prop
  | .message input staticCall b =>
    ∀ p, createCallParameters input staticCall = some p →
      (∀ key ∈ s.heldByOthers input.contextID, key ∈ p.keyLocks.map ascii) ∧
        match s.executives (input.contextID, input.seq) with
        | some (.suspended _ _ _ awaiting) => awaiting.Granted (s.heldByOthers input.contextID) p
        | some .finished | some .failed => True
        | none => (execute S.toEnvironment b p).Locking Silent ∅
  | .filled index result b =>
    ∀ id input tx, s.filling[index]? = some (id, input) → foundTransaction input result = .ok tx →
      (∀ key ∈ s.heldByOthers input.contextID, key ∈ input.keyLocks.map ascii) ∧
        (execute S.toEnvironment b (createTxCallParameters input tx)).Locking Silent ∅

/-- The context that an arrival is for. -/
def contextOf (s : Service st κ) : Arrival κ → Option Int
  | .message input _ _ => some input.contextID
  | .filled index _ _ => (s.filling[index]?).map fun request => request.2.contextID

/-- No two contexts hold one lock, and an executive that waits has reported all of its locks. -/
structure Exclusive (s : Service st κ) : Prop where
  waiting : ∀ pair contractAddress recoder wrapper awaiting,
    s.executives pair = some (.suspended contractAddress recoder wrapper awaiting) →
      Waiting (s.reported pair) recoder wrapper awaiting
  apart : ∀ pair pair' key, s.Holds pair key → s.Holds pair' key → pair.1 = pair'.1
  known : ∀ id message, (id, .ok message) ∈ s.callbacks →
    s.executives (message.contextID, message.seq) ≠ none

/-- What the executives of other contexts hold, they go on holding, and it is not written. -/
def Keeps (contextID : Int) (s s' : Service st κ) : Prop :=
  ∀ pair key, pair.1 ≠ contextID → s.Holds pair key →
    s'.Holds pair key ∧
      ∀ row, row.key = key → st.getRow s'.storage row = st.getRow s.storage row

/-- Nothing has happened to the executives and the rows. -/
structure Idle (s s' : Service st κ) : Prop where
  executives : s'.executives = s.executives
  storage : s'.storage = s.storage
  callbacks : ∀ id message, (id, .ok message) ∈ s'.callbacks ↔ (id, .ok message) ∈ s.callbacks

variable {S : Setting} {s s' : Service st κ} {id : Nat} {pair : Int × Int} {p : CallParameters}
  {b : WrappedBehaviour κ}

namespace Idle

theorem reported (h : Idle s s') (pair : Int × Int) : s'.reported pair = s.reported pair := by
  ext key
  simp only [Service.reported, Set.mem_ofPred_eq, h.callbacks]

theorem holds (h : Idle s s') {key : Bytes} : s'.Holds pair key ↔ s.Holds pair key := by
  unfold Holds Waits
  rw [h.executives, h.reported]

theorem exclusive (h : Idle s s') (hs : s.Exclusive) : s'.Exclusive where
  waiting pair contractAddress recoder wrapper awaiting hpair := by
    rw [h.executives] at hpair
    rw [h.reported]
    exact hs.waiting _ _ _ _ _ hpair
  apart pair pair' key hheld hheld' :=
    hs.apart pair pair' key (h.holds.mp hheld) (h.holds.mp hheld')
  known id message hmem := by
    rw [h.executives]
    exact hs.known id message ((h.callbacks id message).mp hmem)

theorem keeps (h : Idle s s') (contextID : Int) : Keeps contextID s s' := by
  intro pair key _ hheld
  refine ⟨h.holds.mpr hheld, fun row _ => ?_⟩
  rw [h.storage]

theorem heldByOthers (h : Idle s s') (contextID : Int) :
    s'.heldByOthers contextID = s.heldByOthers contextID := by
  ext key
  simp only [Service.heldByOthers, Set.mem_ofPred_eq, h.holds]

theorem trans {s'' : Service st κ} (h : Idle s s') (h' : Idle s' s'') : Idle s s'' :=
  ⟨h'.executives.trans h.executives, h'.storage.trans h.storage,
    fun id message => (h'.callbacks id message).trans (h.callbacks id message)⟩

theorem escape (x : Exc) : Idle s (s.escape x) := ⟨rfl, rfl, fun _ _ => Iff.rfl⟩

theorem callback (x : Exc) : Idle s (s.callback id (.error x)) := by
  refine ⟨rfl, rfl, fun id' message => ?_⟩
  show _ ∈ s.callbacks ++ [(id, .error x)] ↔ _
  rw [List.mem_append, List.mem_singleton, or_iff_left]
  intro heq
  cases (Prod.mk.inj heq).2

end Idle

/-- The executive of the pair has had a turn that has spared the others. -/
structure Turned (pair : Int × Int) (s s' : Service st κ) : Prop where
  executives : ∃ executive, s'.executives = Function.update s.executives pair (some executive)
  old : ∀ id message, (id, .ok message) ∈ s.callbacks → (id, .ok message) ∈ s'.callbacks
  fresh : ∀ id message, (id, .ok message) ∈ s'.callbacks →
    (id, .ok message) ∈ s.callbacks ∨ (message.contextID, message.seq) = pair
  rows : ∀ row, row.key ∈ s.heldByOthers pair.1 →
    st.getRow s'.storage row = st.getRow s.storage row
  waiting : ∀ contractAddress recoder wrapper awaiting,
    s'.executives pair = some (.suspended contractAddress recoder wrapper awaiting) →
      Waiting (s'.reported pair) recoder wrapper awaiting ∧
        ∀ key ∈ s'.reported pair, key ∉ s.heldByOthers pair.1

namespace Turned

variable {pair' : Int × Int}

theorem of_idle (hidle : Idle s s') {s'' : Service st κ} (h : Turned pair s' s'') :
    Turned pair s s'' where
  executives := hidle.executives ▸ h.executives
  old id message hmem := h.old id message ((hidle.callbacks id message).mpr hmem)
  fresh id message hmem := (h.fresh id message hmem).imp_left (hidle.callbacks id message).mp
  rows row hrow := by
    rw [← hidle.heldByOthers] at hrow
    rw [h.rows row hrow, hidle.storage]
  waiting := hidle.heldByOthers pair.1 ▸ h.waiting

theorem trans_idle {s'' : Service st κ} (h : Turned pair s s') (hidle : Idle s' s'') :
    Turned pair s s'' where
  executives := hidle.executives ▸ h.executives
  old id message hmem := (hidle.callbacks id message).mpr (h.old id message hmem)
  fresh id message hmem := h.fresh id message ((hidle.callbacks id message).mp hmem)
  rows row hrow := by
    rw [hidle.storage]
    exact h.rows row hrow
  waiting := by
    rw [hidle.executives, hidle.reported]
    exact h.waiting

theorem executives_of_ne (h : Turned pair s s') (hne : pair' ≠ pair) :
    s'.executives pair' = s.executives pair' := by
  obtain ⟨executive, heq⟩ := h.executives
  rw [heq, Function.update_of_ne hne]

theorem reported_of_ne (h : Turned pair s s') (hne : pair' ≠ pair) :
    s'.reported pair' = s.reported pair' := by
  ext key
  constructor
  · rintro ⟨id, message, hmem, hids, hkey⟩
    rcases h.fresh id message hmem with hold | hnew
    · exact ⟨id, message, hold, hids, hkey⟩
    · exact (hne (hids.symm.trans hnew)).elim
  · rintro ⟨id, message, hmem, hids, hkey⟩
    exact ⟨id, message, h.old id message hmem, hids, hkey⟩

theorem holds_of_ne (h : Turned pair s s') (hne : pair' ≠ pair) {key : Bytes} :
    s'.Holds pair' key ↔ s.Holds pair' key := by
  unfold Holds Waits
  rw [h.executives_of_ne hne, h.reported_of_ne hne]

theorem keeps (h : Turned pair s s') : Keeps pair.1 s s' := by
  intro pair' key hcontext hheld
  have hne : pair' ≠ pair := fun heq => hcontext (congrArg Prod.fst heq)
  exact ⟨(h.holds_of_ne hne).mpr hheld,
    fun row hrow => h.rows row (hrow ▸ ⟨pair', hcontext, hheld⟩)⟩

/-- Nobody of another context holds what the executive holds after its turn. -/
theorem apart_self (h : Turned pair s s') (hne : pair' ≠ pair) {key : Bytes}
    (hheld : s'.Holds pair key) (hheld' : s'.Holds pair' key) : pair.1 = pair'.1 := by
  by_contra hcontext
  obtain ⟨⟨contractAddress, recoder, wrapper, awaiting, hsuspended⟩, hkey⟩ := hheld
  obtain ⟨-, hfree⟩ := h.waiting contractAddress recoder wrapper awaiting hsuspended
  exact hfree key hkey ⟨pair', Ne.symm hcontext, (h.holds_of_ne hne).mp hheld'⟩

theorem exclusive (h : Turned pair s s') (hs : s.Exclusive) : s'.Exclusive where
  waiting pair' contractAddress recoder wrapper awaiting hpair := by
    by_cases hne : pair' = pair
    · subst hne
      exact (h.waiting contractAddress recoder wrapper awaiting hpair).1
    · rw [h.executives_of_ne hne] at hpair
      rw [h.reported_of_ne hne]
      exact hs.waiting _ _ _ _ _ hpair
  apart pair' pair'' key hheld hheld' := by
    by_cases hne : pair' = pair
    · subst hne
      by_cases hne' : pair'' = pair'
      · rw [hne']
      · exact h.apart_self hne' hheld hheld'
    · by_cases hne' : pair'' = pair
      · subst hne'
        exact (h.apart_self hne hheld' hheld).symm
      · exact hs.apart pair' pair'' key ((h.holds_of_ne hne).mp hheld)
          ((h.holds_of_ne hne').mp hheld')
  known id message hmem := by
    obtain ⟨executive, heq⟩ := h.executives
    rw [heq]
    by_cases hids : (message.contextID, message.seq) = pair
    · rw [hids, Function.update_self]
      exact Option.some_ne_none executive
    · rw [Function.update_of_ne hids]
      exact hs.known id message ((h.fresh id message hmem).resolve_right hids)

end Turned

/-- The answer to a message of an executive carries its locks. -/
theorem toExecutiveResult_keyLocks {fresh : ExecutionMessage} {contextID seq : Int}
    {message : CallParameters} (h : message.type = .message ∨ message.type = .keyLock) :
    (toExecutiveResult fresh contextID seq message).keyLocks = message.keyLocks := by
  unfold toExecutiveResult toExecutionResult
  rcases h with h | h <;> rw [h]

section Messages

variable {message : CallParameters} (hcallbacks : s'.callbacks =
  s.callbacks ++ [(id, .ok (toExecutiveResult S.fresh pair.1 pair.2 message))])
include hcallbacks

theorem old_of_append {id' : Nat} {m : ExecutionMessage} (hmem : (id', .ok m) ∈ s.callbacks) :
    (id', .ok m) ∈ s'.callbacks := by
  rw [hcallbacks]
  exact List.mem_append_left _ hmem

theorem fresh_of_append {id' : Nat} {m : ExecutionMessage} (hmem : (id', .ok m) ∈ s'.callbacks) :
    (id', .ok m) ∈ s.callbacks ∨ (m.contextID, m.seq) = pair := by
  rw [hcallbacks] at hmem
  rcases List.mem_append.mp hmem with hold | hnew
  · exact .inl hold
  · cases List.mem_singleton.mp hnew
    exact .inr rfl

/-- A message reports its locks. -/
theorem reported_append (htype : message.type = .message ∨ message.type = .keyLock) :
    s'.reported pair = s.reported pair ∪ {key | key ∈ message.keyLocks.map ascii} := by
  ext key
  unfold reported
  rw [hcallbacks, ← toExecutiveResult_keyLocks htype]
  constructor
  · rintro ⟨id', message', hmem, hids', hkey⟩
    rcases List.mem_append.mp hmem with hold | hnew
    · exact .inl ⟨id', message', hold, hids', hkey⟩
    · cases List.mem_singleton.mp hnew
      exact .inr hkey
  · rintro (⟨id', message', hold, hids', hkey⟩ | hkey)
    · exact ⟨id', message', List.mem_append_left _ hold, hids', hkey⟩
    · exact ⟨id, _, List.mem_append_right _ (List.mem_singleton_self _), rfl, hkey⟩

end Messages

section Turns

variable {contractAddress : String} {thrown : Service st κ → Exc → Service st κ}

theorem turned_returned (h : st.Lawful) {ending : Ending} {e : Working st}
    (hturn : (Turn.returned ending e : Turn st κ).Spares (s.reported pair)
      (s.heldByOthers pair.1) s.storage) :
    Turned pair s (s.afterTurn S id pair contractAddress thrown (.returned ending e)) where
  executives := ⟨_, rfl⟩
  old _ _ := old_of_append rfl
  fresh _ _ := fresh_of_append rfl
  rows row hrow := by
    obtain ⟨hrows, hundone⟩ := hturn
    show st.getRow (if ending.reverted then st.rollback e.storage e.recoder else e.storage) row =
      st.getRow s.storage row
    split
    · rw [h.getRow_rollback, StateStorage.undone, hundone row hrow]
      exact hrows row hrow
    · exact hrows row hrow
  waiting _ _ _ _ hsuspended := by
    change Function.update s.executives pair (some .finished) pair = _ at hsuspended
    rw [Function.update_self] at hsuspended
    cases hsuspended

/-- An exception that gives no message leaves an executive that does not wait. -/
theorem turned_threw (hthrown : ∀ s x, Idle s (thrown s x)) {x : Exc} {e : Working st}
    (hturn : (Turn.threw x e : Turn st κ).Spares (s.reported pair) (s.heldByOthers pair.1)
      s.storage) :
    Turned pair s (s.afterTurn S id pair contractAddress thrown (.threw x e)) := by
  obtain ⟨hrows, -⟩ := hturn
  have hidle : Idle (s.put pair .failed e.storage)
      (s.afterTurn S id pair contractAddress thrown (.threw x e)) := hthrown _ x
  have hput : Turned pair s (s.put pair .failed e.storage) := by
    refine ⟨⟨_, rfl⟩, fun _ _ hmem => hmem, fun _ _ hmem => .inl hmem, hrows,
      fun _ _ _ _ hsuspended => ?_⟩
    change Function.update s.executives pair (some .failed) pair = _ at hsuspended
    rw [Function.update_self] at hsuspended
    cases hsuspended
  exact hput.trans_idle hidle

theorem turned_handedOut (hmine : ∀ key ∈ s.reported pair, key ∉ s.heldByOthers pair.1)
    {message : CallParameters} {awaiting : Awaiting κ} {e : Working st}
    (hturn : (Turn.handedOut message awaiting e : Turn st κ).Spares (s.reported pair)
      (s.heldByOthers pair.1) s.storage) :
    Turned pair s (s.afterTurn S id pair contractAddress thrown
      (.handedOut message awaiting e)) where
  executives := ⟨_, rfl⟩
  old _ _ := old_of_append rfl
  fresh _ _ := fresh_of_append rfl
  rows := hturn.1
  waiting _ _ _ _ hsuspended := by
    obtain ⟨-, htype, hfree, hwaiting⟩ := hturn
    change Function.update s.executives pair (some _) pair = _ at hsuspended
    rw [Function.update_self] at hsuspended
    cases hsuspended
    have hcallbacks : (s.afterTurn S id pair contractAddress thrown
        (.handedOut message awaiting e)).callbacks = s.callbacks ++
          [(id, .ok (toExecutiveResult S.fresh pair.1 pair.2 message))] := rfl
    rw [reported_append hcallbacks htype]
    exact ⟨hwaiting, fun key hkey => hkey.elim (hmine key) (hfree key)⟩

/-- What comes of a turn that spares the others, where an exception gives no message. -/
theorem afterTurn_turned (h : st.Lawful) (hthrown : ∀ s x, Idle s (thrown s x))
    {turn : Turn st κ} (hmine : ∀ key ∈ s.reported pair, key ∉ s.heldByOthers pair.1)
    (hturn : turn.Spares (s.reported pair) (s.heldByOthers pair.1) s.storage) :
    Idle s (s.afterTurn S id pair contractAddress thrown turn) ∨
      Turned pair s (s.afterTurn S id pair contractAddress thrown turn) := by
  cases turn with
  | exited => exact .inl ⟨rfl, rfl, fun _ _ => Iff.rfl⟩
  | returned ending e => exact .inr (turned_returned h hturn)
  | threw x e => exact .inr (turned_threw hthrown hturn)
  | handedOut message awaiting e => exact .inr (turned_handedOut hmine hturn)

end Turns

/-- What an executive holds, no other context holds. -/
theorem Exclusive.reported_free (hs : s.Exclusive) (hwaits : s.Waits pair) :
    ∀ key ∈ s.reported pair, key ∉ s.heldByOthers pair.1 := by
  rintro key hkey ⟨pair', hcontext, hheld⟩
  exact hcontext (hs.apart pair' pair key hheld ⟨hwaits, hkey⟩)

theorem Exclusive.reported_eq_empty (hs : s.Exclusive) (hnone : s.executives pair = none) :
    s.reported pair = ∅ := by
  refine Set.eq_empty_of_forall_notMem ?_
  rintro key ⟨id, message, hmem, hids, -⟩
  exact hs.known id message hmem (hids ▸ hnone)

theorem insertAndStart_turned (h : st.Lawful) (hs : s.Exclusive)
    (hlocks : ∀ key ∈ s.heldByOthers pair.1, key ∈ p.keyLocks.map ascii)
    (hlocking : s.executives pair = none → (execute S.toEnvironment b p).Locking Silent ∅) :
    Idle s (s.insertAndStart S id pair p b) ∨ Turned pair s (s.insertAndStart S id pair p b) := by
  unfold insertAndStart
  split
  next => exact .inl ⟨rfl, rfl, fun _ _ => Iff.rfl⟩
  next hsome =>
    have hnone : s.executives pair = none := by simpa using hsome
    have hempty := hs.reported_eq_empty hnone
    refine afterTurn_turned h (fun _ _ => Idle.callback _) ?_ ?_
    · rw [hempty]
      exact fun key hkey => hkey.elim
    · rw [hempty]
      exact startTurn_spares h (hlocking hnone) hlocks

theorem resume_turned (h : st.Lawful) (hs : s.Exclusive)
    (hlocks : ∀ key ∈ s.heldByOthers pair.1, key ∈ p.keyLocks.map ascii)
    {executive : ExecutiveState st κ} (hpair : s.executives pair = some executive)
    (hgranted : ∀ contractAddress recoder wrapper awaiting,
      executive = .suspended contractAddress recoder wrapper awaiting →
        awaiting.Granted (s.heldByOthers pair.1) p) :
    Idle s (s.resume S id pair p executive) ∨ Turned pair s (s.resume S id pair p executive) := by
  cases executive with
  | suspended contractAddress recoder wrapper awaiting =>
    have hfree := hs.reported_free ⟨contractAddress, recoder, wrapper, awaiting, hpair⟩
    exact afterTurn_turned h (fun _ x => Idle.escape x) hfree
      ((hs.waiting _ _ _ _ _ hpair).resume h hfree hlocks
        (hgranted contractAddress recoder wrapper awaiting rfl))
  | finished => exact .inl ⟨rfl, rfl, fun _ _ => Iff.rfl⟩
  | failed => exact .inl ⟨rfl, rfl, fun _ _ => Iff.rfl⟩

theorem of_idle_turned {s₀ : Service st κ} (hidle : Idle s s₀)
    (hturned : Idle s₀ s' ∨ Turned pair s₀ s') : Idle s s' ∨ Turned pair s s' :=
  hturned.imp hidle.trans (Turned.of_idle hidle)

theorem asyncExecute_turned (h : st.Lawful) (hs : s.Exclusive) {input : ExecutionMessage}
    {staticCall : Bool} (horderly : s.Orderly S (.message input staticCall b)) :
    Idle s (s.asyncExecute S input staticCall b) ∨
      Turned (input.contextID, input.seq) s (s.asyncExecute S input staticCall b) := by
  have harrive : Idle s s.arrive := ⟨rfl, rfl, fun _ _ => Iff.rfl⟩
  cases hp : createCallParameters input staticCall with
  | none =>
    left
    rcases createCallParameters_eq_none hp with ht | ht | ht
    · rw [asyncExecute_txHash ht]
      exact ⟨rfl, rfl, fun _ _ => Iff.rfl⟩
    · unfold asyncExecute
      rw [ht]
      exact harrive.trans (Idle.callback _)
    · unfold asyncExecute
      rw [ht]
      exact harrive.trans (Idle.callback _)
  | some p =>
    obtain ⟨hlocks, hgranted⟩ := horderly p hp
    rw [← harrive.heldByOthers] at hlocks
    rw [asyncExecute_some hp]
    refine of_idle_turned harrive ?_
    cases hex : s.executives (input.contextID, input.seq) with
    | some executive =>
      refine resume_turned h (harrive.exclusive hs) hlocks hex fun _ _ _ _ heq => ?_
      rw [hex, heq] at hgranted
      rw [harrive.heldByOthers]
      exact hgranted
    | none =>
      rw [hex] at hgranted
      dsimp only
      split
      · exact .inl (Idle.callback _)
      · exact insertAndStart_turned h (harrive.exclusive hs) hlocks fun _ => hgranted

theorem asyncFilled_turned (h : st.Lawful) (hs : s.Exclusive) {index : Nat}
    {result : Except Exc (Option (List (Option Transaction)))}
    (horderly : s.Orderly S (.filled index result b)) {input : ExecutionMessage}
    (hat : s.filling[index]? = some (id, input)) :
    Idle s (s.asyncFilled S index result b) ∨
      Turned (input.contextID, input.seq) s (s.asyncFilled S index result b) := by
  unfold asyncFilled
  rw [hat]
  dsimp only
  have herased : Idle s { s with filling := s.filling.eraseIdx index } :=
    ⟨rfl, rfl, fun _ _ => Iff.rfl⟩
  cases htx : foundTransaction input result with
  | error x => exact .inl (herased.trans (Idle.callback _))
  | ok tx =>
    obtain ⟨hlocks, hlocking⟩ := horderly id input tx hat htx
    rw [← herased.heldByOthers] at hlocks
    exact of_idle_turned herased
      (insertAndStart_turned h (herased.exclusive hs) hlocks fun _ => hlocking)

/-- An arrival is a turn of one executive of its context, or nothing. -/
theorem step_turned (h : st.Lawful) (hs : s.Exclusive) {arrival : Arrival κ}
    (horderly : s.Orderly S arrival) :
    Idle s (s.step S arrival) ∨
      ∃ pair, s.contextOf arrival = some pair.1 ∧ Turned pair s (s.step S arrival) := by
  cases arrival with
  | message input staticCall b =>
    exact (asyncExecute_turned h hs horderly).imp_right fun hturned => ⟨_, rfl, hturned⟩
  | filled index result b =>
    cases hat : s.filling[index]? with
    | none =>
      left
      show Idle s (s.asyncFilled S index result b)
      unfold asyncFilled
      rw [hat]
      exact ⟨rfl, rfl, fun _ _ => Iff.rfl⟩
    | some request =>
      refine (asyncFilled_turned h hs horderly hat).imp_right fun hturned => ⟨_, ?_, hturned⟩
      unfold contextOf
      dsimp only
      rw [hat]
      rfl

theorem Exclusive.step (h : st.Lawful) (hs : s.Exclusive) {arrival : Arrival κ}
    (horderly : s.Orderly S arrival) : (s.step S arrival).Exclusive := by
  obtain hidle | ⟨pair, -, hturned⟩ := step_turned h hs horderly
  · exact hidle.exclusive hs
  · exact hturned.exclusive hs

theorem Exclusive.run (h : st.Lawful) {s : Service st κ} (hs : s.Exclusive)
    {arrivals : List (Arrival κ)} (horderly : Runs.Always (Service.step S) (Orderly S) s arrivals) :
    (arrivals.foldl (Service.step S) s).Exclusive := by
  induction arrivals generalizing s with
  | nil => exact hs
  | cons arrival arrivals ih => exact ih (hs.step h horderly.1) horderly.2

end Service

end BcosExecutor
