import BcosExecutor.ExecutiveAnswers
import BcosExecutor.Halting
import BcosExecutor.MessageProtocol

namespace BcosExecutor

open Halting
open Relation (ReflTransGen TransGen)

variable {st : StateStorage}

/-- What the scheduler finds for a message that starts an executive: the receiver, which is new
for a creation, and the code that runs. -/
structure Contracts where
  receiver : ExecutionMessage → String
  code : ExecutionMessage → WrappedBehaviour Unit

/-- A request as it is handed on, with the number of a new executive and without locks. -/
def Contracts.request (C : Contracts) (seq : Int) (m : ExecutionMessage) : ExecutionMessage :=
  let m := { m with seq, keyLocks := [] }
  { m with toAddress := C.receiver m }

/-- An answer as it is handed back to the executive that waits for it. -/
def answerTo (seq : Int) (m : ExecutionMessage) : ExecutionMessage :=
  { m with seq, keyLocks := [] }

/-- The message that an executive hands out for a call, but for its locks. -/
def sent (S : Setting) (contextID seq : Int) (request : CallParameters) : ExecutionMessage :=
  toExecutiveResult S.fresh contextID seq { request with type := .message, keyLocks := [] }

/-- The message that an executive ends with. -/
def ended (S : Setting) (contextID seq : Int) (ending : Ending) : ExecutionMessage :=
  toExecutiveResult S.fresh contextID seq { ending.message with keyLocks := [] }

/-- A script that runs with its calls inside, each as an executive of its own over the rows that
the caller has left. The executives are numbered as they start: `next` is the first number that
is free. -/
inductive Nested (S : Setting) (C : Contracts) (contextID : Int) :
    Int → Int → Script Unit Ending → Executive st → Int → Ending → Executive st → Prop
  | pure {seq next ending e} : Nested S C contextID seq next (.pure ending) e next ending e
  | getRow {seq next row k e next' ending e'}
      (h : Nested S C contextID seq next (k (st.getRow e.storage row)) e next' ending e') :
      Nested S C contextID seq next (.getRow row k) e next' ending e'
  | setRow {seq next row entry k e next' ending e'}
      (h : Nested S C contextID seq next k (e.setRow row entry) next' ending e') :
      Nested S C contextID seq next (.setRow row entry k) e next' ending e'
  | externalCall {seq next callee request k e p next₁ ending₁ e₁ answer next' ending e'}
      (hp : createCallParameters (C.request next (sent S contextID seq request)) false = some p)
      (hcallee : Nested S C contextID next (next + 1)
        (Access.execute S.toEnvironment (C.code (C.request next (sent S contextID seq request)))
          p).erase (Executive.start e.storage) next₁ ending₁ e₁)
      (hanswer : createCallParameters (answerTo seq (ended S contextID next ending₁)) false =
        some answer)
      (hrest : Nested S C contextID seq next₁ (k answer)
        (e.resume (settle e.storage (some (.ok ending₁), e₁))) next' ending e') :
      Nested S C contextID seq next (.externalCall callee request k) e next' ending e'

namespace Nested

variable {S : Setting} {C : Contracts} {contextID seq next next' : Int}
  {script : Script Unit Ending} {e e' : Executive st} {ending : Ending}

theorem le (h : Nested S C contextID seq next script e next' ending e') : next ≤ next' := by
  induction h with
  | pure => exact le_rfl
  | getRow _ ih => exact ih
  | setRow _ ih => exact ih
  | externalCall _ _ _ _ ih₁ ih =>
    have hcallee := ih₁
    omega

theorem returns {P : Ending → Prop} (h : Nested S C contextID seq next script e next' ending e')
    (hreturns : script.Returns P) : P ending := by
  induction h with
  | pure => exact hreturns
  | getRow _ ih => exact ih (hreturns _)
  | setRow _ ih => exact ih hreturns
  | externalCall _ _ _ _ _ ih => exact ih (hreturns _)

end Nested

theorem ended_type (S : Setting) (contextID seq : Int) {ending : Ending} (h : ending.Answers) :
    (ended S contextID seq ending).type = .finished ∨
      (ended S contextID seq ending).type = .revert := by
  unfold ended toExecutiveResult toExecutionResult
  rcases h with h | h
  · left
    simp only [h]
  · right
    simp only [h]

theorem exists_createCallParameters {input : ExecutionMessage} (staticCall : Bool)
    (h : input.type = .message ∨ input.type = .finished ∨ input.type = .revert) :
    ∃ p, createCallParameters input staticCall = some p := by
  unfold createCallParameters
  rcases h with h | h | h <;> exact ⟨_, by rw [h]⟩

/-- The message that the last request has come back with. -/
def Service.said (s : Service st Unit) : Option ExecutionMessage :=
  match s.callbacks.getLast? with
  | some (id, .ok m) => if id + 1 = s.requests then some m else none
  | _ => none

/-- A scheduler that works off the calls of one context as the unit tests do, the innermost first:
the executives that have started and not ended, the last one in front, and the first number that is
free. -/
structure Conductor (st : StateStorage) where
  service : Service st Unit
  waiting : List Int
  next : Int

namespace Conductor

def deliver (S : Setting) (C : Contracts) (c : Conductor st) (m : ExecutionMessage) :
    Service st Unit :=
  c.service.asyncExecute S m false (C.code m)

/-- A request starts a new executive, an answer goes to the one that has called. -/
def step (S : Setting) (C : Contracts) (c : Conductor st) : Conductor st ⊕ Conductor st :=
  match c.service.said with
  | none => .inr c
  | some m =>
    match m.type, c.waiting with
    | .message, seqs =>
      .inl ⟨c.deliver S C (C.request c.next m), c.next :: seqs, c.next + 1⟩
    | .finished, _ :: seq :: seqs | .revert, _ :: seq :: seqs =>
      .inl ⟨c.deliver S C (answerTo seq m), seq :: seqs, c.next⟩
    | _, _ => .inr c

variable {S : Setting} {C : Contracts} {c : Conductor st} {m : ExecutionMessage}

theorem step_none (h : c.service.said = none) : step S C c = .inr c := by
  unfold step
  rw [h]

theorem step_request (h : c.service.said = some m) (hm : m.type = .message) :
    step S C c = .inl ⟨c.deliver S C (C.request c.next m), c.next :: c.waiting, c.next + 1⟩ := by
  unfold step
  rw [h]
  dsimp only
  rw [hm]

theorem step_answer {own seq : Int} {seqs : List Int} (h : c.service.said = some m)
    (hm : m.type = .finished ∨ m.type = .revert) (hwaiting : c.waiting = own :: seq :: seqs) :
    step S C c = .inl ⟨c.deliver S C (answerTo seq m), seq :: seqs, c.next⟩ := by
  unfold step
  rw [h]
  dsimp only
  rcases hm with hm | hm <;> rw [hm, hwaiting]

theorem step_last {own : Int} (h : c.service.said = some m)
    (hm : m.type = .finished ∨ m.type = .revert) (hwaiting : c.waiting = [own]) :
    step S C c = .inr c := by
  unfold step
  rw [h]
  dsimp only
  rcases hm with hm | hm <;> rw [hm, hwaiting]

end Conductor

namespace Access

variable {κ α : Type} {m : Access κ α}

theorem erase_eq_pure {a : α} (h : m.erase = .pure a) : m = .pure a := by
  cases m with
  | pure a' =>
    cases h
    rfl
  | access way operation row k => cases operation <;> cases h
  | throw x => cases h
  | abort => cases h
  | externalCall callee request k => cases h

theorem erase_eq_getRow {row : StateRow} {k : Option Entry → Script κ α}
    (h : m.erase = .getRow row k) : ∃ way k', m = .access way .get row k' ∧
      k = fun entry => (k' (.ok entry)).erase := by
  cases m with
  | access way operation row' k' =>
    cases operation with
    | get =>
      cases h
      exact ⟨way, k', rfl, rfl⟩
    | set entry => cases h
  | pure a => cases h
  | throw x => cases h
  | abort => cases h
  | externalCall callee request k => cases h

theorem erase_eq_setRow {row : StateRow} {entry : Option Entry} {k : Script κ α}
    (h : m.erase = .setRow row entry k) : ∃ way k', m = .access way (.set entry) row k' ∧
      k = (k' (.ok none)).erase := by
  cases m with
  | access way operation row' k' =>
    cases operation with
    | get => cases h
    | set entry' =>
      cases h
      exact ⟨way, k', rfl, rfl⟩
  | pure a => cases h
  | throw x => cases h
  | abort => cases h
  | externalCall callee request k => cases h

theorem erase_eq_externalCall {callee : κ} {request : CallParameters}
    {k : CallParameters → Script κ α} (h : m.erase = .externalCall callee request k) :
    ∃ k', m = .externalCall callee request k' ∧ k = fun answer => (k' answer).erase := by
  cases m with
  | externalCall callee' request' k' =>
    cases h
    exact ⟨k', rfl, rfl⟩
  | access way operation row k => cases operation <;> cases h
  | pure a => cases h
  | throw x => cases h
  | abort => cases h

end Access

section Turns

theorem not_locked {w : SyncStorageWrapper} (hw : w.existsKeyLocks = []) (way : Way)
    (row : StateRow) : ¬(way = .wrapper ∧ row.key ∈ w.existsKeyLocks) := by
  rw [hw]
  exact fun h => List.not_mem_nil h.2

theorem existsKeyLocks_start {input : ExecutionMessage} {staticCall : Bool} {p : CallParameters}
    (hp : createCallParameters input staticCall = some p) (h : input.keyLocks = []) :
    (SyncStorageWrapper.start p.keyLocks).existsKeyLocks = [] := by
  rw [Service.createCallParameters_keyLocks hp, h]
  rfl

theorem existsKeyLocks_import {input : ExecutionMessage} {staticCall : Bool} {p : CallParameters}
    (hp : createCallParameters input staticCall = some p) (h : input.keyLocks = [])
    (w : SyncStorageWrapper) : (w.importExistsKeyLocks p.keyLocks).existsKeyLocks = [] := by
  rw [Service.createCallParameters_keyLocks hp, h]
  rfl

variable {contractAddress : String} (way : Way) (row : StateRow)
  (k : Except Exc (Option Entry) → Access Unit Ending) {w : SyncStorageWrapper}
  {storage : st.State} {recoder : st.Recoder}

/-- An executive that has been told of no locks reads without a message. -/
theorem advance_get (hw : w.existsKeyLocks = []) : ∃ w' : SyncStorageWrapper,
    w'.existsKeyLocks = [] ∧
      (Access.access way .get row k).advance contractAddress ⟨storage, recoder, w⟩ =
        (k (.ok (st.getRow storage row))).advance contractAddress ⟨storage, recoder, w'⟩ := by
  rw [Access.advance_access, if_neg (not_locked hw way row)]
  cases way with
  | wrapper => exact ⟨w.hold row.key, hw, rfl⟩
  | table => exact ⟨w, hw, rfl⟩

theorem advance_set (hw : w.existsKeyLocks = []) (entry : Option Entry) :
    ∃ w' : SyncStorageWrapper, w'.existsKeyLocks = [] ∧
      (Access.access way (.set entry) row k).advance contractAddress ⟨storage, recoder, w⟩ =
        (k (.ok none)).advance contractAddress ⟨(st.setRow storage recoder row entry).1,
          (st.setRow storage recoder row entry).2, w'⟩ := by
  rw [Access.advance_access, if_neg (not_locked hw way row)]
  cases way with
  | wrapper => exact ⟨w.hold row.key, hw, rfl⟩
  | table => exact ⟨w, hw, rfl⟩

end Turns

namespace Service

variable {S : Setting} {s s₀ s₁ : Service st Unit} {input : ExecutionMessage} {p : CallParameters}
  {b : WrappedBehaviour Unit}

theorem insertAndStart_none {id : Nat} {pair : Int × Int} (hnone : s.executives pair = none) :
    s.insertAndStart S id pair p b = s.afterTurn S id pair p.codeAddress
      (fun s _ => s.callback id (.error (.error (-1) "Execute error")))
      (startTurn S b p s.storage) := by
  unfold insertAndStart
  rw [hnone, Option.isSome_none, if_neg Bool.false_ne_true]

theorem asyncExecute_starts (hp : createCallParameters input false = some p)
    (htype : input.type = .message) (hnone : s.executives (input.contextID, input.seq) = none) :
    s.asyncExecute S input false b =
      s.arrive.insertAndStart S s.requests (input.contextID, input.seq) p b := by
  rw [asyncExecute_some hp, hnone]
  dsimp only
  rw [if_neg (by rw [htype]; exact nofun)]

theorem asyncExecute_resumes {contractAddress : String} {recoder : st.Recoder}
    {w : SyncStorageWrapper} {k : CallParameters → Access Unit Ending}
    (hp : createCallParameters input false = some p)
    (hwaits : s.executives (input.contextID, input.seq) =
      some (.suspended contractAddress recoder w (.externalCall k))) :
    s.asyncExecute S input false b =
      s.arrive.afterTurn S s.requests (input.contextID, input.seq) contractAddress escape
        ((k p).advance contractAddress
          ⟨s.storage, recoder, w.importExistsKeyLocks p.keyLocks⟩) := by
  rw [asyncExecute_some hp, hwaits]
  rfl

/-- An executive and its callees have come to an end: the answer is there, and nobody else is
touched. -/
structure Reports (s₀ s : Service st Unit) (contextID seq next next' : Int)
    (m : ExecutionMessage) (storage : st.State) : Prop where
  said : ∃ id, s.callbacks.getLast? = some (id, .ok m) ∧ id + 1 = s.requests
  storage : s.storage = storage
  others : ∀ pair, pair ≠ (contextID, seq) → (∀ k, next ≤ k → pair ≠ (contextID, k)) →
    s.executives pair = s₀.executives pair
  fresh : ∀ k, next' ≤ k → s.executives (contextID, k) = none

theorem Reports.said_eq {contextID seq next next' : Int} {m : ExecutionMessage}
    {storage : st.State} (h : s₀.Reports s contextID seq next next' m storage) :
    s.said = some m := by
  obtain ⟨id, hlast, hid⟩ := h.said
  unfold Service.said
  rw [hlast]
  exact if_pos hid

/-- A request that has just come has no answer yet. -/
theorem said_arrive {id : Nat} {result : Except Exc ExecutionMessage}
    (hlast : s.callbacks.getLast? = some (id, result)) (hid : id + 1 = s.requests) :
    s.arrive.said = none := by
  unfold Service.said
  rw [show s.arrive.callbacks = s.callbacks from rfl, hlast]
  cases result with
  | error x => rfl
  | ok m =>
    refine if_neg fun h => ?_
    have hrequests : s.arrive.requests = s.requests + 1 := rfl
    omega

theorem said_callback_error {id : Nat} (x : Exc) : (s.callback id (.error x)).said = none := by
  unfold Service.said
  rw [show (s.callback id (.error x)).callbacks = s.callbacks ++ [(id, .error x)] from rfl,
    List.getLast?_concat]

end Service

section Runs

open Service Conductor

theorem pair_ne {contextID i j : Int} (h : i ≠ j) : (contextID, i) ≠ (contextID, j) :=
  fun heq => h (Prod.mk.inj heq).2

variable {S : Setting} {C : Contracts} {contextID seq next next' : Int}
  {script : Script Unit Ending} {e e' : Executive st} {ending : Ending} {m : Access Unit Ending}
  {s₀ : Service st Unit} {id : Nat}

/-- An executive that hands out a call, and what the scheduler makes of it: the executive waits,
and its callee has its first turn. -/
theorem step_handedOut (callee : Unit) {request : CallParameters}
    (k : CallParameters → Access Unit Ending) (w : SyncStorageWrapper) {p : CallParameters}
    (hid : s₀.requests = id + 1) (hlt : seq < next)
    (hfresh : ∀ i, next ≤ i → s₀.executives (contextID, i) = none)
    (hp : createCallParameters (C.request next (sent S contextID seq request)) false = some p)
    (contractAddress : String) (thrown : Service st Unit → Exc → Service st Unit)
    (storage : st.State) (recoder : st.Recoder) (waiting : List Int) :
    ∃ s₁ : Service st Unit, s₁.requests = id + 2 ∧ s₁.said = none ∧
      s₁.executives (contextID, seq) =
        some (.suspended contractAddress recoder w.exportKeyLocks.2 (.externalCall k)) ∧
      (∀ pair, pair ≠ (contextID, seq) → s₁.executives pair = s₀.executives pair) ∧
      Next (step S C)
        ⟨s₀.afterTurn S id (contextID, seq) contractAddress thrown
          ((Access.externalCall callee request k).advance contractAddress ⟨storage, recoder, w⟩),
          seq :: waiting, next⟩
        ⟨s₁.afterTurn S (id + 1) (contextID, next) p.codeAddress
          (fun s _ => s.callback (id + 1) (.error (.error (-1) "Execute error")))
          (startTurn S (C.code (C.request next (sent S contextID seq request))) p storage),
          next :: seq :: waiting, next + 1⟩ := by
  let s := s₀.afterTurn S id (contextID, seq) contractAddress thrown
    ((Access.externalCall callee request k).advance contractAddress ⟨storage, recoder, w⟩)
  have hrequests : s.requests = id + 1 := hid
  have hexecutives : s.executives = Function.update s₀.executives (contextID, seq)
      (some (.suspended contractAddress recoder w.exportKeyLocks.2 (.externalCall k))) := rfl
  have hlast : s.callbacks.getLast? = some (id, .ok (toExecutiveResult S.fresh contextID seq
      { request with
        type := .message
        keyLocks := w.exportKeyLocks.1.map bytesToString })) := List.getLast?_concat
  have hothers (pair : Int × Int) (hpair : pair ≠ (contextID, seq)) :
      s.arrive.executives pair = s₀.executives pair := by
    rw [show s.arrive.executives = s.executives from rfl, hexecutives,
      Function.update_of_ne hpair]
  have hfree : s.arrive.executives (contextID, next) = none := by
    rw [hothers _ (pair_ne hlt.ne'), hfresh next le_rfl]
  refine ⟨s.arrive, congrArg (· + 1) hrequests, said_arrive hlast hrequests.symm,
    Function.update_self _ _ _, hothers, ?_⟩
  have hsaid : s.said = some (toExecutiveResult S.fresh contextID seq
      { request with
        type := .message
        keyLocks := w.exportKeyLocks.1.map bytesToString }) := by
    unfold Service.said
    rw [hlast]
    exact if_pos hrequests.symm
  have hstarts : s.asyncExecute S (C.request next (sent S contextID seq request)) false
      (C.code (C.request next (sent S contextID seq request))) =
        s.arrive.insertAndStart S s.requests (contextID, next) p
          (C.code (C.request next (sent S contextID seq request))) :=
    asyncExecute_starts hp rfl hfree
  rw [hrequests, insertAndStart_none hfree] at hstarts
  rw [show storage = s.arrive.storage from rfl, ← hstarts]
  -- the scheduler drops the locks that the request was sent with
  refine (step_request (c := ⟨s, seq :: waiting, next⟩) hsaid rfl).trans ?_
  rfl

/-- An executive whose callee has answered goes on with the answer. -/
theorem step_answered {s₁ s₂ : Service st Unit} {own first n : Int} {storage : st.State}
    {contractAddress : String} {recoder : st.Recoder} {w : SyncStorageWrapper}
    {k : CallParameters → Access Unit Ending} {answer : CallParameters}
    (hreports : s₁.Reports s₂ contextID own first n (ended S contextID own ending) storage)
    (hanswers : ending.Answers) (hlt : seq < own) (hle : own ≤ first)
    (hwaits : s₁.executives (contextID, seq) =
      some (.suspended contractAddress recoder w (.externalCall k)))
    (hanswer : createCallParameters (answerTo seq (ended S contextID own ending)) false =
      some answer) (waiting : List Int) :
    Next (step S C) ⟨s₂, own :: seq :: waiting, n⟩
      ⟨s₂.arrive.afterTurn S s₂.requests (contextID, seq) contractAddress escape
        ((k answer).advance contractAddress
          ⟨storage, recoder, w.importExistsKeyLocks answer.keyLocks⟩), seq :: waiting, n⟩ := by
  have hothers : s₂.executives (contextID, seq) = s₁.executives (contextID, seq) :=
    hreports.others _ (pair_ne hlt.ne) fun i hi => pair_ne (by omega)
  have hresumes : s₂.asyncExecute S (answerTo seq (ended S contextID own ending)) false
      (C.code (answerTo seq (ended S contextID own ending))) = _ :=
    asyncExecute_resumes hanswer (hothers.trans hwaits)
  rw [hreports.storage] at hresumes
  have hstep := step_answer (S := S) (C := C) (c := ⟨s₂, own :: seq :: waiting, n⟩)
    hreports.said_eq (ended_type S _ _ hanswers) rfl
  refine hstep.trans ?_
  unfold deliver
  rw [hresumes]
  rfl

/-- From where the executive has had its turn the scheduler comes to where the executive has
ended. -/
def Conducts (S : Setting) (C : Contracts) (contextID seq next : Int) (m : Access Unit Ending)
    (e : Executive st) (next' : Int) (ending : Ending) (e' : Executive st) : Prop :=
  ∀ (w : SyncStorageWrapper) (s₀ : Service st Unit) (id : Nat) (contractAddress : String)
    (thrown : Service st Unit → Exc → Service st Unit) (waiting : List Int),
    w.existsKeyLocks = [] → s₀.requests = id + 1 →
    (∀ k, next ≤ k → s₀.executives (contextID, k) = none) →
    ∃ s, ReflTransGen (Next (step S C))
        ⟨s₀.afterTurn S id (contextID, seq) contractAddress thrown
          (m.advance contractAddress ⟨e.storage, e.recoder, w⟩), seq :: waiting, next⟩
        ⟨s, seq :: waiting, next'⟩ ∧
      s₀.Reports s contextID seq next next' (ended S contextID seq ending)
        (settle e.storage (some (.ok ending), e')).storage

theorem conducts_pure (hlt : seq < next) (ending : Ending) (e : Executive st) :
    Conducts S C contextID seq next (.pure ending) e next ending e := by
  intro w s₀ id contractAddress thrown waiting _ hid hfresh
  refine ⟨_, .refl, ⟨id, List.getLast?_concat, hid.symm⟩, rfl, fun pair hne _ => ?_,
    fun i hi => ?_⟩
  · exact Function.update_of_ne hne _ _
  · exact (Function.update_of_ne (pair_ne (by omega)) _ _).trans (hfresh i hi)

theorem conducts_get (way : Way) {row : StateRow}
    {k : Except Exc (Option Entry) → Access Unit Ending}
    (h : Conducts S C contextID seq next (k (.ok (st.getRow e.storage row))) e next' ending e') :
    Conducts S C contextID seq next (.access way .get row k) e next' ending e' := by
  intro w s₀ id contractAddress thrown waiting hw hid hfresh
  obtain ⟨w', hw', hadvance⟩ := advance_get way row k hw
  rw [hadvance]
  exact h w' s₀ id contractAddress thrown waiting hw' hid hfresh

theorem conducts_set (way : Way) {row : StateRow} {entry : Option Entry}
    {k : Except Exc (Option Entry) → Access Unit Ending}
    (h : Conducts S C contextID seq next (k (.ok none)) (e.setRow row entry) next' ending e') :
    Conducts S C contextID seq next (.access way (.set entry) row k) e next' ending e' := by
  intro w s₀ id contractAddress thrown waiting hw hid hfresh
  obtain ⟨w', hw', hadvance⟩ := advance_set way row k hw entry
  rw [hadvance]
  exact h w' s₀ id contractAddress thrown waiting hw' hid hfresh

/-- The callee runs to its end, and the caller goes on with its answer. -/
theorem conducts_externalCall (hlt : seq < next) (callee : Unit) {request : CallParameters}
    {k : CallParameters → Access Unit Ending} {p answer : CallParameters} {next₁ : Int}
    {ending₁ : Ending} {e₁ : Executive st}
    (hp : createCallParameters (C.request next (sent S contextID seq request)) false = some p)
    (hanswers : ending₁.Answers)
    (hanswer : createCallParameters (answerTo seq (ended S contextID next ending₁)) false =
      some answer)
    (hle : next + 1 ≤ next₁)
    (hcallee : Conducts S C contextID next (next + 1)
      (Access.execute S.toEnvironment (C.code (C.request next (sent S contextID seq request))) p)
      (Executive.start e.storage) next₁ ending₁ e₁)
    (hrest : Conducts S C contextID seq next₁ (k answer)
      (e.resume (settle e.storage (some (.ok ending₁), e₁))) next' ending e') :
    Conducts S C contextID seq next (.externalCall callee request k) e next' ending e' := by
  intro w s₀ id contractAddress thrown waiting hw hid hfresh
  obtain ⟨s₁, hrequests, -, hwaits, hothers, hrequest⟩ :=
    step_handedOut callee k w hid hlt hfresh hp contractAddress thrown e.storage e.recoder waiting
  have hfresh₁ (i : Int) (hi : next + 1 ≤ i) : s₁.executives (contextID, i) = none :=
    (hothers _ (pair_ne (by omega))).trans (hfresh i (by omega))
  obtain ⟨s₂, hreach, hreports⟩ := hcallee _ s₁ _ p.codeAddress _ (seq :: waiting)
    (existsKeyLocks_start hp rfl) hrequests hfresh₁
  have hback := step_answered (C := C) hreports hanswers hlt (by omega) hwaits hanswer waiting
  have hrequests₂ : s₂.arrive.requests = s₂.requests + 1 := rfl
  obtain ⟨s₃, hreach', hreports'⟩ := hrest _ s₂.arrive _ contractAddress escape waiting
    (existsKeyLocks_import hanswer rfl w.exportKeyLocks.2) hrequests₂ hreports.fresh
  refine ⟨s₃, .head hrequest (hreach.trans (.head hback hreach')), hreports'.said,
    hreports'.storage, fun pair hpair hlater => ?_, hreports'.fresh⟩
  have h₃ := hreports'.others pair hpair fun i hi => hlater i (by omega)
  have h₂ := hreports.others pair (hlater next le_rfl) fun i hi => hlater i (by omega)
  exact h₃.trans (h₂.trans (hothers pair hpair))

/-- The scheduler brings a nested execution about. -/
theorem Nested.conducts (h : Nested S C contextID seq next script e next' ending e')
    (hlt : seq < next) (hm : m.erase = script) :
    Conducts S C contextID seq next m e next' ending e' := by
  induction h generalizing m with
  | pure =>
    obtain rfl := Access.erase_eq_pure hm
    exact conducts_pure hlt _ _
  | getRow _ ih =>
    obtain ⟨way, k, rfl, rfl⟩ := Access.erase_eq_getRow hm
    exact conducts_get way (ih hlt rfl)
  | setRow _ ih =>
    obtain ⟨way, k, rfl, rfl⟩ := Access.erase_eq_setRow hm
    exact conducts_set way (ih hlt rfl)
  | externalCall hp hcallee hanswer hrest ihcallee ihrest =>
    obtain ⟨k, rfl, rfl⟩ := Access.erase_eq_externalCall hm
    have hanswers := hcallee.returns (Access.answers_execute _ _ _)
    have hle := hcallee.le
    exact conducts_externalCall hlt _ hp hanswers hanswer hle (ihcallee (by omega) rfl)
      (ihrest (by omega) rfl)

/-- The request of an executive has just come, and there is no answer before the executive has
had its turn. -/
structure Service.Begun (contextID next : Int) (id : Nat)
    (thrown : Service st Unit → Exc → Service st Unit) (s₀ : Service st Unit) : Prop where
  requests : s₀.requests = id + 1
  fresh : ∀ k, next ≤ k → s₀.executives (contextID, k) = none
  mute : s₀.said = none
  thrown : ∀ executives storage x, (thrown { s₀ with executives, storage } x).said = none

/-- Where an executive has had its turn, the script that it has left runs nested. -/
def Conductor.Nests (S : Setting) (C : Contracts) (contextID : Int) (c : Conductor st) : Prop :=
  ∀ (seq next : Int) (m : Access Unit Ending) (w : SyncStorageWrapper) (s₀ : Service st Unit)
    (id : Nat) (e : Executive st) (contractAddress : String)
    (thrown : Service st Unit → Exc → Service st Unit) (waiting : List Int),
    seq < next → w.existsKeyLocks = [] → s₀.Begun contextID next id thrown →
    c = ⟨s₀.afterTurn S id (contextID, seq) contractAddress thrown
      (m.advance contractAddress ⟨e.storage, e.recoder, w⟩), seq :: waiting, next⟩ →
    ∃ next' ending e', Nested S C contextID seq next m.erase e next' ending e'

/-- A scheduler that comes to rest with a message has brought a nested execution about. -/
theorem Nested.of_evaluates {c r : Conductor st} (heval : Evaluates (step S C) c r)
    (hr : r.service.said ≠ none) : c.Nests S C contextID := by
  refine heval.strongInduction fun c hc ih => ?_
  have hsaid : c.service.said ≠ none := fun hnone =>
    hr (hc.unique (.stop (step_none hnone)) ▸ hnone)
  intro seq next m
  induction m with
  | pure ending => exact fun _ _ _ _ _ _ _ _ _ _ _ => ⟨_, _, _, .pure⟩
  | throw x =>
    intro w s₀ id e contractAddress thrown waiting hlt hw hbegun heq
    subst heq
    exact absurd (hbegun.thrown _ _ x) hsaid
  | abort =>
    intro w s₀ id e contractAddress thrown waiting hlt hw hbegun heq
    subst heq
    exact absurd hbegun.mute hsaid
  | access way operation row k ihk =>
    intro w s₀ id e contractAddress thrown waiting hlt hw hbegun heq
    cases operation with
    | get =>
      obtain ⟨w', hw', hadvance⟩ := advance_get way row k hw
      rw [hadvance] at heq
      obtain ⟨next', ending, e', h⟩ := ihk _ _ _ _ _ _ _ _ hlt hw' hbegun heq
      exact ⟨next', ending, e', .getRow h⟩
    | set entry =>
      obtain ⟨w', hw', hadvance⟩ := advance_set way row k hw entry
      rw [hadvance] at heq
      obtain ⟨next', ending, e', h⟩ :=
        ihk (.ok none) _ _ _ (e.setRow row entry) _ _ _ hlt hw' hbegun heq
      exact ⟨next', ending, e', .setRow h⟩
  | externalCall callee request k _ =>
    intro w s₀ id e contractAddress thrown waiting hlt hw hbegun heq
    subst heq
    have hrequesttype : (C.request next (sent S contextID seq request)).type = .message := rfl
    obtain ⟨p, hp⟩ := exists_createCallParameters false (.inl hrequesttype)
    obtain ⟨s₁, hrequests, hmute₁, hwaits, hothers, hrequest⟩ :=
      step_handedOut callee k w hbegun.requests hlt hbegun.fresh hp contractAddress thrown
        e.storage e.recoder waiting
    have hfresh₁ (i : Int) (hi : next + 1 ≤ i) : s₁.executives (contextID, i) = none :=
      (hothers _ (pair_ne (by omega))).trans (hbegun.fresh i (by omega))
    have hlocks := existsKeyLocks_start hp rfl
    -- the callee is on its way to the same end
    obtain ⟨next₁, ending₁, e₁, hcallee⟩ := ih _ (.single hrequest) _ _ _ _ _ _
      (Executive.start e.storage) _ _ _ (by omega) hlocks
      ⟨hrequests, hfresh₁, hmute₁, fun _ _ _ => said_callback_error _⟩ rfl
    obtain ⟨s₂, hreach, hreports⟩ := hcallee.conducts (by omega) rfl _ s₁ _ p.codeAddress
      (fun s _ => s.callback (id + 1) (.error (.error (-1) "Execute error"))) (seq :: waiting)
      hlocks hrequests hfresh₁
    -- and so is the caller, once it has the answer
    have hanswers := hcallee.returns (Access.answers_execute _ _ _)
    have hle := hcallee.le
    have htype : (answerTo seq (ended S contextID next ending₁)).type = .finished ∨
        (answerTo seq (ended S contextID next ending₁)).type = .revert :=
      ended_type S contextID next hanswers
    obtain ⟨answer, hanswer⟩ := exists_createCallParameters false (.inr htype)
    have hback := step_answered (C := C) hreports hanswers hlt (by omega) hwaits hanswer waiting
    have hlocks' := existsKeyLocks_import hanswer rfl w.exportKeyLocks.2
    obtain ⟨last, hlast, hlastid⟩ := hreports.said
    obtain ⟨next', ending, e', hrest⟩ := ih _ (.tail' (.head hrequest hreach) hback) seq next₁ _
      _ s₂.arrive _ (e.resume (settle e.storage (some (.ok ending₁), e₁))) _ _ _ (by omega) hlocks'
      ⟨rfl, hreports.fresh, said_arrive hlast hlastid, fun _ _ _ => said_arrive hlast hlastid⟩ rfl
    exact ⟨next', ending, e', .externalCall hp hcallee hanswer hrest⟩

/-- Over messages a scheduler that works off the calls depth first comes to the answers and the
rows of the execution in which each call runs inside its caller, and to no others. -/
theorem conducted_iff {s : Service st Unit} {b : WrappedBehaviour Unit} {p : CallParameters}
    (hid : s.requests = id + 1) (hmute : s.said = none) (hlt : seq < next)
    (hnone : s.executives (contextID, seq) = none)
    (hfresh : ∀ k, next ≤ k → s.executives (contextID, k) = none) (hlocks : p.keyLocks = [])
    {m : ExecutionMessage} {storage : st.State} :
    (∃ r, Evaluates (step S C) ⟨s.insertAndStart S id (contextID, seq) p b, [seq], next⟩ r ∧
      r.service.said = some m ∧ r.service.storage = storage) ↔
    ∃ next' ending e', Nested S C contextID seq next (Access.execute S.toEnvironment b p).erase
      (Executive.start s.storage) next' ending e' ∧ m = ended S contextID seq ending ∧
      storage = (settle s.storage (some (.ok ending), e')).storage := by
  have hstart : (SyncStorageWrapper.start p.keyLocks).existsKeyLocks = [] := by
    rw [hlocks]
    rfl
  rw [insertAndStart_none hnone]
  have hforward {next' : Int} {ending : Ending} {e' : Executive st}
      (h : Nested S C contextID seq next (Access.execute S.toEnvironment b p).erase
        (Executive.start s.storage) next' ending e') :
      ∃ r, Evaluates (step S C) ⟨s.afterTurn S id (contextID, seq) p.codeAddress
          (fun s _ => s.callback id (.error (.error (-1) "Execute error")))
          (startTurn S b p s.storage), [seq], next⟩ r ∧
        r.service.said = some (ended S contextID seq ending) ∧
        r.service.storage = (settle s.storage (some (.ok ending), e')).storage := by
    obtain ⟨s', hreach, hreports⟩ := h.conducts hlt rfl _ s _ p.codeAddress
      (fun s _ => s.callback id (.error (.error (-1) "Execute error"))) [] hstart hid hfresh
    have hanswers := h.returns (Access.answers_execute _ _ _)
    have hrests : step S C ⟨s', [seq], next'⟩ = .inr ⟨s', [seq], next'⟩ :=
      step_last hreports.said_eq (ended_type S _ _ hanswers) rfl
    exact ⟨_, .of_reach hreach (.stop hrests), hreports.said_eq, hreports.storage⟩
  constructor
  · rintro ⟨r, heval, hsaid, hstorage⟩
    have hbegun : s.Begun contextID next id
        (fun s _ => s.callback id (.error (.error (-1) "Execute error"))) :=
      ⟨hid, hfresh, hmute, fun _ _ _ => said_callback_error _⟩
    obtain ⟨next', ending, e', h⟩ := Nested.of_evaluates heval (by rw [hsaid]; exact nofun)
      _ _ _ _ _ _ (Executive.start s.storage) _ _ _ hlt hstart hbegun rfl
    obtain ⟨r', heval', hsaid', hstorage'⟩ := hforward h
    cases heval.unique heval'
    exact ⟨next', ending, e', h, Option.some.inj (hsaid.symm.trans hsaid'),
      hstorage.symm.trans hstorage'⟩
  · rintro ⟨next', ending, e', h, rfl, rfl⟩
    exact hforward h

/-- A contract that answers with what it is answered. -/
def callerCode : WrappedBehaviour Unit where
  precompiled := .throw (.precompiledError none)
  vm := .externalCall () { type := .message, receiveAddress := "d" } fun answer =>
    .pure ⟨.success, 0, answer.data⟩

/-- A contract that writes a row. -/
def calleeCode : WrappedBehaviour Unit where
  precompiled := .throw (.precompiledError none)
  vm := .access .wrapper (.set (some [7])) ⟨"/apps/d", [1]⟩ (Access.orThrow fun _ =>
    .pure ⟨.success, 0, [42]⟩)

def callerAndCallee : Contracts where
  receiver m := m.toAddress
  code m := if m.toAddress = "c" then callerCode else calleeCode

/-- Every contract has code here. -/
def codeRows : undoLogStorage.State :=
  fun row => if row.key = ACCOUNT_CODE then some [0] else none

def callCaller : CallParameters where
  receiveAddress := "c"
  codeAddress := "c"
  type := .message

def called : Service undoLogStorage Unit :=
  { Service.fresh codeRows with requests := 1 }

theorem conducted_iff_callerAndCallee : ∃ r : Conductor undoLogStorage,
    Evaluates (step evmSetting callerAndCallee)
      ⟨called.insertAndStart evmSetting 0 (0, 0) callCaller callerCode, [0], 1⟩ r ∧
    r.service.said.map ExecutionMessage.data = some [42] ∧
    r.service.storage ⟨"/apps/d", [1]⟩ = some [7] := by
  have hnested : ∃ ending e', Nested evmSetting callerAndCallee 0 0 1
      (Access.execute evmSetting.toEnvironment callerCode callCaller).erase
      (Executive.start called.storage) 2 ending e' ∧ ending.message.data = [42] ∧
      ending.reverted = false ∧ e'.storage ⟨"/apps/d", [1]⟩ = some [7] :=
    ⟨_, _, .getRow (.externalCall rfl (.getRow (.setRow .pure)) rfl .pure), rfl, rfl, rfl⟩
  obtain ⟨ending, e', h, hdata, hkept, hrow⟩ := hnested
  have hrequests : called.requests = 0 + 1 := rfl
  obtain ⟨r, heval, hsaid, hstorage⟩ := (conducted_iff hrequests rfl (by decide) rfl
    (fun _ _ => rfl) rfl).mpr ⟨2, ending, e', h, rfl, rfl⟩
  refine ⟨r, heval, ?_, ?_⟩
  · rw [hsaid]
    exact congrArg some hdata
  · rw [hstorage]
    show (if ending.reverted then _ else e'.storage) ⟨"/apps/d", [1]⟩ = some [7]
    rw [hkept]
    exact hrow

end Runs

end BcosExecutor
