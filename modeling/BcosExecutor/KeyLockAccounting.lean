import BcosExecutor.KeyLocks

namespace BcosExecutor

open SyncStorageWrapper

/-- An access through the wrapper. -/
inductive WrapperAccess
  | getRow (table : String) (key : Bytes)
  | getRows (table : String) (keys : List Bytes)
  | setRow (table : String) (key : Bytes) (entry : Entry)
  deriving DecidableEq

def WrapperAccess.keys : WrapperAccess → List Bytes
  | getRow _ key | setRow _ key _ => [key]
  | getRows _ keys => keys

namespace KeyLockAccounting

/-- What has happened to an executive, as far as its locks go. -/
inductive Event
  | tested (key : Bytes) (found : Bool)
  | requested (key : Bytes) (keyLocks : List Bytes)
  | granted (key : Bytes) (keyLocks : List String)
  | refused (key : Bytes)
  | deadLock
  | acquired (key : Bytes)
  | accessed (access : WrapperAccess) (existsKeyLocks : List Bytes)
  | called (keyLocks : List Bytes)
  | returned (keyLocks : List String)
  deriving DecidableEq

/-- Where an executive stands. An access acquires its keys one by one, and each of them may
switch to the main coroutine. -/
inductive Standing
  | running
  | acquiring (remaining : List Bytes) (access : WrapperAccess)
  | lockWaiting (key : Bytes) (remaining : List Bytes) (access : WrapperAccess)
  | holding (key : Bytes) (remaining : List Bytes) (access : WrapperAccess)
  | raising
  | callWaiting

structure State where
  wrapper : SyncStorageWrapper
  standing : Standing
  events : List Event

/-- What the program of the executive does next, and what it is answered. -/
inductive Choice
  | access (access : WrapperAccess)
  | externalCall
  | answer (type : CallParameters.Kind) (keyLocks : List String)
  | go

def start (keyLocks : List String) : State where
  wrapper := SyncStorageWrapper.start keyLocks
  standing := .running
  events := []

local instance lawfulBEq_bytes : LawfulBEq Bytes :=
  inferInstanceAs (LawfulBEq (List UInt8))

/-- One step on the way through `acquireKeyLock` and the access. -/
def State.go (s : State) : State :=
  match s.standing with
  | .acquiring [] access =>
    { s with
      standing := .running
      events := s.events ++ [.accessed access s.wrapper.existsKeyLocks] }
  | .acquiring (key :: remaining) access =>
    if key ∈ s.wrapper.existsKeyLocks then
      { wrapper := s.wrapper.exportKeyLocks.2
        standing := .lockWaiting key remaining access
        events := s.events ++ [.tested key true, .requested key s.wrapper.exportKeyLocks.1] }
    else
      { wrapper := s.wrapper.hold key
        standing := .acquiring remaining access
        events := s.events ++ [.tested key false, .acquired key] }
  | .holding key remaining access =>
    { wrapper := s.wrapper.hold key
      standing := .acquiring remaining access
      events := s.events ++ [.acquired key] }
  | .raising => { s with standing := .running, events := s.events ++ [.deadLock] }
  | .running | .lockWaiting _ _ _ | .callWaiting => s

/-- The coroutine is resumed. -/
def State.answer (s : State) (type : CallParameters.Kind) (keyLocks : List String) : State :=
  match s.standing with
  | .lockWaiting key remaining access =>
    if type = .revert then
      { s with standing := .raising, events := s.events ++ [.refused key] }
    else
      { wrapper := s.wrapper.importExistsKeyLocks keyLocks
        standing := .holding key remaining access
        events := s.events ++ [.granted key keyLocks] }
  | .callWaiting =>
    { wrapper := s.wrapper.importExistsKeyLocks keyLocks
      standing := .running
      events := s.events ++ [.returned keyLocks] }
  | .running | .acquiring _ _ | .holding _ _ _ | .raising => s

/-- A choice that does not apply changes nothing. -/
def State.step (s : State) : Choice → State
  | .access access =>
    match s.standing with
    | .running => { s with standing := .acquiring access.keys access }
    | _ => s
  | .externalCall =>
    match s.standing with
    | .running =>
      { wrapper := s.wrapper.exportKeyLocks.2
        standing := .callWaiting
        events := s.events ++ [.called s.wrapper.exportKeyLocks.1] }
    | _ => s
  | .answer type keyLocks => s.answer type keyLocks
  | .go => s.go

def State.run (s : State) (choices : List Choice) : State :=
  choices.foldl State.step s

/-- The keys that went out with a message. -/
def Event.exported : Event → List Bytes
  | .requested _ keyLocks | .called keyLocks => keyLocks
  | _ => []

/-- The key that `acquireKeyLock` came back for. -/
def Event.acquiredKeys : Event → List Bytes
  | .acquired key => [key]
  | _ => []

/-- The keys that went out and those that are held are the ones that were acquired. -/
def Accounted (s : State) : Prop :=
  ∀ key, key ∈ s.events.flatMap Event.exported ∨ key ∈ s.wrapper.myKeyLocks ↔
    key ∈ s.events.flatMap Event.acquiredKeys

/-- Since a test of the key found nothing, the answer for another key of the access has brought
it in. -/
def BroughtIn (access : WrapperAccess) (key : Bytes) (since : List Event) : Prop :=
  ∃ key' keyLocks, .granted key' keyLocks ∈ since ∧ key ∈ keyLocks.map ascii ∧
    key' ∈ access.keys ∧ key' ≠ key

/-- The key was granted, or it was free when it was tested. -/
def Cleared (es : List Event) (access : WrapperAccess) (existsKeyLocks : List Bytes)
    (key : Bytes) : Prop :=
  (∃ keyLocks, .granted key keyLocks ∈ es) ∨
    ∃ before since, es = before ++ .tested key false :: since ∧
      (key ∈ existsKeyLocks → BroughtIn access key since)

/-- Every access has cleared its keys. -/
def AccessesCleared (es : List Event) : Prop :=
  ∀ before access existsKeyLocks after, es = before ++ .accessed access existsKeyLocks :: after →
    ∀ key ∈ access.keys, Cleared before access existsKeyLocks key

/-- Nothing comes between a refusal and the error. -/
def RefusalsRaise (s : State) : Prop :=
  ∀ before key after, s.events = before ++ .refused key :: after →
    after = [] ∧ s.standing = .raising ∨ ∃ rest, after = .deadLock :: rest

/-- The keys that an access has acquired so far are cleared. -/
def Underway (s : State) : Prop :=
  match s.standing with
  | .running | .raising | .callWaiting => True
  | .acquiring remaining access => ∃ done, access.keys = done ++ remaining ∧
    ∀ key ∈ done, Cleared s.events access s.wrapper.existsKeyLocks key
  | .lockWaiting key remaining access => ∃ done, access.keys = done ++ key :: remaining ∧
    ∀ key ∈ done, Cleared s.events access s.wrapper.existsKeyLocks key
  | .holding key remaining access => ∃ done, access.keys = done ++ key :: remaining ∧
    (∀ key ∈ done, Cleared s.events access s.wrapper.existsKeyLocks key) ∧
      ∃ keyLocks, .granted key keyLocks ∈ s.events

structure Right (s : State) : Prop where
  accounted : Accounted s
  cleared : AccessesCleared s.events
  raise : RefusalsRaise s
  underway : Underway s

variable {s s' : State} {es new : List Event} {access : WrapperAccess} {key : Bytes}

theorem split_append {before after : List Event} {e : Event}
    (h : es ++ new = before ++ e :: after) :
    (∃ rest, es = before ++ e :: rest ∧ after = rest ++ new) ∨
      ∃ rest, before = es ++ rest ∧ new = rest ++ e :: after := by
  rcases List.append_eq_append_iff.mp h with ⟨rest, hbefore, hnew⟩ | ⟨rest, hes, hafter⟩
  · exact .inr ⟨rest, hbefore, hnew⟩
  · cases rest with
    | nil => exact .inr ⟨[], by rw [hes, List.append_nil, List.append_nil], hafter.symm⟩
    | cons e' rest =>
      obtain ⟨rfl, htail⟩ := List.cons.inj hafter
      exact .inl ⟨rest, hes, htail⟩

/-- One more event: a position of the list is one before it, or the event itself. -/
theorem split_last {before after : List Event} {e e' : Event}
    (h : es ++ [e'] = before ++ e :: after) :
    (∃ rest, es = before ++ e :: rest ∧ after = rest ++ [e']) ∨
      before = es ∧ e' = e ∧ after = [] := by
  rcases split_append h with hearlier | ⟨rest, hbefore, hlast⟩
  · exact .inl hearlier
  · have hlength := congrArg List.length hlast
    simp only [List.length_append, List.length_cons, List.length_nil] at hlength
    have hrest : rest = [] := List.eq_nil_of_length_eq_zero (by omega)
    subst rest
    obtain ⟨he, hafter⟩ := List.cons.inj hlast
    exact .inr ⟨hbefore.trans (List.append_nil es), he, hafter.symm⟩

/-- What goes out or stays is what was held or has been acquired. -/
theorem accounted_next (h : Accounted s) (hevents : s'.events = s.events ++ new)
    (hnew : ∀ key, key ∈ new.flatMap Event.exported ∨ key ∈ s'.wrapper.myKeyLocks ↔
      key ∈ s.wrapper.myKeyLocks ∨ key ∈ new.flatMap Event.acquiredKeys) : Accounted s' := by
  intro key
  have hs := h key
  have hkey := hnew key
  rw [hevents, List.flatMap_append, List.flatMap_append, List.mem_append, List.mem_append, ← hs,
    or_assoc, hkey, or_assoc]

theorem accounted_same (h : Accounted s) (hevents : s'.events = s.events ++ new)
    (hwrapper : s'.wrapper.myKeyLocks = s.wrapper.myKeyLocks)
    (hexported : new.flatMap Event.exported = [])
    (hacquired : new.flatMap Event.acquiredKeys = []) : Accounted s' := by
  refine accounted_next h hevents fun key => ?_
  rw [hexported, hacquired, hwrapper]
  simp

theorem accounted_hold (h : Accounted s) (key : Bytes) (hevents : s'.events = s.events ++ new)
    (hwrapper : s'.wrapper = s.wrapper.hold key) (hexported : new.flatMap Event.exported = [])
    (hacquired : new.flatMap Event.acquiredKeys = [key]) : Accounted s' := by
  refine accounted_next h hevents fun key' => ?_
  rw [hexported, hacquired, hwrapper]
  unfold hold
  dsimp only
  rw [List.mem_insert_iff]
  simp [or_comm]

theorem accounted_export (h : Accounted s) (hevents : s'.events = s.events ++ new)
    (hwrapper : s'.wrapper = s.wrapper.exportKeyLocks.2)
    (hexported : new.flatMap Event.exported = s.wrapper.myKeyLocks)
    (hacquired : new.flatMap Event.acquiredKeys = []) : Accounted s' := by
  refine accounted_next h hevents fun key => ?_
  rw [hexported, hacquired, hwrapper]
  simp [exportKeyLocks]

theorem Cleared.append {existsKeyLocks : List Bytes} (h : Cleared es access existsKeyLocks key)
    (new : List Event) : Cleared (es ++ new) access existsKeyLocks key := by
  rcases h with ⟨keyLocks, hgranted⟩ | ⟨before, since, rfl, hbrought⟩
  · exact .inl ⟨keyLocks, List.mem_append_left _ hgranted⟩
  · refine .inr ⟨before, since ++ new, by rw [List.append_assoc, List.cons_append], fun hkey => ?_⟩
    obtain ⟨key', keyLocks, hgranted, hrest⟩ := hbrought hkey
    exact ⟨key', keyLocks, List.mem_append_left _ hgranted, hrest⟩

/-- An answer replaces the locks of the other ones. A key of the access that was free before is
there now only if the answer has it. -/
theorem Cleared.granted {existsKeyLocks : List Bytes} (h : Cleared es access existsKeyLocks key)
    {key' : Bytes} (hkey' : key' ∈ access.keys) (keyLocks : List String) :
    Cleared (es ++ [.granted key' keyLocks]) access (keyLocks.map ascii) key := by
  have hlast : Event.granted key' keyLocks ∈ es ++ [.granted key' keyLocks] :=
    List.mem_append_right _ (List.mem_singleton.mpr rfl)
  by_cases hsame : key' = key
  · exact .inl ⟨keyLocks, hsame ▸ hlast⟩
  · rcases h with ⟨keyLocks', hgranted⟩ | ⟨before, since, rfl, -⟩
    · exact .inl ⟨keyLocks', List.mem_append_left _ hgranted⟩
    · refine .inr ⟨before, since ++ [.granted key' keyLocks],
        by rw [List.append_assoc, List.cons_append], fun hkey => ?_⟩
      exact ⟨key', keyLocks, List.mem_append_right _ (List.mem_singleton.mpr rfl), hkey, hkey',
        hsame⟩

theorem AccessesCleared.append (h : AccessesCleared es)
    (hnew : ∀ access existsKeyLocks, .accessed access existsKeyLocks ∉ new) :
    AccessesCleared (es ++ new) := by
  intro before access existsKeyLocks after hes key hkey
  rcases split_append hes with ⟨rest, hes, -⟩ | ⟨rest, -, hrest⟩
  · exact h before access existsKeyLocks rest hes key hkey
  · exact absurd (by rw [hrest]; simp) (hnew access existsKeyLocks)

theorem AccessesCleared.accessed (h : AccessesCleared es) {existsKeyLocks : List Bytes}
    (hkeys : ∀ key ∈ access.keys, Cleared es access existsKeyLocks key) :
    AccessesCleared (es ++ [.accessed access existsKeyLocks]) := by
  intro before access' existsKeyLocks' after hes key hkey
  rcases split_last hes with ⟨rest, hearlier, -⟩ | ⟨rfl, heq, -⟩
  · exact h before access' existsKeyLocks' rest hearlier key hkey
  · cases heq
    exact hkeys key hkey

/-- An executive that is not about to raise has raised what was refused. -/
theorem refusalsRaise_append (h : RefusalsRaise s) (hstanding : s.standing ≠ .raising)
    (hevents : s'.events = s.events ++ new) (hnew : ∀ key, .refused key ∉ new) :
    RefusalsRaise s' := by
  intro before key after hes
  rw [hevents] at hes
  rcases split_append hes with ⟨rest, hearlier, rfl⟩ | ⟨rest, -, hrest⟩
  · rcases h before key rest hearlier with ⟨-, hraising⟩ | ⟨rest', rfl⟩
    · exact absurd hraising hstanding
    · exact .inr ⟨rest' ++ new, rfl⟩
  · exact absurd (by rw [hrest]; simp) (hnew key)

theorem refusalsRaise_deadLock (h : RefusalsRaise s)
    (hevents : s'.events = s.events ++ [.deadLock]) : RefusalsRaise s' := by
  intro before key after hes
  rw [hevents] at hes
  rcases split_last hes with ⟨rest, hearlier, rfl⟩ | ⟨-, heq, -⟩
  · rcases h before key rest hearlier with ⟨rfl, -⟩ | ⟨rest', rfl⟩
    · exact .inr ⟨[], rfl⟩
    · exact .inr ⟨rest' ++ [.deadLock], rfl⟩
  · cases heq

theorem refusalsRaise_refused (h : RefusalsRaise s) (hstanding : s.standing ≠ .raising)
    (key : Bytes) (hevents : s'.events = s.events ++ [.refused key])
    (hraising : s'.standing = .raising) : RefusalsRaise s' := by
  intro before key' after hes
  rw [hevents] at hes
  rcases split_last hes with ⟨rest, hearlier, rfl⟩ | ⟨-, -, hafter⟩
  · rcases h before key' rest hearlier with ⟨-, hraising'⟩ | ⟨rest', rfl⟩
    · exact absurd hraising' hstanding
    · exact .inr ⟨rest' ++ [.refused key], rfl⟩
  · exact .inl ⟨hafter, hraising⟩

/-- The next key of an access is cleared after the ones before it. -/
theorem cleared_next {existsKeyLocks : List Bytes} {done remaining : List Bytes}
    (hkeys : access.keys = done ++ key :: remaining)
    (hdone : ∀ key ∈ done, Cleared es access existsKeyLocks key)
    (hkey : Cleared (es ++ new) access existsKeyLocks key) :
    ∃ done, access.keys = done ++ remaining ∧
      ∀ key ∈ done, Cleared (es ++ new) access existsKeyLocks key := by
  refine ⟨done ++ [key], ?_, fun key' hkey' => ?_⟩
  · rw [hkeys, List.append_assoc]
    rfl
  · rcases List.mem_append.mp hkey' with hmem | hmem
    · exact (hdone key' hmem).append new
    · rw [List.mem_singleton.mp hmem]
      exact hkey

theorem right_start (keyLocks : List String) : Right (start keyLocks) := by
  refine ⟨fun key => ?_, fun before access existsKeyLocks after hes => ?_,
    fun before key after hes => ?_, trivial⟩
  · show key ∈ [] ∨ key ∈ [] ↔ key ∈ []
    simp
  · simp [start] at hes
  · simp [start] at hes

/-- The step that a standing executive takes by itself. -/
theorem Right.go (h : Right s) : Right s.go := by
  have hunderway := h.underway
  unfold Underway at hunderway
  unfold State.go
  cases hstanding : s.standing with
  | running | lockWaiting | callWaiting => exact h
  | raising =>
    exact ⟨accounted_same h.accounted rfl rfl rfl rfl, h.cleared.append (by simp),
      refusalsRaise_deadLock h.raise rfl, trivial⟩
  | holding key remaining access =>
    rw [hstanding] at hunderway
    obtain ⟨done, hkeys, hdone, keyLocks, hgranted⟩ := hunderway
    have hne : s.standing ≠ .raising := by simp [hstanding]
    exact ⟨accounted_hold h.accounted key rfl rfl rfl rfl, h.cleared.append (by simp),
      refusalsRaise_append h.raise hne rfl (by simp),
      cleared_next hkeys hdone (.inl ⟨keyLocks, List.mem_append_left _ hgranted⟩)⟩
  | acquiring remaining access =>
    rw [hstanding] at hunderway
    obtain ⟨done, hkeys, hdone⟩ := hunderway
    have hne : s.standing ≠ .raising := by simp [hstanding]
    cases remaining with
    | nil =>
      rw [List.append_nil] at hkeys
      refine ⟨accounted_same h.accounted rfl rfl rfl rfl, h.cleared.accessed fun key hkey => ?_,
        refusalsRaise_append h.raise hne rfl (by simp), trivial⟩
      exact hdone key (hkeys ▸ hkey)
    | cons key remaining =>
      dsimp only
      by_cases hfound : key ∈ s.wrapper.existsKeyLocks
      · rw [if_pos hfound]
        have hexported : [Event.tested key true, .requested key s.wrapper.exportKeyLocks.1].flatMap
            Event.exported = s.wrapper.myKeyLocks := List.append_nil _
        exact ⟨accounted_export h.accounted rfl rfl hexported rfl, h.cleared.append (by simp),
          refusalsRaise_append h.raise hne rfl (by simp), done, hkeys,
          fun key' hkey' => (hdone key' hkey').append _⟩
      · rw [if_neg hfound]
        have hcleared : Cleared (s.events ++ [.tested key false, .acquired key]) access
            s.wrapper.existsKeyLocks key :=
          .inr ⟨s.events, [.acquired key], rfl, fun hkey => absurd hkey hfound⟩
        exact ⟨accounted_hold h.accounted key rfl rfl rfl rfl, h.cleared.append (by simp),
          refusalsRaise_append h.raise hne rfl (by simp), cleared_next hkeys hdone hcleared⟩

theorem Right.answer (h : Right s) (type : CallParameters.Kind) (keyLocks : List String) :
    Right (s.answer type keyLocks) := by
  have hunderway := h.underway
  unfold Underway at hunderway
  unfold State.answer
  cases hstanding : s.standing with
  | running | acquiring | holding | raising => exact h
  | callWaiting =>
    have hne : s.standing ≠ .raising := by simp [hstanding]
    exact ⟨accounted_same h.accounted rfl rfl rfl rfl, h.cleared.append (by simp),
      refusalsRaise_append h.raise hne rfl (by simp), trivial⟩
  | lockWaiting key remaining access =>
    rw [hstanding] at hunderway
    obtain ⟨done, hkeys, hdone⟩ := hunderway
    have hne : s.standing ≠ .raising := by simp [hstanding]
    dsimp only
    by_cases hrevert : type = .revert
    · rw [if_pos hrevert]
      exact ⟨accounted_same h.accounted rfl rfl rfl rfl, h.cleared.append (by simp),
        refusalsRaise_refused h.raise hne key rfl rfl, trivial⟩
    · rw [if_neg hrevert]
      have hkey : key ∈ access.keys := by
        rw [hkeys]
        exact List.mem_append_right _ List.mem_cons_self
      refine ⟨accounted_same h.accounted rfl rfl rfl rfl, h.cleared.append (by simp),
        refusalsRaise_append h.raise hne rfl (by simp), done, hkeys,
        fun key' hkey' => (hdone key' hkey').granted hkey keyLocks, keyLocks, ?_⟩
      exact List.mem_append_right _ (List.mem_singleton.mpr rfl)

theorem Right.step (h : Right s) (choice : Choice) : Right (s.step choice) := by
  cases choice with
  | go => exact h.go
  | answer type keyLocks => exact h.answer type keyLocks
  | access access =>
    unfold State.step
    dsimp only
    cases hstanding : s.standing with
    | running =>
      refine ⟨h.accounted, h.cleared, fun before key after hes => ?_, [], rfl, by simp⟩
      rcases h.raise before key after hes with ⟨-, hraising⟩ | hrest
      · rw [hstanding] at hraising
        cases hraising
      · exact .inr hrest
    | _ => exact h
  | externalCall =>
    unfold State.step
    dsimp only
    cases hstanding : s.standing with
    | running =>
      have hne : s.standing ≠ .raising := by simp [hstanding]
      have hexported : [Event.called s.wrapper.exportKeyLocks.1].flatMap Event.exported =
          s.wrapper.myKeyLocks := List.append_nil _
      exact ⟨accounted_export h.accounted rfl rfl hexported rfl, h.cleared.append (by simp),
        refusalsRaise_append h.raise hne rfl (by simp), trivial⟩
    | _ => exact h

theorem Right.run (h : Right s) (choices : List Choice) : Right (s.run choices) := by
  induction choices generalizing s with
  | nil => exact h
  | cons choice choices ih => exact ih (h.step choice)

/-- The steps through one key come back as `acquireKeyLock` does. -/
theorem run_acquireKeyLock {w w' : SyncStorageWrapper} {lockEvents : List LockEvent}
    {r : Except Exc Unit} (h : AcquireKeyLock key w lockEvents r w') (remaining : List Bytes)
    (access : WrapperAccess) (es : List Event) :
    ∃ choices new, State.run ⟨w, .acquiring (key :: remaining) access, es⟩ choices =
      ⟨w', if r = .ok () then .acquiring remaining access else .running, es ++ new⟩ := by
  cases h with
  | free hfree =>
    refine ⟨[.go], [.tested key false, .acquired key], ?_⟩
    unfold State.run List.foldl State.step State.go
    dsimp only
    rw [if_neg hfree, if_pos rfl]
    rfl
  | granted hfound keyLocks =>
    refine ⟨[.go, .answer .finished keyLocks, .go],
      [.tested key true, .requested key w.exportKeyLocks.1, .granted key keyLocks,
        .acquired key], ?_⟩
    have hfirst : (State.mk w (.acquiring (key :: remaining) access) es).step .go =
        ⟨w.exportKeyLocks.2, .lockWaiting key remaining access,
          es ++ [.tested key true, .requested key w.exportKeyLocks.1]⟩ := if_pos hfound
    unfold State.run
    rw [List.foldl_cons, hfirst, if_pos rfl]
    simp [State.step, State.answer, State.go]
  | refused hfound type =>
    refine ⟨[.go, .answer .revert [], .go],
      [.tested key true, .requested key w.exportKeyLocks.1, .refused key, .deadLock], ?_⟩
    have hfirst : (State.mk w (.acquiring (key :: remaining) access) es).step .go =
        ⟨w.exportKeyLocks.2, .lockWaiting key remaining access,
          es ++ [.tested key true, .requested key w.exportKeyLocks.1]⟩ := if_pos hfound
    unfold State.run
    rw [List.foldl_cons, hfirst]
    simp [State.step, State.answer, State.go]

/-- What was claimed of every access: a key that another one has is granted first. -/
def AccessesGranted (es : List Event) : Prop :=
  ∀ before access existsKeyLocks after, es = before ++ .accessed access existsKeyLocks :: after →
    ∀ key ∈ access.keys, key ∈ existsKeyLocks → ∃ keyLocks, .granted key keyLocks ∈ before

/-- At every point the keys that went out and those that are held are the ones acquired. A row
whose key another executive has is reached only when the key was granted, or when the access is a
`getRows` that had tested the key before the answer for another of its keys brought it in. A
refusal raises the error before anything is reached. -/
theorem keyLocks_accounted (keyLocks : List String) (choices : List Choice) :
    Accounted ((start keyLocks).run choices) ∧
      (∀ before access existsKeyLocks after,
        ((start keyLocks).run choices).events =
          before ++ .accessed access existsKeyLocks :: after →
        ∀ key ∈ access.keys, key ∈ existsKeyLocks →
          (∃ keyLocks, .granted key keyLocks ∈ before) ∨
            ∃ table keys, access = .getRows table keys ∧ ∃ earlier since,
              before = earlier ++ .tested key false :: since ∧ BroughtIn access key since) ∧
      ∀ before key after,
        ((start keyLocks).run choices).events = before ++ .refused key :: after →
        after = [] ∨ ∃ rest, after = .deadLock :: rest := by
  have h := (right_start keyLocks).run choices
  refine ⟨h.accounted, fun before access existsKeyLocks after hes key hkey hfound => ?_,
    fun before key after hes => ?_⟩
  · rcases h.cleared before access existsKeyLocks after hes key hkey with
      hgranted | ⟨earlier, since, hbefore, hbrought⟩
    · exact .inl hgranted
    have hsince := hbrought hfound
    cases access with
    | getRows table keys => exact .inr ⟨table, keys, rfl, earlier, since, hbefore, hsince⟩
    | getRow table key' | setRow table key' entry =>
      obtain ⟨other, keyLocks, -, -, hother, hne⟩ := hsince
      have heq : key = key' := List.mem_singleton.mp hkey
      exact absurd ((List.mem_singleton.mp hother).trans heq.symm) hne
  · rcases h.raise before key after hes with ⟨hlast, -⟩ | hrest
    · exact .inl hlast
    · exact .inr hrest

/-- A key that was free is in the answer for the next key. -/
def readBoth : List Choice :=
  [.access (.getRows "t" [[97], [98]]), .go, .go, .answer .finished ["a"], .go, .go]

theorem not_accessesGranted :
    ¬∀ keyLocks choices, Accounted ((start keyLocks).run choices) ∧
      AccessesGranted ((start keyLocks).run choices).events ∧
      RefusalsRaise ((start keyLocks).run choices) := by
  intro h
  obtain ⟨-, haccesses, -⟩ := h ["b"] readBoth
  have hevents : ((start ["b"]).run readBoth).events =
      [.tested [97] false, .acquired [97], .tested [98] true, .requested [98] [[97]],
        .granted [98] ["a"], .acquired [98]] ++
      .accessed (.getRows "t" [[97], [98]]) [[97]] :: [] := by decide +kernel
  obtain ⟨keyLocks, hgranted⟩ := haccesses _ _ _ _ hevents [97] (by decide) (by decide)
  simp at hgranted

end KeyLockAccounting

end BcosExecutor
