import BcosExecutor.Executive
import Mathlib.Data.List.Basic

namespace BcosExecutor

/-- How a row is reached: by `getRow` and `setRow` of the wrapper, or by its `openTable` and
`createTable` and by the tables that these hand out. -/
inductive Way
  | wrapper | table
  deriving DecidableEq

inductive Operation
  | get | set (entry : Option Entry)

/-- A program over the wrapper. Every access answers with a value or with an exception. -/
inductive Access (κ α : Type)
  | pure (a : α)
  | throw (e : Exc)
  | abort
  | access (way : Way) (operation : Operation) (row : StateRow)
      (k : Except Exc (Option Entry) → Access κ α)
  | externalCall (callee : κ) (request : CallParameters) (k : CallParameters → Access κ α)

namespace Access

variable {κ α β : Type}

protected def bind : Access κ α → (α → Access κ β) → Access κ β
  | pure a, f => f a
  | throw e, _ => throw e
  | abort, _ => abort
  | access way operation row k, f => access way operation row fun answer => (k answer).bind f
  | externalCall callee request k, f => externalCall callee request fun p => (k p).bind f

instance : Monad (Access κ) where
  pure := pure
  bind := Access.bind

/-- The body of a `try` block with the exception it ends in. -/
def attempt : Access κ α → Access κ (Except Exc α)
  | pure a => pure (.ok a)
  | throw e => pure (.error e)
  | abort => abort
  | access way operation row k => access way operation row fun answer => (k answer).attempt
  | externalCall callee request k => externalCall callee request fun p => (k p).attempt

/-- The program without its locks, where the storage reports no error. -/
def erase : Access κ α → Script κ α
  | pure a => .pure a
  | throw e => .throw e
  | abort => .abort
  | access _ .get row k => .getRow row fun entry => (k (.ok entry)).erase
  | access _ (.set entry) row k => .setRow row entry (k (.ok none)).erase
  | externalCall callee request k => .externalCall callee request fun p => (k p).erase

@[simp] theorem erase_bind (m : Access κ α) (f : α → Access κ β) :
    (m >>= f).erase = m.erase >>= fun a => (f a).erase := by
  show (m.bind f).erase = m.erase.bind fun a => (f a).erase
  induction m with
  | pure a => rfl
  | throw e => rfl
  | abort => rfl
  | access way operation row k ih =>
    cases operation with
    | get => exact congrArg (Script.getRow row) (funext fun entry => ih (.ok entry))
    | set entry => exact congrArg (Script.setRow row entry) (ih (.ok none))
  | externalCall callee request k ih =>
    exact congrArg (Script.externalCall callee request) (funext ih)

@[simp] theorem erase_attempt (m : Access κ α) : m.attempt.erase = m.erase.attempt := by
  induction m with
  | pure a => rfl
  | throw e => rfl
  | abort => rfl
  | access way operation row k ih =>
    cases operation with
    | get => exact congrArg (Script.getRow row) (funext fun entry => ih (.ok entry))
    | set entry => exact congrArg (Script.setRow row entry) (ih (.ok none))
  | externalCall callee request k ih =>
    exact congrArg (Script.externalCall callee request) (funext ih)

@[simp] theorem erase_pure (a : α) : (Pure.pure a : Access κ α).erase = Pure.pure a := rfl

@[simp] theorem erase_throw (e : Exc) : (throw e : Access κ α).erase = .throw e := rfl

end Access

/-- What follows an access outside of `try` blocks. -/
def Access.orThrow {κ α β : Type} (f : β → Access κ α) : Except Exc β → Access κ α
  | .ok b => f b
  | .error e => .throw e

/-- A program without `try` blocks, with the way that it takes to each row. -/
def Script.via {κ α : Type} (way : StateRow → Way) : Script κ α → Access κ α
  | pure a => .pure a
  | throw e => .throw e
  | abort => .abort
  | getRow row k => .access (way row) .get row (Access.orThrow fun entry => (k entry).via way)
  | setRow row entry k => .access (way row) (.set entry) row (Access.orThrow fun _ => k.via way)
  | externalCall callee request k => .externalCall callee request fun p => (k p).via way

@[simp] theorem Access.erase_via {κ α : Type} (way : StateRow → Way) (m : Script κ α) :
    (m.via way).erase = m := by
  induction m with
  | pure a => rfl
  | throw e => rfl
  | abort => rfl
  | getRow row k ih => exact congrArg (Script.getRow row) (funext ih)
  | setRow row entry k ih => exact congrArg (Script.setRow row entry) ih
  | externalCall callee request k ih =>
    exact congrArg (Script.externalCall callee request) (funext ih)

/-- What an executive does about locks, rows and messages. -/
inductive LockEvent
  | locked (key : Bytes)
  | accessed (way : Way) (row : StateRow)
  | sent (keyLocks : List Bytes)

/-- The two sets of locks, each as the list of its keys. -/
structure SyncStorageWrapper where
  existsKeyLocks : List Bytes
  myKeyLocks : List Bytes

/-- The code of `ExecuteError::DEAD_LOCK`. -/
def DEAD_LOCK : Int := -79991

namespace SyncStorageWrapper

def importExistsKeyLocks (w : SyncStorageWrapper) (keyLocks : List String) : SyncStorageWrapper :=
  { w with existsKeyLocks := keyLocks.map ascii }

def exportKeyLocks (w : SyncStorageWrapper) : List Bytes × SyncStorageWrapper :=
  (w.myKeyLocks, { w with myKeyLocks := [] })

/-- The wrapper of an executive that starts. -/
def start (keyLocks : List String) : SyncStorageWrapper :=
  importExistsKeyLocks ⟨[], []⟩ keyLocks

def hold (w : SyncStorageWrapper) (key : Bytes) : SyncStorageWrapper :=
  { w with myKeyLocks := w.myKeyLocks.insert key }

/-- How `acquireKeyLock` comes back: a key that another one has is asked for with a message. -/
inductive AcquireKeyLock (key : Bytes) :
    SyncStorageWrapper → List LockEvent → Except Exc Unit → SyncStorageWrapper → Prop
  | free {w} (h : key ∉ w.existsKeyLocks) : AcquireKeyLock key w [.locked key] (.ok ()) (w.hold key)
  | granted {w} (h : key ∈ w.existsKeyLocks) (keyLocks : List String) :
      AcquireKeyLock key w [.sent w.exportKeyLocks.1, .locked key] (.ok ())
        ((w.exportKeyLocks.2.importExistsKeyLocks keyLocks).hold key)
  | refused {w} (h : key ∈ w.existsKeyLocks) (type : String) :
      AcquireKeyLock key w [.sent w.exportKeyLocks.1]
        (.error (.error DEAD_LOCK ("Dead lock detected, revert transaction: " ++ type)))
        w.exportKeyLocks.2

theorem AcquireKeyLock.not_accessed {key : Bytes} {w w' : SyncStorageWrapper} {r : Except Exc Unit}
    {es : List LockEvent} (h : AcquireKeyLock key w es r w') (way : Way) (row : StateRow) :
    .accessed way row ∉ es := by
  cases h <;> simp

theorem AcquireKeyLock.locked {key : Bytes} {w w' : SyncStorageWrapper} {es : List LockEvent}
    (h : AcquireKeyLock key w es (.ok ()) w') : .locked key ∈ es ∧ key ∈ w'.myKeyLocks := by
  cases h <;> simp [hold]

theorem AcquireKeyLock.eq_of_locked {key key' : Bytes} {w w' : SyncStorageWrapper}
    {r : Except Exc Unit} {es : List LockEvent} (h : AcquireKeyLock key w es r w')
    (hmem : .locked key' ∈ es) : key' = key ∧ r = .ok () := by
  cases h <;> simp_all

/-- The locks that are held go out with the message, or stay. -/
theorem AcquireKeyLock.held {key key' : Bytes} {w w' : SyncStorageWrapper} {r : Except Exc Unit}
    {es : List LockEvent} (h : AcquireKeyLock key w es r w') (hheld : key' ∈ w.myKeyLocks) :
    (∃ keyLocks, .sent keyLocks ∈ es ∧ key' ∈ keyLocks) ∨
      (∀ keyLocks, .sent keyLocks ∉ es) ∧ key' ∈ w'.myKeyLocks := by
  cases h with
  | free h => exact .inr ⟨by simp, List.mem_insert_of_mem hheld⟩
  | granted h keyLocks => exact .inl ⟨_, List.mem_cons_self, hheld⟩
  | refused h type => exact .inl ⟨_, List.mem_cons_self, hheld⟩

end SyncStorageWrapper

open SyncStorageWrapper

/-- The events of a run as far as it has come, whatever the storage and the scheduler answer. -/
inductive LockRun {κ α : Type} : Access κ α → SyncStorageWrapper → List LockEvent → Prop
  | sofar {m w} : LockRun m w []
  | table {operation row k w es} (answer) (h : LockRun (k answer) w es) :
      LockRun (.access .table operation row k) w (.accessed .table row :: es)
  | wrapper {operation row k w w' es₁ es₂} (hlock : AcquireKeyLock row.key w es₁ (.ok ()) w')
      (answer) (h : LockRun (k answer) w' es₂) :
      LockRun (.access .wrapper operation row k) w (es₁ ++ .accessed .wrapper row :: es₂)
  | refused {operation row k w w' es₁ es₂ e} (hlock : AcquireKeyLock row.key w es₁ (.error e) w')
      (h : LockRun (k (.error e)) w' es₂) :
      LockRun (.access .wrapper operation row k) w (es₁ ++ es₂)
  | externalCall {callee request k w es} (response : CallParameters)
      (h : LockRun (k response) (w.exportKeyLocks.2.importExistsKeyLocks response.keyLocks) es) :
      LockRun (.externalCall callee request k) w (.sent w.exportKeyLocks.1 :: es)

/-- Every access has locked its key before, and where a message follows the lock goes out. -/
def Covered (es : List LockEvent) : Prop :=
  ∀ before way row after, es = before ++ .accessed way row :: after →
    .locked row.key ∈ before ∧
      ((∃ keyLocks, .sent keyLocks ∈ after) → ∃ keyLocks, .sent keyLocks ∈ es ∧ row.key ∈ keyLocks)

/-- What is reached by a table has been reached by its key through the wrapper before. -/
def TablesFollow (es : List LockEvent) : Prop :=
  ∀ before row after, es = before ++ .accessed .table row :: after →
    ∃ row', row'.key = row.key ∧ .accessed .wrapper row' ∈ before

theorem split_of_notMem (es₁ : List LockEvent) {es₂ before after : List LockEvent} {e : LockEvent}
    (h : es₁ ++ es₂ = before ++ e :: after) (he : e ∉ es₁) :
    ∃ rest, before = es₁ ++ rest ∧ es₂ = rest ++ e :: after := by
  rcases List.append_eq_append_iff.mp h with ⟨rest, hb, hes⟩ | ⟨rest, hes, ha⟩
  · exact ⟨rest, hb, hes⟩
  · cases rest with
    | nil => exact ⟨[], by simpa using hes.symm, ha.symm⟩
    | cons e' rest =>
      cases (List.cons.inj ha).1
      exact (he (by rw [hes]; simp)).elim

namespace LockRun

variable {κ α : Type} {m : Access κ α} {w : SyncStorageWrapper} {es : List LockEvent}

theorem held_sent (h : LockRun m w es) {key : Bytes} (hheld : key ∈ w.myKeyLocks)
    (hsent : ∃ keyLocks, .sent keyLocks ∈ es) :
    ∃ keyLocks, .sent keyLocks ∈ es ∧ key ∈ keyLocks := by
  induction h with
  | sofar => simp at hsent
  | table answer h ih =>
    obtain ⟨keyLocks, hmem, hkey⟩ := ih hheld (by simpa using hsent)
    exact ⟨keyLocks, List.mem_cons_of_mem _ hmem, hkey⟩
  | wrapper hlock answer h ih =>
    rcases hlock.held hheld with ⟨keyLocks, hmem, hkey⟩ | ⟨hnone, hheld'⟩
    · exact ⟨keyLocks, List.mem_append_left _ hmem, hkey⟩
    · obtain ⟨keyLocks, hmem, hkey⟩ := ih hheld' (by simpa [hnone] using hsent)
      exact ⟨keyLocks, List.mem_append_right _ (List.mem_cons_of_mem _ hmem), hkey⟩
  | refused hlock h ih =>
    rcases hlock.held hheld with ⟨keyLocks, hmem, hkey⟩ | ⟨hnone, hheld'⟩
    · exact ⟨keyLocks, List.mem_append_left _ hmem, hkey⟩
    · obtain ⟨keyLocks, hmem, hkey⟩ := ih hheld' (by simpa [hnone] using hsent)
      exact ⟨keyLocks, List.mem_append_right _ hmem, hkey⟩
  | externalCall response h ih => exact ⟨_, List.mem_cons_self, hheld⟩

/-- The wrapper locks what it reaches, and keeps the lock for the next message. -/
theorem accessed_wrapper (h : LockRun m w es) {before after : List LockEvent} {row : StateRow}
    (hes : es = before ++ .accessed .wrapper row :: after) :
    .locked row.key ∈ before ∧
      ((∃ keyLocks, .sent keyLocks ∈ after) →
        ∃ keyLocks, .sent keyLocks ∈ after ∧ row.key ∈ keyLocks) := by
  induction h generalizing before with
  | sofar => simp at hes
  | table answer h ih =>
    obtain ⟨rest, rfl, hrest⟩ := split_of_notMem [_] hes (by simp)
    obtain ⟨hlocked, hsent⟩ := ih hrest
    exact ⟨List.mem_append_right _ hlocked, hsent⟩
  | wrapper hlock answer h ih =>
    obtain ⟨rest, rfl, hrest⟩ := split_of_notMem _ hes (hlock.not_accessed _ _)
    cases rest with
    | nil =>
      obtain ⟨hrow, rfl⟩ := List.cons.inj hrest
      cases hrow
      exact ⟨List.mem_append_left _ hlock.locked.1, h.held_sent hlock.locked.2⟩
    | cons e rest =>
      obtain ⟨hlocked, hsent⟩ := ih (List.cons.inj hrest).2
      exact ⟨List.mem_append_right _ (List.mem_cons_of_mem _ hlocked), hsent⟩
  | refused hlock h ih =>
    obtain ⟨rest, rfl, hrest⟩ := split_of_notMem _ hes (hlock.not_accessed _ _)
    obtain ⟨hlocked, hsent⟩ := ih hrest
    exact ⟨List.mem_append_right _ hlocked, hsent⟩
  | externalCall response h ih =>
    obtain ⟨rest, rfl, hrest⟩ := split_of_notMem [_] hes (by simp)
    obtain ⟨hlocked, hsent⟩ := ih hrest
    exact ⟨List.mem_append_right _ hlocked, hsent⟩

/-- A key is locked for an access through the wrapper only, which follows at once. -/
theorem locked_wrapper (h : LockRun m w es) {before after : List LockEvent} {row : StateRow}
    {key : Bytes} (hes : es = before ++ .accessed .table row :: after)
    (hlocked : .locked key ∈ before) :
    ∃ row', row'.key = key ∧ .accessed .wrapper row' ∈ before := by
  induction h generalizing before with
  | sofar => simp at hes
  | @table _ row₀ _ _ _ answer h ih =>
    cases before with
    | nil => cases hlocked
    | cons e before =>
      obtain ⟨rfl, hrest⟩ := List.cons.inj hes
      obtain ⟨row', hkey, hmem⟩ := ih hrest (by simpa using hlocked)
      exact ⟨row', hkey, List.mem_cons_of_mem _ hmem⟩
  | @wrapper _ row₀ _ _ _ _ _ hlock answer h ih =>
    obtain ⟨rest, rfl, hrest⟩ := split_of_notMem _ hes (hlock.not_accessed _ _)
    obtain ⟨rest', rfl, hrest'⟩ := split_of_notMem [_] hrest (by simp)
    rcases List.mem_append.mp hlocked with hmem | hmem
    · obtain ⟨rfl, -⟩ := hlock.eq_of_locked hmem
      exact ⟨row₀, rfl, by simp⟩
    · obtain ⟨row', hkey, hmem⟩ := ih hrest' (by simpa using hmem)
      exact ⟨row', hkey, List.mem_append_right _ (List.mem_append_right _ hmem)⟩
  | refused hlock h ih =>
    obtain ⟨rest, rfl, hrest⟩ := split_of_notMem _ hes (hlock.not_accessed _ _)
    rcases List.mem_append.mp hlocked with hmem | hmem
    · exact nomatch (hlock.eq_of_locked hmem).2
    · obtain ⟨row', hkey, hmem⟩ := ih hrest hmem
      exact ⟨row', hkey, List.mem_append_right _ hmem⟩
  | externalCall response h ih =>
    obtain ⟨rest, rfl, hrest⟩ := split_of_notMem [_] hes (by simp)
    obtain ⟨row', hkey, hmem⟩ := ih hrest (by simpa using hlocked)
    exact ⟨row', hkey, List.mem_append_right _ hmem⟩

theorem covered_iff (h : LockRun m w es) : Covered es ↔ TablesFollow es := by
  constructor
  · intro hcovered before row after hes
    exact h.locked_wrapper hes (hcovered before .table row after hes).1
  · intro htables before way row after hes
    cases way with
    | wrapper =>
      obtain ⟨hlocked, hsent⟩ := h.accessed_wrapper hes
      refine ⟨hlocked, fun hlater => ?_⟩
      obtain ⟨keyLocks, hmem, hkey⟩ := hsent hlater
      exact ⟨keyLocks, by rw [hes]; simp [hmem], hkey⟩
    | table =>
      obtain ⟨row', hrow, hmem⟩ := htables before row after hes
      obtain ⟨earlier, between, rfl⟩ := List.append_of_mem hmem
      have hes' : es = earlier ++ .accessed .wrapper row' ::
          (between ++ .accessed .table row :: after) := by
        rw [hes, List.append_assoc, List.cons_append]
      obtain ⟨hlocked, hsent⟩ := h.accessed_wrapper hes'
      rw [hrow] at hlocked hsent
      refine ⟨List.mem_append_left _ hlocked, fun ⟨keyLocks, hlater⟩ => ?_⟩
      obtain ⟨keyLocks, hmem, hkey⟩ := hsent ⟨keyLocks, by simp [hlater]⟩
      exact ⟨keyLocks, by rw [hes']; exact List.mem_append_right _ (List.mem_cons_of_mem _ hmem),
        hkey⟩

end LockRun

end BcosExecutor
