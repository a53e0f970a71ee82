import BcosExecutor.ExternalRequest
import BcosExecutor.WrappedExecutive

namespace BcosExecutor

/-- An executive at work over the storage of its block. -/
structure Working (st : StateStorage) where
  storage : st.State
  recoder : st.Recoder
  wrapper : SyncStorageWrapper

/-- What a coroutine that has handed out a message goes on with. -/
inductive Awaiting (κ : Type)
  | externalCall (k : CallParameters → Access κ Ending)
  | keyLock (operation : Operation) (row : StateRow)
      (k : Except Exc (Option Entry) → Access κ Ending)

/-- How a coroutine comes back to the one who has started or resumed it. -/
inductive Turn (st : StateStorage) (κ : Type)
  | returned (ending : Ending) (e : Working st)
  | handedOut (message : CallParameters) (awaiting : Awaiting κ) (e : Working st)
  | threw (x : Exc) (e : Working st)
  | exited

namespace Working

variable {st : StateStorage}

def exported (e : Working st) : Working st :=
  { e with wrapper := e.wrapper.exportKeyLocks.2 }

def hold (e : Working st) (key : Bytes) : Working st :=
  { e with wrapper := e.wrapper.hold key }

def perform (e : Working st) (row : StateRow) :
    Operation → Except Exc (Option Entry) × Working st
  | .get => (.ok (st.getRow e.storage row), e)
  | .set entry =>
    (.ok none,
      { e with
        storage := (st.setRow e.storage e.recoder row entry).1
        recoder := (st.setRow e.storage e.recoder row entry).2 })

end Working

/-- The message of `externalAcquireKeyLocks`. -/
def keyLockRequest (contractAddress : String) (key : Bytes) (w : SyncStorageWrapper) :
    CallParameters where
  type := .keyLock
  senderAddress := contractAddress
  keyLocks := w.exportKeyLocks.1.map bytesToString
  acquireKeyLock := bytesToString key

def deadLock : Exc :=
  .error DEAD_LOCK "Dead lock detected, revert transaction: 3"

variable {κ : Type} {st : StateStorage}

/-- The coroutine runs up to its next message, or to its end. -/
def Access.advance (contractAddress : String) : Access κ Ending → Working st → Turn st κ
  | pure ending, e => .returned ending e
  | throw x, e => .threw x e
  | abort, _ => .exited
  | access way operation row k, e =>
    if way = .wrapper ∧ row.key ∈ e.wrapper.existsKeyLocks then
      .handedOut (keyLockRequest contractAddress row.key e.wrapper) (.keyLock operation row k)
        e.exported
    else
      let e := if way = .wrapper then e.hold row.key else e
      (k (e.perform row operation).1).advance contractAddress (e.perform row operation).2
  | externalCall _ request k, e =>
    -- whoever calls it has made the parameters as a MESSAGE
    .handedOut
      { request with
        type := .message
        keyLocks := e.wrapper.exportKeyLocks.1.map bytesToString }
      (.externalCall k) e.exported

theorem Access.advance_access (contractAddress : String) (way : Way) (operation : Operation)
    (row : StateRow) (k : Except Exc (Option Entry) → Access κ Ending) (e : Working st) :
    (access way operation row k).advance contractAddress e =
      if way = .wrapper ∧ row.key ∈ e.wrapper.existsKeyLocks then
        .handedOut (keyLockRequest contractAddress row.key e.wrapper)
          (.keyLock operation row k) e.exported
      else
        let e := if way = .wrapper then e.hold row.key else e
        (k (e.perform row operation).1).advance contractAddress (e.perform row operation).2 :=
  rfl

namespace Awaiting

/-- What the exchanged message makes of a coroutine that waits for it. -/
def receive (p : CallParameters) (e : Working st) : Awaiting κ → Access κ Ending × Working st
  | externalCall k =>
    (k p, { e with wrapper := e.wrapper.importExistsKeyLocks p.keyLocks })
  | keyLock operation row k =>
    if p.type = .revert then
      (k (.error deadLock), e)
    else
      -- the lock is there now, so that the row is reached without another one
      (.access .table operation row k,
        { e with wrapper := (e.wrapper.importExistsKeyLocks p.keyLocks).hold row.key })

def resume (contractAddress : String) (p : CallParameters) (e : Working st)
    (awaiting : Awaiting κ) : Turn st κ :=
  (awaiting.receive p e).1.advance contractAddress (awaiting.receive p e).2

end Awaiting

namespace Turn

/-- The coroutine comes back with a message. -/
def Speaks : Turn st κ → Prop
  | returned _ _ | handedOut _ _ _ => True
  | threw _ _ | exited => False

/-- The process goes on. -/
def Survives : Turn st κ → Prop
  | returned _ _ | handedOut _ _ _ | threw _ _ => True
  | exited => False

end Turn

end BcosExecutor
