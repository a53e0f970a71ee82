import BcosExecutor.Overlay
import BcosExecutor.StateStorage

namespace BcosExecutor

open Overlay (Layer overlay)

namespace ExecuteError

def EXECUTE_ERROR : Int := -79996
def INVALID_BLOCKNUMBER : Int := -79999
def PREPARE_ERROR : Int := -79995
def COMMIT_ERROR : Int := -79994
def ROLLBACK_ERROR : Int := -79993

end ExecuteError

structure Error where
  errorCode : Int
  errorMessage : String
  deriving DecidableEq, Repr

/-- The two-phase commit of the backend. `prepared` are the writes that wait for the commit of
a block. -/
structure TransactionalStorage where
  State : Type
  getRow : State → StateRow → Option Entry
  prepared : State → Int → Layer StateRow (Option Entry)
  asyncPrepare : State → Int → Layer StateRow (Option Entry) → Option Error × State
  asyncCommit : State → Int → Option Error × State
  asyncRollback : State → Int → Option Error × State

/-- Only a successful commit changes what is read, by the prepared writes. -/
structure TransactionalStorage.Lawful (be : TransactionalStorage) : Prop where
  getRow_prepare : ∀ s number writes,
    be.getRow (be.asyncPrepare s number writes).2 = be.getRow s
  prepared_prepare : ∀ s number writes, (be.asyncPrepare s number writes).1 = none →
    be.prepared (be.asyncPrepare s number writes).2 number = writes
  getRow_commit : ∀ s number, (be.asyncCommit s number).1 = none →
    be.getRow (be.asyncCommit s number).2 = overlay (be.prepared s number) (be.getRow s)
  getRow_failedCommit : ∀ s number, (be.asyncCommit s number).1 ≠ none →
    be.getRow (be.asyncCommit s number).2 = be.getRow s
  getRow_rollback : ∀ s number, be.getRow (be.asyncRollback s number).2 = be.getRow s

/-- An entry that was written, or one that was read from below and is not dirty. -/
structure HeldEntry where
  value : Option Entry
  dirty : Bool
  deriving DecidableEq, Repr

inductive Prev
  | backend
  | cached
  | storage (id : Nat)
  deriving DecidableEq, Repr

/-- A StateStorage of the framework. -/
structure BlockStorage where
  entries : StateRow → Option HeldEntry
  prev : Prev
  readOnly : Bool

namespace BlockStorage

def held (storage : BlockStorage) : Layer StateRow (Option Entry) :=
  fun row => (storage.entries row).map HeldEntry.value

def dirtyEntries (storage : BlockStorage) : Layer StateRow (Option Entry) :=
  fun row => (storage.entries row).bind fun entry => if entry.dirty then some entry.value else none

end BlockStorage

/-- A block that is not committed. -/
structure BlockState where
  number : Int
  storage : Nat
  deriving DecidableEq, Repr

structure CurrentBlock where
  number : Int
  storage : Nat
  lastStorage : Option Nat
  deriving DecidableEq, Repr

/-- The storages that were made so far are numbered; the executor points to some of them. -/
structure TransactionExecutor (be : TransactionalStorage) where
  storages : Nat → BlockStorage
  created : Nat
  cachedStorage : Option (StateRow → Option HeldEntry)
  backendStorage : be.State
  stateStorages : List BlockState
  lastStateStorage : Option Nat
  blockContext : Option CurrentBlock
  lastCommittedBlockNumber : Int

namespace TransactionExecutor

variable {be : TransactionalStorage}

def init (cached : Bool) (s : be.State) : TransactionExecutor be where
  storages _ := ⟨fun _ => none, .backend, true⟩
  created := 0
  cachedStorage := if cached then some fun _ => none else none
  backendStorage := s
  stateStorages := []
  lastStateStorage := none
  blockContext := none
  lastCommittedBlockNumber := 1

/-- A miss in a storage reads through to the storage before it. -/
def getRowThrough (c : TransactionExecutor be) : Nat → Prev → StateRow → Option Entry
  | _, .backend, row => be.getRow c.backendStorage row
  | _, .cached, row =>
    match c.cachedStorage.bind (· row) with
    | some entry => entry.value
    | none => be.getRow c.backendStorage row
  | 0, .storage _, _ => none
  | fuel + 1, .storage id, row =>
    match (c.storages id).entries row with
    | some entry => entry.value
    | none => c.getRowThrough fuel (c.storages id).prev row

/-- No way down is longer than the number of storages. -/
def getRow (c : TransactionExecutor be) (storage : Prev) (row : StateRow) : Option Entry :=
  c.getRowThrough c.created storage row

def modifyStorage (c : TransactionExecutor be) (id : Nat) (f : BlockStorage → BlockStorage) :
    TransactionExecutor be :=
  { c with storages := Function.update c.storages id (f (c.storages id)) }

def setReadOnly (c : TransactionExecutor be) (id : Nat) (readOnly : Bool) :
    TransactionExecutor be :=
  c.modifyStorage id fun storage => { storage with readOnly }

def setPrev (c : TransactionExecutor be) (id : Nat) (prev : Prev) : TransactionExecutor be :=
  c.modifyStorage id fun storage => { storage with prev }

/-- What the first storage stands on. -/
def base (c : TransactionExecutor be) : Prev :=
  if c.cachedStorage.isSome then .cached else .backend

def pushStorage (c : TransactionExecutor be) (number : Int) (prev : Prev)
    (lastStateStorage : Option Nat) : TransactionExecutor be :=
  { c with
    storages := Function.update c.storages c.created ⟨fun _ => none, prev, false⟩
    created := c.created + 1
    blockContext := some ⟨number, c.created, lastStateStorage⟩
    stateStorages := c.stateStorages ++ [⟨number, c.created⟩] }

def nextBlockHeader (c : TransactionExecutor be) (number : Int) :
    Option Error × TransactionExecutor be :=
  match c.stateStorages.getLast? with
  | none => (none, c.pushStorage number c.base c.lastStateStorage)
  | some prev =>
    if number - prev.number ≠ 1 then
      (some ⟨ExecuteError.EXECUTE_ERROR,
        "Block number mismatch! request: " ++ toString number ++ " - 1, current: " ++
          toString prev.number⟩, c)
    else
      (none, (c.setReadOnly prev.storage true).pushStorage number (.storage prev.storage)
        (some prev.storage))

/-- The check that a request of the two-phase commit is about the first block. -/
def firstStorage (c : TransactionExecutor be) (request : String) (emptyCode otherCode : Int)
    (number : Int) : Except Error BlockState :=
  match c.stateStorages with
  | [] => .error ⟨emptyCode, request ++ " error: empty stateStorages"⟩
  | first :: _ =>
    if first.number ≠ number then
      .error ⟨otherCode, request ++ " error: Request block number: " ++ toString number ++
        " not equal to last blockNumber: " ++ toString first.number⟩
    else .ok first

/-- The answer to a request whose part in the backend may have failed. -/
def answer (request : String) (errorCode : Int) : Option Error → Option Error :=
  Option.map fun error => ⟨errorCode, request ++ " error: " ++ error.errorMessage⟩

def prepare (c : TransactionExecutor be) (number : Int) : Option Error × TransactionExecutor be :=
  match c.firstStorage "Prepare" (-1) ExecuteError.PREPARE_ERROR number with
  | .error error => (some error, c)
  | .ok first =>
    let (error, s) := be.asyncPrepare c.backendStorage number
      (c.storages first.storage).dirtyEntries
    (answer "Prepare" ExecuteError.PREPARE_ERROR error, { c with backendStorage := s })

def merge (cache : StateRow → Option HeldEntry) (source : Layer StateRow (Option Entry)) :
    StateRow → Option HeldEntry :=
  fun row =>
    match source row with
    | some value => some ⟨value, true⟩
    | none => cache row

def removeCommittedState (c : TransactionExecutor be) : TransactionExecutor be :=
  match c.stateStorages with
  | [] => c
  | first :: rest =>
    let c := { c with
      cachedStorage := c.cachedStorage.map fun cache =>
        merge cache (c.storages first.storage).dirtyEntries
      lastStateStorage := some (rest.getLastD first).storage
      stateStorages := rest }
    match rest with
    | [] => c
    | it :: _ => c.setPrev it.storage c.base

def commit (c : TransactionExecutor be) (number : Int) : Option Error × TransactionExecutor be :=
  match c.firstStorage "Commit" ExecuteError.INVALID_BLOCKNUMBER
      ExecuteError.INVALID_BLOCKNUMBER number with
  | .error error => (some error, c)
  | .ok _ =>
    match be.asyncCommit c.backendStorage number with
    | (some error, s) =>
      (answer "Commit" ExecuteError.COMMIT_ERROR (some error), { c with backendStorage := s })
    | (none, s) =>
      (none, removeCommittedState
        { c with backendStorage := s, lastCommittedBlockNumber := number })

def rollback (c : TransactionExecutor be) (number : Int) : Option Error × TransactionExecutor be :=
  match c.firstStorage "Rollback" (-1) ExecuteError.ROLLBACK_ERROR number with
  | .error error => (some error, c)
  | .ok _ =>
    let (error, s) := be.asyncRollback c.backendStorage number
    (answer "Rollback" (-1) error, { c with backendStorage := s })

def reset (c : TransactionExecutor be) : TransactionExecutor be :=
  { c with stateStorages := [] }

/-- The entry of a row of a storage that is not read-only is changed or taken out. -/
def setEntry (c : TransactionExecutor be) (id : Nat) (row : StateRow)
    (entry : Option HeldEntry) : TransactionExecutor be :=
  if id < c.created ∧ (c.storages id).readOnly = false then
    c.modifyStorage id fun storage =>
      { storage with entries := Function.update storage.entries row entry }
  else c

/-- A storage keeps what it has read from below. -/
def loadEntry (c : TransactionExecutor be) (id : Nat) (row : StateRow) : TransactionExecutor be :=
  match (c.storages id).entries row, c.getRow (c.storages id).prev row with
  | none, some value => c.setEntry id row (some ⟨some value, false⟩)
  | _, _ => c

def setCached (c : TransactionExecutor be) (row : StateRow) (entry : Option HeldEntry) :
    TransactionExecutor be :=
  { c with cachedStorage := c.cachedStorage.map fun cache => Function.update cache row entry }

def loadCached (c : TransactionExecutor be) (row : StateRow) : TransactionExecutor be :=
  match c.cachedStorage.bind (· row), be.getRow c.backendStorage row with
  | none, some value => c.setCached row (some ⟨some value, false⟩)
  | _, _ => c

/-- The requests, and what goes on between them: executives write rows and take writes back,
reads fill the storages and the cache, and the cache gives up what it has for long. -/
inductive Action
  | nextBlockHeader (number : Int)
  | prepare (number : Int)
  | commit (number : Int)
  | rollback (number : Int)
  | reset
  | write (id : Nat) (row : StateRow) (entry : Option Entry)
  | undo (id : Nat) (row : StateRow)
  | load (id : Nat) (row : StateRow)
  | loadCached (row : StateRow)
  | purge (row : StateRow)
  deriving DecidableEq, Repr

def step (c : TransactionExecutor be) : Action → Option Error × TransactionExecutor be
  | .nextBlockHeader number => c.nextBlockHeader number
  | .prepare number => c.prepare number
  | .commit number => c.commit number
  | .rollback number => c.rollback number
  | .reset => (none, c.reset)
  | .write id row entry => (none, c.setEntry id row (some ⟨entry, true⟩))
  | .undo id row => (none, c.setEntry id row none)
  | .load id row => (none, c.loadEntry id row)
  | .loadCached row => (none, c.loadCached row)
  | .purge row => (none, c.setCached row none)

def run (c : TransactionExecutor be) (actions : List Action) : TransactionExecutor be :=
  actions.foldl (fun c action => (c.step action).2) c

/-- Each storage stands on the one of the block before. -/
def Linked (c : TransactionExecutor be) : Prev → List BlockState → Prop
  | _, [] => True
  | prev, state :: states =>
    (c.storages state.storage).prev = prev ∧ c.Linked (.storage state.storage) states

structure Chained (c : TransactionExecutor be) : Prop where
  numbers : c.stateStorages.IsChain fun state next => next.number = state.number + 1
  linked : c.Linked c.base c.stateStorages
  readOnly : ∀ state ∈ c.stateStorages.dropLast, (c.storages state.storage).readOnly = true

/-- What the backend has prepared for the first block amounts to the dirty entries of its
storage. -/
def Prepared (c : TransactionExecutor be) : Prop :=
  ∀ first ∈ c.stateStorages.head?,
    overlay (be.prepared c.backendStorage first.number) (be.getRow c.backendStorage) =
      overlay (c.storages first.storage).dirtyEntries (be.getRow c.backendStorage)

/-- No commit of the actions succeeds before the first block is prepared. -/
def CommitsPrepared (c : TransactionExecutor be) : List Action → Prop
  | [] => True
  | action :: actions =>
    ((∃ number, action = .commit number) → (c.step action).1 = none → c.Prepared) ∧
      (c.step action).2.CommitsPrepared actions

/-- Every read through the storages that are left gives what it gave before. -/
def KeepsReads (c c' : TransactionExecutor be) : Prop :=
  ∀ state ∈ c'.stateStorages, c'.getRow (.storage state.storage) = c.getRow (.storage state.storage)

end TransactionExecutor

end BcosExecutor
