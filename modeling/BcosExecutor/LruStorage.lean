import BcosExecutor.Recency
import BcosExecutor.Runs
import BcosExecutor.StateChain
import Mathlib.Algebra.Group.Nat.Defs

namespace BcosExecutor

open Overlay (Layer overlay)
open Recency (UniqueList)

/-- An entry with its status. -/
inductive StatusEntry
  | NORMAL (fields : Entry)
  | DELETED
  | PURGED
  deriving DecidableEq, Repr

/-- What a storage holds of a row by such an entry. Where it holds nothing, it reads through. -/
def StatusEntry.held : StatusEntry → Option (Option Entry)
  | .NORMAL fields => some (some fields)
  | .DELETED => some none
  | .PURGED => none

/-- What is answered to a read of each row. -/
abbrev Answers := StateRow → Except Error (Option Entry)

/-- The operations of the framework's StateStorage on which the cache is built. -/
structure CacheStorage where
  State : Type
  capacity : State → Nat
  held : State → StateRow → Option (Option Entry)
  asyncGetRow : State → Answers → StateRow → Except Error (Option Entry) × State
  asyncGetRows : State → Answers → String → List Bytes → Except Error (List (Option Entry)) × State
  asyncSetRow : State → StateRow → StatusEntry → Option Error × State

namespace CacheStorage

variable (st : CacheStorage)

def read (s : st.State) (prev : Answers) (row : StateRow) : Except Error (Option Entry) :=
  match st.held s row with
  | some value => .ok value
  | none => prev row

/-- A storage may keep what it has read through. -/
def Loaded (s : st.State) (prev : Answers) (s' : st.State) : Prop :=
  ∀ row, st.held s' row = st.held s row ∨
    ∃ value, prev row = .ok value ∧ st.held s' row = some value

/-- A row that is set to PURGED is read through from then on, and takes no more room. -/
structure Lawful : Prop where
  getRow : ∀ s prev row, (st.asyncGetRow s prev row).1 = st.read s prev row
  getRows : ∀ s prev table keys, (st.asyncGetRows s prev table keys).1 =
    keys.mapM fun key => st.read s prev ⟨table, key⟩
  loaded_getRow : ∀ s prev row, st.Loaded s prev (st.asyncGetRow s prev row).2
  loaded_getRows : ∀ s prev table keys, st.Loaded s prev (st.asyncGetRows s prev table keys).2
  held_setRow : ∀ s row entry,
    st.held (st.asyncSetRow s row entry).2 = Function.update (st.held s) row entry.held
  capacity_purge : ∀ s row, st.capacity (st.asyncSetRow s row .PURGED).2 ≤ st.capacity s

end CacheStorage

/-- What a storage holds, and the room that the fields take. -/
structure HeldRows where
  held : StateRow → Option (Option Entry)
  capacity : Nat

namespace HeldRows

def size (value : Option (Option Entry)) : Nat :=
  ((value.getD none).getD []).length

def setRow (s : HeldRows) (row : StateRow) (value : Option (Option Entry)) : HeldRows :=
  ⟨Function.update s.held row value, s.capacity - size (s.held row) + size value⟩

def read (s : HeldRows) (prev : Answers) (row : StateRow) : Except Error (Option Entry) :=
  match s.held row with
  | some value => .ok value
  | none => prev row

/-- An entry that is read through is kept. -/
def load (prev : Answers) (s : HeldRows) (row : StateRow) : HeldRows :=
  match s.held row, prev row with
  | none, .ok (some fields) => s.setRow row (some (some fields))
  | _, _ => s

end HeldRows

/-- A storage of the kind the framework's is. -/
@[reducible] def heldRowsStorage : CacheStorage where
  State := HeldRows
  capacity := HeldRows.capacity
  held := HeldRows.held
  asyncGetRow s prev row := (s.read prev row, HeldRows.load prev s row)
  asyncGetRows s prev table keys := (keys.mapM fun key => s.read prev ⟨table, key⟩,
    keys.foldl (fun s key => HeldRows.load prev s ⟨table, key⟩) s)
  asyncSetRow s row entry := (none, s.setRow row entry.held)

theorem loaded_load (prev : Answers) (s : HeldRows) (row : StateRow) :
    heldRowsStorage.Loaded s prev (HeldRows.load prev s row) := by
  intro row'
  unfold HeldRows.load
  split
  next fields _ hprev =>
    show Function.update s.held row _ row' = _ ∨ ∃ value, _ ∧ Function.update s.held row _ row' = _
    by_cases hrow : row' = row
    · subst hrow
      exact Or.inr ⟨some fields, hprev, Function.update_self ..⟩
    · exact Or.inl (Function.update_of_ne hrow ..)
  next => exact Or.inl rfl

theorem loaded_foldl (prev : Answers) (table : String) (keys : List Bytes) (s : HeldRows) :
    heldRowsStorage.Loaded s prev
      (keys.foldl (fun s key => HeldRows.load prev s ⟨table, key⟩) s) := by
  induction keys generalizing s with
  | nil => exact fun _ => Or.inl rfl
  | cons key keys ih =>
    intro row
    rcases ih (HeldRows.load prev s ⟨table, key⟩) row with hsame | hloaded
    · rw [List.foldl_cons, hsame]
      exact loaded_load prev s ⟨table, key⟩ row
    · exact Or.inr hloaded

theorem heldRowsStorage_lawful : heldRowsStorage.Lawful where
  getRow _ _ _ := rfl
  getRows _ _ _ _ := rfl
  loaded_getRow s prev row := loaded_load prev s row
  loaded_getRows s prev table keys := loaded_foldl prev table keys s
  held_setRow _ _ _ := rfl
  capacity_purge s _ := Nat.sub_le s.capacity _

/-- Where the cleaner thread is: before the next item of the queue, before the comparison with the
maximum, at the condition of the purge loop, or in its body. -/
inductive Cleaner
  | polling
  | measuring
  | testing
  | clearing
  | stopped
  deriving DecidableEq, Repr

/-- `prev` is the backend. -/
structure LRUStorage (st : CacheStorage) where
  storage : st.State
  prev : Answers
  mru : UniqueList StateRow
  mruQueue : List StateRow
  maxCapacity : Nat
  cleaner : Cleaner

/-- What a merge takes its entries from, by whether they are to be dirty. -/
inductive MergeSource
  | itself
  | other (parallelTraverse : Bool → List (StateRow × StatusEntry))

namespace LRUStorage

variable {st : CacheStorage}

def updateMRU (s : LRUStorage st) (entryKey : StateRow) : LRUStorage st :=
  { s with mruQueue := s.mruQueue ++ [entryKey] }

def asyncGetRow (s : LRUStorage st) (row : StateRow) :
    Except Error (Option Entry) × LRUStorage st :=
  let (answer, storage) := st.asyncGetRow s.storage s.prev row
  let s := { s with storage }
  match answer with
  | .ok (some _) => (answer, s.updateMRU row)
  | _ => (answer, s)

/-- The rows with an entry. -/
def found (table : String) (keys : List Bytes) (entries : List (Option Entry)) : List StateRow :=
  (keys.zip entries).filterMap fun (key, entry) => entry.map fun _ => ⟨table, key⟩

def asyncGetRows (s : LRUStorage st) (table : String) (keys : List Bytes) :
    Except Error (List (Option Entry)) × LRUStorage st :=
  let (answer, storage) := st.asyncGetRows s.storage s.prev table keys
  let s := { s with storage }
  match answer with
  | .error _ => (answer, s)
  | .ok entries =>
    if keys.length = entries.length then (answer, (found table keys entries).foldl updateMRU s)
    else (answer, s)

def asyncSetRow (s : LRUStorage st) (row : StateRow) (entry : StatusEntry) :
    Option Error × LRUStorage st :=
  let s := s.updateMRU row
  let (error, storage) := st.asyncSetRow s.storage row entry
  (error, { s with storage })

def merge (s : LRUStorage st) (onlyDirty : Bool) (source : MergeSource) :
    Except Error (LRUStorage st) :=
  match source with
  | .itself => .error ⟨-1, "Can't merge from self!"⟩
  | .other parallelTraverse =>
    .ok ((parallelTraverse onlyDirty).foldl (fun s (row, entry) => (s.asyncSetRow row entry).2) s)

def isStop (entryKey : StateRow) : Bool :=
  entryKey.table.isEmpty && entryKey.key.isEmpty

def pushMRU (mru : UniqueList StateRow) (entryKey : StateRow) : UniqueList StateRow :=
  let (pushed, inserted) := mru.emplaceBack entryKey
  if inserted then pushed else pushed.relocateBack entryKey

/-- `m_maxCapacity * 2 / 3` of type `size_t`. -/
def purgeLimit (s : LRUStorage st) : Nat :=
  s.maxCapacity * 2 % 2 ^ 64 / 3

/-- The next step of `startLoop`. Any of the other threads may come in between. -/
def startLoop (s : LRUStorage st) : LRUStorage st :=
  match s.cleaner with
  | .polling =>
    match s.mruQueue with
    | [] => s
    | entryKey :: mruQueue =>
      if isStop entryKey then { s with mruQueue, cleaner := .stopped }
      else { s with mruQueue, mru := pushMRU s.mru entryKey, cleaner := .measuring }
  | .measuring =>
    if s.maxCapacity < st.capacity s.storage then { s with cleaner := .testing }
    else { s with cleaner := .polling }
  | .testing =>
    if s.purgeLimit < st.capacity s.storage ∧ s.mru.items ≠ [] then { s with cleaner := .clearing }
    else { s with cleaner := .polling }
  | .clearing =>
    match s.mru.items with
    | [] => s
    | item :: _ =>
      { s with
        storage := (st.asyncSetRow s.storage item .PURGED).2
        mru := s.mru.popFront
        cleaner := .testing }
  | .stopped => s

/-- The steps of the threads: the cleaner's, the two halves that a call of the cache consists of,
and those of the threads that change the maximum or commit to the backend. -/
inductive Action
  | clean
  | updateMRU (entryKey : StateRow)
  | getRow (row : StateRow)
  | getRows (table : String) (keys : List Bytes)
  | setRow (row : StateRow) (entry : StatusEntry)
  | setMaxCapacity (capacity : Nat)
  | commit (writes : Layer StateRow (Option Entry))

def step (s : LRUStorage st) : Action → LRUStorage st
  | .clean => s.startLoop
  | .updateMRU entryKey => s.updateMRU entryKey
  | .getRow row => { s with storage := (st.asyncGetRow s.storage s.prev row).2 }
  | .getRows table keys => { s with storage := (st.asyncGetRows s.storage s.prev table keys).2 }
  | .setRow row entry => { s with storage := (st.asyncSetRow s.storage row entry).2 }
  | .setMaxCapacity capacity => { s with maxCapacity := capacity }
  | .commit writes => { s with prev := overlay (fun row => (writes row).map .ok) s.prev }

def run (s : LRUStorage st) (actions : List Action) : LRUStorage st :=
  actions.foldl step s

/-- The key that a step puts into `m_mru`. -/
def dequeues (s : LRUStorage st) : Action → List StateRow
  | .clean =>
    match s.cleaner, s.mruQueue with
    | .polling, entryKey :: _ => if isStop entryKey then [] else [entryKey]
    | _, _ => []
  | _ => []

/-- The key that a step sets to PURGED. -/
def purges (s : LRUStorage st) : Action → List StateRow
  | .clean =>
    match s.cleaner, s.mru.items with
    | .clearing, item :: _ => [item]
    | _, _ => []
  | _ => []

def dequeued (s : LRUStorage st) (actions : List Action) : List StateRow :=
  Runs.outputs step dequeues s actions

def purged (s : LRUStorage st) (actions : List Action) : List StateRow :=
  Runs.outputs step purges s actions

end LRUStorage

end BcosExecutor
