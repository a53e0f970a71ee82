import BcosExecutor.LruOrder

namespace BcosExecutor

open Overlay (Layer overlay overlay_of_none)
open Recency (TouchedBefore)
open Runs (Always)

namespace LRUStorage

variable {st : CacheStorage} {s : LRUStorage st} {history : List Action} {row : StateRow}

def Action.awaits (row : StateRow) (awaits : Bool) : Action → Bool
  | .commit writes => (writes row).isSome || awaits
  | .setRow row' _ => awaits && row' ≠ row
  | _ => awaits

/-- A value of the row is committed, and none is merged since. -/
def AwaitsMerge (history : List Action) (row : StateRow) : Prop :=
  history.foldl (Action.awaits row) false = true

instance (history : List Action) (row : StateRow) : Decidable (AwaitsMerge history row) :=
  inferInstanceAs (Decidable (_ = _))

theorem awaitsMerge_concat {action : Action} : AwaitsMerge (history ++ [action]) row ↔
    action.awaits row (history.foldl (Action.awaits row) false) = true := by
  unfold AwaitsMerge
  rw [List.foldl_append]
  rfl

theorem AwaitsMerge.concat (h : AwaitsMerge history row) {action : Action}
    (haction : ∀ entry, action ≠ .setRow row entry) : AwaitsMerge (history ++ [action]) row := by
  rw [awaitsMerge_concat, show history.foldl (Action.awaits row) false = true from h]
  cases action with
  | setRow row' entry =>
    have hne : row' ≠ row := fun heq => haction entry (by rw [heq])
    exact decide_eq_true hne
  | commit writes => exact Bool.or_true _
  | _ => rfl

theorem awaitsMerge_commit {writes : Layer StateRow (Option Entry)} (h : (writes row).isSome) :
    AwaitsMerge (history ++ [.commit writes]) row := by
  rw [awaitsMerge_concat, Action.awaits, h, Bool.true_or]

/-- A value that is stored is the one that the backend has by then. -/
def StoresCommitted (s : LRUStorage st) (action : Action) : Prop :=
  ∀ row entry, action = .setRow row entry → ∀ value ∈ entry.held, s.prev row = .ok value

/-- What is held is what the backend has, unless it has something newer to be merged. -/
def Current (s : LRUStorage st) (history : List Action) : Prop :=
  ∀ row, ¬AwaitsMerge history row → ∀ value ∈ st.held s.storage row, s.prev row = .ok value

theorem Turn.prev {s' : LRUStorage st} {keys items : List StateRow} (h : Turn s s' keys items) :
    s'.prev = s.prev := by
  cases h with
  | kept => rfl
  | pushed => rfl
  | popped => rfl

/-- The cleaner leaves what is held alone but for the key that it purges. -/
theorem Turn.held (hst : st.Lawful) {s' : LRUStorage st} {keys items : List StateRow}
    (h : Turn s s' keys items) (row : StateRow) :
    st.held s'.storage row = if row ∈ items then none else st.held s.storage row := by
  cases h with
  | kept => exact (if_neg List.not_mem_nil).symm
  | pushed => exact (if_neg List.not_mem_nil).symm
  | popped item items front =>
    rw [hst.held_setRow]
    simp only [List.mem_singleton, Function.update_apply]
    rfl

theorem prev_commit (s : LRUStorage st) (writes : Layer StateRow (Option Entry)) :
    (s.step (.commit writes)).prev = overlay (fun row => (writes row).map .ok) s.prev :=
  rfl

theorem current_loaded (h : s.Current history) {action : Action} {storage : st.State}
    (hloaded : st.Loaded s.storage s.prev storage)
    (haction : ∀ row entry, action ≠ .setRow row entry) :
    ({ s with storage } : LRUStorage st).Current (history ++ [action]) := by
  intro row hnot value hvalue
  rcases hloaded row with hsame | ⟨loaded, hprev, hloaded⟩
  · refine h row (fun hawaits => hnot (hawaits.concat (haction row))) value ?_
    rw [← hsame]
    exact hvalue
  · rw [hloaded] at hvalue
    cases hvalue
    exact hprev

theorem current_step (hst : st.Lawful) (h : s.Current history) {action : Action}
    (hstores : s.StoresCommitted action) : (s.step action).Current (history ++ [action]) := by
  cases action with
  | clean =>
    intro row hnot value hvalue
    replace hvalue : value ∈ st.held s.startLoop.storage row := hvalue
    rw [(turn_startLoop s).held hst] at hvalue
    split at hvalue
    · cases hvalue
    · show s.startLoop.prev row = .ok value
      rw [(turn_startLoop s).prev]
      exact h row (fun hawaits => hnot (hawaits.concat nofun)) value hvalue
  | updateMRU | setMaxCapacity =>
    exact fun row hnot => h row fun hawaits => hnot (hawaits.concat nofun)
  | getRow row => exact current_loaded h (hst.loaded_getRow _ _ _) nofun
  | getRows table keys => exact current_loaded h (hst.loaded_getRows _ _ _ _) nofun
  | setRow row' entry =>
    intro row hnot value hvalue
    replace hvalue : value ∈ st.held (st.asyncSetRow s.storage row' entry).2 row := hvalue
    rw [hst.held_setRow] at hvalue
    by_cases hrow : row = row'
    · subst hrow
      rw [Function.update_self] at hvalue
      exact hstores row entry rfl value hvalue
    · rw [Function.update_of_ne hrow] at hvalue
      refine h row (fun hawaits => hnot (hawaits.concat fun entry' heq => ?_)) value hvalue
      cases heq
      exact hrow rfl
  | commit writes =>
    intro row hnot value hvalue
    have hnone : writes row = none := by
      by_contra hsome
      exact hnot (awaitsMerge_commit (Option.isSome_iff_ne_none.mpr hsome))
    have hprev : (s.step (.commit writes)).prev row = s.prev row := by
      rw [prev_commit, overlay_of_none (by rw [hnone]; rfl)]
    rw [hprev]
    exact h row (fun hawaits => hnot (hawaits.concat nofun)) value hvalue

theorem current_run (hst : st.Lawful) (h : s.Current history) {actions : List Action}
    (hstores : Always step StoresCommitted s actions) :
    (s.run actions).Current (history ++ actions) := by
  induction actions generalizing s history with
  | nil =>
    rw [List.append_nil]
    exact h
  | cons action actions ih =>
    have hrest := ih (current_step hst h hstores.1) hstores.2
    rw [List.append_assoc] at hrest
    exact hrest

/-- Some steps of the cleaner, with no other thread in between. -/
def cleans (n : Nat) : List Action :=
  List.replicate n .clean

/-- After some steps of the cleaner, the keys that it has purged are read through. -/
theorem held_cleans (hst : st.Lawful) (s : LRUStorage st) (n : Nat) :
    (s.run (cleans n)).prev = s.prev ∧ ∀ row, st.held (s.run (cleans n)).storage row =
      if row ∈ s.purged (cleans n) then none else st.held s.storage row := by
  induction n generalizing s with
  | zero => exact ⟨rfl, fun row => (if_neg List.not_mem_nil).symm⟩
  | succ n ih =>
    obtain ⟨hprev, hrest⟩ := ih s.startLoop
    refine ⟨hprev.trans (turn_startLoop s).prev, fun row => (hrest row).trans ?_⟩
    have hpurged : row ∈ s.purged (cleans (n + 1)) ↔
        row ∈ s.purges .clean ∨ row ∈ s.startLoop.purged (cleans n) := List.mem_append
    rw [(turn_startLoop s).held hst]
    by_cases hlater : row ∈ s.startLoop.purged (cleans n)
    · rw [if_pos hlater, if_pos (hpurged.mpr (Or.inr hlater))]
    · simp only [hpurged, hlater, if_false, or_false]

theorem asyncGetRow_fst (hst : st.Lawful) (s : LRUStorage st) (row : StateRow) :
    (s.asyncGetRow row).1 = st.read s.storage s.prev row := by
  rw [← hst.getRow]
  unfold asyncGetRow
  dsimp only
  split
  · rfl
  · rfl

theorem asyncGetRows_fst (hst : st.Lawful) (s : LRUStorage st) (table : String)
    (keys : List Bytes) : (s.asyncGetRows table keys).1 =
      keys.mapM fun key => st.read s.storage s.prev ⟨table, key⟩ := by
  rw [← hst.getRows]
  unfold asyncGetRows
  dsimp only
  split
  · rfl
  · split
    · rfl
    · rfl

/-- Each read through the cache gives the same. -/
structure SameReads (s s' : LRUStorage st) : Prop where
  row : ∀ row, (s'.asyncGetRow row).1 = (s.asyncGetRow row).1
  rows : ∀ table keys, (s'.asyncGetRows table keys).1 = (s.asyncGetRows table keys).1

theorem sameReads_of_read (hst : st.Lawful) {s s' : LRUStorage st}
    (h : ∀ row, st.read s'.storage s'.prev row = st.read s.storage s.prev row) :
    SameReads s s' := by
  refine ⟨fun row => ?_, fun table keys => ?_⟩
  · rw [asyncGetRow_fst hst, asyncGetRow_fst hst, h]
  · rw [asyncGetRows_fst hst, asyncGetRows_fst hst]
    simp only [h]

/-- A purge of keys with nothing newer in the backend is not seen by any read. -/
theorem Current.sameReads (hst : st.Lawful) (h : s.Current history) {n : Nat}
    (hmerged : ∀ key ∈ s.purged (cleans n), ¬AwaitsMerge history key) :
    SameReads s (s.run (cleans n)) := by
  refine sameReads_of_read hst fun row => ?_
  obtain ⟨hprev, hheld⟩ := held_cleans hst s n
  unfold CacheStorage.read
  rw [hheld, hprev]
  by_cases hpurged : row ∈ s.purged (cleans n)
  · rw [if_pos hpurged]
    cases hvalue : st.held s.storage row with
    | none => rfl
    | some value => exact h row (hmerged row hpurged) value hvalue
  · rw [if_neg hpurged]

/-- A key that was purged is read from the backend. -/
theorem asyncGetRow_purged (hst : st.Lawful) {n : Nat} (h : row ∈ s.purged (cleans n)) :
    ((s.run (cleans n)).asyncGetRow row).1 = s.prev row := by
  obtain ⟨hprev, hheld⟩ := held_cleans hst s n
  rw [asyncGetRow_fst hst]
  unfold CacheStorage.read
  rw [hheld, hprev, if_pos h]

end LRUStorage

end BcosExecutor
