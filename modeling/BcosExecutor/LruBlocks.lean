import BcosExecutor.LruCleaner

namespace BcosExecutor

open Overlay (Layer overlay_of_some)
open Runs (Always)

namespace LRUStorage

variable {st : CacheStorage} {s : LRUStorage st} {history : List Action}

def Action.store (written : StateRow × StatusEntry) : Action :=
  .setRow written.1 written.2

/-- The dirty entries of a block, in the order in which a merge meets them. -/
structure BlockWrites where
  rows : List StateRow
  entry : StateRow → StatusEntry

namespace BlockWrites

def writes (block : BlockWrites) : Layer StateRow (Option Entry) :=
  fun row => if row ∈ block.rows then (block.entry row).held else none

def entries (block : BlockWrites) : List (StateRow × StatusEntry) :=
  block.rows.map fun row => (row, block.entry row)

/-- A block is committed to the backend, and then merged. -/
def actions (block : BlockWrites) : List Action :=
  .commit block.writes :: block.entries.map Action.store

end BlockWrites

def Action.isWrite : Action → Bool
  | .commit _ => true
  | .setRow _ _ => true
  | _ => false

/-- What is committed and stored is that of whole blocks; anything else may come in between. -/
def WholeBlocks (history : List Action) (blocks : List BlockWrites) : Prop :=
  history.filter Action.isWrite = blocks.flatMap BlockWrites.actions

theorem prev_step (s : LRUStorage st) {action : Action} (h : action.isWrite = false) :
    (s.step action).prev = s.prev := by
  cases action with
  | clean => exact (turn_startLoop s).prev
  | commit | setRow => cases h
  | _ => rfl

theorem awaits_of_not_isWrite {action : Action} (h : action.isWrite = false) (row : StateRow)
    (awaits : Bool) : action.awaits row awaits = awaits := by
  cases action with
  | commit | setRow => cases h
  | _ => rfl

theorem awaits_filter (history : List Action) (row : StateRow) (awaits : Bool) :
    (history.filter Action.isWrite).foldl (Action.awaits row) awaits =
      history.foldl (Action.awaits row) awaits := by
  induction history generalizing awaits with
  | nil => rfl
  | cons action history ih =>
    cases hwrite : action.isWrite with
    | true =>
      rw [List.filter_cons_of_pos hwrite]
      exact ih _
    | false =>
      rw [List.filter_cons_of_neg (by rw [hwrite]; exact Bool.false_ne_true), List.foldl_cons,
        awaits_of_not_isWrite hwrite]
      exact ih _

theorem awaits_stores (entries : List (StateRow × StatusEntry)) (row : StateRow)
    (awaits : Bool) : (entries.map Action.store).foldl (Action.awaits row) awaits =
      (awaits && row ∉ entries.map Prod.fst) := by
  induction entries generalizing awaits with
  | nil => simp
  | cons written entries ih =>
    rw [List.map_cons, List.foldl_cons, ih, Action.store, Action.awaits]
    simp only [List.map_cons, List.mem_cons, not_or, Bool.decide_and, ne_comm, ne_eq, Bool.and_assoc]

/-- With its block merged, no row awaits a merge. -/
theorem awaits_block (block : BlockWrites) (row : StateRow) :
    block.actions.foldl (Action.awaits row) false = false := by
  have hrows : block.entries.map Prod.fst = block.rows := by
    rw [BlockWrites.entries, List.map_map]
    exact List.map_id _
  rw [BlockWrites.actions, List.foldl_cons, awaits_stores, hrows, Action.awaits,
    BlockWrites.writes]
  by_cases hrow : row ∈ block.rows
  · simp [hrow]
  · simp [hrow]

theorem awaits_blocks (blocks : List BlockWrites) (row : StateRow) :
    (blocks.flatMap BlockWrites.actions).foldl (Action.awaits row) false = false := by
  induction blocks with
  | nil => rfl
  | cons block blocks ih =>
    rw [List.flatMap_cons, List.foldl_append, awaits_block]
    exact ih

theorem WholeBlocks.not_awaitsMerge {blocks : List BlockWrites} (h : WholeBlocks history blocks)
    (row : StateRow) : ¬AwaitsMerge history row := by
  unfold AwaitsMerge
  rw [← awaits_filter, h, awaits_blocks]
  exact Bool.false_ne_true

/-- The stores that are left of a block, and the blocks after it, store what is committed. -/
theorem always_of_filter {pending : List (StateRow × StatusEntry)} {blocks : List BlockWrites}
    (h : history.filter Action.isWrite =
      pending.map Action.store ++ blocks.flatMap BlockWrites.actions)
    (hpending : ∀ written ∈ pending, ∀ value ∈ written.2.held, s.prev written.1 = .ok value) :
    Always step StoresCommitted s history := by
  induction history generalizing s pending blocks with
  | nil => trivial
  | cons action history ih =>
    cases hwrite : action.isWrite with
    | false =>
      rw [List.filter_cons_of_neg (by rw [hwrite]; exact Bool.false_ne_true)] at h
      refine ⟨?_, ih h ?_⟩
      · intro row entry heq
        subst heq
        cases hwrite
      · rw [prev_step s hwrite]
        exact hpending
    | true =>
      rw [List.filter_cons_of_pos hwrite] at h
      cases pending with
      | cons written pending =>
        obtain ⟨rfl, hrest⟩ := List.cons.inj h
        obtain ⟨hfirst, hpending⟩ := List.forall_mem_cons.mp hpending
        refine ⟨?_, ih hrest hpending⟩
        intro row entry heq
        cases heq
        exact hfirst
      | nil =>
        cases blocks with
        | nil => cases h
        | cons block blocks =>
          obtain ⟨rfl, hrest⟩ := List.cons.inj h
          refine ⟨nofun, ih hrest fun written hwritten value hvalue => ?_⟩
          obtain ⟨row, hrow, rfl⟩ := List.mem_map.mp hwritten
          have hwrites : block.writes row = some value := (if_pos hrow).trans hvalue
          rw [prev_commit, overlay_of_some (by rw [hwrites]; rfl)]

/-- Where blocks are merged as a whole after their commits, no read sees a purge. -/
theorem WholeBlocks.sameReads (hst : st.Lawful) (hs : s.Started) {blocks : List BlockWrites}
    (h : WholeBlocks history blocks) (n : Nat) :
    SameReads (s.run history) ((s.run history).run (cleans n)) := by
  have hstart : s.Current [] := fun row _ => hs.held row
  have hstores : Always step StoresCommitted s history :=
    always_of_filter (show _ = [].map Action.store ++ _ from h) nofun
  exact (current_run hst hstart hstores).sameReads hst fun key _ => h.not_awaitsMerge key

theorem filter_setRowActions (entries : List (StateRow × StatusEntry)) :
    (entries.flatMap setRowActions).filter Action.isWrite = entries.map Action.store := by
  induction entries with
  | nil => rfl
  | cons written entries ih =>
    rw [List.flatMap_cons, List.filter_append, ih]
    rfl

/-- A merge that meets the entries of a block right after its commit adds it as a whole. -/
theorem WholeBlocks.merge {blocks : List BlockWrites} (h : WholeBlocks history blocks)
    (block : BlockWrites) {parallelTraverse : Bool → List (StateRow × StatusEntry)}
    (hentries : parallelTraverse true = block.entries) (s : LRUStorage st) :
    ∃ later, ((s.run history).step (.commit block.writes)).merge true (.other parallelTraverse) =
        .ok (s.run (history ++ later)) ∧
      WholeBlocks (history ++ later) (blocks ++ [block]) := by
  refine ⟨.commit block.writes :: block.entries.flatMap setRowActions, ?_, ?_⟩
  · rw [merge_eq_run, hentries, run_append]
    rfl
  · have hcommit : (Action.commit block.writes :: block.entries.flatMap setRowActions).filter
        Action.isWrite = block.actions :=
      congrArg (List.cons _) (filter_setRowActions block.entries)
    unfold WholeBlocks
    rw [List.filter_append, h, hcommit, List.flatMap_append, List.flatMap_singleton]

end LRUStorage

end BcosExecutor
