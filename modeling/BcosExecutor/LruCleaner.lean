import BcosExecutor.LruReads

namespace BcosExecutor

open Overlay (Layer overlay)
open Recency (TouchedBefore)
open Runs (Always)

namespace LRUStorage

variable {st : CacheStorage} {s₀ s : LRUStorage st}

/-- The two halves of a write, of which a merge has one for each entry. -/
def setRowActions (written : StateRow × StatusEntry) : List Action :=
  [.updateMRU written.1, .setRow written.1 written.2]

theorem run_append (s : LRUStorage st) (actions later : List Action) :
    s.run (actions ++ later) = (s.run actions).run later :=
  List.foldl_append

theorem asyncSetRow_eq_run (s : LRUStorage st) (row : StateRow) (entry : StatusEntry) :
    (s.asyncSetRow row entry).2 = s.run (setRowActions (row, entry)) :=
  rfl

theorem asyncGetRow_eq_run (s : LRUStorage st) (row : StateRow) :
    ∃ touched : List StateRow, (s.asyncGetRow row).2 = s.run (.getRow row :: touched.map .updateMRU) := by
  unfold asyncGetRow
  dsimp only
  split
  · exact ⟨[row], rfl⟩
  · exact ⟨[], rfl⟩

theorem asyncGetRows_eq_run (s : LRUStorage st) (table : String) (keys : List Bytes) :
    ∃ touched : List StateRow, (s.asyncGetRows table keys).2 =
      s.run (.getRows table keys :: touched.map .updateMRU) := by
  unfold asyncGetRows
  dsimp only
  split
  · exact ⟨[], rfl⟩
  next entries _ =>
    split
    · refine ⟨found table keys entries, ?_⟩
      unfold run
      rw [List.foldl_cons, List.foldl_map]
      rfl
    · exact ⟨[], rfl⟩

/-- A merge is a run of the writes of its entries. -/
theorem merge_eq_run (s : LRUStorage st) (onlyDirty : Bool)
    (parallelTraverse : Bool → List (StateRow × StatusEntry)) :
    s.merge onlyDirty (.other parallelTraverse) =
      .ok (s.run ((parallelTraverse onlyDirty).flatMap setRowActions)) := by
  unfold merge
  refine congrArg Except.ok ?_
  induction parallelTraverse onlyDirty generalizing s with
  | nil => rfl
  | cons written rest ih =>
    rw [List.foldl_cons, List.flatMap_cons, run_append, ih]
    rfl

/-- A cache with nothing in its order, which holds only what the backend has. -/
structure Started (s : LRUStorage st) : Prop where
  items : s.mru.items = []
  held : ∀ row, ∀ value ∈ st.held s.storage row, s.prev row = .ok value

/-- What the cleaner does after any history of the threads. -/
structure CleansRight (s₀ : LRUStorage st) (history : List Action) : Prop where
  nodup : (s₀.run history).mru.items.Nodup
  order : (s₀.run history).mru.items.Pairwise (TouchedBefore (s₀.dequeued history))
  kept : ∀ key ∈ s₀.dequeued history,
    key ∈ (s₀.run history).mru.items ∨ key ∈ s₀.purged history
  purge : (s₀.run history).cleaner = .measuring →
    (s₀.run history).maxCapacity < st.capacity (s₀.run history).storage →
    ∀ actions, 2 * (s₀.run history).mru.items.length + 1 ≤ actions.countP Action.isClean →
      ∃ loop rest, actions = loop ++ .clean :: rest ∧ (s₀.run history).startLoop.LoopEnds loop ∧
        (s₀.run history).mru.items = (s₀.run history).startLoop.purged loop ++
          ((s₀.run history).startLoop.run loop).mru.items ∧
        ∀ key ∈ (s₀.run history).startLoop.purged loop,
          ∀ left ∈ ((s₀.run history).startLoop.run loop).mru.items,
            TouchedBefore (s₀.dequeued history) key left
  reads : Always step StoresCommitted s₀ history →
    ∀ n, (∀ key ∈ (s₀.run history).purged (cleans n), ¬AwaitsMerge history key) →
      SameReads (s₀.run history) ((s₀.run history).run (cleans n))
  purged : ∀ n, ∀ key ∈ (s₀.run history).purged (cleans n),
    (((s₀.run history).run (cleans n)).asyncGetRow key).1 = (s₀.run history).prev key

theorem startLoop_measuring (h : s.cleaner = .measuring)
    (hlarge : s.maxCapacity < st.capacity s.storage) :
    s.startLoop = { s with cleaner := .testing } := by
  unfold startLoop
  rw [h]
  dsimp only
  rw [if_pos hlarge]

/-- The order, the purges and the reads, whatever the threads do and in whatever order. -/
theorem cleans_right (hst : st.Lawful) (h : s₀.Started) (history : List Action) :
    s₀.CleansRight history := by
  have hempty : s₀.InOrder [] [] := ⟨[], List.nil_subset _, h.items.symm⟩
  obtain ⟨gone, hgone, horder⟩ := inOrder_run hempty history
  have hpairwise := Recency.pairwise_left horder
  refine ⟨(s₀.run history).mru.nodup, hpairwise, fun key hkey => ?_,
    fun hmeasuring hlarge actions hcount => ?_, fun hstores n hmerged => ?_,
    fun n key hkey => asyncGetRow_purged hst hkey⟩
  · have hmem : key ∈ gone ++ (s₀.run history).mru.items := horder ▸ List.mem_dedup.mpr hkey
    rcases List.mem_append.mp hmem with hmem | hmem
    · exact Or.inr (hgone hmem)
    · exact Or.inl hmem
  · generalize s₀.run history = s at hmeasuring hlarge hcount hpairwise
    rw [startLoop_measuring hmeasuring hlarge]
    obtain ⟨loop, rest, hactions, hnone, hends⟩ :=
      exists_loopEnds (s := { s with cleaner := .testing }) (Or.inl rfl)
        (by rw [stepsLeft_testing rfl]; exact hcount)
    have hitems := hends.purged
    refine ⟨loop, rest, hactions, hends, hitems, ?_⟩
    exact (List.pairwise_append.mp (hitems ▸ hpairwise)).2.2
  · have hstart : s₀.Current [] := fun row _ => h.held row
    exact (current_run hst hstart hstores).sameReads hst hmerged

/-- An empty cache with room for one byte, over a backend without rows. -/
def emptyCache : LRUStorage heldRowsStorage where
  storage := ⟨fun _ => none, 0⟩
  prev _ := .ok none
  mru := .empty
  mruQueue := []
  maxCapacity := 1
  cleaner := .polling

theorem started_emptyCache : emptyCache.Started :=
  ⟨rfl, fun _ _ h => absurd h (Option.not_mem_none _)⟩

def oneRow (row : StateRow) (fields : Entry) : Layer StateRow (Option Entry) :=
  fun row' => if row' = row then some (some fields) else none

/-- A row is committed and merged, and the cleaner has taken it from the queue. -/
def mergedHistory : List Action :=
  .commit (oneRow ⟨"t", [1]⟩ [5, 6]) :: setRowActions (⟨"t", [1]⟩, .NORMAL [5, 6]) ++ cleans 1

/-- The cleaner finds too much held, and purges the only row. -/
theorem cleans_right_merged :
    (∃ loop rest, cleans 3 = loop ++ .clean :: rest ∧
      (emptyCache.run mergedHistory).startLoop.LoopEnds loop) ∧
    SameReads (emptyCache.run mergedHistory) ((emptyCache.run mergedHistory).run (cleans 4)) := by
  have h := cleans_right heldRowsStorage_lawful started_emptyCache mergedHistory
  obtain ⟨loop, rest, hactions, hends, -⟩ := h.purge (by decide) (by decide) (cleans 3) (by decide)
  refine ⟨⟨loop, rest, hactions, hends⟩, h.reads ?_ 4 (by decide)⟩
  refine ⟨nofun, nofun, ?_, nofun, trivial⟩
  rintro _ _ ⟨⟩ _ ⟨⟩
  rfl

/-- A row whose newer value is committed and not yet merged when the cleaner purges it. -/
def newerHistory : List Action :=
  .commit (oneRow ⟨"t", [1]⟩ [5, 6]) :: setRowActions (⟨"t", [1]⟩, .NORMAL [5, 6]) ++
    .commit (oneRow ⟨"t", [1]⟩ [7, 8]) :: cleans 3

/-- Its reads give the older value before the purge, and the newer one after it. -/
theorem not_cleans_right :
    emptyCache.Started ∧ Always step StoresCommitted emptyCache newerHistory ∧
    (emptyCache.run newerHistory).purged (cleans 1) = [⟨"t", [1]⟩] ∧
    ((emptyCache.run newerHistory).asyncGetRow ⟨"t", [1]⟩).1 = .ok (some [5, 6]) ∧
    (((emptyCache.run newerHistory).run (cleans 1)).asyncGetRow ⟨"t", [1]⟩).1 =
      .ok (some [7, 8]) := by
  refine ⟨started_emptyCache, ⟨nofun, nofun, ?_, nofun, nofun, nofun, nofun, trivial⟩, by decide,
    rfl, rfl⟩
  rintro _ _ ⟨⟩ _ ⟨⟩
  rfl

end LRUStorage

end BcosExecutor
