import BcosExecutor.StateChainReads

namespace BcosExecutor

open Overlay (Layer overlay Stack overlay_of_some overlay_of_none)

namespace TransactionExecutor

variable {be : TransactionalStorage} {c c' : TransactionExecutor be}

theorem stack_pushStorage (hs : ∀ state ∈ c.stateStorages, state.storage < c.created)
    (number : Int) (prev : Prev) (last : Option Nat) :
    (c.pushStorage number prev last).stack = c.stack.push := by
  have hlayers : (c.pushStorage number prev last).stateStorages.map (fun state =>
        ((c.pushStorage number prev last).storages state.storage).dirtyEntries) =
      c.stateStorages.map (fun state => (c.storages state.storage).dirtyEntries) ++
        [fun _ => none] := by
    show (c.stateStorages ++ [_]).map _ = _
    rw [List.map_append, List.map_singleton, pushStorage_self]
    refine congrArg (· ++ _) (List.map_congr_left fun state hmem => ?_)
    rw [pushStorage_of_lt (hs state hmem)]
  exact congrArg (Stack.mk _) hlayers

/-- A new block starts from what is read at the block before it. -/
theorem getRow_nextBlockHeader (hc : c.Chained) (ho : c.Ordered) (h : c.Faithful) {number : Int}
    (hok : (c.nextBlockHeader number).1 = none) :
    (c.nextBlockHeader number).2.stateStorages.map
        (fun state => (c.nextBlockHeader number).2.getRow (.storage state.storage)) =
      c.stack.views ++ [c.stack.views.getLastD c.stack.base] := by
  rw [getRow_views (chained_nextBlockHeader hc ho number) (ordered_nextBlockHeader ho number)
    (faithful_nextBlockHeader ho.known h number), ← Stack.views_push]
  rcases c.nextBlockHeader_cases number with ⟨error, heq⟩ | ⟨_, heq⟩ | ⟨states, prev, _, _, heq⟩
  · rw [heq] at hok
    cases hok
  · rw [heq, stack_pushStorage ho.known]
  · have hstack : (c.setReadOnly prev.storage true).stack = c.stack := by
      refine congrArg (Stack.mk _) (List.map_congr_left fun state _ => ?_)
      unfold BlockStorage.dirtyEntries
      rw [(sameLinks_setReadOnly ..).2]
    rw [heq, stack_pushStorage (c := c.setReadOnly prev.storage true) ho.known, hstack]

/-- The order of the two-phase commit is enough: a successful prepare prepares the block. -/
theorem prepared_prepare (hbe : be.Lawful) {number : Int} (hok : (c.prepare number).1 = none) :
    (c.prepare number).2.Prepared := by
  unfold prepare at hok ⊢
  split at hok
  next => cases hok
  next first hfirst =>
    obtain ⟨rfl, rest, hs⟩ := firstStorage_ok hfirst
    have hnone := Option.map_eq_none_iff.mp hok
    intro first' hfirst'
    obtain rfl : first = first' := by
      simp only [hs, List.head?_cons, Option.mem_def, Option.some.injEq] at hfirst'
      exact hfirst'
    exact congrArg (overlay · _) (hbe.prepared_prepare _ _ _ hnone)

theorem clean_tail {below : StateRow → Option Entry} {first : BlockState}
    {rest : List BlockState} (h : Removed c c' first rest) (hc : c.Clean below (first :: rest)) :
    c'.Clean (overlay (c.storages first.storage).dirtyEntries below) c'.stateStorages := by
  rw [h.states]
  exact clean_congr (fun state _ => h.entries state.storage) hc.2

/-- The merge of a block into the cache agrees with its commit to the backend. -/
theorem merge_cached {cache : StateRow → Option HeldEntry}
    {source : Layer StateRow (Option Entry)} {below : StateRow → Option Entry}
    (h : ∀ row entry, cache row = some entry → entry.value = below row) {row : StateRow}
    {entry : HeldEntry} (he : merge cache source row = some entry) :
    entry.value = overlay source below row := by
  unfold merge at he
  split at he
  next value hs =>
    cases he
    exact (overlay_of_some hs).symm
  next hs => exact (h row entry he).trans (overlay_of_none hs).symm

/-- A commit of a prepared block makes its writes the base of the stack. -/
theorem commit_prepared (hbe : be.Lawful) (h : c.Faithful) {first : BlockState}
    {rest : List BlockState} (hs : c.stateStorages = first :: rest) (hp : c.Prepared)
    (hc : (be.asyncCommit c.backendStorage first.number).1 = none) :
    (c.commit first.number).2.Faithful ∧ (c.commit first.number).2.stack = c.stack.absorb := by
  rcases c.commit_cases first.number with ⟨error, heq⟩ | ⟨error, hfail, _⟩ |
    ⟨first', rest', hs', _, _, heq⟩
  · unfold commit firstStorage at heq
    rw [hs] at heq
    simp only [ne_eq, not_true_eq_false, if_false] at heq
    split at heq
    next error' s hcommit =>
      rw [hcommit] at hc
      cases hc
    next => cases heq
  · exact absurd hc hfail
  · rw [hs] at hs'
    cases hs'
    rw [heq]
    generalize hmid : ({ c with
      backendStorage := (be.asyncCommit c.backendStorage first.number).2
      lastCommittedBlockNumber := first.number } : TransactionExecutor be) = mid
    have hstates : mid.stateStorages = first :: rest := by rw [← hmid]; exact hs
    have hstorages : mid.storages = c.storages := by rw [← hmid]
    have hcache : mid.cachedStorage = c.cachedStorage := by rw [← hmid]
    have hmidread : be.getRow mid.backendStorage =
        overlay (c.storages first.storage).dirtyEntries (be.getRow c.backendStorage) := by
      rw [← hmid, hbe.getRow_commit _ _ hc]
      exact hp first (by rw [hs]; rfl)
    have hremoved := removeCommittedState_spec hstates
    have hread : be.getRow mid.removeCommittedState.backendStorage =
        overlay (c.storages first.storage).dirtyEntries (be.getRow c.backendStorage) := by
      rw [hremoved.backend, hmidread]
    have hclean : mid.Clean (be.getRow c.backendStorage) (first :: rest) := by
      rw [← hs]
      exact clean_congr (fun _ _ => by rw [hstorages]) h.clean
    refine ⟨⟨fun row entry he => ?_, ?_⟩, ?_⟩
    · rw [hread]
      rw [hremoved.cached, hcache, hstorages] at he
      cases hcached : c.cachedStorage with
      | none =>
        rw [hcached] at he
        cases he
      | some cache =>
        rw [hcached] at he
        refine merge_cached (fun row' e he' => h.cached row' e ?_) he
        rw [hcached]
        exact he'
    · rw [hread, ← hstorages]
      exact clean_tail hremoved hclean
    · have hdirty : ∀ state : BlockState,
          (mid.removeCommittedState.storages state.storage).dirtyEntries =
            (c.storages state.storage).dirtyEntries := fun state => by
        unfold BlockStorage.dirtyEntries
        rw [hremoved.entries, hstorages]
      unfold stack
      rw [hread, hremoved.states, hs]
      simp only [hdirty]
      rfl

theorem faithful_step (hbe : be.Lawful) (hc : c.Chained) (ho : c.Ordered) (h : c.Faithful)
    {action : Action}
    (hp : (∃ number, action = .commit number) → (c.step action).1 = none → c.Prepared) :
    (c.step action).2.Faithful := by
  cases action with
  | nextBlockHeader number => exact faithful_nextBlockHeader ho.known h number
  | prepare number =>
    show (c.prepare number).2.Faithful
    unfold prepare
    split
    · exact h
    · exact faithful_backend h (hbe.getRow_prepare ..)
  | commit number =>
    show (c.commit number).2.Faithful
    rcases c.commit_cases number with ⟨error, heq⟩ | ⟨error, hfail, heq⟩ |
      ⟨first, rest, hs, rfl, hok, heq⟩
    · rw [heq]
      exact h
    · rw [heq]
      exact faithful_backend h (hbe.getRow_failedCommit _ _ hfail)
    · exact (commit_prepared hbe h hs (hp ⟨_, rfl⟩ (congrArg Prod.fst heq)) hok).1
  | rollback number =>
    show (c.rollback number).2.Faithful
    unfold rollback
    split
    · exact h
    · exact faithful_backend h (hbe.getRow_rollback ..)
  | reset => exact ⟨h.cached, trivial⟩
  | write id row entry =>
    refine faithful_setEntry hc h fun e he => ?_
    cases he
    rfl
  | undo id row => exact faithful_setEntry hc h nofun
  | load id row => exact faithful_loadEntry hc ho h id row
  | loadCached row => exact faithful_loadCached h row
  | purge row => exact faithful_setCached h nofun

theorem faithful_init (cached : Bool) (s : be.State) : (init cached s).Faithful := by
  refine ⟨fun row entry he => ?_, trivial⟩
  cases cached <;> cases he

theorem faithful_run (hbe : be.Lawful) {actions : List Action} (hc : c.Chained) (ho : c.Ordered)
    (h : c.Faithful) (hp : c.CommitsPrepared actions) : (c.run actions).Faithful := by
  induction actions generalizing c with
  | nil => exact h
  | cons action actions ih =>
    obtain ⟨hc', ho'⟩ := wired_step hc ho action
    exact ih hc' ho' (faithful_step hbe hc ho h hp.1) hp.2

theorem keepsReads_commit (hbe : be.Lawful) (hc : c.Chained) (ho : c.Ordered) (h : c.Faithful)
    {number : Int} (hp : c.Prepared) (hok : (c.commit number).1 = none) :
    KeepsReads c (c.commit number).2 := by
  obtain ⟨hc', ho'⟩ := wired_commit hc ho number
  rcases c.commit_cases number with ⟨error, heq⟩ | ⟨error, _, heq⟩ |
    ⟨first, rest, hs, rfl, hcommit, heq⟩
  · rw [heq] at hok
    cases hok
  · rw [heq] at hok
    cases hok
  · obtain ⟨h', hstack⟩ := commit_prepared hbe h hs hp hcommit
    have hviews := getRow_views hc' ho' h'
    have hstates : (c.commit first.number).2.stateStorages = rest := by
      rw [heq]
      refine (removeCommittedState_spec (?_ : _ = first :: rest)).states
      exact hs
    rw [hstack, Stack.views_absorb, ← getRow_views hc ho h, hs, hstates] at hviews
    intro state hmem
    rw [hstates] at hmem
    exact List.map_inj_left.mp hviews state hmem

/-- In every run the blocks are consecutive, each storage stands on the one before it, and all
but the last are read-only. A commit of a prepared block after a run whose commits were prepared
leaves every read through the other storages as it was. -/
theorem run_correct (hbe : be.Lawful) (cached : Bool) (s : be.State) (actions : List Action) :
    ((init cached s).run actions).Chained ∧
    ((init cached s).CommitsPrepared actions → ((init cached s).run actions).Prepared →
      ∀ number, (((init cached s).run actions).commit number).1 = none →
        KeepsReads ((init cached s).run actions)
          (((init cached s).run actions).commit number).2) := by
  obtain ⟨hinit, hordered⟩ := wired_init cached s
  obtain ⟨hc, ho⟩ := wired_run hinit hordered actions
  refine ⟨hc, fun hrun hp number hok => ?_⟩
  exact keepsReads_commit hbe hc ho (faithful_run hbe hinit hordered (faithful_init cached s) hrun)
    hp hok

end TransactionExecutor

/-- A backend in memory, which never fails. -/
structure MemoryBackend where
  rows : Rows
  prepared : Int → Layer StateRow (Option Entry)

def memoryBackend : TransactionalStorage where
  State := MemoryBackend
  getRow s := s.rows
  prepared s := s.prepared
  asyncPrepare s number writes :=
    (none, { s with prepared := Function.update s.prepared number writes })
  asyncCommit s number :=
    (none, ⟨overlay (s.prepared number) s.rows, Function.update s.prepared number fun _ => none⟩)
  asyncRollback s number :=
    (none, { s with prepared := Function.update s.prepared number fun _ => none })

theorem memoryBackend_lawful : memoryBackend.Lawful where
  getRow_prepare _ _ _ := rfl
  prepared_prepare s _ _ _ := Function.update_self _ _ s.prepared
  getRow_commit _ _ _ := rfl
  getRow_failedCommit _ _ h := absurd rfl h
  getRow_rollback _ _ := rfl

namespace TransactionExecutor

def emptyBackend : memoryBackend.State :=
  MemoryBackend.mk (fun _ => none) fun _ _ => none

/-- Block 1 writes a row and is prepared before block 2 begins. -/
def preparedRun : List Action :=
  [.nextBlockHeader 1, .write 0 ⟨"t", []⟩ (some [1]), .prepare 1, .nextBlockHeader 2]

theorem run_correct_prepared :
    KeepsReads ((init false emptyBackend).run preparedRun)
      (((init false emptyBackend).run preparedRun).commit 1).2 := by
  refine (run_correct memoryBackend_lawful false emptyBackend preparedRun).2 ?_ ?_ 1 rfl
  · refine ⟨fun h => ?_, fun h => ?_, fun h => ?_, fun h => ?_, trivial⟩
    all_goals
      obtain ⟨number, h⟩ := h
      cases h
  · intro first hfirst
    cases hfirst
    rfl

/-- Block 1 is prepared, given up and executed again, and block 2 begins. -/
def abandonedRun : List Action :=
  [.nextBlockHeader 1, .prepare 1, .reset, .nextBlockHeader 1, .write 1 ⟨"t", []⟩ (some [1]),
    .nextBlockHeader 2]

/-- Block 2 has read the row, and the cache gives it up after the commit of block 1. -/
def purgedRun : List Action :=
  abandonedRun ++ [.load 2 ⟨"t", []⟩, .nextBlockHeader 3, .commit 1, .purge ⟨"t", []⟩]

/-- What is committed is what was prepared, not what the storage has: without a cache the read
through block 2 changes at once, and with one the read through block 3 at the next commit. -/
theorem not_keepsReads_abandoned :
    ((((init false emptyBackend).run abandonedRun).commit 1).1 = none ∧
      ¬ KeepsReads ((init false emptyBackend).run abandonedRun)
        (((init false emptyBackend).run abandonedRun).commit 1).2) ∧
    (((init true emptyBackend).run purgedRun).commit 2).1 = none ∧
      ¬ KeepsReads ((init true emptyBackend).run purgedRun)
        (((init true emptyBackend).run purgedRun).commit 2).2 := by
  refine ⟨⟨rfl, fun h => ?_⟩, rfl, fun h => ?_⟩
  · have hrow := congrFun (h ⟨2, 2⟩ (List.mem_singleton_self _)) ⟨"t", []⟩
    revert hrow
    decide
  · have hrow := congrFun (h ⟨3, 3⟩ (List.mem_singleton_self _)) ⟨"t", []⟩
    revert hrow
    decide

end TransactionExecutor

end BcosExecutor
