import BcosExecutor.OpenBlock

namespace BcosExecutor

open Overlay (Layer overlay Stack overlay_of_some overlay_of_none)

namespace TransactionExecutor

variable {be : TransactionalStorage} {c c' : TransactionExecutor be}

/-- What is read through the storage of the block that is being executed. -/
def currentRow (c : TransactionExecutor be) (row : StateRow) : Option Entry :=
  c.blockContext.bind fun block => c.getRow (.storage block.storage) row

def ContextKnown (c : TransactionExecutor be) : Prop :=
  ∀ block ∈ c.blockContext, block.storage < c.created

/-- The row is left as the block reads it, as far as the step says so: a write or an undo of the
row itself changes nothing for the block, and a block that begins on the committed state finds
there what the block before it has read. -/
def KeepsRow (c : TransactionExecutor be) (row : StateRow) : Action → Prop
  | .write id row' entry => row' = row →
      (c.setEntry id row (some ⟨entry, true⟩)).currentRow row = c.currentRow row
  | .undo id row' => row' = row → (c.setEntry id row none).currentRow row = c.currentRow row
  | .nextBlockHeader _ => c.stateStorages = [] → c.blockContext ≠ none →
      c.getRow c.base row = c.currentRow row
  | _ => True

theorem getRowThrough_congr {row : StateRow}
    (hentries : ∀ id, (c'.storages id).entries row = (c.storages id).entries row)
    (hprev : ∀ id, (c'.storages id).prev = (c.storages id).prev)
    (hbackend : be.getRow c'.backendStorage row = be.getRow c.backendStorage row)
    (hcached : c'.getRowThrough 0 .cached row = c.getRowThrough 0 .cached row)
    (fuel : Nat) (storage : Prev) :
    c'.getRowThrough fuel storage row = c.getRowThrough fuel storage row := by
  induction fuel generalizing storage with
  | zero =>
    cases storage with
    | backend => rw [getRowThrough_backend, getRowThrough_backend, hbackend]
    | cached => exact hcached
    | storage id => rfl
  | succ fuel ih =>
    cases storage with
    | backend => rw [getRowThrough_backend, getRowThrough_backend, hbackend]
    | cached =>
      rw [getRowThrough_cached, ← getRowThrough_cached c' 0, hcached, getRowThrough_cached,
        getRowThrough_cached]
    | storage id =>
      have hbelow := ih (c.storages id).prev
      rw [getRowThrough_storage, getRowThrough_storage, overlay, overlay, hprev, hbelow]
      unfold BlockStorage.held
      rw [hentries]

theorem currentRow_congr {row : StateRow} (hcontext : c'.blockContext = c.blockContext)
    (hcreated : c'.created = c.created)
    (h : ∀ fuel storage, c'.getRowThrough fuel storage row = c.getRowThrough fuel storage row) :
    c'.currentRow row = c.currentRow row := by
  unfold currentRow getRow
  rw [hcontext, hcreated]
  exact Option.bind_congr fun block _ => h _ _

theorem Faithful.getRow_cached (h : c.Faithful) (fuel : Nat) (row : StateRow) :
    c.getRowThrough fuel .cached row = be.getRow c.backendStorage row := by
  rw [getRowThrough_cached]
  cases hc : c.cachedStorage.bind (· row) with
  | none => rfl
  | some entry => exact h.cached row entry hc

/-- A change of the backend or of the cache that keeps what is in the backend. -/
theorem currentRow_below {row : StateRow} (h : c.Faithful) (h' : c'.Faithful)
    (hstorages : c'.storages = c.storages) (hcontext : c'.blockContext = c.blockContext)
    (hcreated : c'.created = c.created)
    (hbackend : be.getRow c'.backendStorage = be.getRow c.backendStorage) :
    c'.currentRow row = c.currentRow row := by
  have hrow := congrFun hbackend row
  refine currentRow_congr hcontext hcreated fun fuel storage => ?_
  refine getRowThrough_congr (fun id => ?_) (fun id => ?_) hrow ?_ fuel storage
  · rw [hstorages]
  · rw [hstorages]
  · rw [h.getRow_cached, h'.getRow_cached, hrow]

theorem context_setEntry (id : Nat) (row : StateRow) (entry : Option HeldEntry) :
    (c.setEntry id row entry).blockContext = c.blockContext ∧
      (c.setEntry id row entry).created = c.created := by
  unfold setEntry
  split <;> exact ⟨rfl, rfl⟩

theorem currentRow_setEntry {id : Nat} {row row' : StateRow} {entry : Option HeldEntry}
    (hne : row' ≠ row) : (c.setEntry id row' entry).currentRow row = c.currentRow row := by
  obtain ⟨hcontext, hcreated⟩ := context_setEntry (c := c) id row' entry
  refine currentRow_congr hcontext hcreated fun fuel storage => ?_
  refine getRowThrough_congr (fun j => ?_) (sameChain_setEntry id row' entry).prev ?_ ?_ fuel storage
  · unfold setEntry
    split
    next =>
      by_cases hj : j = id
      · subst hj
        rw [modifyStorage_self]
        exact Function.update_of_ne (Ne.symm hne) ..
      · rw [modifyStorage_of_ne hj]
    next => rfl
  · unfold setEntry
    split <;> rfl
  · unfold setEntry
    split <;> rfl

/-- An entry that is kept from a read says what the read has given. -/
theorem getRowThrough_load (ho : c.Ordered) {id : Nat} {row row' : StateRow} {value : Entry}
    (hnone : (c.storages id).entries row' = none) (hid : id < c.created)
    (hvalue : c.getRow (c.storages id).prev row' = some value) {fuel : Nat} {storage : Prev}
    (hfuel : Prev.rank storage ≤ fuel) :
    (c.modifyStorage id fun storage =>
        { storage with entries := Function.update storage.entries row' (some ⟨some value, false⟩) }
      ).getRowThrough fuel storage row = c.getRowThrough fuel storage row := by
  induction fuel generalizing storage with
  | zero => cases storage <;> rfl
  | succ fuel ih =>
    cases storage with
    | backend => rfl
    | cached => rfl
    | storage j =>
      have hle := rank_prev_le ho j
      have hbelow := @ih (c.storages j).prev (by simp only [Prev.rank] at hfuel; omega)
      rw [getRowThrough_storage, getRowThrough_storage, overlay, overlay]
      by_cases hj : j = id
      · subst hj
        rw [modifyStorage_self]
        show (Option.map _ (Function.update (c.storages j).entries row' _ row)).getD _ = _
        by_cases hr : row = row'
        · subst hr
          have hread : c.getRowThrough fuel (c.storages j).prev row = some value := by
            rw [← hvalue, getRow]
            refine congrFun (getRowThrough_fuel ho ?_ ?_) row
            · simp only [Prev.rank] at hfuel
              omega
            · omega
          rw [Function.update_self, BlockStorage.held, hnone, Option.map_none, Option.getD_none,
            hread]
          rfl
        · rw [Function.update_of_ne hr, hbelow]
          rfl
      · rw [modifyStorage_of_ne hj, hbelow]

theorem currentRow_loadEntry (ho : c.Ordered) (hk : c.ContextKnown) (id : Nat)
    (row row' : StateRow) :
    (c.loadEntry id row').currentRow row = c.currentRow row := by
  unfold loadEntry
  split
  next value hnone hvalue =>
    unfold setEntry
    split
    next hid =>
      unfold currentRow getRow
      refine Option.bind_congr fun block hblock => getRowThrough_load ho hnone hid.1 hvalue ?_
      exact hk block hblock
    next => rfl
  next => rfl

theorem currentRow_of_last (hcur : c.Current) (states : List BlockState) {last : BlockState}
    (hs : c.stateStorages = states ++ [last]) (row : StateRow) :
    c.currentRow row = c.getRow (.storage last.storage) row := by
  obtain ⟨_, hblock⟩ := hcur last (by rw [hs]; simp)
  unfold currentRow
  rw [hblock, Option.bind_some]

/-- A new block reads at first what the block before it reads, or what is committed. -/
theorem currentRow_nextBlockHeader (hc : c.Chained) (ho : c.Ordered) (h : c.Faithful)
    (hcur : c.Current) {number : Int} (hok : (c.nextBlockHeader number).1 = none)
    (row : StateRow) : (c.nextBlockHeader number).2.currentRow row =
      if c.stateStorages = [] then c.getRow c.base row else c.currentRow row := by
  have hviews := getRow_nextBlockHeader hc ho h hok
  rw [← getRow_views hc ho h] at hviews
  have hnew : (c.nextBlockHeader number).2.stateStorages =
        c.stateStorages ++ [⟨number, c.created⟩] ∧
      (c.nextBlockHeader number).2.currentRow =
        (c.nextBlockHeader number).2.getRow (.storage c.created) := by
    rcases c.nextBlockHeader_cases number with ⟨error, heq⟩ | ⟨_, heq⟩ | ⟨_, _, _, _, heq⟩
    · rw [heq] at hok
      cases hok
    · rw [heq]
      exact ⟨rfl, rfl⟩
    · rw [heq]
      exact ⟨rfl, rfl⟩
  rw [hnew.1, List.map_append, List.map_singleton] at hviews
  have hread := List.singleton_injective (List.append_inj' hviews rfl).2
  rw [hnew.2, hread]
  split
  next hnil =>
    rw [hnil, h.getRow_base]
    rfl
  next hne =>
    obtain ⟨states, last, hs⟩ := (List.eq_nil_or_concat _).resolve_left hne
    rw [currentRow_of_last hcur states (by rw [hs, List.concat_eq_append]), hs]
    simp

theorem context_commit (c : TransactionExecutor be) (number : Int) :
    (c.commit number).2.blockContext = c.blockContext ∧
      (c.commit number).2.created = c.created := by
  rcases c.commit_cases number with ⟨error, heq⟩ | ⟨error, _, heq⟩ | ⟨first, rest, hs, _, _, heq⟩
  · rw [heq]
    exact ⟨rfl, rfl⟩
  · rw [heq]
    exact ⟨rfl, rfl⟩
  · rw [heq]
    exact ⟨blockContext_removeCommittedState, (removeCommittedState_spec (c := { c with
      backendStorage := (be.asyncCommit c.backendStorage number).2
      lastCommittedBlockNumber := number }) hs).created⟩

theorem overlay_held_dirty (storage : BlockStorage) (below : StateRow → Option Entry) :
    overlay storage.held (overlay storage.dirtyEntries below) = overlay storage.held below := by
  funext row
  unfold overlay BlockStorage.held BlockStorage.dirtyEntries
  cases storage.entries row <;> rfl

/-- The last block of the list keeps its reads when it is committed. -/
theorem getRow_commit_last (hbe : be.Lawful) (hc : c.Chained) (ho : c.Ordered) (h : c.Faithful)
    {first : BlockState} (hs : c.stateStorages = [first]) (hp : c.Prepared)
    (hcommit : (be.asyncCommit c.backendStorage first.number).1 = none) :
    (c.commit first.number).2.getRow (.storage first.storage) =
      c.getRow (.storage first.storage) := by
  have ho' := (wired_commit hc ho first.number).2
  obtain ⟨h', hstack⟩ := commit_prepared hbe h hs hp hcommit
  have hread : be.getRow (c.commit first.number).2.backendStorage =
      overlay (c.storages first.storage).dirtyEntries (be.getRow c.backendStorage) := by
    have hbase := congrArg Stack.base hstack
    unfold stack at hbase
    rw [hs] at hbase
    exact hbase
  have hknown : first.storage < c.created := ho.known first (by rw [hs]; exact List.mem_singleton_self _)
  have hlinked := hc.linked
  rw [hs] at hlinked
  rcases c.commit_cases first.number with ⟨error, heq⟩ | ⟨error, hfail, _⟩ |
    ⟨first', rest, hs', _, _, heq⟩
  · have hsame : (c.commit first.number).2.stack = c.stack := by rw [heq]
    rw [hsame] at hstack
    have hlen := congrArg (fun s => s.layers.length) hstack
    simp [stack, Stack.absorb, hs] at hlen
  · exact absurd hcommit hfail
  · rw [hs] at hs'
    cases hs'
    have hremoved := removeCommittedState_spec (c := { c with
      backendStorage := (be.asyncCommit c.backendStorage first.number).2
      lastCommittedBlockNumber := first.number }) hs
    have hentries : ((c.commit first.number).2.storages first.storage).entries =
        (c.storages first.storage).entries := by
      rw [heq]
      exact hremoved.entries first.storage
    have hheld : ((c.commit first.number).2.storages first.storage).held =
        (c.storages first.storage).held := by
      unfold BlockStorage.held
      rw [hentries]
    have hprev : ((c.commit first.number).2.storages first.storage).prev =
        (c.commit first.number).2.base := by
      rw [heq]
      exact (hremoved.prev first.storage nofun).trans (hlinked.1.trans hremoved.base.symm)
    have hcreated := (context_commit c first.number).2
    rw [getRow_storage ho' (by omega), getRow_storage ho hknown, hheld, hprev, h'.getRow_base,
      hread, overlay_held_dirty, hlinked.1, h.getRow_base]

theorem currentRow_commit (hbe : be.Lawful) (hc : c.Chained) (ho : c.Ordered) (h : c.Faithful)
    (hcur : c.Current) {number : Int} (hp : (c.commit number).1 = none → c.Prepared)
    (row : StateRow) : (c.commit number).2.currentRow row = c.currentRow row := by
  have hcur' : (c.commit number).2.Current := current_step hcur (.commit number)
  rcases c.commit_cases number with ⟨error, heq⟩ | ⟨error, hfail, heq⟩ |
    ⟨first, rest, hs, rfl, hcommit, heq⟩
  · rw [heq]
  · rw [heq]
    exact currentRow_below h (faithful_backend h (hbe.getRow_failedCommit _ _ hfail)) rfl rfl rfl
      (hbe.getRow_failedCommit _ _ hfail)
  · have hok : (c.commit first.number).1 = none := by rw [heq]
    have hprepared := hp hok
    have hstates : (c.commit first.number).2.stateStorages = rest := by
      rw [heq]
      exact (removeCommittedState_spec (c := { c with
        backendStorage := (be.asyncCommit c.backendStorage first.number).2
        lastCommittedBlockNumber := first.number }) hs).states
    rcases List.eq_nil_or_concat rest with rfl | ⟨states, last, rfl⟩
    · have hread := getRow_commit_last hbe hc ho h hs hprepared hcommit
      obtain ⟨_, hblock⟩ := hcur first (by rw [hs]; rfl)
      unfold currentRow
      rw [(context_commit c first.number).1, hblock, Option.bind_some, Option.bind_some, hread]
    · rw [List.concat_eq_append] at hs hstates
      rw [currentRow_of_last hcur' states hstates, currentRow_of_last hcur (first :: states) hs]
      refine congrFun (keepsReads_commit hbe hc ho h hprepared hok last ?_) row
      rw [hstates]
      exact List.mem_append_right _ (List.mem_singleton_self last)

theorem contextKnown_step (hk : c.ContextKnown) (action : Action) :
    (c.step action).2.ContextKnown := by
  have hsetEntry (id : Nat) (row : StateRow) (entry : Option HeldEntry) :
      (c.setEntry id row entry).ContextKnown := by
    obtain ⟨hcontext, hcreated⟩ := context_setEntry (c := c) id row entry
    unfold ContextKnown
    rw [hcontext, hcreated]
    exact hk
  cases action with
  | nextBlockHeader number =>
    show (c.nextBlockHeader number).2.ContextKnown
    have hpush {c : TransactionExecutor be} (prev : Prev) (last : Option Nat) :
        (c.pushStorage number prev last).ContextKnown := by
      intro block hblock
      cases hblock
      exact Nat.lt_succ_self _
    rcases c.nextBlockHeader_cases number with ⟨error, heq⟩ | ⟨_, heq⟩ | ⟨_, _, _, _, heq⟩
    · rw [heq]
      exact hk
    · rw [heq]
      exact hpush _ _
    · rw [heq]
      exact hpush _ _
  | prepare number =>
    show (c.prepare number).2.ContextKnown
    unfold prepare
    split <;> exact hk
  | commit number =>
    obtain ⟨hcontext, hcreated⟩ := context_commit c number
    show (c.commit number).2.ContextKnown
    unfold ContextKnown
    rw [hcontext, hcreated]
    exact hk
  | rollback number =>
    show (c.rollback number).2.ContextKnown
    unfold rollback
    split <;> exact hk
  | reset => exact hk
  | write id row entry => exact hsetEntry id row _
  | undo id row => exact hsetEntry id row _
  | load id row =>
    show (c.loadEntry id row).ContextKnown
    unfold loadEntry
    split
    · exact hsetEntry id row _
    · exact hk
  | loadCached row =>
    show (c.loadCached row).ContextKnown
    unfold loadCached
    split <;> exact hk
  | purge row => exact hk

/-- What the block reads in a row outlives every step that keeps the row. -/
theorem currentRow_step (hbe : be.Lawful) (hc : c.Chained) (ho : c.Ordered) (h : c.Faithful)
    (hcur : c.Current) (hk : c.ContextKnown) {action : Action} {row : StateRow} (hblock : c.blockContext ≠ none)
    (hp : (∃ number, action = .commit number) → (c.step action).1 = none → c.Prepared)
    (hkeep : c.KeepsRow row action) : (c.step action).2.currentRow row = c.currentRow row := by
  cases action with
  | nextBlockHeader number =>
    show (c.nextBlockHeader number).2.currentRow row = _
    cases hok : (c.nextBlockHeader number).1 with
    | some error =>
      rcases c.nextBlockHeader_cases number with ⟨error', heq⟩ | ⟨_, heq⟩ | ⟨_, _, _, _, heq⟩
      · rw [heq]
      · rw [heq] at hok
        cases hok
      · rw [heq] at hok
        cases hok
    | none =>
      rw [currentRow_nextBlockHeader hc ho h hcur hok]
      split
      next hnil => exact hkeep hnil hblock
      next => rfl
  | prepare number =>
    show (c.prepare number).2.currentRow row = _
    unfold prepare
    split
    · rfl
    · have hread := hbe.getRow_prepare c.backendStorage number
      exact currentRow_below h (faithful_backend h (hread _)) rfl rfl rfl (hread _)
  | commit number => exact currentRow_commit hbe hc ho h hcur (hp ⟨_, rfl⟩) row
  | rollback number =>
    show (c.rollback number).2.currentRow row = _
    unfold rollback
    split
    · rfl
    · have hread := hbe.getRow_rollback c.backendStorage number
      exact currentRow_below h (faithful_backend h hread) rfl rfl rfl hread
  | reset => exact currentRow_below h ⟨h.cached, trivial⟩ rfl rfl rfl rfl
  | write id row' entry =>
    by_cases hr : row' = row
    · subst hr
      exact hkeep rfl
    · exact currentRow_setEntry hr
  | undo id row' =>
    by_cases hr : row' = row
    · subst hr
      exact hkeep rfl
    · exact currentRow_setEntry hr
  | load id row' => exact currentRow_loadEntry ho hk id row row'
  | loadCached row' =>
    show (c.loadCached row').currentRow row = _
    unfold loadCached
    split
    next value _ hvalue =>
      refine currentRow_below h (faithful_setCached h fun e he => ?_) rfl rfl rfl rfl
      cases he
      exact hvalue.symm
    next => rfl
  | purge row' => exact currentRow_below h (faithful_setCached h nofun) rfl rfl rfl rfl

end TransactionExecutor

end BcosExecutor
