import BcosExecutor.StateChainLinks

namespace BcosExecutor

open Overlay (Layer overlay Stack overlay_of_some overlay_of_none)

namespace TransactionExecutor

variable {be : TransactionalStorage} {c c' : TransactionExecutor be}

def Prev.rank : Prev → Nat
  | .storage id => id + 1
  | _ => 0

theorem getRowThrough_backend (c : TransactionExecutor be) (fuel : Nat) :
    c.getRowThrough fuel .backend = be.getRow c.backendStorage := by
  funext row
  cases fuel <;> rfl

theorem getRowThrough_cached (c : TransactionExecutor be) (fuel : Nat) (row : StateRow) :
    c.getRowThrough fuel .cached row =
      ((c.cachedStorage.bind (· row)).map HeldEntry.value).getD
        (be.getRow c.backendStorage row) := by
  cases fuel <;> simp only [getRowThrough]
  all_goals cases c.cachedStorage.bind (· row) <;> rfl

theorem getRowThrough_storage (c : TransactionExecutor be) (fuel id : Nat) :
    c.getRowThrough (fuel + 1) (.storage id) =
      overlay (c.storages id).held (c.getRowThrough fuel (c.storages id).prev) := by
  funext row
  rw [overlay, BlockStorage.held, getRowThrough]
  cases (c.storages id).entries row <;> rfl

theorem rank_prev_le (ho : c.Ordered) (id : Nat) : Prev.rank (c.storages id).prev ≤ id := by
  cases h : (c.storages id).prev with
  | storage j => exact ho.below id j h
  | backend => exact Nat.zero_le _
  | cached => exact Nat.zero_le _

theorem getRowThrough_fuel (ho : c.Ordered) {n m : Nat} {storage : Prev}
    (hn : Prev.rank storage ≤ n) (hm : Prev.rank storage ≤ m) :
    c.getRowThrough n storage = c.getRowThrough m storage := by
  induction n generalizing m storage with
  | zero =>
    cases storage with
    | storage id => exact absurd hn (Nat.not_succ_le_zero id)
    | backend => rw [getRowThrough_backend, getRowThrough_backend]
    | cached =>
      funext row
      rw [getRowThrough_cached, getRowThrough_cached]
  | succ n ih =>
    cases storage with
    | storage id =>
      have hle := rank_prev_le ho id
      obtain ⟨m, rfl⟩ : ∃ k, m = k + 1 := ⟨m - 1, by simp only [Prev.rank] at hm; omega⟩
      simp only [Prev.rank] at hn hm
      rw [getRowThrough_storage, getRowThrough_storage, ih (m := m) (by omega) (by omega)]
    | backend => rw [getRowThrough_backend, getRowThrough_backend]
    | cached =>
      funext row
      rw [getRowThrough_cached, getRowThrough_cached]

/-- A storage is read as its entries over what is read through its prev. -/
theorem getRow_storage (ho : c.Ordered) {id : Nat} (hid : id < c.created) :
    c.getRow (.storage id) = overlay (c.storages id).held (c.getRow (c.storages id).prev) := by
  have hle := rank_prev_le ho id
  obtain ⟨n, hn⟩ : ∃ n, c.created = n + 1 := ⟨c.created - 1, by omega⟩
  unfold getRow
  rw [hn, getRowThrough_storage, getRowThrough_fuel ho (m := n + 1) (by omega) (by omega)]

/-- The entries that are not dirty are what is read below. -/
def CleanOver (storage : BlockStorage) (below : StateRow → Option Entry) : Prop :=
  ∀ row entry, storage.entries row = some entry → entry.dirty = false → entry.value = below row

theorem overlay_held {storage : BlockStorage} {below : StateRow → Option Entry}
    (h : CleanOver storage below) :
    overlay storage.held below = overlay storage.dirtyEntries below := by
  funext row
  unfold overlay BlockStorage.held BlockStorage.dirtyEntries
  cases he : storage.entries row with
  | none => rfl
  | some entry =>
    cases hd : entry.dirty with
    | true => simp [hd]
    | false => simpa [hd] using h row entry he hd

def Clean (c : TransactionExecutor be) : (StateRow → Option Entry) → List BlockState → Prop
  | _, [] => True
  | below, state :: states => CleanOver (c.storages state.storage) below ∧
    c.Clean (overlay (c.storages state.storage).dirtyEntries below) states

/-- What the storages and the cache hold of the state below is what is there. -/
structure Faithful (c : TransactionExecutor be) : Prop where
  cached : ∀ row entry, c.cachedStorage.bind (· row) = some entry →
    entry.value = be.getRow c.backendStorage row
  clean : c.Clean (be.getRow c.backendStorage) c.stateStorages

theorem Faithful.getRow_base (h : c.Faithful) : c.getRow c.base = be.getRow c.backendStorage := by
  unfold base getRow
  split
  next =>
    funext row
    rw [getRowThrough_cached]
    cases hc : c.cachedStorage.bind (· row) with
    | none => rfl
    | some entry => exact h.cached row entry hc
  next => exact getRowThrough_backend c _

/-- The committed state with the writes of the blocks that are not committed. -/
def stack (c : TransactionExecutor be) : Stack StateRow (Option Entry) where
  base := be.getRow c.backendStorage
  layers := c.stateStorages.map fun state => (c.storages state.storage).dirtyEntries

theorem getRow_of_cleanOver (ho : c.Ordered) {id : Nat} (hid : id < c.created) {prev : Prev}
    {below : StateRow → Option Entry} (hl : (c.storages id).prev = prev)
    (hprev : c.getRow prev = below) (hc : CleanOver (c.storages id) below) :
    c.getRow (.storage id) = overlay (c.storages id).dirtyEntries below := by
  rw [getRow_storage ho hid, hl, hprev, overlay_held hc]

theorem map_getRow (ho : c.Ordered) {prev : Prev} {below : StateRow → Option Entry}
    {states : List BlockState} (hknown : ∀ state ∈ states, state.storage < c.created)
    (hl : c.Linked prev states) (hprev : c.getRow prev = below) (hc : c.Clean below states) :
    states.map (fun state => c.getRow (.storage state.storage)) =
      Stack.readings below (states.map fun state => (c.storages state.storage).dirtyEntries) := by
  induction states generalizing prev below with
  | nil => rfl
  | cons state states ih =>
    have hread := getRow_of_cleanOver ho (hknown state List.mem_cons_self) hl.1 hprev hc.1
    rw [List.map_cons, List.map_cons, Stack.readings, hread,
      ih (fun s hs => hknown s (List.mem_cons_of_mem _ hs)) hl.2 hread hc.2]

/-- The storages of the blocks are read as the views of the stack. -/
theorem getRow_views (hc : c.Chained) (ho : c.Ordered) (h : c.Faithful) :
    c.stateStorages.map (fun state => c.getRow (.storage state.storage)) = c.stack.views :=
  map_getRow ho ho.known hc.linked h.getRow_base h.clean

theorem clean_congr {below : StateRow → Option Entry} {states : List BlockState}
    (h : ∀ state ∈ states,
      (c'.storages state.storage).entries = (c.storages state.storage).entries)
    (hc : c.Clean below states) : c'.Clean below states := by
  induction states generalizing below with
  | nil => trivial
  | cons state states ih =>
    have hentries := h state List.mem_cons_self
    have hdirty : (c'.storages state.storage).dirtyEntries =
        (c.storages state.storage).dirtyEntries := by
      unfold BlockStorage.dirtyEntries
      rw [hentries]
    refine ⟨fun row entry he => hc.1 row entry (hentries ▸ he), ?_⟩
    rw [hdirty]
    exact ih (fun s hs => h s (List.mem_cons_of_mem _ hs)) hc.2

theorem clean_append {below : StateRow → Option Entry} {states : List BlockState}
    {next : BlockState} (hc : c.Clean below states)
    (hn : (c.storages next.storage).entries = fun _ => none) : c.Clean below (states ++ [next]) := by
  induction states generalizing below with
  | nil =>
    refine ⟨fun row entry he => ?_, trivial⟩
    rw [hn] at he
    cases he
  | cons state states ih => exact ⟨hc.1, ih hc.2⟩

theorem faithful_nextBlockHeader (hs : ∀ state ∈ c.stateStorages, state.storage < c.created)
    (h : c.Faithful) (number : Int) : (c.nextBlockHeader number).2.Faithful := by
  have hpush {c : TransactionExecutor be} {prev : Prev} {last : Option Nat} (h : c.Faithful)
      (hs : ∀ state ∈ c.stateStorages, state.storage < c.created) :
      (c.pushStorage number prev last).Faithful := by
    refine ⟨h.cached, clean_append (clean_congr (fun state hmem => ?_) h.clean) ?_⟩
    · rw [pushStorage_of_lt (hs state hmem)]
    · exact congrArg BlockStorage.entries (pushStorage_self ..)
  rcases c.nextBlockHeader_cases number with ⟨error, heq⟩ | ⟨_, heq⟩ | ⟨states, prev, _, _, heq⟩
  · rw [heq]
    exact h
  · rw [heq]
    exact hpush h hs
  · rw [heq]
    refine hpush ⟨h.cached, clean_congr (fun state _ => ?_) h.clean⟩ hs
    exact (sameLinks_setReadOnly ..).2

theorem faithful_backend (h : c.Faithful) {s : be.State}
    (hs : be.getRow s = be.getRow c.backendStorage) :
    ({ c with backendStorage := s } : TransactionExecutor be).Faithful where
  cached row entry he := (h.cached row entry he).trans (congrFun hs row).symm
  clean := by
    show Clean _ (be.getRow s) c.stateStorages
    rw [hs]
    exact clean_congr (c := c) (fun _ _ => rfl) h.clean

/-- Only the last storage can be written, so nothing stands on what is written. -/
theorem clean_write {id : Nat} {row : StateRow} {entry : Option HeldEntry}
    (hfree : (c.storages id).readOnly = false) (hentry : ∀ e ∈ entry, e.dirty = true)
    {below : StateRow → Option Entry} {states : List BlockState}
    (hro : ∀ state ∈ states.dropLast, (c.storages state.storage).readOnly = true)
    (hc : c.Clean below states) :
    (c.modifyStorage id fun storage =>
      { storage with entries := Function.update storage.entries row entry }).Clean below states := by
  induction states generalizing below with
  | nil => trivial
  | cons state states ih =>
    by_cases hid : state.storage = id
    · cases states with
      | nil =>
        refine ⟨fun row' e he hd => ?_, trivial⟩
        rw [hid, modifyStorage_self] at he
        by_cases hr : row' = row
        · subst hr
          replace he : Function.update (c.storages id).entries row' entry row' = some e := he
          rw [Function.update_self] at he
          have hdirty := hentry e he
          rw [hd] at hdirty
          cases hdirty
        · replace he : Function.update (c.storages id).entries row entry row' = some e := he
          rw [Function.update_of_ne hr] at he
          exact hc.1 row' e (hid ▸ he) hd
      | cons next states =>
        have hread := hro state (by rw [List.dropLast_cons_cons]; exact List.mem_cons_self)
        rw [hid, hfree] at hread
        cases hread
    · refine ⟨?_, ?_⟩
      · rw [modifyStorage_of_ne hid]
        exact hc.1
      · rw [modifyStorage_of_ne hid]
        refine ih (fun s hs => hro s ?_) hc.2
        cases states with
        | nil => cases hs
        | cons next states => exact List.mem_cons_of_mem _ hs

theorem faithful_setEntry (hc : c.Chained) (h : c.Faithful) {id : Nat} {row : StateRow}
    {entry : Option HeldEntry} (hentry : ∀ e ∈ entry, e.dirty = true) :
    (c.setEntry id row entry).Faithful := by
  unfold setEntry
  split
  next hid => exact ⟨h.cached, clean_write hid.2 hentry hc.readOnly h.clean⟩
  next => exact h

theorem dirtyEntries_load {storage : BlockStorage} {row : StateRow} {value : Option Entry}
    (hnone : storage.entries row = none) :
    BlockStorage.dirtyEntries
        { storage with entries := Function.update storage.entries row (some ⟨value, false⟩) } =
      storage.dirtyEntries := by
  funext row'
  unfold BlockStorage.dirtyEntries
  by_cases hr : row' = row
  · subst hr
    simp [hnone]
  · simp [Function.update_of_ne hr]

theorem clean_load (ho : c.Ordered) {id : Nat} {row : StateRow} {value : Entry}
    (hnone : (c.storages id).entries row = none)
    (hvalue : c.getRow (c.storages id).prev row = some value) {prev : Prev}
    {below : StateRow → Option Entry} {states : List BlockState}
    (hknown : ∀ state ∈ states, state.storage < c.created) (hl : c.Linked prev states)
    (hprev : c.getRow prev = below) (hc : c.Clean below states) :
    (c.modifyStorage id fun storage =>
      { storage with entries :=
          Function.update storage.entries row (some ⟨some value, false⟩) }).Clean below states := by
  induction states generalizing prev below with
  | nil => trivial
  | cons state states ih =>
    have hread := getRow_of_cleanOver ho (hknown state List.mem_cons_self) hl.1 hprev hc.1
    have hrest := ih (fun s hs => hknown s (List.mem_cons_of_mem _ hs)) hl.2 hread hc.2
    by_cases hid : state.storage = id
    · subst hid
      rw [Clean, modifyStorage_self, dirtyEntries_load hnone]
      refine ⟨fun row' e he hd => ?_, hrest⟩
      by_cases hr : row' = row
      · subst hr
        replace he : Function.update (c.storages state.storage).entries row'
          (some ⟨some value, false⟩) row' = some e := he
        rw [Function.update_self] at he
        cases he
        rw [← hprev, ← hl.1, hvalue]
      · replace he : Function.update (c.storages state.storage).entries row
          (some ⟨some value, false⟩) row' = some e := he
        rw [Function.update_of_ne hr] at he
        exact hc.1 row' e he hd
    · rw [Clean, modifyStorage_of_ne hid]
      exact ⟨hc.1, hrest⟩

theorem faithful_loadEntry (hc : c.Chained) (ho : c.Ordered) (h : c.Faithful) (id : Nat)
    (row : StateRow) : (c.loadEntry id row).Faithful := by
  unfold loadEntry
  split
  next value hnone hvalue =>
    unfold setEntry
    split
    next => exact ⟨h.cached, clean_load ho hnone hvalue ho.known hc.linked h.getRow_base h.clean⟩
    next => exact h
  next => exact h

theorem faithful_setCached (h : c.Faithful) {row : StateRow} {entry : Option HeldEntry}
    (hentry : ∀ e ∈ entry, e.value = be.getRow c.backendStorage row) :
    (c.setCached row entry).Faithful := by
  refine ⟨fun row' e he => ?_, clean_congr (c := c) (fun _ _ => rfl) h.clean⟩
  cases hcache : c.cachedStorage with
  | none =>
    simp only [setCached, hcache, Option.map_none, Option.bind_none] at he
    cases he
  | some cache =>
    simp only [setCached, hcache, Option.map_some, Option.bind_some] at he
    by_cases hr : row' = row
    · subst hr
      rw [Function.update_self] at he
      exact hentry e he
    · rw [Function.update_of_ne hr] at he
      exact h.cached row' e (by rw [hcache]; exact he)

theorem faithful_loadCached (h : c.Faithful) (row : StateRow) : (c.loadCached row).Faithful := by
  unfold loadCached
  split
  next value _ hvalue =>
    refine faithful_setCached h fun e he => ?_
    cases he
    exact hvalue.symm
  next => exact h

end TransactionExecutor

end BcosExecutor
