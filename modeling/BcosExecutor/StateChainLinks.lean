import BcosExecutor.StateChain
import Mathlib.Data.List.Chain

namespace BcosExecutor

namespace TransactionExecutor

variable {be : TransactionalStorage} {c c' : TransactionExecutor be}

/-- The storages of the blocks were made one after the other, and each way down leads to
storages that were made earlier. -/
structure Ordered (c : TransactionExecutor be) : Prop where
  below : ∀ id j, (c.storages id).prev = .storage j → j < id
  known : ∀ state ∈ c.stateStorages, state.storage < c.created
  sorted : c.stateStorages.Pairwise fun state next => state.storage < next.storage

/-- The two executors have the same blocks and the same storages, up to what these hold. -/
structure SameChain (c c' : TransactionExecutor be) : Prop where
  prev : ∀ id, (c'.storages id).prev = (c.storages id).prev
  readOnly : ∀ id, (c'.storages id).readOnly = (c.storages id).readOnly
  states : c'.stateStorages = c.stateStorages
  created : c'.created = c.created
  base : c'.base = c.base

theorem linked_congr {states : List BlockState}
    (h : ∀ state ∈ states, (c'.storages state.storage).prev = (c.storages state.storage).prev)
    {prev : Prev} (hl : c.Linked prev states) : c'.Linked prev states := by
  induction states generalizing prev with
  | nil => trivial
  | cons state states ih =>
    exact ⟨(h state List.mem_cons_self).trans hl.1,
      ih (fun s hs => h s (List.mem_cons_of_mem _ hs)) hl.2⟩

theorem linked_append {states : List BlockState} {last next : BlockState} {prev : Prev}
    (hl : c.Linked prev (states ++ [last]))
    (hn : (c.storages next.storage).prev = .storage last.storage) :
    c.Linked prev (states ++ [last] ++ [next]) := by
  induction states generalizing prev with
  | nil => exact ⟨hl.1, hn, trivial⟩
  | cons state states ih => exact ⟨hl.1, ih hl.2⟩

theorem SameChain.chained (h : SameChain c c') (hc : c.Chained) : c'.Chained where
  numbers := h.states ▸ hc.numbers
  linked := by
    rw [h.states, h.base]
    exact linked_congr (fun state _ => h.prev state.storage) hc.linked
  readOnly state hs := by
    rw [h.states] at hs
    exact (h.readOnly _).trans (hc.readOnly state hs)

theorem SameChain.ordered (h : SameChain c c') (hc : c.Ordered) : c'.Ordered where
  below id j hj := hc.below id j ((h.prev id).symm.trans hj)
  known state hs := by
    rw [h.states] at hs
    exact h.created ▸ hc.known state hs
  sorted := h.states ▸ hc.sorted

theorem sameChain_backend (s : be.State) : SameChain c { c with backendStorage := s } :=
  ⟨fun _ => rfl, fun _ => rfl, rfl, rfl, rfl⟩

theorem sameChain_setEntry (id : Nat) (row : StateRow) (entry : Option HeldEntry) :
    SameChain c (c.setEntry id row entry) := by
  unfold setEntry
  split
  next =>
    refine ⟨fun j => ?_, fun j => ?_, rfl, rfl, rfl⟩
    all_goals
      by_cases hj : j = id
      · subst hj
        simp [modifyStorage]
      · simp [modifyStorage, Function.update_of_ne hj]
  next => exact ⟨fun _ => rfl, fun _ => rfl, rfl, rfl, rfl⟩

theorem sameChain_loadEntry (id : Nat) (row : StateRow) : SameChain c (c.loadEntry id row) := by
  unfold loadEntry
  split
  · exact sameChain_setEntry id row _
  · exact ⟨fun _ => rfl, fun _ => rfl, rfl, rfl, rfl⟩

theorem sameChain_setCached (row : StateRow) (entry : Option HeldEntry) :
    SameChain c (c.setCached row entry) := by
  refine ⟨fun _ => rfl, fun _ => rfl, rfl, rfl, ?_⟩
  simp [base, setCached]

theorem sameChain_loadCached (row : StateRow) : SameChain c (c.loadCached row) := by
  unfold loadCached
  split
  · exact sameChain_setCached row _
  · exact ⟨fun _ => rfl, fun _ => rfl, rfl, rfl, rfl⟩

theorem modifyStorage_of_ne {id j : Nat} (hj : j ≠ id) (f : BlockStorage → BlockStorage) :
    (c.modifyStorage id f).storages j = c.storages j :=
  Function.update_of_ne hj ..

theorem modifyStorage_self (id : Nat) (f : BlockStorage → BlockStorage) :
    (c.modifyStorage id f).storages id = f (c.storages id) :=
  Function.update_self ..

theorem pushStorage_of_lt {number : Int} {prev : Prev} {last : Option Nat} {id : Nat}
    (hid : id < c.created) : (c.pushStorage number prev last).storages id = c.storages id :=
  Function.update_of_ne (Nat.ne_of_lt hid) ..

theorem pushStorage_self (number : Int) (prev : Prev) (last : Option Nat) :
    (c.pushStorage number prev last).storages c.created = ⟨fun _ => none, prev, false⟩ :=
  Function.update_self ..

theorem ordered_pushStorage (hc : c.Ordered) {prev : Prev}
    (hprev : ∀ j, prev = .storage j → j < c.created) (number : Int) (last : Option Nat) :
    (c.pushStorage number prev last).Ordered := by
  refine ⟨fun id j hj => ?_, fun state hs => ?_, ?_⟩
  · by_cases hid : id = c.created
    · subst hid
      rw [pushStorage_self] at hj
      exact hprev j hj
    · have hsame : (c.pushStorage number prev last).storages id = c.storages id :=
        Function.update_of_ne hid ..
      rw [hsame] at hj
      exact hc.below id j hj
  · show state.storage < c.created + 1
    rcases List.mem_append.mp hs with hs | hs
    · have := hc.known state hs
      omega
    · cases List.mem_singleton.mp hs
      exact Nat.lt_succ_self _
  · refine List.pairwise_append.mpr ⟨hc.sorted, List.pairwise_singleton _ _, fun state hs next hn => ?_⟩
    cases List.mem_singleton.mp hn
    exact hc.known state hs

theorem sameLinks_setReadOnly (id j : Nat) (readOnly : Bool) :
    ((c.setReadOnly id readOnly).storages j).prev = (c.storages j).prev ∧
      ((c.setReadOnly id readOnly).storages j).entries = (c.storages j).entries := by
  by_cases hj : j = id
  · subst hj
    rw [setReadOnly, modifyStorage_self]
    exact ⟨rfl, rfl⟩
  · rw [setReadOnly, modifyStorage_of_ne hj]
    exact ⟨rfl, rfl⟩

theorem ordered_setReadOnly (hc : c.Ordered) (id : Nat) (readOnly : Bool) :
    (c.setReadOnly id readOnly).Ordered where
  below i j hj := hc.below i j ((sameLinks_setReadOnly id i readOnly).1.symm.trans hj)
  known := hc.known
  sorted := hc.sorted

theorem nextBlockHeader_cases (number : Int) :
    (∃ error, c.nextBlockHeader number = (some error, c)) ∨
      (c.stateStorages = [] ∧
        c.nextBlockHeader number = (none, c.pushStorage number c.base c.lastStateStorage)) ∨
      ∃ states prev, c.stateStorages = states ++ [prev] ∧ number = prev.number + 1 ∧
        c.nextBlockHeader number = (none, (c.setReadOnly prev.storage true).pushStorage number
          (.storage prev.storage) (some prev.storage)) := by
  unfold nextBlockHeader
  cases hlast : c.stateStorages.getLast? with
  | none => exact .inr (.inl ⟨List.getLast?_eq_none_iff.mp hlast, rfl⟩)
  | some prev =>
    obtain ⟨states, hstates⟩ := List.getLast?_eq_some_iff.mp hlast
    dsimp only
    split
    next => exact .inl ⟨_, rfl⟩
    next hnumber => exact .inr (.inr ⟨states, prev, hstates, by omega, rfl⟩)

theorem base_ne_storage (j : Nat) : c.base ≠ .storage j := by
  unfold base
  split <;> exact nofun

theorem ordered_nextBlockHeader (hc : c.Ordered) (number : Int) :
    (c.nextBlockHeader number).2.Ordered := by
  rcases c.nextBlockHeader_cases number with ⟨error, h⟩ | ⟨_, h⟩ | ⟨states, prev, hs, _, h⟩
  · rw [h]
    exact hc
  · rw [h]
    exact ordered_pushStorage hc (fun j hj => absurd hj (base_ne_storage j)) _ _
  · rw [h]
    refine ordered_pushStorage (ordered_setReadOnly hc _ _) (fun j hj => ?_) _ _
    cases hj
    exact hc.known prev (hs ▸ List.mem_append_right _ (List.mem_singleton_self prev))

theorem chained_nextBlockHeader (hc : c.Chained) (ho : c.Ordered) (number : Int) :
    (c.nextBlockHeader number).2.Chained := by
  rcases c.nextBlockHeader_cases number with ⟨error, h⟩ | ⟨hs, h⟩ | ⟨states, prev, hs, hn, h⟩
  · rw [h]
    exact hc
  · rw [h]
    have hstates : (c.pushStorage number c.base c.lastStateStorage).stateStorages =
        [⟨number, c.created⟩] := by
      rw [pushStorage, hs]
      rfl
    refine ⟨?_, ?_, ?_⟩
    · rw [hstates]
      exact .singleton _
    · rw [hstates]
      exact ⟨congrArg BlockStorage.prev (pushStorage_self ..), trivial⟩
    · rw [hstates]
      exact fun _ hmem => nomatch hmem
  · rw [h]
    have hknown := ho.known
    rw [hs] at hknown
    have hsame {state : BlockState} (hmem : state ∈ states ++ [prev]) :
        ((c.setReadOnly prev.storage true).pushStorage number (.storage prev.storage)
          (some prev.storage)).storages state.storage =
        (c.setReadOnly prev.storage true).storages state.storage :=
      pushStorage_of_lt (hknown state hmem)
    have hstates : ((c.setReadOnly prev.storage true).pushStorage number (.storage prev.storage)
        (some prev.storage)).stateStorages = states ++ [prev] ++ [⟨number, c.created⟩] :=
      congrArg (· ++ _) hs
    refine ⟨?_, ?_, fun state hmem => ?_⟩
    · rw [hstates]
      refine List.isChain_append.mpr ⟨hs ▸ hc.numbers, List.IsChain.singleton _, ?_⟩
      simpa using hn
    · rw [hstates]
      refine linked_append (linked_congr (fun state hmem => ?_) (hs ▸ hc.linked)) ?_
      · rw [hsame hmem]
        exact (sameLinks_setReadOnly ..).1
      · exact congrArg BlockStorage.prev (pushStorage_self ..)
    · rw [hstates, List.dropLast_concat] at hmem
      rw [hsame hmem]
      by_cases heq : state.storage = prev.storage
      · rw [heq, setReadOnly, modifyStorage_self]
      · rw [setReadOnly, modifyStorage_of_ne heq]
        refine hc.readOnly state ?_
        rw [hs, List.dropLast_concat]
        rcases List.mem_append.mp hmem with hmem | hmem
        · exact hmem
        · exact absurd (congrArg BlockState.storage (List.mem_singleton.mp hmem)) heq

/-- All that the removal of the first block changes. -/
structure Removed (c c' : TransactionExecutor be) (first : BlockState) (rest : List BlockState) :
    Prop where
  states : c'.stateStorages = rest
  created : c'.created = c.created
  backend : c'.backendStorage = c.backendStorage
  cached : c'.cachedStorage =
    c.cachedStorage.map fun cache => merge cache (c.storages first.storage).dirtyEntries
  entries : ∀ id, (c'.storages id).entries = (c.storages id).entries
  readOnly : ∀ id, (c'.storages id).readOnly = (c.storages id).readOnly
  head : ∀ it ∈ rest.head?, (c'.storages it.storage).prev = c.base
  prev : ∀ id, (∀ it ∈ rest.head?, id ≠ it.storage) →
    (c'.storages id).prev = (c.storages id).prev

theorem removeCommittedState_spec {first : BlockState} {rest : List BlockState}
    (h : c.stateStorages = first :: rest) : Removed c c.removeCommittedState first rest := by
  unfold removeCommittedState
  rw [h]
  cases rest with
  | nil => exact ⟨rfl, rfl, rfl, rfl, fun _ => rfl, fun _ => rfl, nofun, fun _ _ => rfl⟩
  | cons it rest =>
    dsimp only
    refine ⟨rfl, rfl, rfl, rfl, fun id => ?_, fun id => ?_, fun it' hit => ?_, fun id hid => ?_⟩
    · by_cases hid : id = it.storage
      · subst hid
        rw [setPrev, modifyStorage_self]
      · rw [setPrev, modifyStorage_of_ne hid]
    · by_cases hid : id = it.storage
      · subst hid
        rw [setPrev, modifyStorage_self]
      · rw [setPrev, modifyStorage_of_ne hid]
    · cases hit
      rw [setPrev, modifyStorage_self]
      simp [base]
    · rw [setPrev, modifyStorage_of_ne (hid it rfl)]

theorem Removed.base {first : BlockState} {rest : List BlockState}
    (h : Removed c c' first rest) : c'.base = c.base := by
  unfold TransactionExecutor.base
  rw [h.cached]
  cases c.cachedStorage <;> rfl

theorem Removed.chained {first : BlockState} {rest : List BlockState}
    (h : Removed c c' first rest) (hs : c.stateStorages = first :: rest) (hc : c.Chained)
    (ho : c.Ordered) : c'.Chained := by
  obtain ⟨hnumbers, hlinked, hreadOnly⟩ := hc
  have hsorted := ho.sorted
  rw [hs] at hnumbers hlinked hreadOnly hsorted
  refine ⟨?_, ?_, fun state hmem => ?_⟩
  · rw [h.states]
    exact hnumbers.tail
  · rw [h.states, h.base]
    cases rest with
    | nil => trivial
    | cons it rest =>
      refine ⟨h.head it rfl, linked_congr (fun state hmem => h.prev _ fun it' hit heq => ?_)
        hlinked.2.2⟩
      cases hit
      have hlt := (List.pairwise_cons.mp (List.pairwise_cons.mp hsorted).2).1 state hmem
      omega
  · rw [h.states] at hmem
    rw [h.readOnly]
    refine hreadOnly state ?_
    cases rest with
    | nil => cases hmem
    | cons it rest => exact List.mem_cons_of_mem first hmem

theorem Removed.ordered {first : BlockState} {rest : List BlockState}
    (h : Removed c c' first rest) (hs : c.stateStorages = first :: rest) (ho : c.Ordered) :
    c'.Ordered := by
  obtain ⟨hbelow, hknown, hsorted⟩ := ho
  rw [hs] at hknown hsorted
  refine ⟨fun id j hj => ?_, fun state hmem => ?_, ?_⟩
  · by_cases hid : ∀ it ∈ rest.head?, id ≠ it.storage
    · exact hbelow id j ((h.prev id hid).symm.trans hj)
    · push Not at hid
      obtain ⟨it, hit, rfl⟩ := hid
      rw [h.head it hit] at hj
      exact absurd hj (base_ne_storage j)
  · rw [h.states] at hmem
    exact h.created ▸ hknown state (List.mem_cons_of_mem _ hmem)
  · rw [h.states]
    exact (List.pairwise_cons.mp hsorted).2

theorem firstStorage_ok {request : String} {emptyCode otherCode number : Int} {first : BlockState}
    (h : c.firstStorage request emptyCode otherCode number = .ok first) :
    first.number = number ∧ ∃ rest, c.stateStorages = first :: rest := by
  unfold firstStorage at h
  split at h
  next => cases h
  next first' rest hs =>
    split at h
    next => cases h
    next hn =>
      cases h
      exact ⟨not_not.mp hn, rest, hs⟩

/-- A commit that fails leaves all but the backend as it was, and one that succeeds has changed
the backend and removed the first block. -/
theorem commit_cases (c : TransactionExecutor be) (number : Int) :
    (∃ error, c.commit number = (some error, c)) ∨
      (∃ error, (be.asyncCommit c.backendStorage number).1 ≠ none ∧ c.commit number =
        (some error, { c with backendStorage := (be.asyncCommit c.backendStorage number).2 })) ∨
      ∃ first rest, c.stateStorages = first :: rest ∧ first.number = number ∧
        (be.asyncCommit c.backendStorage number).1 = none ∧
        c.commit number = (none, removeCommittedState
          { c with
            backendStorage := (be.asyncCommit c.backendStorage number).2
            lastCommittedBlockNumber := number }) := by
  unfold commit
  split
  next error _ => exact .inl ⟨error, rfl⟩
  next first hfirst =>
    obtain ⟨hnumber, rest, hs⟩ := firstStorage_ok hfirst
    split
    next error s hc =>
      rw [hc]
      exact .inr (.inl ⟨_, nofun, rfl⟩)
    next s hc =>
      rw [hc]
      exact .inr (.inr ⟨first, rest, hs, hnumber, rfl, rfl⟩)

theorem sameChain_prepare (number : Int) : SameChain c (c.prepare number).2 := by
  unfold prepare
  split
  · exact sameChain_backend c.backendStorage
  · exact sameChain_backend _

theorem sameChain_rollback (number : Int) : SameChain c (c.rollback number).2 := by
  unfold rollback
  split
  · exact sameChain_backend c.backendStorage
  · exact sameChain_backend _

/-- What a commit that the backend has carried out leaves is chained and ordered as before. -/
theorem wired_committed (hc : c.Chained) (ho : c.Ordered) (s : be.State) (number : Int) :
    (removeCommittedState
        { c with backendStorage := s, lastCommittedBlockNumber := number }).Chained ∧
      (removeCommittedState
        { c with backendStorage := s, lastCommittedBlockNumber := number }).Ordered := by
  have hsame : SameChain c { c with backendStorage := s, lastCommittedBlockNumber := number } :=
    ⟨fun _ => rfl, fun _ => rfl, rfl, rfl, rfl⟩
  have hc' := hsame.chained hc
  have ho' := hsame.ordered ho
  generalize { c with backendStorage := s, lastCommittedBlockNumber := number } = c' at hc' ho' ⊢
  cases hs : c'.stateStorages with
  | nil =>
    simp only [removeCommittedState, hs]
    exact ⟨hc', ho'⟩
  | cons first rest =>
    have hremoved := removeCommittedState_spec hs
    exact ⟨hremoved.chained hs hc' ho', hremoved.ordered hs ho'⟩

theorem wired_commit (hc : c.Chained) (ho : c.Ordered) (number : Int) :
    (c.commit number).2.Chained ∧ (c.commit number).2.Ordered := by
  rcases c.commit_cases number with ⟨error, h⟩ | ⟨error, _, h⟩ | ⟨_, _, _, _, _, h⟩
  · rw [h]
    exact ⟨hc, ho⟩
  · rw [h]
    exact ⟨(sameChain_backend _).chained hc, (sameChain_backend _).ordered ho⟩
  · rw [h]
    exact wired_committed hc ho _ number

theorem wired_step (hc : c.Chained) (ho : c.Ordered) (action : Action) :
    (c.step action).2.Chained ∧ (c.step action).2.Ordered := by
  have hsame {c' : TransactionExecutor be} (h : SameChain c c') : c'.Chained ∧ c'.Ordered :=
    ⟨h.chained hc, h.ordered ho⟩
  cases action with
  | nextBlockHeader number =>
    exact ⟨chained_nextBlockHeader hc ho number, ordered_nextBlockHeader ho number⟩
  | prepare number => exact hsame (sameChain_prepare number)
  | commit number => exact wired_commit hc ho number
  | rollback number => exact hsame (sameChain_rollback number)
  | reset => exact ⟨⟨.nil, trivial, nofun⟩, ⟨ho.below, nofun, .nil⟩⟩
  | write id row entry => exact hsame (sameChain_setEntry id row _)
  | undo id row => exact hsame (sameChain_setEntry id row _)
  | load id row => exact hsame (sameChain_loadEntry id row)
  | loadCached row => exact hsame (sameChain_loadCached row)
  | purge row => exact hsame (sameChain_setCached row none)

theorem wired_init (cached : Bool) (s : be.State) :
    (init cached s).Chained ∧ (init cached s).Ordered :=
  ⟨⟨.nil, trivial, nofun⟩, ⟨fun _ _ h => (nomatch h), nofun, .nil⟩⟩

theorem wired_run (hc : c.Chained) (ho : c.Ordered) (actions : List Action) :
    (c.run actions).Chained ∧ (c.run actions).Ordered := by
  induction actions generalizing c with
  | nil => exact ⟨hc, ho⟩
  | cons action actions ih =>
    obtain ⟨hc', ho'⟩ := wired_step hc ho action
    exact ih hc' ho'

end TransactionExecutor

end BcosExecutor
