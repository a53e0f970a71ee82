import BcosExecutor.Runs
import BcosExecutor.StateChainCommits

namespace BcosExecutor

open Runs (Always)

/-- A block that was committed, and the blocks that stood after it in the list then. -/
structure Committed where
  block : BlockState
  following : List BlockState
  deriving DecidableEq, Repr

namespace TransactionExecutor

variable {be : TransactionalStorage} {c c' : TransactionExecutor be}

def committedBy (c : TransactionExecutor be) (action : Action) : List Committed :=
  match action, (c.step action).1, c.stateStorages with
  | .commit _, none, first :: rest => [⟨first, rest⟩]
  | _, _, _ => []

def discardedBy (c : TransactionExecutor be) (action : Action) : List BlockState :=
  if action = .reset then c.stateStorages else []

/-- What a step can do to the blocks and to the storage that is kept from the last commit. -/
inductive Change (c c' : TransactionExecutor be) : List Committed → List BlockState → Prop
  | kept (states : c'.stateStorages = c.stateStorages)
      (last : c'.lastStateStorage = c.lastStateStorage) (created : c'.created = c.created) :
      Change c c' [] []
  | pushed (number : Int) (states : c'.stateStorages = c.stateStorages ++ [⟨number, c.created⟩])
      (last : c'.lastStateStorage = c.lastStateStorage) (created : c'.created = c.created + 1) :
      Change c c' [] []
  | removed (first : BlockState) (rest : List BlockState) (was : c.stateStorages = first :: rest)
      (states : c'.stateStorages = rest)
      (last : c'.lastStateStorage = some (rest.getLastD first).storage)
      (created : c'.created = c.created) : Change c c' [⟨first, rest⟩] []
  | dropped (states : c'.stateStorages = []) (last : c'.lastStateStorage = c.lastStateStorage)
      (created : c'.created = c.created) : Change c c' [] c.stateStorages

theorem change_setEntry (id : Nat) (row : StateRow) (entry : Option HeldEntry) :
    Change c (c.setEntry id row entry) [] [] := by
  unfold setEntry
  split <;> exact .kept rfl rfl rfl

theorem lastStateStorage_removeCommittedState {first : BlockState} {rest : List BlockState}
    (hs : c.stateStorages = first :: rest) :
    c.removeCommittedState.lastStateStorage = some (rest.getLastD first).storage := by
  unfold removeCommittedState
  rw [hs]
  cases rest <;> rfl

theorem change_nextBlockHeader (number : Int) :
    Change c (c.nextBlockHeader number).2 [] [] := by
  rcases c.nextBlockHeader_cases number with ⟨_, heq⟩ | ⟨_, heq⟩ | ⟨_, _, _, _, heq⟩
  · rw [heq]
    exact .kept rfl rfl rfl
  · rw [heq]
    exact .pushed number rfl rfl rfl
  · rw [heq]
    exact .pushed number rfl rfl rfl

theorem change_commit (number : Int) :
    Change c (c.commit number).2 (c.committedBy (.commit number)) [] := by
  have hby : c.committedBy (.commit number) =
      if (c.commit number).1 = none then
        c.stateStorages.head?.toList.map fun first => ⟨first, c.stateStorages.tail⟩ else [] := by
    unfold committedBy
    simp only [step]
    cases (c.commit number).1 <;> cases c.stateStorages <;> rfl
  rcases c.commit_cases number with ⟨error, heq⟩ | ⟨error, _, heq⟩ |
    ⟨first, rest, hs, _, _, heq⟩
  · rw [hby, heq]
    exact .kept rfl rfl rfl
  · rw [hby, heq]
    exact .kept rfl rfl rfl
  · have hone : c.committedBy (.commit number) = [⟨first, rest⟩] := by
      rw [hby, heq, hs]
      rfl
    rw [hone, heq]
    have hremoved := removeCommittedState_spec (c := { c with
      backendStorage := (be.asyncCommit c.backendStorage number).2
      lastCommittedBlockNumber := number }) hs
    refine .removed first rest hs hremoved.states ?_ hremoved.created
    exact lastStateStorage_removeCommittedState hs

theorem change_step (c : TransactionExecutor be) (action : Action) :
    Change c (c.step action).2 (c.committedBy action) (c.discardedBy action) := by
  cases action with
  | nextBlockHeader number => exact change_nextBlockHeader number
  | prepare number =>
    show Change c (c.prepare number).2 [] []
    unfold prepare
    split <;> exact .kept rfl rfl rfl
  | commit number => exact change_commit number
  | rollback number =>
    show Change c (c.rollback number).2 [] []
    unfold rollback
    split <;> exact .kept rfl rfl rfl
  | reset => exact .dropped rfl rfl rfl
  | write id row entry => exact change_setEntry id row _
  | undo id row => exact change_setEntry id row _
  | load id row =>
    show Change c (c.loadEntry id row) [] []
    unfold loadEntry
    split
    · exact change_setEntry id row _
    · exact .kept rfl rfl rfl
  | loadCached row =>
    show Change c (c.loadCached row) [] []
    unfold loadCached
    split <;> exact .kept rfl rfl rfl
  | purge row => exact .kept rfl rfl rfl

end TransactionExecutor

/-- The executor with what became of its blocks: the commits, the latest first, and the blocks
that a reset has dropped. -/
structure Record (be : TransactionalStorage) where
  executor : TransactionExecutor be
  commits : List Committed
  discarded : List BlockState

namespace Record

variable {be : TransactionalStorage} {r : Record be}

def init (cached : Bool) (s : be.State) : Record be :=
  ⟨.init cached s, [], []⟩

def step (r : Record be) (action : TransactionExecutor.Action) : Record be where
  executor := (r.executor.step action).2
  commits := r.executor.committedBy action ++ r.commits
  discarded := r.executor.discardedBy action ++ r.discarded

/-- The storages are numbered in the order of the blocks: the committed ones before those of the
list, each dropped one apart from both, and the one that is kept is the last of the list that
the latest commit has found. -/
structure Sound (r : Record be) : Prop where
  known : ∀ commit ∈ r.commits, commit.block.storage < r.executor.created
  below : ∀ commit ∈ r.commits, ∀ state ∈ r.executor.stateStorages,
    commit.block.storage < state.storage
  sorted : r.commits.Pairwise fun later earlier => earlier.block.storage < later.block.storage
  following : ∀ latest ∈ r.commits.head?, ∀ state ∈ latest.following,
    ∀ commit ∈ r.commits, commit.block.storage < state.storage
  last : r.executor.lastStateStorage =
    r.commits.head?.map fun latest => (latest.following.getLastD latest.block).storage
  dropped : ∀ state ∈ r.discarded, state.storage < r.executor.created ∧
    (∀ commit ∈ r.commits, state.storage ≠ commit.block.storage) ∧
    ∀ state' ∈ r.executor.stateStorages, state.storage < state'.storage

theorem sound_init (cached : Bool) (s : be.State) : (init cached s).Sound :=
  ⟨nofun, nofun, .nil, nofun, rfl, nofun⟩

theorem sound_pushed {c' : TransactionExecutor be} {number : Int} (h : r.Sound)
    (hs : c'.stateStorages = r.executor.stateStorages ++ [⟨number, r.executor.created⟩])
    (hlast : c'.lastStateStorage = r.executor.lastStateStorage)
    (hcreated : c'.created = r.executor.created + 1) : ({ r with executor := c' }).Sound := by
  have hmem {state : BlockState} (h : state ∈ c'.stateStorages) :
      state ∈ r.executor.stateStorages ∨ state = ⟨number, r.executor.created⟩ := by
    rw [hs] at h
    simpa using h
  refine ⟨fun commit hc => ?_, fun commit hc state hstate => ?_, h.sorted, h.following,
    hlast.trans h.last, fun state hd => ?_⟩
  · have := h.known commit hc
    show commit.block.storage < c'.created
    omega
  · rcases hmem hstate with hstate | rfl
    · exact h.below commit hc state hstate
    · exact h.known commit hc
  · obtain ⟨hlt, hapart, hbelow⟩ := h.dropped state hd
    refine ⟨show state.storage < c'.created by omega, hapart, fun state' hstate => ?_⟩
    rcases hmem hstate with hstate | rfl
    · exact hbelow state' hstate
    · exact hlt

theorem sound_removed {c' : TransactionExecutor be} {first : BlockState} {rest : List BlockState}
    (h : r.Sound) (ho : r.executor.Ordered) (hwas : r.executor.stateStorages = first :: rest)
    (hs : c'.stateStorages = rest)
    (hlast : c'.lastStateStorage = some (rest.getLastD first).storage)
    (hcreated : c'.created = r.executor.created) :
    ({ r with executor := c', commits := ⟨first, rest⟩ :: r.commits }).Sound := by
  obtain ⟨_, hknown, hsorted⟩ := ho
  have hbelow := h.below
  have hdropped := h.dropped
  rw [hwas] at hknown hsorted hbelow hdropped
  have hrest := (List.pairwise_cons.mp hsorted).1
  have hafter (commit : Committed) (hc : commit ∈ (⟨first, rest⟩ :: r.commits))
      (state : BlockState) (hstate : state ∈ rest) : commit.block.storage < state.storage := by
    rcases List.mem_cons.mp hc with rfl | hc
    · exact hrest state hstate
    · exact hbelow commit hc state (List.mem_cons_of_mem _ hstate)
  refine ⟨fun commit hc => ?_, fun commit hc state hstate => ?_, ?_, fun latest hl => ?_, hlast,
    fun state hd => ?_⟩
  · show commit.block.storage < c'.created
    rw [hcreated]
    rcases List.mem_cons.mp hc with rfl | hc
    · exact hknown first List.mem_cons_self
    · exact h.known commit hc
  · replace hstate : state ∈ c'.stateStorages := hstate
    rw [hs] at hstate
    exact hafter commit hc state hstate
  · exact List.pairwise_cons.mpr
      ⟨fun commit hc => hbelow commit hc first List.mem_cons_self, h.sorted⟩
  · cases hl
    exact fun state hstate commit hc => hafter commit hc state hstate
  · obtain ⟨hlt, hapart, hlist⟩ := hdropped state hd
    refine ⟨show state.storage < c'.created by omega, fun commit hc => ?_, fun state' hstate => ?_⟩
    · rcases List.mem_cons.mp hc with rfl | hc
      · exact Nat.ne_of_lt (hlist first List.mem_cons_self)
      · exact hapart commit hc
    · replace hstate : state' ∈ c'.stateStorages := hstate
      rw [hs] at hstate
      exact hlist state' (List.mem_cons_of_mem _ hstate)

theorem sound_dropped {c' : TransactionExecutor be} (h : r.Sound) (ho : r.executor.Ordered)
    (hs : c'.stateStorages = []) (hlast : c'.lastStateStorage = r.executor.lastStateStorage)
    (hcreated : c'.created = r.executor.created) :
    ({ r with executor := c', discarded := r.executor.stateStorages ++ r.discarded }).Sound := by
  have hnone {state : BlockState} (hstate : state ∈ c'.stateStorages) : False := by
    rw [hs] at hstate
    cases hstate
  refine ⟨fun commit hc => ?_, fun _ _ _ hstate => (hnone hstate).elim, h.sorted, h.following,
    hlast.trans h.last, fun state hd => ⟨?_, fun commit hc => ?_, fun _ hstate =>
      (hnone hstate).elim⟩⟩
  · show commit.block.storage < c'.created
    rw [hcreated]
    exact h.known commit hc
  · show state.storage < c'.created
    rw [hcreated]
    rcases List.mem_append.mp hd with hd | hd
    · exact ho.known state hd
    · exact (h.dropped state hd).1
  · rcases List.mem_append.mp hd with hd | hd
    · exact Nat.ne_of_gt (h.below commit hc state hd)
    · exact (h.dropped state hd).2.1 commit hc

theorem sound_step (h : r.Sound) (ho : r.executor.Ordered)
    (action : TransactionExecutor.Action) : (r.step action).Sound := by
  have hchange := r.executor.change_step action
  unfold step
  generalize (r.executor.step action).2 = c' at hchange
  generalize r.executor.committedBy action = committed at hchange
  generalize r.executor.discardedBy action = discarded at hchange
  cases hchange with
  | kept hs hlast hcreated =>
    obtain ⟨hknown, hbelow, hsorted, hfollowing, hl, hdropped⟩ := h
    rw [← hs, ← hcreated] at hdropped
    rw [← hcreated] at hknown
    rw [← hs] at hbelow
    exact ⟨hknown, hbelow, hsorted, hfollowing, hlast.trans hl, hdropped⟩
  | pushed number hs hlast hcreated => exact sound_pushed h hs hlast hcreated
  | removed first rest hwas hs hlast hcreated => exact sound_removed h ho hwas hs hlast hcreated
  | dropped hs hlast hcreated => exact sound_dropped h ho hs hlast hcreated

/-- The state after the block before `number`: the one in the list, or else the committed one. -/
def lastState (r : Record be) (number : Int) : Option BlockState :=
  (r.executor.stateStorages.find? fun state => state.number = number - 1).or
    ((r.commits.map Committed.block).find? fun state => state.number = number - 1)

/-- The `lastStorage` of the block context that a header leads to. -/
def lastStorage (r : Record be) (number : Int) : Option Nat :=
  (r.executor.nextBlockHeader number).2.blockContext.bind CurrentBlock.lastStorage

structure LastStorageRight (r : Record be) (number : Int) : Prop where
  state : r.lastStorage number = (r.lastState number).map BlockState.storage
  kept : ∀ state ∈ r.discarded, r.lastStorage number ≠ some state.storage
  null : r.lastStorage number = none → r.executor.stateStorages = [] ∧ r.commits = []

/-- A header that finds the list empty follows the latest commit, and that commit has left the
list empty. -/
def FollowsCommit (r : Record be) (number : Int) : Prop :=
  r.executor.stateStorages = [] → ∀ latest ∈ r.commits.head?,
    latest.block.number = number - 1 ∧ latest.following = []

theorem find?_last {states : List BlockState} {prev : BlockState}
    (h : (states ++ [prev]).IsChain fun state next => next.number = state.number + 1) :
    (states ++ [prev]).find? (fun state => state.number = prev.number) = some prev := by
  have hlt : (states ++ [prev]).Pairwise fun state next => state.number < next.number := by
    have : IsTrans BlockState fun state next => state.number < next.number :=
      ⟨fun _ _ _ => Int.lt_trans⟩
    exact List.isChain_iff_pairwise.mp (h.imp fun _ _ hn => by omega)
  have hnone : states.find? (fun state => state.number = prev.number) = none := by
    refine List.find?_eq_none.mpr fun state hmem heq => ?_
    have := (List.pairwise_append.mp hlt).2.2 state hmem prev (List.mem_singleton_self prev)
    simp only [decide_eq_true_eq] at heq
    omega
  rw [List.find?_append, hnone]
  simp

theorem lastStorageRight_nonempty (h : r.Sound) (hc : r.executor.Chained)
    {states : List BlockState} {prev : BlockState} {number : Int}
    (hs : r.executor.stateStorages = states ++ [prev]) (hnumber : number = prev.number + 1)
    (hlast : r.lastStorage number = some prev.storage) : r.LastStorageRight number := by
  have hfound : r.lastState number = some prev := by
    have hnumbers := hc.numbers
    rw [hs] at hnumbers
    have heq : number - 1 = prev.number := by omega
    unfold lastState
    rw [hs, heq, find?_last hnumbers]
    rfl
  refine ⟨by rw [hlast, hfound]; rfl, fun state hd heq => ?_, fun hnone => ?_⟩
  · have hlt := (h.dropped state hd).2.2 prev (by simp [hs])
    rw [hlast] at heq
    have := Option.some.inj heq
    omega
  · rw [hlast] at hnone
    cases hnone

/-- The storage that the latest commit has kept is that of a committed block only when this block
was the newest. -/
theorem newest_of_kept (h : r.Sound) {latest commit : Committed} {earlier : List Committed}
    (hcommits : r.commits = latest :: earlier) (hmem : commit ∈ r.commits)
    (hkept : commit.block.storage = (latest.following.getLastD latest.block).storage) :
    commit = latest ∧ latest.following = [] := by
  have hfollowing := h.following latest (by rw [hcommits]; rfl)
  have hnil : latest.following = [] := by
    by_contra hne
    have hback : latest.following.getLastD latest.block ∈ latest.following := by
      rw [List.getLastD_eq_getLast?, List.getLast?_eq_some_getLast hne]
      exact List.getLast_mem hne
    have := hfollowing _ hback commit hmem
    omega
  have hsorted := h.sorted
  rw [hnil] at hkept
  rw [hcommits] at hmem hsorted
  rcases List.mem_cons.mp hmem with rfl | hmem
  · exact ⟨rfl, hnil⟩
  · have hlt := (List.pairwise_cons.mp hsorted).1 commit hmem
    replace hkept : commit.block.storage = latest.block.storage := hkept
    omega

theorem lastStorageRight_empty_iff (h : r.Sound) {number : Int}
    (hs : r.executor.stateStorages = [])
    (hlast : r.lastStorage number = r.executor.lastStateStorage) :
    r.LastStorageRight number ↔ r.FollowsCommit number := by
  have hfound : r.lastState number =
      (r.commits.map Committed.block).find? fun state => state.number = number - 1 := by
    unfold lastState
    rw [hs]
    rfl
  have hkept := h.last
  cases hcommits : r.commits with
  | nil =>
    rw [hcommits] at hkept hfound
    refine ⟨fun _ _ latest hl => ?_, fun _ => ⟨?_, fun state _ heq => ?_, fun _ => ⟨hs, hcommits⟩⟩⟩
    · rw [hcommits] at hl
      cases hl
    · rw [hlast, hkept, hfound]
      rfl
    · rw [hlast, hkept] at heq
      cases heq
  | cons latest earlier =>
    rw [hcommits] at hkept
    replace hkept : r.executor.lastStateStorage =
      some (latest.following.getLastD latest.block).storage := hkept
    constructor
    · intro hright _ latest' hl
      rw [hcommits] at hl
      cases hl
      have hstate := hright.state
      rw [hlast, hkept, hfound] at hstate
      obtain ⟨block, hblock, hstorage⟩ := Option.map_eq_some_iff.mp hstate.symm
      have hnumber := List.find?_some hblock
      simp only [decide_eq_true_eq] at hnumber
      obtain ⟨commit, hmem, rfl⟩ := List.mem_map.mp (List.mem_of_find?_eq_some hblock)
      obtain ⟨rfl, hnil⟩ := newest_of_kept h hcommits hmem hstorage
      exact ⟨hnumber, hnil⟩
    · intro horder
      obtain ⟨hnumber, hnil⟩ := horder hs latest (by rw [hcommits]; rfl)
      rw [hnil] at hkept
      refine ⟨?_, fun state hd heq => ?_, fun hnone => ?_⟩
      · rw [hlast, hkept, hfound, hcommits]
        simp [hnumber]
      · rw [hlast, hkept] at heq
        exact (h.dropped state hd).2.1 latest (by rw [hcommits]; exact List.mem_cons_self)
          (Option.some.inj heq).symm
      · rw [hlast, hkept] at hnone
        cases hnone

theorem lastStorageRight_iff (h : r.Sound) (hc : r.executor.Chained) {number : Int}
    (hok : (r.executor.nextBlockHeader number).1 = none) :
    r.LastStorageRight number ↔ r.FollowsCommit number := by
  rcases r.executor.nextBlockHeader_cases number with ⟨error, heq⟩ | ⟨hs, heq⟩ |
    ⟨states, prev, hs, hnumber, heq⟩
  · rw [heq] at hok
    cases hok
  · refine lastStorageRight_empty_iff h hs ?_
    unfold lastStorage
    rw [heq]
    rfl
  · refine ⟨fun _ hnil => ?_, fun _ => lastStorageRight_nonempty h hc hs hnumber ?_⟩
    · rw [hs] at hnil
      exact absurd hnil (List.append_ne_nil_of_right_ne_nil _ (List.cons_ne_nil _ _))
    · unfold lastStorage
      rw [heq]
      rfl

/-- A property of the headers that are accepted. -/
def AtHeaders (P : Record be → Int → Prop) (r : Record be) :
    TransactionExecutor.Action → Prop
  | .nextBlockHeader number => (r.executor.nextBlockHeader number).1 = none → P r number
  | _ => True

def Wired (r : Record be) : Prop :=
  r.Sound ∧ r.executor.Chained ∧ r.executor.Ordered

theorem wired_step (h : r.Wired) (action : TransactionExecutor.Action) : (r.step action).Wired :=
  ⟨sound_step h.1 h.2.2 action, TransactionExecutor.wired_step h.2.1 h.2.2 action⟩

/-- In every run the new blocks are given the storage of the block before exactly when the
headers that find the list empty follow the latest commit. -/
theorem lastStorages_iff (cached : Bool) (s : be.State)
    (actions : List TransactionExecutor.Action) :
    Always step (AtHeaders LastStorageRight) (init cached s) actions ↔
      Always step (AtHeaders FollowsCommit) (init cached s) actions := by
  refine Runs.always_iff Wired (fun r action h => wired_step h action) ?_
    ⟨sound_init cached s, TransactionExecutor.wired_init cached s⟩
  intro r action h
  cases action with
  | nextBlockHeader number => exact imp_congr_right fun hok => lastStorageRight_iff h.1 h.2.1 hok
  | _ => exact Iff.rfl

/-- Block 1 is committed while block 2 stands after it, block 2 is given up, and its storage
comes back as the last one of the new block 2. -/
theorem not_lastStorageRight_reset : ¬ Always step (AtHeaders LastStorageRight)
    (init true TransactionExecutor.emptyBackend)
    [.nextBlockHeader 1, .nextBlockHeader 2, .prepare 1, .commit 1, .reset,
      .nextBlockHeader 2] := by
  rintro ⟨_, _, _, _, _, h, _⟩
  exact (h rfl).kept ⟨2, 1⟩ (by decide) rfl

end Record

end BcosExecutor
