import BcosExecutor.StateChainCommits

namespace BcosExecutor

open Overlay (Layer overlay Stack overlay_update_some overlay_update_none)
open TransactionExecutor (Action)

/-- The executor without its storages: the committed rows, and each block that is not committed
with all the rows after it. -/
structure BlockLedger where
  committed : StateRow → Option Entry
  blocks : List (BlockState × (StateRow → Option Entry))
  created : Nat

namespace BlockLedger

/-- A header is accepted when it follows the last block, if there is one. -/
def follows (l : BlockLedger) (number : Int) : Bool :=
  l.blocks.getLast?.all fun last => number = last.1.number + 1

/-- A new block starts with the rows of the block before it. -/
def push (l : BlockLedger) (number : Int) : BlockLedger :=
  { l with
    blocks := l.blocks ++ [(⟨number, l.created⟩, (l.blocks.map Prod.snd).getLastD l.committed)]
    created := l.created + 1 }

/-- Only the rows of the last block can be changed, by what they are and what they were before
it. -/
def modifyLast (l : BlockLedger) (id : Nat)
    (f : (StateRow → Option Entry) → (StateRow → Option Entry) → StateRow → Option Entry) :
    BlockLedger :=
  match l.blocks.getLast? with
  | some (state, rows) =>
    if state.storage = id then
      { l with blocks := l.blocks.dropLast ++
          [(state, f ((l.blocks.dropLast.map Prod.snd).getLastD l.committed) rows)] }
    else l
  | none => l

/-- The rows of the first block are committed, whatever the others do. -/
def commit (l : BlockLedger) : BlockLedger :=
  match l.blocks with
  | [] => l
  | (_, rows) :: blocks => { l with committed := rows, blocks := blocks }

/-- The step of an action that succeeds or fails. -/
def step (l : BlockLedger) (action : Action) (ok : Bool) : BlockLedger :=
  match action with
  | .nextBlockHeader number => if ok then l.push number else l
  | .commit _ => if ok then l.commit else l
  | .reset => { l with blocks := [] }
  | .write id row entry => l.modifyLast id fun _ rows => Function.update rows row entry
  | .undo id row => l.modifyLast id fun before rows => Function.update rows row (before row)
  | .prepare _ | .rollback _ | .load _ _ | .loadCached _ | .purge _ => l

/-- Headers are accepted in order, and the two-phase commit is about the first block. -/
def Answers (l : BlockLedger) (ok : Bool) : Action → Prop
  | .nextBlockHeader number => ok = l.follows number
  | .prepare number | .commit number | .rollback number =>
    ok = true → ∃ first ∈ l.blocks.head?, first.1.number = number
  | _ => ok = true

inductive Runs : BlockLedger → List (Action × Bool) → BlockLedger → Prop
  | nil {l} : Runs l [] l
  | cons {l action ok rest l'} : l.Answers ok action → Runs (l.step action ok) rest l' →
      Runs l ((action, ok) :: rest) l'

end BlockLedger

namespace TransactionExecutor

variable {be : TransactionalStorage} {c c' : TransactionExecutor be}

/-- What is committed, and what is read through the storages of the blocks. -/
def ledger (c : TransactionExecutor be) : BlockLedger where
  committed := be.getRow c.backendStorage
  blocks := c.stateStorages.map fun state => (state, c.getRow (.storage state.storage))
  created := c.created

/-- The storage of the last block can be written. -/
def LastWritable (c : TransactionExecutor be) : Prop :=
  ∀ last ∈ c.stateStorages.getLast?, (c.storages last.storage).readOnly = false

/-- What every step keeps as long as only prepared blocks are committed. -/
structure Coherent (c : TransactionExecutor be) : Prop where
  chained : c.Chained
  ordered : c.Ordered
  faithful : c.Faithful
  lastWritable : c.LastWritable

theorem SameChain.lastWritable (h : SameChain c c') (hl : c.LastWritable) : c'.LastWritable := by
  intro last hlast
  rw [h.states] at hlast
  exact (h.readOnly _).trans (hl last hlast)

theorem lastWritable_pushStorage (number : Int) (prev : Prev) (last : Option Nat) :
    (c.pushStorage number prev last).LastWritable := by
  intro state hstate
  rw [show (c.pushStorage number prev last).stateStorages =
    c.stateStorages ++ [⟨number, c.created⟩] from rfl, List.getLast?_concat] at hstate
  cases hstate
  exact congrArg BlockStorage.readOnly (pushStorage_self ..)

theorem lastWritable_removeCommittedState (hl : c.LastWritable) :
    c.removeCommittedState.LastWritable := by
  cases hs : c.stateStorages with
  | nil =>
    simp only [removeCommittedState, hs]
    exact hl
  | cons first rest =>
    have hremoved := removeCommittedState_spec hs
    intro last hlast
    rw [hremoved.states] at hlast
    rw [hremoved.readOnly]
    refine hl last ?_
    rw [hs, List.getLast?_cons, hlast]
    rfl

theorem lastWritable_step (hl : c.LastWritable) (action : Action) :
    (c.step action).2.LastWritable := by
  cases action with
  | nextBlockHeader number =>
    show (c.nextBlockHeader number).2.LastWritable
    rcases c.nextBlockHeader_cases number with ⟨error, heq⟩ | ⟨_, heq⟩ | ⟨states, prev, _, _, heq⟩
    · rw [heq]
      exact hl
    · rw [heq]
      exact lastWritable_pushStorage number _ _
    · rw [heq]
      exact lastWritable_pushStorage number _ _
  | prepare number => exact (sameChain_prepare number).lastWritable hl
  | commit number =>
    show (c.commit number).2.LastWritable
    rcases c.commit_cases number with ⟨error, heq⟩ | ⟨error, _, heq⟩ | ⟨_, _, _, _, _, heq⟩
    · rw [heq]
      exact hl
    · rw [heq]
      exact (sameChain_backend _).lastWritable hl
    · rw [heq]
      exact lastWritable_removeCommittedState hl
  | rollback number => exact (sameChain_rollback number).lastWritable hl
  | reset => nofun
  | write id row entry => exact (sameChain_setEntry id row _).lastWritable hl
  | undo id row => exact (sameChain_setEntry id row _).lastWritable hl
  | load id row => exact (sameChain_loadEntry id row).lastWritable hl
  | loadCached row => exact (sameChain_loadCached row).lastWritable hl
  | purge row => exact (sameChain_setCached row none).lastWritable hl

theorem coherent_step (hbe : be.Lawful) (h : c.Coherent) {action : Action}
    (hp : (∃ number, action = .commit number) → (c.step action).1 = none → c.Prepared) :
    (c.step action).2.Coherent := by
  obtain ⟨hc, ho⟩ := wired_step h.chained h.ordered action
  exact ⟨hc, ho, faithful_step hbe h.chained h.ordered h.faithful hp,
    lastWritable_step h.lastWritable action⟩

theorem coherent_init (cached : Bool) (s : be.State) : (init cached s).Coherent := by
  obtain ⟨hc, ho⟩ := wired_init cached s
  exact ⟨hc, ho, faithful_init cached s, nofun⟩

theorem Coherent.ledger_eq (h : c.Coherent) :
    c.ledger = ⟨c.stack.base, c.stateStorages.zip c.stack.views, c.created⟩ := by
  rw [← getRow_views h.chained h.ordered h.faithful, ← List.map_prod_left_eq_zip]
  rfl

theorem Coherent.ledger_congr (h : c.Coherent) (h' : c'.Coherent)
    (hstates : c'.stateStorages = c.stateStorages) (hstack : c'.stack = c.stack)
    (hcreated : c'.created = c.created) : c'.ledger = c.ledger := by
  rw [h.ledger_eq, h'.ledger_eq, hstates, hstack, hcreated]

theorem getLast?_ledger (c : TransactionExecutor be) :
    c.ledger.blocks.getLast?.map Prod.fst = c.stateStorages.getLast? := by
  rw [← List.getLast?_map]
  simp [ledger, Function.comp_def]

theorem head?_ledger (c : TransactionExecutor be) :
    c.ledger.blocks.head?.map Prod.fst = c.stateStorages.head? := by
  rw [← List.head?_map]
  simp [ledger, Function.comp_def]

/-- What is read at the blocks of a list that stand on the committed state. -/
def viewsOf (c : TransactionExecutor be) (states : List BlockState) :
    List (StateRow → Option Entry) :=
  Stack.readings c.stack.base (states.map fun state => (c.storages state.storage).dirtyEntries)

theorem length_viewsOf (c : TransactionExecutor be) (states : List BlockState) :
    states.length = (c.viewsOf states).length := by
  have hlength := Stack.length_views ⟨c.stack.base,
    states.map fun state => (c.storages state.storage).dirtyEntries⟩
  rw [List.length_map] at hlength
  exact hlength.symm

/-- The blocks under the last one, and the last one over them. -/
theorem Coherent.ledger_concat (h : c.Coherent) {states : List BlockState} {last : BlockState}
    (hs : c.stateStorages = states ++ [last]) :
    c.ledger = ⟨c.stack.base, states.zip (c.viewsOf states) ++ [(last,
      overlay (c.storages last.storage).dirtyEntries
        ((c.viewsOf states).getLastD c.stack.base))], c.created⟩ := by
  have hviews : c.stack.views = c.viewsOf states ++
      [overlay (c.storages last.storage).dirtyEntries
        ((c.viewsOf states).getLastD c.stack.base)] := by
    have hlayers : c.stack.layers = (states.map fun state =>
        (c.storages state.storage).dirtyEntries) ++
          [(c.storages last.storage).dirtyEntries] := by
      simp [stack, hs]
    rw [Stack.views, hlayers, Stack.readings_append]
    rfl
  rw [h.ledger_eq, hs, hviews, List.zip_append (length_viewsOf c states)]
  rfl

theorem modifyLast_concat {l : BlockLedger} {states : List BlockState}
    {views : List (StateRow → Option Entry)} (hlength : states.length = views.length)
    {last : BlockState} {rows : StateRow → Option Entry}
    (hl : l.blocks = states.zip views ++ [(last, rows)]) (id : Nat)
    (f : (StateRow → Option Entry) → (StateRow → Option Entry) → StateRow → Option Entry) :
    l.modifyLast id f = if last.storage = id then
      { l with blocks := states.zip views ++ [(last, f (views.getLastD l.committed) rows)] }
    else l := by
  unfold BlockLedger.modifyLast
  rw [hl, List.getLast?_concat, List.dropLast_concat, List.map_snd_zip (le_of_eq hlength.symm)]

theorem dirtyEntries_update (storage : BlockStorage) (row : StateRow) (entry : Option HeldEntry)
    (hentry : ∀ e ∈ entry, e.dirty = true) :
    BlockStorage.dirtyEntries
        { storage with entries := Function.update storage.entries row entry } =
      Function.update storage.dirtyEntries row (entry.map HeldEntry.value) := by
  funext row'
  unfold BlockStorage.dirtyEntries
  by_cases hr : row' = row
  · subst hr
    simp only [Function.update_self]
    cases entry with
    | none => rfl
    | some e =>
      show (if e.dirty then some e.value else none) = some e.value
      rw [if_pos (hentry e rfl)]
  · simp only [Function.update_of_ne hr]

theorem overlay_update (layer : Layer StateRow (Option Entry)) (below : StateRow → Option Entry)
    (row : StateRow) (value : Option (Option Entry)) :
    overlay (Function.update layer row value) below =
      Function.update (overlay layer below) row (value.getD (below row)) := by
  cases value with
  | none => exact overlay_update_none layer below row
  | some value => exact overlay_update_some layer below row value

theorem stack_base_setEntry (id : Nat) (row : StateRow) (entry : Option HeldEntry) :
    (c.setEntry id row entry).stack.base = c.stack.base := by
  unfold setEntry
  split <;> rfl

theorem dirtyEntries_setEntry_of_ne {id j : Nat} (hj : j ≠ id) (row : StateRow)
    (entry : Option HeldEntry) : ((c.setEntry id row entry).storages j).dirtyEntries =
      (c.storages j).dirtyEntries := by
  unfold setEntry
  split
  · rw [modifyStorage_of_ne hj]
  · rfl

theorem dirtyEntries_setEntry_self {id : Nat} (hid : id < c.created)
    (hfree : (c.storages id).readOnly = false) (row : StateRow) {entry : Option HeldEntry}
    (hentry : ∀ e ∈ entry, e.dirty = true) :
    ((c.setEntry id row entry).storages id).dirtyEntries =
      Function.update (c.storages id).dirtyEntries row (entry.map HeldEntry.value) := by
  rw [setEntry, if_pos ⟨hid, hfree⟩, modifyStorage_self]
  exact dirtyEntries_update _ row entry hentry

theorem viewsOf_setEntry {id : Nat} {states : List BlockState}
    (hne : ∀ state ∈ states, state.storage ≠ id) (row : StateRow) (entry : Option HeldEntry) :
    (c.setEntry id row entry).viewsOf states = c.viewsOf states := by
  unfold viewsOf
  rw [stack_base_setEntry]
  refine congrArg _ (List.map_congr_left fun state hmem => ?_)
  exact dirtyEntries_setEntry_of_ne (hne state hmem) row entry

/-- An entry of a storage that is none of the blocks' is not read. -/
theorem Coherent.ledger_setEntry_of_ne (h : c.Coherent) {id : Nat} {row : StateRow}
    {entry : Option HeldEntry} (h' : (c.setEntry id row entry).Coherent)
    (hne : ∀ state ∈ c.stateStorages, state.storage ≠ id) :
    (c.setEntry id row entry).ledger = c.ledger := by
  have hsame : SameChain c (c.setEntry id row entry) := sameChain_setEntry id row entry
  have hlayers : (c.setEntry id row entry).stack.layers = c.stack.layers := by
    show (c.setEntry id row entry).stateStorages.map _ = _
    rw [hsame.states]
    exact List.map_congr_left fun state hmem =>
      dirtyEntries_setEntry_of_ne (hne state hmem) row entry
  refine h.ledger_congr h' hsame.states ?_ hsame.created
  exact congrArg₂ Stack.mk (stack_base_setEntry id row entry) hlayers

/-- A change of an entry is one of the rows of the last block, or it is none. -/
theorem Coherent.ledger_setEntry (h : c.Coherent) {id : Nat} {row : StateRow}
    {entry : Option HeldEntry} (hentry : ∀ e ∈ entry, e.dirty = true)
    (h' : (c.setEntry id row entry).Coherent) :
    (c.setEntry id row entry).ledger = c.ledger.modifyLast id fun before rows =>
      Function.update rows row ((entry.map HeldEntry.value).getD (before row)) := by
  have hsame : SameChain c (c.setEntry id row entry) := sameChain_setEntry id row entry
  rcases List.eq_nil_or_concat' c.stateStorages with hs | ⟨states, last, hs⟩
  · have hnil : c.ledger.blocks = [] := by simp [ledger, hs]
    rw [BlockLedger.modifyLast, hnil]
    exact h.ledger_setEntry_of_ne h' (by rw [hs]; nofun)
  · have hledger := h.ledger_concat hs
    rw [modifyLast_concat (length_viewsOf c states) (congrArg BlockLedger.blocks hledger)]
    have hlast : last ∈ c.stateStorages := by rw [hs]; exact List.mem_concat_self
    have hbelow : ∀ state ∈ states, state.storage ≠ last.storage := fun state hmem => by
      have hsorted := h.ordered.sorted
      rw [hs, List.pairwise_append] at hsorted
      exact Nat.ne_of_lt (hsorted.2.2 state hmem last List.mem_cons_self)
    by_cases hid : last.storage = id
    · subst hid
      have hfree := h.lastWritable last (by rw [hs]; exact List.getLast?_concat)
      have hknown := h.ordered.known last hlast
      rw [if_pos rfl, h'.ledger_concat (hsame.states.trans hs), viewsOf_setEntry hbelow,
        dirtyEntries_setEntry_self hknown hfree row hentry, overlay_update, stack_base_setEntry,
        hsame.created]
      rfl
    · rw [if_neg hid]
      by_cases hother : ∃ state ∈ states, state.storage = id
      · obtain ⟨state, hmem, rfl⟩ := hother
        have hro := h.chained.readOnly state (by rw [hs, List.dropLast_concat]; exact hmem)
        rw [setEntry, if_neg fun hw => Bool.noConfusion (hw.2.symm.trans hro)]
      · refine h.ledger_setEntry_of_ne h' fun state hmem heq => ?_
        rw [hs, List.mem_append, List.mem_singleton] at hmem
        rcases hmem with hmem | rfl
        · exact hother ⟨state, hmem, heq⟩
        · exact hid heq

theorem stack_loadEntry (c : TransactionExecutor be) (id : Nat) (row : StateRow) :
    (c.loadEntry id row).stack = c.stack := by
  unfold loadEntry
  split
  next value hnone hvalue =>
    refine congrArg₂ Stack.mk (stack_base_setEntry id row _) ?_
    rw [(sameChain_setEntry id row _).states]
    refine List.map_congr_left fun state _ => ?_
    by_cases hid : state.storage = id
    · subst hid
      unfold setEntry
      split
      · rw [modifyStorage_self]
        exact dirtyEntries_load hnone
      · rfl
    · exact dirtyEntries_setEntry_of_ne hid row _
  next => rfl

theorem Coherent.ledger_backend (h : c.Coherent) {s : be.State}
    (hs : be.getRow s = be.getRow c.backendStorage)
    (h' : ({ c with backendStorage := s } : TransactionExecutor be).Coherent) :
    ({ c with backendStorage := s } : TransactionExecutor be).ledger = c.ledger :=
  h.ledger_congr h' rfl (congrArg₂ Stack.mk hs rfl) rfl

theorem follows_ledger (c : TransactionExecutor be) (number : Int) :
    c.ledger.follows number =
      c.stateStorages.getLast?.all fun last => number = last.number + 1 := by
  rw [← getLast?_ledger, BlockLedger.follows]
  cases c.ledger.blocks.getLast? <;> rfl

theorem isNone_nextBlockHeader (c : TransactionExecutor be) (number : Int) :
    (c.nextBlockHeader number).1.isNone = c.ledger.follows number := by
  rw [follows_ledger]
  unfold nextBlockHeader
  cases c.stateStorages.getLast? with
  | none => rfl
  | some prev =>
    dsimp only
    split
    next hne =>
      have hnumber : number ≠ prev.number + 1 := by omega
      simp [hnumber]
    next heq =>
      have hnumber : number = prev.number + 1 := by omega
      simp [hnumber]

theorem nextBlockHeader_accepted {number : Int} (hok : (c.nextBlockHeader number).1 = none) :
    (c.nextBlockHeader number).2.stateStorages = c.stateStorages ++ [⟨number, c.created⟩] ∧
      (c.nextBlockHeader number).2.created = c.created + 1 ∧
      (c.nextBlockHeader number).2.backendStorage = c.backendStorage := by
  rcases c.nextBlockHeader_cases number with ⟨error, heq⟩ | ⟨_, heq⟩ | ⟨states, prev, _, _, heq⟩
  · rw [heq] at hok
    cases hok
  · rw [heq]
    exact ⟨rfl, rfl, rfl⟩
  · rw [heq]
    exact ⟨rfl, rfl, rfl⟩

theorem nextBlockHeader_refused {number : Int} (hok : (c.nextBlockHeader number).1 ≠ none) :
    (c.nextBlockHeader number).2 = c := by
  rcases c.nextBlockHeader_cases number with ⟨error, heq⟩ | ⟨_, heq⟩ | ⟨states, prev, _, _, heq⟩
  · rw [heq]
  · exact absurd (congrArg Prod.fst heq) hok
  · exact absurd (congrArg Prod.fst heq) hok

/-- The storage of a new block reads what the storage before it reads. -/
theorem Coherent.nextBlockHeader_ledger (h : c.Coherent) (number : Int) :
    (c.nextBlockHeader number).2.ledger =
      if (c.nextBlockHeader number).1.isNone then c.ledger.push number else c.ledger := by
  cases hok : (c.nextBlockHeader number).1 with
  | some error => rw [nextBlockHeader_refused (by rw [hok]; exact nofun)]; rfl
  | none =>
    obtain ⟨hstates, hcreated, hbackend⟩ := nextBlockHeader_accepted hok
    have hviews := getRow_nextBlockHeader h.chained h.ordered h.faithful hok
    have hlength : c.stateStorages.length = c.stack.views.length := by
      rw [Stack.length_views]
      exact (List.length_map _).symm
    have hsnd : c.ledger.blocks.map Prod.snd = c.stack.views := by
      rw [h.ledger_eq]
      exact List.map_snd_zip (le_of_eq hlength.symm)
    have hblocks : (c.nextBlockHeader number).2.ledger.blocks =
        (c.ledger.push number).blocks := by
      show List.map _ _ = _ ++ [(_, _)]
      rw [List.map_prod_left_eq_zip, hviews, hstates, List.zip_append hlength, hsnd, h.ledger_eq]
      rfl
    show BlockLedger.mk _ _ _ = BlockLedger.mk _ _ _
    rw [hbackend, hcreated]
    exact congrArg (BlockLedger.mk _ · _) hblocks

theorem firstStorage_ledger {request : String} {emptyCode otherCode number : Int}
    {first : BlockState} (hfirst : c.firstStorage request emptyCode otherCode number = .ok first) :
    ∃ first ∈ c.ledger.blocks.head?, first.1.number = number := by
  obtain ⟨hnumber, rest, hs⟩ := firstStorage_ok hfirst
  have hhead := head?_ledger c
  rw [hs] at hhead
  obtain ⟨block, hblock, rfl⟩ := Option.map_eq_some_iff.mp hhead
  exact ⟨block, hblock, hnumber⟩

theorem Coherent.prepare_ledger (h : c.Coherent) (hbe : be.Lawful) (number : Int)
    (h' : (c.prepare number).2.Coherent) :
    ((c.prepare number).1.isNone = true →
        ∃ first ∈ c.ledger.blocks.head?, first.1.number = number) ∧
      (c.prepare number).2.ledger = c.ledger := by
  cases hfirst : c.firstStorage "Prepare" (-1) ExecuteError.PREPARE_ERROR number with
  | error error =>
    have heq : c.prepare number = (some error, c) := by rw [prepare, hfirst]
    rw [heq]
    exact ⟨nofun, rfl⟩
  | ok first =>
    have heq : (c.prepare number).2 = { c with backendStorage :=
        (be.asyncPrepare c.backendStorage number (c.storages first.storage).dirtyEntries).2 } := by
      rw [prepare, hfirst]
    rw [heq] at h' ⊢
    exact ⟨fun _ => firstStorage_ledger hfirst, h.ledger_backend (hbe.getRow_prepare ..) h'⟩

theorem Coherent.rollback_ledger (h : c.Coherent) (hbe : be.Lawful) (number : Int)
    (h' : (c.rollback number).2.Coherent) :
    ((c.rollback number).1.isNone = true →
        ∃ first ∈ c.ledger.blocks.head?, first.1.number = number) ∧
      (c.rollback number).2.ledger = c.ledger := by
  cases hfirst : c.firstStorage "Rollback" (-1) ExecuteError.ROLLBACK_ERROR number with
  | error error =>
    have heq : c.rollback number = (some error, c) := by rw [rollback, hfirst]
    rw [heq]
    exact ⟨nofun, rfl⟩
  | ok first =>
    have heq : (c.rollback number).2 =
        { c with backendStorage := (be.asyncRollback c.backendStorage number).2 } := by
      rw [rollback, hfirst]
    rw [heq] at h' ⊢
    exact ⟨fun _ => firstStorage_ledger hfirst, h.ledger_backend (hbe.getRow_rollback ..) h'⟩

/-- A commit makes the rows of the first block the committed ones. -/
theorem Coherent.commit_ledger (h : c.Coherent) (hbe : be.Lawful) (number : Int)
    (hp : (c.commit number).1 = none → c.Prepared) (h' : (c.commit number).2.Coherent) :
    ((c.commit number).1.isNone = true → ∃ first ∈ c.ledger.blocks.head?, first.1.number = number) ∧
      (c.commit number).2.ledger =
        if (c.commit number).1.isNone then c.ledger.commit else c.ledger := by
  rcases c.commit_cases number with ⟨error, heq⟩ | ⟨error, hfail, heq⟩ |
    ⟨first, rest, hs, rfl, hok, heq⟩
  · rw [heq]
    exact ⟨nofun, rfl⟩
  · rw [heq] at h' ⊢
    exact ⟨nofun, h.ledger_backend (hbe.getRow_failedCommit _ _ hfail) h'⟩
  · obtain ⟨-, hstack⟩ := commit_prepared hbe h.faithful hs (hp (congrArg Prod.fst heq)) hok
    have hremoved := removeCommittedState_spec (c := { c with
      backendStorage := (be.asyncCommit c.backendStorage first.number).2
      lastCommittedBlockNumber := first.number }) hs
    have hisNone : (c.commit first.number).1.isNone = true := by rw [heq]; rfl
    have hstates : (c.commit first.number).2.stateStorages = rest := by
      rw [heq]
      exact hremoved.states
    have hcreated : (c.commit first.number).2.created = c.created := by
      rw [heq]
      exact hremoved.created
    have hhead := head?_ledger c
    rw [hs] at hhead
    obtain ⟨block, hblock, hfirst⟩ := Option.map_eq_some_iff.mp hhead
    refine ⟨fun _ => ⟨block, hblock, congrArg BlockState.number hfirst⟩, ?_⟩
    rw [hisNone, if_pos rfl, h'.ledger_eq, hstates, hcreated, hstack, h.ledger_eq, hs]
    obtain ⟨layer, layers, hlayers⟩ : ∃ layer layers, c.stack.layers = layer :: layers := by
      simp [stack, hs]
    rw [Stack.views_absorb, Stack.absorb, Stack.views, hlayers]
    rfl

theorem step_refines (hbe : be.Lawful) (h : c.Coherent) {action : Action}
    (hp : (∃ number, action = .commit number) → (c.step action).1 = none → c.Prepared) :
    c.ledger.Answers (c.step action).1.isNone action ∧
      (c.step action).2.ledger = c.ledger.step action (c.step action).1.isNone := by
  have h' := coherent_step hbe h hp
  cases action with
  | nextBlockHeader number =>
    exact ⟨isNone_nextBlockHeader c number, h.nextBlockHeader_ledger number⟩
  | prepare number => exact h.prepare_ledger hbe number h'
  | commit number => exact h.commit_ledger hbe number (hp ⟨number, rfl⟩) h'
  | rollback number => exact h.rollback_ledger hbe number h'
  | reset => exact ⟨rfl, rfl⟩
  | write id row entry => exact ⟨rfl, h.ledger_setEntry (fun e he => by cases he; rfl) h'⟩
  | undo id row => exact ⟨rfl, h.ledger_setEntry nofun h'⟩
  | load id row =>
    have hsame : SameChain c (c.loadEntry id row) := sameChain_loadEntry id row
    exact ⟨rfl, h.ledger_congr h' hsame.states (stack_loadEntry c id row) hsame.created⟩
  | loadCached row =>
    refine ⟨rfl, h.ledger_congr h' (sameChain_loadCached row).states ?_
      (sameChain_loadCached row).created⟩
    show (c.loadCached row).stack = c.stack
    unfold loadCached
    split <;> rfl
  | purge row => exact ⟨rfl, h.ledger_congr h' rfl rfl rfl⟩

/-- The actions with whether each of them succeeds. -/
def answered (c : TransactionExecutor be) : List Action → List (Action × Bool)
  | [] => []
  | action :: actions =>
    (action, (c.step action).1.isNone) :: (c.step action).2.answered actions

theorem run_refines_of_coherent (hbe : be.Lawful) (h : c.Coherent) {actions : List Action}
    (hp : c.CommitsPrepared actions) :
    BlockLedger.Runs c.ledger (c.answered actions) (c.run actions).ledger := by
  induction actions generalizing c with
  | nil => exact .nil
  | cons action actions ih =>
    obtain ⟨hanswers, hstep⟩ := step_refines hbe h hp.1
    refine .cons hanswers ?_
    rw [← hstep]
    exact ih (coherent_step hbe h hp.1) hp.2

/-- The chain of storages over the cache and the backend is a ledger: in every run whose commits are
prepared, what is committed and what each block reads are the rows that the writes, the headers and
the commits so far make of those at the beginning, and nothing else that happens shows. -/
theorem run_refines (hbe : be.Lawful) (cached : Bool) (s : be.State) {actions : List Action}
    (hp : (init cached s).CommitsPrepared actions) :
    BlockLedger.Runs ⟨be.getRow s, [], 0⟩ ((init cached s).answered actions)
      ((init cached s).run actions).ledger :=
  run_refines_of_coherent hbe (coherent_init cached s) hp

/-- Block 1 is committed while block 2 is open. -/
def committedRun : List Action :=
  preparedRun ++ [.commit 1, .write 1 ⟨"t", []⟩ none]

theorem run_refines_committed :
    BlockLedger.Runs ⟨fun _ => none, [], 0⟩ ((init true emptyBackend).answered committedRun)
        ((init true emptyBackend).run committedRun).ledger ∧
      ((init true emptyBackend).run committedRun).ledger.committed ⟨"t", []⟩ = some [1] ∧
      ((init true emptyBackend).run committedRun).ledger.blocks.map
        (fun block => (block.1.number, block.2 ⟨"t", []⟩)) = [(2, none)] := by
  refine ⟨run_refines memoryBackend_lawful true emptyBackend ?_, rfl, rfl⟩
  refine ⟨fun h => ?_, fun h => ?_, fun h => ?_, fun h => ?_, fun _ _ => ?_, fun h => ?_, trivial⟩
  case refine_5 =>
    intro first hfirst
    cases hfirst
    rfl
  all_goals
    obtain ⟨number, h⟩ := h
    cases h

end TransactionExecutor

end BcosExecutor
