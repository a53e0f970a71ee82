import BcosExecutor.Runs
import BcosExecutor.StateChainCommits

namespace BcosExecutor

open Runs (Always)

namespace TransactionExecutor

variable {be : TransactionalStorage} {c : TransactionExecutor be}

inductive Request
  | executeTransaction
  | dagExecuteTransactions
  deriving DecidableEq, Repr

/-- Where the writes of a request go. `undefined` is the access to a block context that is not
there. -/
inductive Acceptance
  | refused (error : Error)
  | writesTo (storage : Nat)
  | undefined
  deriving DecidableEq, Repr

/-- Only `executeTransaction` looks whether there is a block context. -/
def accept (c : TransactionExecutor be) (request : Request) : Acceptance :=
  match c.blockContext, request with
  | some context, _ => .writesTo context.storage
  | none, .executeTransaction =>
    .refused ⟨ExecuteError.EXECUTE_ERROR, "Execute failed with empty blockContext!"⟩
  | none, .dagExecuteTransactions => .undefined

inductive ExecutionEvent
  | action (action : Action)
  | request (request : Request) (writes : List (StateRow × Option Entry))
  deriving DecidableEq, Repr

/-- A request that is accepted writes rows of one storage. -/
def execute (c : TransactionExecutor be) : ExecutionEvent → TransactionExecutor be
  | .action action => (c.step action).2
  | .request request writes =>
    match c.accept request with
    | .writesTo id => c.run (writes.map fun write => .write id write.1 write.2)
    | _ => c

/-- The block context is that of the newest block of the list. -/
def Current (c : TransactionExecutor be) : Prop :=
  ∀ state ∈ c.stateStorages.getLast?,
    ∃ last, c.blockContext = some ⟨state.number, state.storage, last⟩

theorem current_congr {c' : TransactionExecutor be} (h : c.Current)
    (hs : c'.stateStorages = c.stateStorages) (hb : c'.blockContext = c.blockContext) :
    c'.Current := by
  unfold Current
  rw [hs, hb]
  exact h

theorem current_pushStorage (number : Int) (prev : Prev) (last : Option Nat) :
    (c.pushStorage number prev last).Current := by
  intro state hmem
  simp only [pushStorage, List.getLast?_concat, Option.mem_def, Option.some.injEq] at hmem
  subst hmem
  exact ⟨last, rfl⟩

theorem blockContext_removeCommittedState :
    c.removeCommittedState.blockContext = c.blockContext := by
  unfold removeCommittedState
  cases c.stateStorages with
  | nil => rfl
  | cons first rest => cases rest <;> rfl

theorem current_removeCommittedState (h : c.Current) : c.removeCommittedState.Current := by
  cases hs : c.stateStorages with
  | nil =>
    refine current_congr h ?_ blockContext_removeCommittedState
    simp only [removeCommittedState, hs]
  | cons first rest =>
    intro state hmem
    rw [(removeCommittedState_spec hs).states] at hmem
    rw [blockContext_removeCommittedState]
    refine h state ?_
    rw [hs, List.getLast?_cons, Option.mem_def.mp hmem]
    rfl

/-- What the storages hold has no part in which block is the current one. -/
theorem current_setEntry (h : c.Current) (id : Nat) (row : StateRow) (entry : Option HeldEntry) :
    (c.setEntry id row entry).Current := by
  refine current_congr h (sameChain_setEntry id row entry).states ?_
  unfold setEntry
  split <;> rfl

theorem current_step (h : c.Current) (action : Action) : (c.step action).2.Current := by
  cases action with
  | nextBlockHeader number =>
    show (c.nextBlockHeader number).2.Current
    rcases c.nextBlockHeader_cases number with ⟨error, heq⟩ | ⟨_, heq⟩ | ⟨_, _, _, _, heq⟩
    · rw [heq]
      exact h
    · rw [heq]
      exact current_pushStorage number _ _
    · rw [heq]
      exact current_pushStorage number _ _
  | prepare number =>
    refine current_congr h (sameChain_prepare number).states ?_
    simp only [step, prepare]
    split <;> rfl
  | commit number =>
    show (c.commit number).2.Current
    rcases c.commit_cases number with ⟨error, heq⟩ | ⟨error, _, heq⟩ | ⟨_, _, _, _, _, heq⟩
    · rw [heq]
      exact h
    · rw [heq]
      exact current_congr h rfl rfl
    · rw [heq]
      exact current_removeCommittedState (current_congr h rfl rfl)
  | rollback number =>
    refine current_congr h (sameChain_rollback number).states ?_
    simp only [step, rollback]
    split <;> rfl
  | reset => exact nofun
  | write id row entry => exact current_setEntry h id row _
  | undo id row => exact current_setEntry h id row _
  | load id row =>
    show (c.loadEntry id row).Current
    unfold loadEntry
    split
    · exact current_setEntry h id row _
    · exact h
  | loadCached row =>
    show (c.loadCached row).Current
    unfold loadCached
    split
    · exact current_congr h rfl rfl
    · exact h
  | purge row => exact current_congr h rfl rfl

theorem current_run (h : c.Current) (actions : List Action) : (c.run actions).Current := by
  induction actions generalizing c with
  | nil => exact h
  | cons action actions ih => exact ih (current_step h action)

theorem current_execute (h : c.Current) (event : ExecutionEvent) : (c.execute event).Current := by
  cases event with
  | action action => exact current_step h action
  | request request writes =>
    unfold execute
    dsimp only
    split
    · exact current_run h _
    · exact h

/-- An accepted request writes to the newest block that is neither committed nor discarded, and
without such a block it is refused. -/
structure TargetsOpenBlock (c : TransactionExecutor be) (request : Request) : Prop where
  target : ∀ id, c.accept request = .writesTo id →
    c.stateStorages.getLast?.map BlockState.storage = some id
  refused : c.stateStorages = [] → ∃ error, c.accept request = .refused error

/-- There is an open block, or an `executeTransaction` comes before any header. -/
def InBlock (c : TransactionExecutor be) (request : Request) : Prop :=
  c.stateStorages ≠ [] ∨ c.blockContext = none ∧ request = .executeTransaction

theorem targetsOpenBlock_iff (h : c.Current) (request : Request) :
    c.TargetsOpenBlock request ↔ c.InBlock request := by
  constructor
  · intro ht
    by_cases hs : c.stateStorages = []
    · obtain ⟨error, he⟩ := ht.refused hs
      unfold accept at he
      split at he
      next => cases he
      next hb => exact .inr ⟨hb, rfl⟩
      next => cases he
    · exact .inl hs
  · rintro (hs | ⟨hb, rfl⟩)
    · obtain ⟨state, hlast⟩ := Option.ne_none_iff_exists'.mp (mt List.getLast?_eq_none_iff.mp hs)
      obtain ⟨last, hb⟩ := h state hlast
      refine ⟨fun id hid => ?_, fun hnil => absurd hnil hs⟩
      simp only [accept, hb, Acceptance.writesTo.injEq] at hid
      rw [hlast, ← hid]
      rfl
    · refine ⟨fun id hid => ?_, fun _ => ⟨_, by simp only [accept, hb]; rfl⟩⟩
      simp only [accept, hb] at hid
      cases hid

def AtRequests (P : TransactionExecutor be → Request → Prop) (c : TransactionExecutor be) :
    ExecutionEvent → Prop
  | .action _ => True
  | .request request _ => P c request

/-- In every run the requests write to the open block exactly when each of them meets one. -/
theorem execution_targets_iff (cached : Bool) (s : be.State) (events : List ExecutionEvent) :
    Always execute (AtRequests TargetsOpenBlock) (init cached s) events ↔
      Always execute (AtRequests InBlock) (init cached s) events := by
  refine Runs.always_iff Current (fun c event h => current_execute h event) ?_ nofun
  intro c event h
  cases event with
  | action action => exact Iff.rfl
  | request request writes => exact targetsOpenBlock_iff h request

/-- The block is given up, and a transaction still writes to its storage. -/
theorem not_targets_reset : ¬ Always execute (AtRequests TargetsOpenBlock)
    (init false emptyBackend)
    [.action (.nextBlockHeader 1), .action .reset,
      .request .executeTransaction [(⟨"t", []⟩, some [1])]] := by
  rintro ⟨_, _, h, _⟩
  obtain ⟨error, he⟩ := h.refused rfl
  cases he

end TransactionExecutor

end BcosExecutor
