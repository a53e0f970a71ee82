import BcosExecutor.Runs
import BcosExecutor.StateChainCommits

namespace BcosExecutor

open Runs (Always)

namespace TransactionExecutor

variable {be : TransactionalStorage} {c : TransactionExecutor be}

/-- The callback of `commit`, with the answer of the backend and the state it is in by then. -/
def completeCommit (c : TransactionExecutor be) (blockNumber : Int) (error : Option Error)
    (s : be.State) : Option Error × TransactionExecutor be :=
  match error with
  | some error =>
    (answer "Commit" ExecuteError.COMMIT_ERROR (some error), { c with backendStorage := s })
  | none =>
    (none, removeCommittedState
      { c with backendStorage := s, lastCommittedBlockNumber := blockNumber })

def requestCommit (c : TransactionExecutor be) (number : Int) : Except Error BlockState :=
  c.firstStorage "Commit" ExecuteError.INVALID_BLOCKNUMBER ExecuteError.INVALID_BLOCKNUMBER number

/-- The two halves of a commit one after the other. -/
def commitAtOnce (c : TransactionExecutor be) (number : Int) :
    Option Error × TransactionExecutor be :=
  match c.requestCommit number with
  | .error error => (some error, c)
  | .ok _ =>
    let (error, s) := be.asyncCommit c.backendStorage number
    c.completeCommit number error s

theorem commit_eq_commitAtOnce (c : TransactionExecutor be) (number : Int) :
    c.commit number = c.commitAtOnce number := by
  unfold commit commitAtOnce requestCommit completeCommit
  cases c.firstStorage "Commit" ExecuteError.INVALID_BLOCKNUMBER
    ExecuteError.INVALID_BLOCKNUMBER number with
  | error error => rfl
  | ok first => rcases be.asyncCommit c.backendStorage number with ⟨_ | error, s⟩ <;> rfl

theorem wired_completeCommit (hc : c.Chained) (ho : c.Ordered) (number : Int)
    (error : Option Error) (s : be.State) :
    (c.completeCommit number error s).2.Chained ∧ (c.completeCommit number error s).2.Ordered := by
  cases error with
  | some error => exact ⟨(sameChain_backend s).chained hc, (sameChain_backend s).ordered ho⟩
  | none => exact wired_committed hc ho s number

end TransactionExecutor

/-- The executor with the commits that the backend has not answered, by the number that each
callback has captured. -/
structure Committing (be : TransactionalStorage) where
  executor : TransactionExecutor be
  pending : List Int

/-- A commit is only requested; the backend completes it at any time and in any order. -/
inductive CommitEvent (be : TransactionalStorage)
  | action (action : TransactionExecutor.Action)
  | completion (i : Nat) (error : Option Error) (s : be.State)

namespace Committing

variable {be : TransactionalStorage} {p : Committing be}

def init (cached : Bool) (s : be.State) : Committing be :=
  ⟨.init cached s, []⟩

def request (p : Committing be) (number : Int) : Committing be :=
  match p.executor.requestCommit number with
  | .error _ => p
  | .ok _ => { p with pending := p.pending ++ [number] }

def complete (p : Committing be) (i : Nat) (error : Option Error) (s : be.State) :
    Committing be :=
  match p.pending[i]? with
  | none => p
  | some number => ⟨(p.executor.completeCommit number error s).2, p.pending.eraseIdx i⟩

def step (p : Committing be) : CommitEvent be → Committing be
  | .action (.commit number) => p.request number
  | .action action => { p with executor := (p.executor.step action).2 }
  | .completion i error s => p.complete i error s

theorem step_action (p : Committing be) (action : TransactionExecutor.Action) :
    (∃ number, action = .commit number ∧ p.step (.action action) = p.request number) ∨
      (∀ number, action ≠ .commit number) ∧
        p.step (.action action) = { p with executor := (p.executor.step action).2 } := by
  cases action with
  | commit number => exact .inl ⟨number, rfl, rfl⟩
  | _ => exact .inr ⟨nofun, rfl⟩

theorem request_executor (p : Committing be) (number : Int) :
    (p.request number).executor = p.executor := by
  unfold request
  split <;> rfl

def Wired (p : Committing be) : Prop :=
  p.executor.Chained ∧ p.executor.Ordered

theorem wired_step (h : p.Wired) (event : CommitEvent be) : (p.step event).Wired := by
  cases event with
  | action action =>
    rcases p.step_action action with ⟨number, _, heq⟩ | ⟨_, heq⟩
    · unfold Wired
      rw [heq, request_executor]
      exact h
    · rw [heq]
      exact TransactionExecutor.wired_step h.1 h.2 action
  | completion i error s =>
    show (p.complete i error s).Wired
    unfold complete
    split
    · exact h
    · exact TransactionExecutor.wired_completeCommit h.1 h.2 _ error s

end Committing

end BcosExecutor
