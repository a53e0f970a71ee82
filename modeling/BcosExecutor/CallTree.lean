import BcosExecutor.ExecutiveAtomic

namespace BcosExecutor

variable {st : StateStorage}

/-- A contract of a call tree: what runs for it, and the message that the scheduler makes of
the request. -/
structure Contract (κ : Type) extends Behaviour κ where
  deliver : CallParameters → CallParameters := id

/-- The call trees of a given height. -/
def Callee : Nat → Type
  | 0 => Empty
  | n + 1 => Contract (Callee n)

/-- The scheduler runs a callee with a new executive over the same storage. -/
def runCall (st : StateStorage) (env : Environment) : (n : Nat) → Scheduler st (Callee n)
  | 0 => fun callee => callee.elim
  | n + 1 => fun (callee : Contract (Callee n)) request s =>
    settle s ((TransactionExecutive.execute env callee.toBehaviour (callee.deliver request)).run
      (runCall st env n) (Executive.start s))

theorem runCall_agrees (h : st.Lawful) (env : Environment) (n : Nat) (callee : Callee n)
    (request : CallParameters) (s : st.State) :
    (runCall st env n callee request s).Agrees
      (runCall snapshotStorage env n callee request (st.getRow s)) := by
  induction n generalizing request s with
  | zero => exact callee.elim
  | succ n ih => exact settle_agrees h ih TransactionExecutive.execute_reverted s

/-- An atomic call tree answers and leaves the rows as the ideal execution does. -/
theorem runCall_refines (h : st.Lawful) (env : Environment) (n : Nat) (callee : Callee n)
    (request : CallParameters) (s : st.State)
    (hatomic : ∀ c ∈ (runCall st env n callee request s).calls, c.Atomic) :
    (runCall st env n callee request s).response =
        (runCall snapshotStorage env n callee request (st.getRow s)).response ∧
      st.getRow (runCall st env n callee request s).storage =
        (runCall snapshotStorage env n callee request (st.getRow s)).storage := by
  rcases runCall_agrees h env n callee request s with ⟨_, _, hresult⟩ | ⟨hc, _⟩
  · exact hresult
  · exact absurd hatomic hc

/-- A storage in which every contract has code. -/
def deployedRows : Rows :=
  fun row => if row.key = ACCOUNT_CODE then some [0] else none

def slot : StateRow :=
  ⟨"/apps/child", ascii "slot"⟩

/-- A contract that calls the other one and ends with the given status. -/
def caller (callee : Contract (Callee 0)) (status : EvmcStatus) : Contract (Callee 1) where
  precompiled := .abort
  vm := .externalCall callee { codeAddress := "child", type := .message }
    fun _ => return ⟨status, 0, []⟩

end BcosExecutor
