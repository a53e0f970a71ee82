import BcosExecutor.ExecutiveAtomic
import BcosExecutor.HostInterface

namespace BcosExecutor

open TransactionExecutive

variable {st : StateStorage}

/-- An executive between two host functions. -/
structure Running (st : StateStorage) where
  host : HostContext
  abi : Bytes
  recoder : st.Recoder

/-- The code that a finished creation has left in its table. -/
structure Deposit where
  tableName : String
  code : Bytes
  abi : Option Entry
  deriving DecidableEq

/-- The block storage with the executives at work on it. -/
structure ChainState (st : StateStorage) where
  storage : st.State
  executives : Nat → Option (Running st)
  deposits : List Deposit

namespace ChainState

def init (s : st.State) : ChainState st where
  storage := s
  executives _ := none
  deposits := []

/-- The executive goes on with its host context. -/
def resume (c : ChainState st) (id : Nat) (host : HostContext) (abi : Bytes)
    (e : Executive st) : ChainState st :=
  { c with
    storage := e.storage
    executives := Function.update c.executives id (some ⟨host, abi, e.recoder⟩) }

/-- The executive is gone and has left the storage. -/
def drop (c : ChainState st) (id : Nat) (s : st.State) : ChainState st :=
  { c with storage := s, executives := Function.update c.executives id none }

/-- The storage that an executive leaves behind. -/
def left (ending : Ending) (e : Executive st) : st.State :=
  if ending.reverted then st.rollback e.storage e.recoder else e.storage

/-- A message is prepared by its executive and waits for its first host function. A call
whose contract has no code ends at once, and precompiled contracts have no part here. -/
def begin (env : Environment) (c : ChainState st) (id : Nat) (checkAuth : Bool)
    (p : CallParameters) : ChainState st :=
  let b : Behaviour Empty := { checkAuth, precompiled := .abort, vm := .abort }
  match (prepare env b p).run (noCalls st) (Executive.start c.storage) with
  | (some (.ok (.ends ending)), e) => c.drop id (left ending e)
  | (some (.ok (.goOn (host, _, abi))), e) =>
    let code := (st.getRow e.storage ⟨host.tableName, ACCOUNT_CODE⟩).getD []
    if host.isCreate || !code.isEmpty then c.resume id host abi e else c.drop id e.storage
  | (some (.error _), e) | (none, e) => c.drop id e.storage

def conclude (env : Environment) (x : Running st) (outcome : Except Exc Result) :
    Script Empty Ending :=
  if x.host.isCreate then concludeCreate env x.host x.abi x.host.callParameters outcome
  else concludeCall x.host.callParameters outcome

def finish (env : Environment) (c : ChainState st) (id : Nat) (x : Running st)
    (outcome : Except Exc Result) : ChainState st :=
  match (conclude env x outcome).run (noCalls st) ⟨c.storage, x.recoder, []⟩ with
  | (some (.ok ending), e) =>
    let c := c.drop id (left ending e)
    match outcome with
    | .ok ret =>
      if x.host.isCreate && ending.message.type = .finished then
        let abi := if env.isWasm then some x.abi
          else st.getRow c.storage ⟨x.host.tableName, ACCOUNT_ABI⟩
        { c with deposits := ⟨x.host.tableName, ret.output, abi⟩ :: c.deposits }
      else c
    | .error _ => c
  | (some (.error _), e) | (none, e) => c.drop id e.storage

end ChainState

/-- The three rows of every created contract are as the deposit of its code left them. -/
def ChainState.CodeIntact (env : Environment) (c : ChainState st) : Prop :=
  ∀ d ∈ c.deposits,
    st.getRow c.storage ⟨d.tableName, ACCOUNT_CODE⟩ = some d.code ∧
    st.getRow c.storage ⟨d.tableName, ACCOUNT_CODE_HASH⟩ = some (env.hash d.code) ∧
    st.getRow c.storage ⟨d.tableName, ACCOUNT_ABI⟩ = d.abi

end BcosExecutor
