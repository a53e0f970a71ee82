import BcosExecutor.DagWorkers
import BcosExecutor.ExecutionMessage
import BcosExecutor.FlowSchedule
import BcosExecutor.Slots

namespace BcosExecutor

structure PrecompiledContract where
  isParallelPrecompiled : Bool
  getParallelTag : Bytes → Bool → List String

/-- What an executor reads while it runs a batch. The txpool has one transaction for a hash
or fails the request. -/
structure DagExecutor (Abi : Type) where
  isWasm : Bool
  hardwareConcurrency : Nat
  createExecutionMessage : ExecutionMessage
  txpool : Hash → Option Transaction
  getPrecompiled : String → Option PrecompiledContract
  getParallelCriticals : CallParameters → Option (List String)
  decodeConflictFields : Abi → CallParameters → Option (List ConflictField)

/-- What the run finds at each position: the ABI of the called function, from the cache or the
table of the contract, and the output or the exception of the executive. -/
structure DagOutcome (Abi : Type) where
  functionAbi : Nat → Option Abi
  start : Nat → Except Exc CallParameters

/-- The lists that the first loop fills. -/
structure BlockFilling where
  txHashes : List Hash
  indexes : List Nat
  fillInputs : List ExecutionMessage
  callParametersList : List (Option CallParameters)

namespace DagExecutor

variable {Abi : Type} (x : DagExecutor Abi) (o : DagOutcome Abi)

def dagThreadNum : Nat :=
  max x.hardwareConcurrency 1

def collectInput (inputs : List ExecutionMessage) (s : BlockFilling) (i : Nat) : BlockFilling :=
  match inputs[i]? with
  | none => s
  | some params =>
    match params.type with
    | .txHash =>
      { s with
        txHashes := s.txHashes ++ [params.transactionHash]
        indexes := s.indexes ++ [i]
        fillInputs := s.fillInputs ++ [params] }
    | .message =>
      { s with callParametersList :=
          s.callParametersList.modify i fun _ => createCallParameters params false }
    | _ => s

/-- The bodies of the parallel loop in the order in which they took effect. -/
def collect (inputs : List ExecutionMessage) (order : List Nat) : BlockFilling :=
  order.foldl (collectInput inputs) ⟨[], [], [], List.replicate inputs.length none⟩

def fillTransactions (s : BlockFilling) (transactions : List Transaction) :
    List (Option CallParameters) :=
  (s.indexes.zip (s.fillInputs.zip transactions)).foldl
    (fun list entry => list.modify entry.1 fun _ =>
      some (createTxCallParameters entry.2.1 entry.2.2)) s.callParametersList

def asyncFillBlock (txHashes : List Hash) : Option (List Transaction) :=
  txHashes.mapM x.txpool

def fillBlock (s : BlockFilling) : Option (List (Option CallParameters)) :=
  if s.txHashes.isEmpty then some s.callParametersList
  else (x.asyncFillBlock s.txHashes).map (fillTransactions s)

def getTxCriticals (params : CallParameters) : List String :=
  if params.create then []
  else
    match x.getPrecompiled params.receiveAddress with
    | some p =>
      if p.isParallelPrecompiled then
        (p.getParallelTag params.data x.isWasm).map (· ++ params.receiveAddress)
      else []
    | none => ((x.getParallelCriticals params).getD []).map (· ++ params.receiveAddress)

def sendBack (params : CallParameters) : ExecutionMessage :=
  { toExecutionResult x.createExecutionMessage params with type := .sendBack }

/-- The result after the loop that gets the criticals. -/
def criticalsResult (txHashList : List Hash) (i : Nat) (params : CallParameters) :
    Option ExecutionMessage :=
  if (x.getTxCriticals params).isEmpty then
    match txHashList[i]? with
    | some transactionHash => some { x.sendBack params with transactionHash }
    | none => some (x.sendBack params)
  else none

/-- What a transaction of the DAG leaves as its result; an exception leaves it as it is. -/
def executeTx (inputs : List CallParameters) (i : Nat) (result : Option ExecutionMessage) :
    Option ExecutionMessage :=
  match inputs[i]?, o.start i with
  | some input, .ok output =>
    some (toExecutiveResult x.createExecutionMessage input.contextID input.seq output)
  | _, _ => result

/-- The results that are handed over once every worker has left. -/
def ExecutesForEvm (inputs : List CallParameters) (txHashList : List Hash)
    (results : List (Option ExecutionMessage)) : Prop :=
  ∃ m : DagRun (Fin x.dagThreadNum) (List (Option ExecutionMessage)),
    DagRun.Reachable (fun i results => results.modify i (x.executeTx o inputs i))
      (inputs.map x.getTxCriticals) (inputs.mapIdx (x.criticalsResult txHashList)) m ∧
    (∀ i, m.workers i = .left) ∧ m.state = results

def conflictFields (i : Nat) (params : CallParameters) : Option (List ConflictField) :=
  if params.create then none
  else (o.functionAbi i).bind fun abi => x.decodeConflictFields abi params

/-- The result after the loop that gets the conflict fields. -/
def analysisResult (i : Nat) (params : CallParameters) : ExecutionMessage :=
  if params.create then x.sendBack params
  else
    match o.functionAbi i with
    | none => x.sendBack params
    | some abi =>
      if (x.decodeConflictFields abi params).isSome then x.createExecutionMessage
      else { x.createExecutionMessage with type := .sendBack }

/-- What a task of the flow graph leaves as its result. -/
def executeTask (inputs : List CallParameters) (i : Nat) (result : Option ExecutionMessage) :
    Option ExecutionMessage :=
  match inputs[i]?, o.start i with
  | some input, .ok output =>
    some (toExecutiveResult x.createExecutionMessage input.contextID input.seq output)
  | _, _ => result.map fun message => { message with type := .revert }

end DagExecutor

/-- The positions that have a task, by the number of the task. -/
def taskPositions (txs : List (Option (List ConflictField))) : List Nat :=
  (List.range txs.length).filter fun i => (txs.getD i none).isSome

def Node.position (txs : List (Option (List ConflictField))) : Node → Option Nat
  | .start => none
  | .task index => (taskPositions txs)[index]?

namespace DagExecutor

variable {Abi : Type} (x : DagExecutor Abi) (o : DagOutcome Abi)

/-- The results that are handed over once the flow graph is at rest. -/
def ExecutesForWasm (inputs : List CallParameters) (results : List (Option ExecutionMessage)) :
    Prop :=
  let txs := inputs.mapIdx (x.conflictFields o)
  ∃ c, Countdown.Reach (flowNet txs) c ∧ c.ready + c.running + c.sending = 0 ∧
    results = Slots.run (x.executeTask o inputs)
      ((Countdown.finishes c.log).reverse.filterMap (Node.position txs))
      (inputs.mapIdx fun i params => some (x.analysisResult o i params))

/-- The callback gets the results without an error. -/
def Executes (inputs : List ExecutionMessage) (order : List Nat)
    (results : List (Option ExecutionMessage)) : Prop :=
  ∃ params : List CallParameters,
    x.fillBlock (collect inputs order) = some (params.map some) ∧
    if x.isWasm then x.ExecutesForWasm o params results
    else x.ExecutesForEvm o params (collect inputs order).txHashes results

end DagExecutor

/-- The message is a result of the input and of no other one. -/
def ExecutionMessage.Identifies (message input : ExecutionMessage) : Prop :=
  message.contextID = input.contextID ∧ message.seq = input.seq ∧
    (message.type = .sendBack → input.type = .txHash →
      message.transactionHash = input.transactionHash)

/-- Every input has exactly one result, which is its own. -/
def ResultsIdentified (inputs : List ExecutionMessage) (results : List (Option ExecutionMessage)) :
    Prop :=
  results.length = inputs.length ∧
    ∀ (i : Nat) input, inputs[i]? = some input →
      ∃ message : ExecutionMessage, results[i]? = some (some message) ∧ message.Identifies input

end BcosExecutor
