import BcosExecutor.CallParameters

namespace BcosExecutor

abbrev Hash := Bytes

inductive ExecutionMessage.Kind
  | txHash | message | sendBack | revert | finished | keyLock | revertKeyLock
  deriving DecidableEq, Repr

structure ExecutionMessage where
  type : ExecutionMessage.Kind
  transactionHash : Hash
  contextID : Int
  seq : Int
  origin : String
  fromAddress : String
  toAddress : String
  create : Bool
  data : Bytes
  gasAvailable : Int
  staticCall : Bool
  createSalt : Option Nat
  newEVMContractAddress : String
  status : TransactionStatus
  message : String
  logEntries : List LogEntry
  keyLocks : List String
  keyLockAcquired : String
  deriving DecidableEq, Repr

structure Transaction where
  sender : Bytes
  input : Bytes
  deriving DecidableEq, Repr

def hexDigit (n : Nat) : Char :=
  if n < 10 then Char.ofNat (48 + n) else Char.ofNat (87 + n)

def toHex (bytes : Bytes) : String :=
  String.ofList (bytes.flatMap fun byte => [hexDigit (byte.toNat / 16), hexDigit (byte.toNat % 16)])

/-- The parameters of a message of another executor. There are none for the types that make
the code throw. -/
def createCallParameters (input : ExecutionMessage) (staticCall : Bool) : Option CallParameters :=
  let params (type : CallParameters.Kind) : CallParameters :=
    { contextID := input.contextID
      seq := input.seq
      origin := input.origin
      senderAddress := input.fromAddress
      receiveAddress := input.toAddress
      codeAddress := input.toAddress
      create := input.create
      data := input.data
      gas := input.gasAvailable
      staticCall
      newEVMContractAddress := input.newEVMContractAddress
      status := input.status
      keyLocks := input.keyLocks
      type }
  match input.type with
  | .message | .keyLock => some (params .message)
  | .revert => some (params .revert)
  | .finished => some (params .finished)
  | .sendBack | .revertKeyLock | .txHash => none

/-- The parameters of a transaction that is known by its hash. -/
def createTxCallParameters (input : ExecutionMessage) (tx : Transaction) : CallParameters :=
  { contextID := input.contextID
    seq := input.seq
    origin := toHex tx.sender
    senderAddress := toHex tx.sender
    receiveAddress := input.toAddress
    codeAddress := input.toAddress
    gas := input.gasAvailable
    staticCall := input.staticCall
    create := input.create
    data := tx.input
    keyLocks := input.keyLocks
    type := .message }

/-- The first argument is the new message of the message factory. -/
def toExecutionResult (fresh : ExecutionMessage) (params : CallParameters) : ExecutionMessage :=
  let message := match params.type with
    | .message =>
      { fresh with
        fromAddress := params.senderAddress
        toAddress := params.receiveAddress
        type := .message
        keyLocks := params.keyLocks }
    | .keyLock =>
      { fresh with
        fromAddress := params.senderAddress
        toAddress := params.senderAddress
        type := .keyLock
        keyLockAcquired := params.acquireKeyLock
        keyLocks := params.keyLocks }
    | .finished =>
      { fresh with
        fromAddress := params.receiveAddress
        toAddress := params.senderAddress
        type := .finished }
    | .revert =>
      { fresh with
        fromAddress := params.receiveAddress
        toAddress := params.senderAddress
        type := .revert }
  { message with
    contextID := params.contextID
    seq := params.seq
    origin := params.origin
    gasAvailable := params.gas
    data := params.data
    staticCall := params.staticCall
    create := params.create
    createSalt := params.createSalt.or fresh.createSalt
    status := params.status
    message := params.message
    logEntries := params.logEntries
    newEVMContractAddress := params.newEVMContractAddress }

/-- The result of an executive carries the executive's own numbers. -/
def toExecutiveResult (fresh : ExecutionMessage) (contextID seq : Int) (params : CallParameters) :
    ExecutionMessage :=
  { toExecutionResult fresh params with contextID, seq }

variable {fresh : ExecutionMessage} {params : CallParameters}

@[simp] theorem toExecutionResult_transactionHash :
    (toExecutionResult fresh params).transactionHash = fresh.transactionHash := by
  unfold toExecutionResult
  cases params.type <;> rfl

theorem toExecutionResult_type : (toExecutionResult fresh params).type ≠ .sendBack := by
  unfold toExecutionResult
  cases params.type <;> exact nofun

theorem createCallParameters_ids {input : ExecutionMessage} {staticCall : Bool}
    (h : createCallParameters input staticCall = some params) :
    params.contextID = input.contextID ∧ params.seq = input.seq := by
  unfold createCallParameters at h
  cases ht : input.type with
  | txHash | sendBack | revertKeyLock => simp only [ht] at h; cases h
  | _ => simp only [ht] at h; cases h; exact ⟨rfl, rfl⟩

end BcosExecutor
