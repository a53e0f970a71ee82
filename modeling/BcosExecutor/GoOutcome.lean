import BcosExecutor.Executive
import BcosExecutor.ExternalRequest

namespace BcosExecutor

/-- What is thrown on the way of `go`, with what the catch clauses read of it. -/
inductive Thrown
  | permissionDenied
  | precompiledError
  | outOfGas (evmcStatusCode : Option Int)
  | error (errorCode : Int) (errorMessage : String)
  | internalVMError (evmcStatusCode : Option Int)
  | exception
  | stdException
  deriving DecidableEq, Repr

/-- What ends the process. -/
inductive Stop
  | nullDereference | outOfBounds | assertion | exit
  deriving DecidableEq, Repr

/-- A step of `go`. The state is what the host context has of its parameters, which is kept where
something is thrown. -/
abbrev Go := ExceptT Thrown (StateT (Option CallParameters) (Except Stop))

/-- What the steps of `go` come to: its accesses, the virtual machine and the block context, which
may be gone at the start or in a catch clause. -/
structure GoAnswers where
  context : Bool := true
  contextLater : Bool := true
  number : Int := 1
  myAddress : String
  code : Except Thrown Bytes
  exec : Except Thrown Result
  logEntries : List LogEntry := []
  rollback : Except Thrown Unit := .ok ()
  rollbackLater : Except Thrown Unit := .ok ()
  openTable : Except Thrown Bool := .ok true
  setCodeHash : Except Thrown Unit := .ok ()
  setCode : Except Thrown Unit := .ok ()
  setAbi : Except Thrown Unit := .ok ()

namespace Go

variable {α : Type}

def stop (s : Stop) : Go α :=
  fun _ => .error s

def dereference : Option α → Go α
  | some a => pure a
  | none => stop .nullDereference

def answered : Except Thrown α → Go α
  | .ok a => pure a
  | .error e => throw e

def assertThat (condition : Bool) : Go Unit :=
  if condition then pure () else stop .assertion

/-- The parameters are moved out of the host context. -/
def takeCallParameters : Go CallParameters := do
  let callParameters ← getThe (Option CallParameters)
  set (none : Option CallParameters)
  dereference callParameters

/-- Twenty bytes are copied from the address. -/
def toEvmC (address : Bytes) : Go Bytes :=
  if address.length < 20 then stop .outOfBounds else pure (address.take 20)

def unhex (s : String) : Go Bytes :=
  match BcosExecutor.unhex s with
  | some bytes => pure bytes
  | none => throw .stdException

/-- What is thrown for a status that the switch does not list. -/
def thrownFor : EvmcStatus → Thrown
  | .other code => if code ≤ -1 then .internalVMError (some code) else .outOfGas none
  | _ => .outOfGas none

section

variable (context : BlockContext) (a : GoAnswers)

def getEVMCMessage (host : HostContext) (extraData : Option CallParameters) : Go Unit := do
  assertThat (context.isAuthCheck || 0 < a.number)
  assertThat !(host.callParameters.staticCall && host.isCreate)
  if context.isWasm then
    assertThat (!host.isCreate || extraData.isSome)
  else do
    let myAddressBytes ← unhex a.myAddress
    let callerBytes ← unhex host.callParameters.senderAddress
    let _ ← toEvmC myAddressBytes
    let _ ← toEvmC callerBytes
    return ()

def revert : Go Unit :=
  answered a.rollback

/-- `revert()` in a catch clause. -/
def revertLater : Go Unit :=
  if a.context && a.contextLater then answered a.rollbackLater
  else throw (.error (-1) "blockContext is null!")

def parseEVMCResult (p : CallParameters) (result : Result) : Go CallParameters :=
  match TransactionExecutive.parseEVMCResult p result with
  | .ok ⟨p, reverted⟩ =>
    if reverted then do
      revert a
      return p
    else
      return p
  | .error _ => do
    revert a
    throw (thrownFor result.status)

def setCode : Go Bool := do
  if ← answered a.openTable then do
    answered a.setCodeHash
    answered a.setCode
    return true
  else
    return false

def setCodeAndAbi : Go Unit := do
  if ← setCode a then answered a.setAbi else return ()

def storeCode (extraData : Option CallParameters) : Go Unit :=
  if context.isWasm then do
    assertThat extraData.isSome
    setCodeAndAbi a
  else do
    let _ ← setCode a
    return ()

/-- What follows a successful run of the constructor. -/
def depositCode (extraData : Option CallParameters) (p : CallParameters) (ret : Result) :
    Go CallParameters :=
  let output := ret.output
  if context.evmSchedule.maxCodeSize < output.length then
    return { p with
      type := .revert
      status := .outOfGas
      message := "Code is too large: " ++ toString output.length ++ " limit: " ++
        toString context.evmSchedule.maxCodeSize }
  else if TransactionExecutive.codeDepositTooDear context.evmSchedule p.gas output then
    return { p with
      type := .revert
      status := .outOfGas
      message := "exceptionalFailedCodeDeposit" }
  else if !context.isWasm && output.isEmpty then do
    revert a
    return { p with
      type := .revert
      status := .unknown
      message := "Create contract with empty code, wrong code input."
      create := false
      data := [] }
  else do
    storeCode context a extraData
    return { p with
      gas := toInt64 (p.gas - output.length * context.evmSchedule.createDataGas)
      newEVMContractAddress := p.codeAddress
      create := false
      data := [] }

/-- What follows the run of the constructor, with the parameters taken. -/
def concludeCreate (extraData : Option CallParameters) (p : CallParameters) (ret : Result) :
    Go CallParameters := do
  let p ← parseEVMCResult a (TransactionExecutive.clearForeignLogs p) ret
  if p.status ≠ .none then
    return { p with type := .revert, create := false }
  else
    depositCode context a extraData p ret

/-- The virtual machine leaves its log entries in the parameters, also where it throws. -/
def exec : Go Result := do
  modify fun held => held.map fun p => { p with logEntries := p.logEntries ++ a.logEntries }
  answered a.exec

/-- The `try` block. -/
def body (host : HostContext) (extraData : Option CallParameters) : Go CallParameters :=
  if !a.context then
    throw (.error (-1) "blockContext is null!")
  else if host.isCreate then do
    getEVMCMessage context a host extraData
    let ret ← exec a
    let callResults ← takeCallParameters
    concludeCreate context a extraData callResults ret
  else do
    let code ← answered a.code
    if code.isEmpty then do
      let callResult ← takeCallParameters
      return { callResult with
        type := .revert
        status := .callAddressError
        message := "Error contract address." }
    else do
      getEVMCMessage context a host extraData
      let ret ← exec a
      let callResults ← takeCallParameters
      let callResults ← parseEVMCResult a callResults ret
      return TransactionExecutive.clearForeignLogs callResults

/-- The catch clauses. -/
def caught : Thrown → Go CallParameters
  | .permissionDenied => do
    let callResults ← takeCallParameters
    revertLater a
    return { callResults with type := .revert, status := .permissionDenied }
  | .precompiledError => do
    let callResults ← takeCallParameters
    revertLater a
    return { callResults with type := .revert, status := .precompiledError }
  | .outOfGas evmcStatusCode => do
    let callResults ← takeCallParameters
    revertLater a
    let _ ← dereference evmcStatusCode
    return { callResults with type := .revert, status := .outOfGas }
  | .error _ errorMessage => do
    let callResults ← takeCallParameters
    revertLater a
    return { callResults with
      type := .revert
      status := .revertInstruction
      message := errorMessage }
  | .internalVMError evmcStatusCode => do
    let _ ← takeCallParameters
    let _ ← dereference evmcStatusCode
    stop .exit
  | .exception | .stdException => stop .exit

def go (host : HostContext) (extraData : Option CallParameters) : Go CallParameters :=
  tryCatch (body context a host extraData) (caught a)

end

end Go

end BcosExecutor
