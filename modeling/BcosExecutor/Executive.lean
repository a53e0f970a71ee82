import BcosExecutor.HostContext

namespace BcosExecutor

def CONTRACT_SUFFIX : String := "_accessAuth"

def ADMIN_FIELD : Bytes := ascii "admin"

def METHOD_AUTH_TYPE : Bytes := ascii "method_auth_type"

def METHOD_AUTH_WHITE : Bytes := ascii "method_auth_white"

def METHOD_AUTH_BLACK : Bytes := ascii "method_auth_black"

def FS_KEY_TYPE : Bytes := ascii "type"

def FS_KEY_SUB : Bytes := ascii "sub"

def FS_ACL_TYPE : Bytes := ascii "acl_type"

def FS_ACL_WHITE : Bytes := ascii "acl_white"

def FS_ACL_BLACK : Bytes := ascii "acl_black"

def FS_KEY_EXTRA : Bytes := ascii "extra"

def FS_TYPE_DIR : Bytes := ascii "directory"

def FS_TYPE_CONTRACT : Bytes := ascii "contract"

def SYS_VALUE_FIELDS : String := "value"

/-- What an executive is given besides the block context: the registered precompiles, the
codecs and the gas injector. A codec that throws returns nothing. -/
structure Registry where
  isPrecompiled : String → Bool
  writeErrInfoToOutput : String → Bytes
  decode : Bytes → Option ((Bytes × Bytes) × Bytes)
  injectMeter : Bytes → Option Bytes
  insertBfs : Bytes → String → Bytes → Option Bytes
  emptyBfs : Bytes

structure Environment extends BlockContext, Registry

/-- What runs on behalf of a message: the permission check, the precompiled contract or the
virtual machine, and the log entries that the latter leaves. -/
structure Behaviour (κ : Type) where
  checkAuth : Bool := true
  precompiled : Script κ PrecompiledExecResult
  vm : Script κ Result
  logEntries : List LogEntry := []

def hasWasmPreamble (input : Bytes) : Bool :=
  8 ≤ input.length && [0, 97, 115, 109].isPrefixOf input

def toLower (s : String) : String :=
  String.ofList (s.toList.map Char.toLower)

/-- The number one in the 36 digits of a built-in address. -/
def sysAddressPrefix : List Char :=
  List.replicate 35 '0' ++ ['1']

namespace TransactionExecutive

def getContractTableName (context : BlockContext) (address : String) : String :=
  let addressLower := (toLower address).toList
  let rest := String.ofList
    (if address.toList.head? = some '/' then addressLower.drop 1 else addressLower)
  if context.isAuthCheck && sysAddressPrefix.isPrefixOf address.toList then "/sys/" ++ rest
  else "/apps/" ++ rest

variable {κ : Type}

def creatAuthTable (context : BlockContext) (tableName origin sender : String) :
    Script κ Unit := do
  let sys := "/sys/".toList
  if sys.isPrefixOf tableName.toList ||
      sys.isPrefixOf (getContractTableName context sender).toList then
    return
  let authTableName := tableName ++ CONTRACT_SUFFIX
  let admin ←
    if sender ≠ origin then do
      let entry ← getRow (getContractTableName context sender ++ CONTRACT_SUFFIX) ADMIN_FIELD
      match entry with
      | some admin => pure admin
      | none => .abort
    else pure (ascii sender)
  createTable authTableName STORAGE_VALUE
  setRow authTableName ADMIN_FIELD admin
  setRow authTableName METHOD_AUTH_TYPE []
  setRow authTableName METHOD_AUTH_WHITE []
  setRow authTableName METHOD_AUTH_BLACK []

/-- The parts of a path, where neighbouring separators count as one. -/
def splitPath (path : String) : List String :=
  let parts := (path.toList.splitOn '/').map String.ofList
  parts.take 1 ++ ((parts.drop 1).dropLast.filter (· ≠ "")) ++ (parts.drop 1).getLast?.toList

def buildDirs (env : Environment) : String → List String → Script κ Bool
  | _, [] => return true
  | root, dir :: rest => do
    if !(← openTable root) then
      return false
    let next := (if root ≠ "/" then root ++ "/" else root) ++ dir
    match ← getRow root FS_KEY_TYPE with
    | none => return false
    | some _ =>
      if !rest.isEmpty && (← openTable next) then
        if (← getRow next FS_KEY_TYPE) = some FS_TYPE_DIR then
          buildDirs env next rest
        else
          return false
      else
        match ← getRow root FS_KEY_SUB with
        | none => .abort
        | some sub =>
          match env.insertBfs sub dir (if rest.isEmpty then FS_TYPE_CONTRACT else FS_TYPE_DIR) with
          | none => .throw (.stdException "decode")
          | some bfsInfo => do
            if !rest.isEmpty then
              createTable next SYS_VALUE_FIELDS
              setRow next FS_KEY_TYPE FS_TYPE_DIR
              setRow next FS_KEY_SUB env.emptyBfs
              setRow next FS_ACL_TYPE (ascii "0")
              setRow next FS_ACL_WHITE []
              setRow next FS_ACL_BLACK []
              setRow next FS_KEY_EXTRA []
            setRow root FS_KEY_SUB bfsInfo
            buildDirs env next rest

def buildBfsPath (env : Environment) (absoluteDir : String) : Script κ Bool :=
  if absoluteDir.isEmpty then
    return false
  else
    let dir := absoluteDir.toList
    let dir := if dir.head? = some '/' then dir.drop 1 else dir
    let dir := if dir.getLast? = some '/' then dir.dropLast else dir
    buildDirs env "/" (splitPath (String.ofList dir))

def execPrecompiled (b : Behaviour κ) : Script κ PrecompiledExecResult := do
  match ← b.precompiled.attempt with
  | .ok execResult => return execResult
  | .error (.precompiledError comment) => .throw (.precompiledError comment)
  | .error _ => .throw (.precompiledError none)

def callPrecompiled (env : Environment) (b : Behaviour κ) (p : CallParameters) :
    Script κ Ending := do
  let p := { p with type := .finished }
  match ← (execPrecompiled b).attempt with
  | .ok precompiledResult =>
    let gas := precompiledResult.gas
    if p.gas < gas then
      return ⟨{ p with type := .revert, status := .outOfGas }, false⟩
    else
      return ⟨{ p with
        gas := p.gas - gas
        status := .none
        data := precompiledResult.execResult }, false⟩
  | .error (.precompiledError comment) =>
    let msg := comment.getD "error occurs in precompiled, but error_info is empty"
    return ⟨{ p with
      data := env.writeErrInfoToOutput msg
      type := .revert
      status := .precompiledError }, true⟩
  | .error e =>
    return ⟨{ p with
      data := env.writeErrInfoToOutput e.what
      type := .revert
      status := e.toTransactionStatus }, true⟩

/-- The value of a step that may already have settled the message. -/
inductive Settled (α : Type)
  | goOn (a : α)
  | ends (ending : Ending)

def revertWith (p : CallParameters) (status : TransactionStatus) (message : String) : Ending :=
  ⟨{ p with type := .revert, status, message }, true⟩

/-- The code to deploy, with its meter and its abi where it is wasm. -/
def decodeInput (env : Environment) (p : CallParameters) :
    Script κ (Settled (CallParameters × Bytes × Bytes)) :=
  if !env.isWasm then
    return .goOn (p, [], [])
  else
    match env.decode p.data with
    | none => .throw (.stdException "decode")
    | some ((code, params), abi) =>
      let invalid := revertWith p .wasmValidationFailure
        "wasm bytecode invalid or use unsupported opcode"
      if !hasWasmPreamble code then
        return .ends invalid
      else
        match env.injectMeter code with
        | none => return .ends invalid
        | some byteCode => return .goOn ({ p with data := byteCode }, params, abi)

def createTables (env : Environment) (p : CallParameters) (tableName : String) :
    Script κ Unit := do
  createTable tableName STORAGE_VALUE
  if env.isAuthCheck then
    creatAuthTable env.toBlockContext tableName p.origin p.senderAddress

/-- The part of `create` that writes: the tables of the contract and its path. -/
def createContract (env : Environment) (b : Behaviour κ) (p : CallParameters)
    (params abi : Bytes) : Script κ (Settled (HostContext × Bytes × Bytes)) :=
  if env.isAuthCheck && !(p.staticCall || b.checkAuth) then
    return .ends (revertWith p .permissionDenied "Create permission denied")
  else do
    let tableName := getContractTableName env.toBlockContext p.codeAddress
    match ← (createTables env p tableName).attempt with
    | .error e => return .ends (revertWith p .contractAddressAlreadyUsed e.what)
    | .ok () =>
      if !env.isWasm then
        return .goOn (⟨p, tableName⟩, [], [])
      else if ← buildBfsPath env tableName then
        return .goOn (⟨p, tableName⟩, params, abi)
      else
        return .ends (revertWith p .revertInstruction "Error occurs in build BFS dir")

def create (env : Environment) (b : Behaviour κ) (p : CallParameters) :
    Script κ (Settled (HostContext × Bytes × Bytes)) := do
  match ← decodeInput env p with
  | .ends ending => return .ends ending
  | .goOn (p, params, abi) => createContract env b p params abi

def parseEVMCResult (p : CallParameters) (result : Result) : Except Exc Ending :=
  let p := { p with type := .revert }
  match result.status with
  | .success =>
    .ok ⟨{ p with
      type := .finished
      status := .none
      gas := result.gasLeft
      data := if p.create then p.data else result.output }, false⟩
  | .revert =>
    .ok ⟨{ p with
      gas := result.gasLeft
      data := result.output
      status := .revertInstruction }, true⟩
  | .outOfGas => .ok ⟨{ p with status := .outOfGas, gas := result.gasLeft }, true⟩
  | .failure => .ok ⟨{ p with status := .wasmTrap, gas := result.gasLeft }, true⟩
  | .invalidInstruction | .undefinedInstruction => .ok ⟨{ p with status := .badInstruction }, true⟩
  | .badJumpDestination => .ok ⟨{ p with status := .badJumpDestination }, true⟩
  | .stackOverflow => .ok ⟨{ p with status := .outOfStack }, true⟩
  | .stackUnderflow => .ok ⟨{ p with status := .stackUnderflow }, true⟩
  | .invalidMemoryAccess => .ok ⟨{ p with status := .stackUnderflow }, true⟩
  | .staticModeViolation => .ok ⟨{ p with status := .unknown }, true⟩
  | .contractValidationFailure => .ok ⟨{ p with status := .wasmValidationFailure }, true⟩
  | .argumentOutOfRange => .ok ⟨{ p with status := .wasmArgumentOutOfRange }, true⟩
  | .wasmUnreachableInstruction => .ok ⟨{ p with status := .wasmUnreachableInstruction }, true⟩
  | .other code => if code ≤ -1 then .error .internalVMError else .error .outOfGas

def clearForeignLogs (p : CallParameters) : CallParameters :=
  if p.origin ≠ p.senderAddress then { p with logEntries := [] } else p

/-- The catch clauses of `go` while the host context still has its parameters. -/
def caught (p : CallParameters) : Exc → Script κ Ending
  | .permissionDenied => return ⟨{ p with type := .revert, status := .permissionDenied }, true⟩
  | .precompiledError _ => return ⟨{ p with type := .revert, status := .precompiledError }, true⟩
  | .outOfGas => return ⟨{ p with type := .revert, status := .outOfGas }, true⟩
  | .error _ errorMessage =>
    return ⟨{ p with
      type := .revert
      status := .revertInstruction
      message := errorMessage }, true⟩
  | .internalVMError | .exception _ _ | .stdException _ => .abort

def codeDepositTooDear (schedule : EVMSchedule) (gas : Int) (output : Bytes) : Prop :=
  gas < toInt64 (output.length * schedule.createDataGas) ∧ schedule.exceptionalFailedCodeDeposit

instance (schedule : EVMSchedule) (gas : Int) (output : Bytes) :
    Decidable (codeDepositTooDear schedule gas output) := by
  unfold codeDepositTooDear
  infer_instance

/-- What follows a successful run of the constructor. -/
def depositCode (env : Environment) (host : HostContext) (p : CallParameters) (abi : Bytes)
    (ret : Result) : Script κ Ending := do
  let output := ret.output
  if env.evmSchedule.maxCodeSize < output.length then
    return ⟨{ p with
      type := .revert
      status := .outOfGas
      message := "Code is too large: " ++ toString output.length ++ " limit: " ++
        toString env.evmSchedule.maxCodeSize }, false⟩
  else if codeDepositTooDear env.evmSchedule p.gas output then
    return ⟨{ p with
      type := .revert
      status := .outOfGas
      message := "exceptionalFailedCodeDeposit" }, false⟩
  else if !env.isWasm && output.isEmpty then
    return ⟨{ p with
      type := .revert
      status := .unknown
      message := "Create contract with empty code, wrong code input."
      create := false
      data := [] }, true⟩
  else do
    if env.isWasm then
      host.setCodeAndAbi env.toBlockContext output abi
    else
      let _ ← host.setCode env.toBlockContext output
    return ⟨{ p with
      gas := toInt64 (p.gas - output.length * env.evmSchedule.createDataGas)
      newEVMContractAddress := p.codeAddress
      create := false
      data := [] }, false⟩

/-- What `go` does with the outcome of the constructor of a contract. -/
def concludeCreate (env : Environment) (host : HostContext) (abi : Bytes) (p : CallParameters) :
    Except Exc Result → Script κ Ending
  | .error e => caught p e
  | .ok ret =>
    match parseEVMCResult (clearForeignLogs p) ret with
    -- the catch clauses find the parameters gone
    | .error _ => .abort
    | .ok ⟨p, reverted⟩ =>
      if p.status ≠ .none then
        return ⟨{ p with type := .revert, create := false }, reverted⟩
      else
        depositCode env host p abi ret

/-- What `go` does with the outcome of a call. -/
def concludeCall (p : CallParameters) : Except Exc Result → Script κ Ending
  | .error e => caught p e
  | .ok ret =>
    match parseEVMCResult p ret with
    | .error _ => .abort
    | .ok ⟨p, reverted⟩ => return ⟨clearForeignLogs p, reverted⟩

def go (env : Environment) (b : Behaviour κ) (host : HostContext) (abi : Bytes) :
    Script κ Ending := do
  let p := host.callParameters
  let logged := { p with logEntries := p.logEntries ++ b.logEntries }
  if host.isCreate then
    concludeCreate env host abi logged (← b.vm.attempt)
  else if (← host.code).isEmpty then
    return ⟨{ p with
      type := .revert
      status := .callAddressError
      message := "Error contract address." }, false⟩
  else
    concludeCall logged (← b.vm.attempt)

def call (env : Environment) (b : Behaviour κ) (p : CallParameters) :
    Script κ (Settled (HostContext × Bytes × Bytes)) :=
  if env.isPrecompiled p.codeAddress then do
    return .ends (← callPrecompiled env b p)
  else if env.isAuthCheck && !env.isWasm && !(p.staticCall || b.checkAuth) then
    return .ends (revertWith p .permissionDenied "Call permission denied")
  else
    return .goOn (⟨p, getContractTableName env.toBlockContext p.codeAddress⟩, [], [])

/-- The part of `execute` before `go`. -/
def prepare (env : Environment) (b : Behaviour κ) (p : CallParameters) :
    Script κ (Settled (HostContext × Bytes × Bytes)) :=
  if p.create then create env b p else call env b p

def execute (env : Environment) (b : Behaviour κ) (p : CallParameters) : Script κ Ending := do
  match ← prepare env b p with
  | .ends ending => return ending
  | .goOn (host, _, abi) => go env b host abi

end TransactionExecutive

end BcosExecutor
