import BcosExecutor.ExecutionMessage
import BcosExecutor.HostInterface

namespace BcosExecutor

inductive EvmcCallKind
  | call | delegatecall | callcode | create | create2
  deriving DecidableEq, Repr

def EVMC_STATIC : UInt32 := 1

/-- What passes between the executive and a virtual machine. The destination and the sender are
the bytes of an address, or of a path in wasm. -/
structure EvmcMessage where
  kind : EvmcCallKind
  flags : UInt32
  depth : Int
  gas : Int
  destination : Bytes
  sender : Bytes
  inputData : Bytes
  value : U256
  create2Salt : U256
  deriving DecidableEq, Repr

def bytesToString (bytes : Bytes) : String :=
  String.ofList (bytes.map fun byte => Char.ofNat byte.toNat)

def hexValue (c : Char) : Option Nat :=
  if '0' ≤ c ∧ c ≤ '9' then some (c.toNat - 48)
  else if 'a' ≤ c ∧ c ≤ 'f' then some (c.toNat - 87)
  else if 'A' ≤ c ∧ c ≤ 'F' then some (c.toNat - 55)
  else none

def unhexDigits : List Char → Option Bytes
  | [] => some []
  | [_] => none
  | high :: low :: rest => do
    let h ← hexValue high
    let l ← hexValue low
    let bytes ← unhexDigits rest
    some (UInt8.ofNat (16 * h + l) :: bytes)

/-- There are no bytes where the code throws. -/
def unhex (s : String) : Option Bytes :=
  unhexDigits s.toList

/-- The precompiled contracts that are called in place. -/
structure BuiltIns where
  isBuiltInPrecompiled : String → Bool
  isEthereumPrecompiled : String → Bool

/-- What becomes of a message of the virtual machine. -/
inductive Requested
  | throws (e : Exc)
  | callBuiltInPrecompiled (request : CallParameters) (isEvmPrecompiled : Bool)
  | externalCall (request : CallParameters)
  deriving DecidableEq, Repr

namespace HostContext

def myAddress (host : HostContext) : String :=
  host.callParameters.codeAddress

/-- The switch over the kind of the message. -/
def convertMessage (context : BlockContext) (msg : EvmcMessage) (request : CallParameters) :
    Except Exc CallParameters :=
  match msg.kind with
  | .create2 => .ok { request with createSalt := some msg.create2Salt.toNat }
  | .call =>
    let receiveAddress :=
      if context.isWasm then bytesToString msg.destination else toHex msg.destination
    .ok { request with
      receiveAddress
      codeAddress := receiveAddress
      data := msg.inputData }
  | .delegatecall | .callcode =>
    .error (.error (-1) "Unsupported opcode EVM_DELEGATECALL or EVM_CALLCODE")
  | .create => .ok { request with data := msg.inputData, create := true }

/-- The flags of the message are not read. -/
def externalRequest (context : BlockContext) (builtIns : BuiltIns) (host : HostContext)
    (msg : EvmcMessage) : Requested :=
  let request : CallParameters :=
    { type := .message
      senderAddress := host.myAddress
      origin := host.callParameters.origin
      status := .none }
  match convertMessage context msg request with
  | .error e => .throws e
  | .ok request =>
    let request := { request with gas := msg.gas }
    if builtIns.isBuiltInPrecompiled request.receiveAddress then
      .callBuiltInPrecompiled request false
    else if builtIns.isEthereumPrecompiled request.receiveAddress && !context.isWasm then
      .callBuiltInPrecompiled request true
    else
      .externalCall { request with staticCall := host.callParameters.staticCall }

end HostContext

namespace TransactionExecutive

/-- The message that a virtual machine is started with. `params` are the arguments of a
constructor in wasm; an address that is not hexadecimal makes the code throw. -/
def getEVMCMessage (context : BlockContext) (host : HostContext) (params : Bytes) :
    Option EvmcMessage :=
  let message (destination sender inputData : Bytes) : EvmcMessage :=
    { kind := if host.isCreate then .create else .call
      flags := if host.callParameters.staticCall then EVMC_STATIC else 0
      depth := 0
      gas := host.callParameters.gas
      destination
      sender
      inputData
      value := 0
      create2Salt := 0 }
  if context.isWasm then
    some (message (ascii host.myAddress) (ascii host.callParameters.senderAddress)
      (if host.isCreate then params else host.callParameters.data))
  else do
    let myAddressBytes ← unhex host.myAddress
    let callerBytes ← unhex host.callParameters.senderAddress
    some (message myAddressBytes callerBytes host.callParameters.data)

variable {κ : Type}

def KeepsInput (p : CallParameters) : Settled (CallParameters × Bytes × Bytes) → Prop
  | .goOn (p', _, _) => ∃ data, p' = { p with data }
  | .ends _ => True

theorem keepsInput_decodeInput (env : Environment) (p : CallParameters) :
    (decodeInput env p : Script κ _).Returns (KeepsInput p) := by
  unfold decodeInput
  cases env.isWasm with
  | false => exact ⟨p.data, rfl⟩
  | true =>
    cases hd : env.decode p.data with
    | none => exact True.intro
    | some decoded =>
      obtain ⟨⟨code, params⟩, abi⟩ := decoded
      dsimp only
      cases hasWasmPreamble code with
      | false => exact True.intro
      | true =>
        cases env.injectMeter code with
        | none => exact True.intro
        | some byteCode => exact ⟨byteCode, rfl⟩

end TransactionExecutive

end BcosExecutor
