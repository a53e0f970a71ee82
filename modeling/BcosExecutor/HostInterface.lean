import BcosExecutor.Executive

namespace BcosExecutor

abbrev U256 := BitVec 256

def toEvmC (n : U256) : Bytes :=
  (List.range 32).map fun i => UInt8.ofNat (n.toNat >>> (8 * (31 - i)))

def fromBigEndian (bytes : Bytes) : U256 :=
  BitVec.ofNat 256 (bytes.foldl (fun n byte => 256 * n + byte.toNat) 0)

inductive StorageStatus
  | unchanged | modified | added | deleted
  deriving DecidableEq, Repr

variable {κ : Type}

namespace HostContext

def store (host : HostContext) (n : U256) : Script κ U256 := do
  let entry ← getRow host.tableName (toEvmC n)
  return (entry.map fromBigEndian).getD 0

def setStore (host : HostContext) (n v : U256) : Script κ Unit :=
  setRow host.tableName (toEvmC n) (toEvmC v)

def log (host : HostContext) (myAddress : Bytes) (topics : List Bytes) (data : Bytes) :
    HostContext :=
  { host with callParameters := { host.callParameters with
    logEntries := host.callParameters.logEntries ++ [⟨myAddress, topics, data⟩] } }

end HostContext

namespace EVMHostInterface

def setStorage (host : HostContext) (index value : U256) : Script κ StorageStatus := do
  let oldValue ← host.store index
  if value = oldValue then
    return .unchanged
  else do
    host.setStore index value
    return if oldValue = 0 then .added else if value = 0 then .deleted else .modified

/-- The buffer that the code is to be copied into is stored as the code of the contract. -/
def copyCode (context : BlockContext) (host : HostContext) (bufferData : Bytes) :
    Script κ Nat := do
  let _ ← host.setCode context bufferData
  return bufferData.length

/-- The value under the key, or nothing when it does not fit. -/
def get (host : HostContext) (key : Bytes) (valueLength : Nat) : Script κ (Option Bytes) := do
  let value ← host.get key
  return if valueLength < value.length then none else some value

def set (host : HostContext) (key value : Bytes) : Script κ StorageStatus := do
  let oldValue ← host.get key
  if value = oldValue then
    return .unchanged
  else do
    host.set key value
    return if oldValue.isEmpty then .added else if value.isEmpty then .deleted else .modified

end EVMHostInterface

/-- The functions of the two host tables. The asset functions of the wasm table and those
that only read the block header have no part in the storage. -/
inductive HostCall
  | accountExists
  | getStorage (key : U256)
  | setStorage (key value : U256)
  | getBalance
  | getCodeSize
  | getCodeHash
  | copyCode (codeOffset : Nat) (bufferData : Bytes)
  | selfdestruct
  | call (gas : Int)
  | log (topics : List Bytes) (data : Bytes)
  | get (key : Bytes) (valueLength : Nat)
  | set (key value : Bytes)
  | wasmCopyCode (codeOffset : Nat) (bufferData : Bytes)

inductive HostReply
  | flag (b : Bool)
  | word (n : U256)
  | size (n : Nat)
  | status (s : StorageStatus)
  | bytes (value : Option Bytes)
  | unit

namespace EVMHostInterface

/-- A call leaves the executive as a message and is answered by the run of another one. -/
def invoke (context : BlockContext) (host : HostContext) :
    HostCall → Script κ (HostContext × HostReply)
  | .accountExists => return (host, .flag true)
  | .getStorage key => do return (host, .word (← host.store key))
  | .setStorage key value => do return (host, .status (← setStorage host key value))
  | .getBalance => return (host, .word 0)
  | .getCodeSize => return (host, .size 1)
  | .getCodeHash => return (host, .word 0)
  | .copyCode _ bufferData | .wasmCopyCode _ bufferData => do
    return (host, .size (← copyCode context host bufferData))
  | .selfdestruct => return (host, .unit)
  | .call gas => if gas < 0 then .abort else return (host, .unit)
  | .log topics data => return (host.log (ascii host.callParameters.codeAddress) topics data, .unit)
  | .get key valueLength => do return (host, .bytes (← get host key valueLength))
  | .set key value => do return (host, .status (← set host key value))

end EVMHostInterface

end BcosExecutor
