import BcosExecutor.Script

namespace BcosExecutor

/-- The bytes of a C++ string. -/
def ascii (s : String) : Bytes :=
  s.toList.map fun c => c.toNat.toUInt8

def sysTables : String := "s_tables"

def STORAGE_VALUE : String := "value"

def ACCOUNT_CODE_HASH : Bytes := ascii "codeHash"

def ACCOUNT_CODE : Bytes := ascii "code"

def ACCOUNT_ABI : Bytes := ascii "abi"

/-- The block context, and what the executive uses of the framework. -/
structure BlockContext where
  isWasm : Bool
  isAuthCheck : Bool
  evmSchedule : EVMSchedule := FiscoBcosScheduleV3
  hash : Bytes → Bytes

variable {κ : Type}

def getRow (table : String) (key : Bytes) : Script κ (Option Entry) :=
  .getRow ⟨table, key⟩ .pure

def setRow (table : String) (key : Bytes) (entry : Entry) : Script κ Unit :=
  .setRow ⟨table, key⟩ (some entry) (.pure ())

/-- Whether the table is there. -/
def openTable (tableName : String) : Script κ Bool := do
  let info ← getRow sysTables (ascii tableName)
  return info.isSome

def createTable (tableName valueFields : String) : Script κ Unit := do
  if ← openTable tableName then
    .throw (.error (-1) ("Table already exists: " ++ tableName))
  else
    setRow sysTables (ascii tableName) (ascii valueFields)

structure HostContext where
  callParameters : CallParameters
  tableName : String

namespace HostContext

def isCreate (host : HostContext) : Bool :=
  host.callParameters.create

def get (host : HostContext) (key : Bytes) : Script κ Bytes := do
  let entry ← getRow host.tableName key
  return entry.getD []

def set (host : HostContext) (key value : Bytes) : Script κ Unit :=
  setRow host.tableName key value

def setCode (context : BlockContext) (host : HostContext) (code : Bytes) : Script κ Bool := do
  if ← openTable host.tableName then
    setRow host.tableName ACCOUNT_CODE_HASH (context.hash code)
    setRow host.tableName ACCOUNT_CODE code
    return true
  else
    return false

def setCodeAndAbi (context : BlockContext) (host : HostContext) (code abi : Bytes) :
    Script κ Unit := do
  if ← host.setCode context code then
    setRow host.tableName ACCOUNT_ABI abi

def code (host : HostContext) : Script κ Bytes := do
  let entry ← getRow host.tableName ACCOUNT_CODE
  return entry.getD []

end HostContext

end BcosExecutor
