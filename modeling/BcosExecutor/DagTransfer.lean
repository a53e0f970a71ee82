import BcosExecutor.HostInterface
import BcosExecutor.LocalEffects
import BcosExecutor.PrecompiledGas
import BcosExecutor.RowRuns
import BcosExecutor.TxCriticals

namespace BcosExecutor

namespace DagTransfer

def METHOD_BAL_STR : String := "userBalance(string)"

/-- The name with the prefix of the tables of users. -/
def dagTableName : String := "/tables/" ++ "dag_transfer"

def CODE_INVALID_USER_NAME : Int := -51400

def CODE_INVALID_AMOUNT : Int := -51401

def CODE_INVALID_USER_NOT_EXIST : Int := -51402

def CODE_INVALID_USER_ALREADY_EXIST : Int := -51403

def CODE_INVALID_INSUFFICIENT_BALANCE : Int := -51404

def CODE_INVALID_BALANCE_OVERFLOW : Int := -51405

/-- A string whose characters are the bytes of one of C++. -/
def IsCppString (s : String) : Prop :=
  ∀ c ∈ s.toList, c.toNat < 256

/-- The codec of the parameters and the results, and the conversions of numbers. -/
structure Codec where
  getFuncSelector : String → UInt32
  decodeUserAmount : Bool → Bytes → Except Exc (String × U256)
  decodeTransfer : Bool → Bytes → Except Exc (String × String × U256)
  decodeUser : Bool → Bytes → Except Exc String
  encode : Bool → Int → Bytes
  encodeBalance : Bool → Int → U256 → Bytes
  str : U256 → Bytes
  /-- There is no number where the conversion throws. -/
  toU256 : Bytes → Option U256
  userAmount_cppString : ∀ w data user amount,
    decodeUserAmount w data = .ok (user, amount) → IsCppString user
  transfer_cppString : ∀ w data fromUser toUser amount,
    decodeTransfer w data = .ok (fromUser, toUser, amount) →
      IsCppString fromUser ∧ IsCppString toUser

/-- What the tags are read with. -/
def Codec.reader (c : Codec) (r : CriticalsReader) : CriticalsReader :=
  { r with
    getFuncSelector := c.getFuncSelector
    decodeUser := fun w data => (c.decodeUserAmount w data).map fun x => x.1
    decodeUsers := fun w data => (c.decodeTransfer w data).map fun x => (x.1, x.2.1) }

variable {κ : Type}

def ofExcept {α : Type} : Except Exc α → Script κ α
  | .ok a => .pure a
  | .error e => .throw e

def ofOption {α : Type} : Option α → Script κ α
  | some a => .pure a
  | none => .throw (.stdException "u256")

/-- The table is there afterwards. -/
def openTable : Script κ Unit := do
  if !(← BcosExecutor.openTable dagTableName) then
    createTable dagTableName "balance"

def getBalance (user : String) : Script κ (Option Entry) :=
  getRow dagTableName (ascii user)

section

variable (c : Codec) (isWasm : Bool)

def setBalance (user : String) (balance : U256) : Script κ Unit :=
  setRow dagTableName (ascii user) (c.str balance)

def userAddCall (data : Bytes) : Script κ Bytes := do
  let (user, amount) ← ofExcept (c.decodeUserAmount isWasm data)
  if user.isEmpty then
    return c.encode isWasm CODE_INVALID_USER_NAME
  else do
    openTable
    match ← getBalance user with
    | some _ => return c.encode isWasm CODE_INVALID_USER_ALREADY_EXIST
    | none => do
      setBalance c user amount
      return c.encode isWasm 0

def userSaveCall (data : Bytes) : Script κ Bytes := do
  let (user, amount) ← ofExcept (c.decodeUserAmount isWasm data)
  if user.isEmpty then
    return c.encode isWasm CODE_INVALID_USER_NAME
  else if amount = 0 then
    return c.encode isWasm CODE_INVALID_AMOUNT
  else do
    openTable
    match ← getBalance user with
    | none => do
      setBalance c user amount
      return c.encode isWasm 0
    | some entry => do
      let balance ← ofOption (c.toU256 entry)
      let newBalance := balance + amount
      if newBalance < balance then
        return c.encode isWasm CODE_INVALID_BALANCE_OVERFLOW
      else do
        setBalance c user newBalance
        return c.encode isWasm 0

def userDrawCall (data : Bytes) : Script κ Bytes := do
  let (user, amount) ← ofExcept (c.decodeUserAmount isWasm data)
  if user.isEmpty then
    return c.encode isWasm CODE_INVALID_USER_NAME
  else if amount = 0 then
    return c.encode isWasm CODE_INVALID_AMOUNT
  else do
    openTable
    match ← getBalance user with
    | none => return c.encode isWasm CODE_INVALID_USER_NOT_EXIST
    | some entry => do
      let balance ← ofOption (c.toU256 entry)
      if balance < amount then
        return c.encode isWasm CODE_INVALID_INSUFFICIENT_BALANCE
      else do
        setBalance c user (balance - amount)
        return c.encode isWasm 0

def userBalanceCall (data : Bytes) : Script κ Bytes := do
  let user ← ofExcept (c.decodeUser isWasm data)
  if user.isEmpty then
    return c.encodeBalance isWasm CODE_INVALID_USER_NAME 0
  else do
    openTable
    match ← getBalance user with
    | none => return c.encodeBalance isWasm CODE_INVALID_USER_NOT_EXIST 0
    | some entry => do
      let balance ← ofOption (c.toU256 entry)
      return c.encodeBalance isWasm 0 balance

/-- The balance of the user that is paid, who is added first where there is none. -/
def balanceOrAdd (toUser : String) : Script κ U256 := do
  match ← getBalance toUser with
  | none => do
    setBalance c toUser 0
    return 0
  | some entry => ofOption (c.toU256 entry)

def userTransferCall (data : Bytes) : Script κ Bytes := do
  let (fromUser, toUser, amount) ← ofExcept (c.decodeTransfer isWasm data)
  if fromUser.isEmpty || toUser.isEmpty then
    return c.encode isWasm CODE_INVALID_USER_NAME
  else if amount = 0 then
    return c.encode isWasm CODE_INVALID_AMOUNT
  else if fromUser = toUser then
    return c.encode isWasm 0
  else do
    openTable
    match ← getBalance fromUser with
    | none => return c.encode isWasm CODE_INVALID_USER_NOT_EXIST
    | some entry => do
      let fromUserBalance ← ofOption (c.toU256 entry)
      if fromUserBalance < amount then
        return c.encode isWasm CODE_INVALID_INSUFFICIENT_BALANCE
      else do
        let toUserBalance ← balanceOrAdd c toUser
        if toUserBalance + amount < toUserBalance then
          return c.encode isWasm CODE_INVALID_BALANCE_OVERFLOW
        else do
          setBalance c fromUser (fromUserBalance - amount)
          setBalance c toUser (toUserBalance + amount)
          return c.encode isWasm 0

/-- The function of the selector; an unknown one leaves the result empty. -/
def dispatch (func : UInt32) (data : Bytes) : Script κ Bytes :=
  if func = c.getFuncSelector METHOD_ADD_STR_UINT then userAddCall c isWasm data
  else if func = c.getFuncSelector METHOD_SAV_STR_UINT then userSaveCall c isWasm data
  else if func = c.getFuncSelector METHOD_DRAW_STR_UINT then userDrawCall c isWasm data
  else if func = c.getFuncSelector METHOD_TRS_STR2_UINT then userTransferCall c isWasm data
  else if func = c.getFuncSelector METHOD_BAL_STR then userBalanceCall c isWasm data
  else return []

def priced (execResult : Bytes) : PrecompiledExecResult where
  execResult
  gas := (({} : PrecompiledGas).updateMemUsed execResult.length.toUInt64).calTotalGas

def call (param : Bytes) : Script κ PrecompiledExecResult :=
  match getParamFunc param with
  | .ok func => do
    let execResult ← dispatch c isWasm func (getParamData param)
    return priced execResult
  | .error (.thrown e) => .throw e
  | .error .assertion | .error .undefined => .abort

end

end DagTransfer

end BcosExecutor
