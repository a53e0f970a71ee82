import BcosExecutor.DagExecute
import BcosExecutor.HostContext
import BcosExecutor.ParamData
import Mathlib.Algebra.Group.Nat.Defs

namespace BcosExecutor

open ExceptRuns

/-- The registered precompiled contracts: only one of them has parallel tags. -/
inductive Precompiled
  | dagTransfer | serial
  deriving DecidableEq, Repr

def Precompiled.isParallelPrecompiled : Precompiled → Bool
  | dagTransfer => true
  | serial => false

structure ParallelConfig where
  functionName : String
  criticalSize : Nat
  deriving DecidableEq, Repr

/-- What `getTxCriticals` reads and calls besides the parameters of the transaction: the
contracts, the selectors that the hash gives, the storage of the block and the codecs. -/
structure CriticalsReader where
  isWasm : Bool
  getPrecompiled : String → Option Precompiled
  getFuncSelector : String → UInt32
  getRow : StateRow → Except Exc (Option Entry)
  getObject : Entry → Except Exc ParallelConfig
  decodeUser : Bool → Bytes → Except Exc String
  decodeUsers : Bool → Bytes → Except Exc (String × String)
  parser : String → Except Exc (Option (List String))
  abiOutByFuncSelector : Bytes → List String → Except Exc (Option (List String))

namespace DagTransfer

def METHOD_ADD_STR_UINT : String := "userAdd(string,uint256)"

def METHOD_SAV_STR_UINT : String := "userSave(string,uint256)"

def METHOD_DRAW_STR_UINT : String := "userDraw(string,uint256)"

def METHOD_TRS_STR2_UINT : String := "userTransfer(string,string,uint256)"

/-- The functions whose tag is one user. -/
def takesUser (r : CriticalsReader) (func : UInt32) : Prop :=
  func = r.getFuncSelector METHOD_ADD_STR_UINT ∨ func = r.getFuncSelector METHOD_SAV_STR_UINT ∨
    func = r.getFuncSelector METHOD_DRAW_STR_UINT

instance (r : CriticalsReader) (func : UInt32) : Decidable (takesUser r func) := by
  unfold takesUser
  infer_instance

def tagOf (r : CriticalsReader) (isWasm : Bool) (data : Bytes) (func : UInt32) :
    Checked (List String) :=
  if takesUser r func then do
    let user ← orThrow (r.decodeUser isWasm data)
    return if user.isEmpty then [] else [user]
  else if func = r.getFuncSelector METHOD_TRS_STR2_UINT then do
    let users ← orThrow (r.decodeUsers isWasm data)
    return if users.1.isEmpty || users.2.isEmpty then [] else [users.1, users.2]
  else
    return []

def getParallelTag (r : CriticalsReader) (param : Bytes) (isWasm : Bool) :
    Checked (List String) := do
  tagOf r isWasm (getParamData param) (← getParamFunc param)

end DagTransfer

def PARA_CONFIG_TABLE_PREFIX_SHORT : String := "cp_"

namespace CriticalsReader

variable (r : CriticalsReader)

def getParallelConfig (contractAddress : String) (selector : UInt32) :
    Except Exc (Option ParallelConfig) := do
  let tableName := PARA_CONFIG_TABLE_PREFIX_SHORT ++ contractAddress
  match ← r.getRow ⟨sysTables, ascii tableName⟩ with
  | none => return none
  | some _ =>
    match ← r.getRow ⟨tableName, ascii (toString selector.toNat)⟩ with
    | none => return none
    | some entry => some <$> r.getObject entry

/-- The keys among the arguments, which the configuration counts. -/
def decodeCriticals (data : Bytes) (config : ParallelConfig) :
    Except Exc (Option (List String)) := do
  match ← r.parser config.functionName with
  | none => return none
  | some paramTypes =>
    let criticalSize := config.criticalSize % 2 ^ 64
    if paramTypes.length < criticalSize then return none
    else r.abiOutByFuncSelector (getParamData data) (paramTypes.take criticalSize)

def getParallelCriticals (params : CallParameters) : Checked (Option (List String)) := do
  let selector ← getParamFunc params.data
  match ← orThrow (r.getParallelConfig params.receiveAddress selector) with
  | none => return none
  | some config => orThrow (r.decodeCriticals params.data config)

def getTxCriticals (params : CallParameters) : Checked (List String) :=
  if params.create then .ok []
  else
    match r.getPrecompiled params.receiveAddress with
    | some p =>
      if p.isParallelPrecompiled then
        (·.map (· ++ params.receiveAddress)) <$> DagTransfer.getParallelTag r params.data r.isWasm
      else .ok []
    | none =>
      (fun res => (res.getD []).map (· ++ params.receiveAddress)) <$> r.getParallelCriticals params

/-- The decoders of the called function return. -/
def DecodesTag (data : Bytes) : Prop :=
  4 ≤ data.length ∧ ∀ func, getParamFunc data = .ok func →
    (DagTransfer.takesUser r func →
      ∃ user, r.decodeUser r.isWasm (getParamData data) = .ok user) ∧
    (¬ DagTransfer.takesUser r func →
      func = r.getFuncSelector DagTransfer.METHOD_TRS_STR2_UINT →
      ∃ users, r.decodeUsers r.isWasm (getParamData data) = .ok users)

/-- The configuration is read, and what it says of the arguments is decoded. -/
def DecodesCriticals (params : CallParameters) : Prop :=
  4 ≤ params.data.length ∧ ∀ func, getParamFunc params.data = .ok func →
    ∃ config, r.getParallelConfig params.receiveAddress func = .ok config ∧
      ∀ c, config = some c → ∃ res, r.decodeCriticals params.data c = .ok res

def Analysable (params : CallParameters) : Prop :=
  params.create = false →
    (r.getPrecompiled params.receiveAddress = some .dagTransfer → r.DecodesTag params.data) ∧
    (r.getPrecompiled params.receiveAddress = none → r.DecodesCriticals params)

variable {r}

end CriticalsReader

end BcosExecutor
