import BcosExecutor.PrefixCode
import BcosExecutor.RowRuns
import BcosExecutor.ExternalRequest
import BcosExecutor.TableNames

namespace BcosExecutor

abbrev Address := {bytes : Bytes // bytes.length = 20}

abbrev String32 := {bytes : Bytes // bytes.length = 32}

/-- A `std::map`. -/
abbrev StdMap (α β : Type) := AList fun _ : α => β

abbrev MethodAuthMap := StdMap Bytes (StdMap Address Bool)

namespace ContractAuth

def CODE_SUCCESS : Int := 0

def CODE_NO_AUTHORIZED : Int := -50000

def CODE_TABLE_NOT_EXIST : Int := -50100

def CODE_TABLE_AUTH_ROW_NOT_EXIST : Int := -51001

def CODE_TABLE_AUTH_TYPE_NOT_EXIST : Int := -51002

def CODE_TABLE_ERROR_AUTH_TYPE : Int := -51003

def CODE_TABLE_AUTH_TYPE_DECODE_ERROR : Int := -51004

def WHITE_LIST_MODE : Int := 1

def BLACK_LIST_MODE : Int := 2

/-- What the contract uses of the framework: the codecs of its rows, those of its parameters,
and the conversions of numbers and addresses. A decoder that throws returns nothing. -/
structure AuthCodec where
  isWasm : Bool
  authType : Codec (StdMap Bytes Nat)
  methodAuth : Codec MethodAuthMap
  acl : Codec (StdMap Address Bool)
  /-- The path or the hexadecimal address of a contract, the selector and the type. -/
  decodeType : Bytes → Option (String × String32 × String32)
  decodeAccount : Bytes → Option (String × String32 × Address)
  decodeDeployType : Bytes → Option String32
  decodeDeployAccount : Bytes → Option Address
  toAddress : Bytes → Option Address
  committee : String
  lexicalCast : Bytes → Option Nat
  lexicalCast_toString : ∀ n ≤ 2, lexicalCast (ascii (toString n)) = some n

variable {κ : Type}

/-- A row of the block before, where there is one, or else of the current block. -/
def viewRow (last : Option Rows) (table : String) (key : Bytes) : Script κ (Option Entry) :=
  match last with
  | some rows => return rows ⟨table, key⟩
  | none => getRow table key

def viewTable (last : Option Rows) (tableName : String) : Script κ Bool := do
  let info ← viewRow last sysTables (ascii tableName)
  return info.isSome

def selectorOf (func : String32) : Bytes :=
  func.val.take 4

/-- The last byte. -/
def typeOf (type : String32) : Nat :=
  (type.val.getLast?.getD 0).toNat

/-- Whether the account is on the list under the method: the flag that is stored with it. -/
def MethodAuthMap.flag (m : MethodAuthMap) (func : Bytes) (account : Address) : Option Bool :=
  (m.lookup func).bind fun accounts => accounts.lookup account

def MethodAuthMap.set (m : MethodAuthMap) (func : Bytes) (account : Address) (access : Bool) :
    MethodAuthMap :=
  match m.lookup func with
  | some accounts => m.insert func (accounts.insert account access)
  | none => m.insert func (AList.singleton account access)

section

variable (c : AuthCodec) (last : Option Rows)

def getMethodAuthType (path : String) (func : Bytes) : Script κ Int := do
  -- the table is used without a look whether it is there
  if !(← viewTable last path) then
    .abort
  else
    match ← viewRow last path METHOD_AUTH_TYPE with
    | none => return CODE_TABLE_AUTH_TYPE_NOT_EXIST
    | some field =>
      if field.isEmpty then return CODE_TABLE_AUTH_TYPE_NOT_EXIST
      else
        match c.authType.decode field with
        | none => return CODE_TABLE_AUTH_TYPE_DECODE_ERROR
        | some authTypeMap =>
          match authTypeMap.lookup func with
          | none => return CODE_TABLE_AUTH_TYPE_NOT_EXIST
          | some type => return (type : Int)

def getContractAdmin (path : String) : Script κ Bytes := do
  if !(← viewTable last path) then
    return []
  else
    return (← viewRow last path ADMIN_FIELD).getD []

/-- Whether the sender is the admin; an address that cannot be read makes the code throw. -/
def isAdmin (path sender : String) : Script κ Bool := do
  match c.toAddress (← getContractAdmin last path), c.toAddress (ascii sender) with
  | some admin, some sender => return decide (sender = admin)
  | _, _ => .throw (.stdException "address")

def setMethodAuthType (data : Bytes) (sender : String) : Script κ Int :=
  match c.decodeType data with
  | none => .throw (.stdException "decode")
  | some (name, func, type) => do
    let path := getAuthTableName name
    if !(← openTable path) then
      return CODE_TABLE_NOT_EXIST
    else if !(← isAdmin c last path sender) then
      return CODE_NO_AUTHORIZED
    else
      match ← getRow path METHOD_AUTH_TYPE with
      | none => return CODE_TABLE_AUTH_ROW_NOT_EXIST
      | some field =>
        let written (authTypeMap : StdMap Bytes Nat) : Script κ Int := do
          setRow path METHOD_AUTH_TYPE
            (c.authType.encode (authTypeMap.insert (selectorOf func) (typeOf type)))
          return CODE_SUCCESS
        if field.isEmpty then written ∅
        else
          match c.authType.decode field with
          | none => .throw (.stdException "decode")
          | some authTypeMap => written authTypeMap

/-- The row of the list of a type. -/
def listRow (authType : Int) : Option Bytes :=
  if authType = WHITE_LIST_MODE then some METHOD_AUTH_WHITE
  else if authType = BLACK_LIST_MODE then some METHOD_AUTH_BLACK
  else none

def accessOf (isClose : Bool) (authType : Int) : Bool :=
  if isClose then authType = BLACK_LIST_MODE else authType = WHITE_LIST_MODE

def setMethodAuth (data : Bytes) (isClose : Bool) (sender : String) : Script κ Int :=
  match c.decodeAccount data with
  | none => .throw (.stdException "decode")
  | some (name, func, account) => do
    let path := getAuthTableName name
    if !(← openTable path) then
      return CODE_TABLE_NOT_EXIST
    else
      let authType ← getMethodAuthType c last path (selectorOf func)
      if authType ≤ 0 then
        return authType
      else if !(← isAdmin c last path sender) then
        return CODE_NO_AUTHORIZED
      else
        match listRow authType with
        | none => return CODE_TABLE_ERROR_AUTH_TYPE
        | some typeRow =>
          let field := (← getRow path typeRow).getD []
          let access := accessOf isClose authType
          let written (authMap : MethodAuthMap) : Script κ Int := do
            setRow path typeRow
              (c.methodAuth.encode (MethodAuthMap.set authMap (selectorOf func) account access))
            return CODE_SUCCESS
          if field.isEmpty then written ∅
          else
            match c.methodAuth.decode field with
            | none => return CODE_TABLE_AUTH_ROW_NOT_EXIST
            | some authMap => written authMap

def openMethodAuth (data : Bytes) (sender : String) : Script κ Int :=
  setMethodAuth c last data false sender

def closeMethodAuth (data : Bytes) (sender : String) : Script κ Int :=
  setMethodAuth c last data true sender

def checkMethodAuth (name : String) (func : Bytes) (account : Address) : Script κ Bool := do
  let path := getAuthTableName name
  if !(← viewTable last path) then
    return true
  else
    let authType ← getMethodAuthType c last path func
    if authType = CODE_TABLE_AUTH_TYPE_NOT_EXIST then
      return true
    else
      match listRow authType with
      | none => return false
      | some typeRow =>
        let field := (← viewRow last path typeRow).getD []
        if field.isEmpty then
          return decide (authType = BLACK_LIST_MODE)
        else
          match c.methodAuth.decode field with
          | none => .throw (.stdException "decode")
          | some authMap =>
            match authMap.lookup func with
            -- the type of the list plays no part here
            | none => return true
            | some accounts =>
              match accounts.lookup account with
              | none => return decide (authType = BLACK_LIST_MODE)
              | some access =>
                return if authType = BLACK_LIST_MODE then !access else access

/-- What follows the lookup of a row that is used without a look whether it is there. -/
def present (entry : Option Entry) (k : Entry → Script κ α) : Script κ α :=
  match entry with
  | some field => k field
  | none => .abort

def getDeployAuthType : Script κ Nat := do
  if !(← viewTable last "/apps") then
    .abort
  else
    present (← viewRow last "/apps" FS_ACL_TYPE) fun field =>
      return (c.lexicalCast field).getD 0

def setDeployType (data : Bytes) (sender : String) : Script κ Int :=
  match c.decodeDeployType data with
  | none => .throw (.stdException "decode")
  | some type =>
    if sender ≠ c.committee then
      return CODE_NO_AUTHORIZED
    else if 2 < (typeOf type) then
      return CODE_TABLE_ERROR_AUTH_TYPE
    else do
      if !(← openTable "/apps") then
        .abort
      else do
        setRow "/apps" FS_ACL_TYPE (ascii (toString (typeOf type)))
        return CODE_SUCCESS

def setDeployAuth (data : Bytes) (isClose : Bool) (sender : String) : Script κ Int :=
  match c.decodeDeployAccount data with
  | none => .throw (.stdException "decode")
  | some account =>
    if sender ≠ c.committee then
      return CODE_NO_AUTHORIZED
    else do
      let opened ← openTable "/apps"
      let type ← getDeployAuthType c last
      let aclRow := if (type : Int) = BLACK_LIST_MODE then FS_ACL_BLACK else FS_ACL_WHITE
      if !opened then
        .abort
      else
        present (← getRow "/apps" aclRow) fun field =>
          let access := accessOf isClose type
          let written (aclMap : StdMap Address Bool) : Script κ Int := do
            setRow "/apps" aclRow (c.acl.encode (aclMap.insert account access))
            return CODE_SUCCESS
          if field.isEmpty then written ∅
          else
            match c.acl.decode field with
            | none => .throw (.stdException "decode")
            | some aclMap => written aclMap

def openDeployAuth (data : Bytes) (sender : String) : Script κ Int :=
  setDeployAuth c last data false sender

def closeDeployAuth (data : Bytes) (sender : String) : Script κ Int :=
  setDeployAuth c last data true sender

def checkDeployAuth (account : Address) : Script κ Bool := do
  let opened ← viewTable last "/apps"
  let type ← getDeployAuthType c last
  if type = 0 then
    return true
  else
    let aclRow := if (type : Int) = WHITE_LIST_MODE then FS_ACL_WHITE else FS_ACL_BLACK
    if !opened then
      .abort
    else
      present (← viewRow last "/apps" aclRow) fun field =>
        if field.isEmpty then
          return decide ((type : Int) = BLACK_LIST_MODE)
        else
          match c.acl.decode field with
          | none => .throw (.stdException "decode")
          | some aclMap =>
            match aclMap.lookup account with
            | none => return decide ((type : Int) = BLACK_LIST_MODE)
            | some access =>
              return if (type : Int) = BLACK_LIST_MODE then !access else access

end

def succeeded : Option (Except Exc Int) → Bool
  | some (.ok code) => code == CODE_SUCCESS
  | _ => false

/-- The map that a row holds, the empty row holding the empty one. -/
def readMap {α β : Type} (codec : Codec (StdMap α β)) (field : Bytes) : Option (StdMap α β) :=
  if field.isEmpty then some ∅ else codec.decode field

@[simp] theorem viewRow_onRows (last : Option Rows) (table : String) (key : Bytes) (s : Rows) :
    (viewRow last table key : Script Empty _).onRows s =
      (some (.ok (last.getD s ⟨table, key⟩)), s) := by
  cases last <;> rfl

@[simp] theorem viewTable_onRows (last : Option Rows) (tableName : String) (s : Rows) :
    (viewTable last tableName : Script Empty _).onRows s =
      (some (.ok (last.getD s ⟨sysTables, ascii tableName⟩).isSome), s) := by
  unfold viewTable
  rw [Script.onRows_bind, viewRow_onRows]
  rfl

theorem readMap_eq {α β : Type} {codec : Codec (StdMap α β)} {field : Bytes} {m : StdMap α β}
    (h : readMap codec field = some m) :
    field = [] ∧ m = ∅ ∨ field.isEmpty = false ∧ codec.decode field = some m := by
  unfold readMap at h
  cases field with
  | nil => exact .inl ⟨rfl, (Option.some.inj h).symm⟩
  | cons b bs => exact .inr ⟨rfl, h⟩

theorem readMap_encode {α β : Type} (codec : Codec (StdMap α β)) (m : StdMap α β) :
    readMap codec (codec.encode m) = some m := by
  have hne := codec.encode_ne_nil m
  unfold readMap
  rw [if_neg (by simpa using hne), codec.decode_encode]

theorem readsOnly_viewRow (last : Option Rows) (table : String) (key : Bytes) :
    (viewRow last table key : Script Empty _).ReadsOnly := by
  cases last with
  | none => exact fun _ => True.intro
  | some rows => exact True.intro

theorem readsOnly_viewTable (last : Option Rows) (tableName : String) :
    (viewTable last tableName : Script Empty _).ReadsOnly :=
  Script.readsOnly_bind (readsOnly_viewRow _ _ _) fun _ => True.intro

/-- The rows and the parameters as SCALE has them while all lengths are below 64. -/
def scaleCodec : AuthCodec where
  isWasm := true
  authType := (PrefixCode.byte.list.map PrefixCode.length).toCodec
    (PrefixCode.map_encode_ne_nil _ _)
  methodAuth := (PrefixCode.byte.list.map
    ((PrefixCode.byte.fixed 20).map PrefixCode.bool)).toCodec (PrefixCode.map_encode_ne_nil _ _)
  acl := ((PrefixCode.byte.fixed 20).map PrefixCode.bool).toCodec (PrefixCode.map_encode_ne_nil _ _)
  decodeType data := do
    let (name, data) ← PrefixCode.byte.list.decode data
    let (func, data) ← (PrefixCode.byte.fixed 32).decode data
    let (type, _) ← (PrefixCode.byte.fixed 32).decode data
    some (bytesToString name, func, type)
  decodeAccount data := do
    let (name, data) ← PrefixCode.byte.list.decode data
    let (func, data) ← (PrefixCode.byte.fixed 32).decode data
    let (account, _) ← (PrefixCode.byte.fixed 20).decode data
    some (bytesToString name, func, account)
  decodeDeployType data := ((PrefixCode.byte.fixed 32).decode data).map Prod.fst
  decodeDeployAccount data := ((PrefixCode.byte.fixed 20).decode data).map Prod.fst
  toAddress bytes := do
    let address ← unhex (bytesToString bytes)
    if h : address.length = 20 then some ⟨address, h⟩ else none
  committee := "0000000000000000000000000000000000010001"
  lexicalCast bytes :=
    if bytes.all fun byte => 48 ≤ byte.toNat && byte.toNat ≤ 57 then
      some (bytes.foldl (fun n byte => 10 * n + (byte.toNat - 48)) 0)
    else none
  lexicalCast_toString := by decide

end ContractAuth

end BcosExecutor
