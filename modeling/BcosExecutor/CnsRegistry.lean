import BcosExecutor.DagTransferCommutes
import BcosExecutor.FileSystem

namespace BcosExecutor

namespace CNSPrecompiled

open ContractAuth (CODE_SUCCESS)
open FileSystem (USER_APPS_PREFIX)
open KVTableFactory (USER_TABLE_FIELD_VALUE_MAX_LENGTH CODE_TABLE_KEY_VALUE_LENGTH_OVERFLOW)

def SYS_CNS : String := "s_cns"

def ACCOUNT_FROZEN : Bytes := ascii "frozen"

def CNS_VERSION_MAX_LENGTH : Nat := 128

def CNS_CONTRACT_NAME_MAX_LENGTH : Nat := 128

def CODE_TABLE_FIELD_VALUE_LENGTH_OVERFLOW : Int := -50006

def CODE_ADDRESS_OR_VERSION_ERROR : Int := -51202

def CODE_VERSION_LENGTH_OVERFLOW : Int := -51201

def CODE_ADDRESS_AND_VERSION_EXIST : Int := -51200

def isSpace (byte : UInt8) : Bool :=
  byte = 32 || 9 ≤ byte && byte ≤ 13

def trim (s : Bytes) : Bytes :=
  ((s.dropWhile isSpace).reverse.dropWhile isSpace).reverse

/-- The addresses that are passed to a contract: strings on a wasm chain, else words. -/
def InterfaceAddress : Bool → Type
  | true => Bytes
  | false => {address : Bytes // address.length = 20}

/-- How an address is written down, with `address.hex()` where it is a word. -/
def InterfaceAddress.stored : {isWasm : Bool} → InterfaceAddress isWasm → Bytes
  | true, path => path
  | false, address => ascii (toHex address.val)

/-- What stands for no address. -/
def InterfaceAddress.none : {isWasm : Bool} → InterfaceAddress isWasm
  | true => ([] : Bytes)
  | false => ⟨List.replicate 20 0, rfl⟩

abbrev CNSInfoMap := StdMap Bytes (Bytes × Bytes)

/-- The chain that the registry is on, with the codec of its entries and the conversions of the
framework. -/
structure Context where
  isWasm : Bool
  cnsInfo : Codec CNSInfoMap
  toAddress : Bytes → {address : Bytes // address.length = 20}
  toAddress_toHex : ∀ address, toAddress (ascii (toHex address.val)) = address
  isEmptyHash : Bytes → Bool

namespace Context

variable (x : Context)

def readAddress : (isWasm : Bool) → Bytes → InterfaceAddress isWasm
  | true, path => path
  | false, address => x.toAddress address

theorem readAddress_stored {isWasm : Bool} (address : InterfaceAddress isWasm) :
    x.readAddress isWasm address.stored = address := by
  cases isWasm with
  | true => rfl
  | false => exact x.toAddress_toHex address

end Context

structure CNSInfo where
  name : Bytes
  version : Bytes
  address : Bytes
  abi : Bytes
  deriving DecidableEq

/-- What a call gives back to be encoded. -/
inductive Reply (isWasm : Bool)
  | code (code : Int)
  | listed (infos : List CNSInfo)
  | binding (address : InterfaceAddress isWasm) (abi : Bytes)
  | address (address : InterfaceAddress isWasm)

inductive ContractStatus
  | available
  | frozen
  | addressNonExistent
  | notContractAddress

section

variable {κ : Type} (x : Context)

def getContractStatus (tableName : String) : Script κ ContractStatus := do
  if ← openTable tableName then
    match ← getRow tableName ACCOUNT_CODE_HASH with
    | none => return .available
    | some codeHash =>
      if x.isEmptyHash codeHash then
        return .notContractAddress
      else
        if (← getRow tableName ACCOUNT_FROZEN) = some (ascii "true") then
          return .frozen
        else
          return .available
  else
    return .addressNonExistent

def checkLengthValidate (fieldValue : Bytes) (maxLength : Nat) (errorCode : Int) :
    Except Exc Unit :=
  if maxLength < fieldValue.length then
    .error (.precompiledError (some (" error code: " ++ toString errorCode)))
  else .ok ()

/-- The checks of the trimmed names. -/
def checkNames (contractName contractVersion contractAbi : Bytes) : Except Exc Int :=
  if CNS_VERSION_MAX_LENGTH < contractVersion.length then .ok CODE_VERSION_LENGTH_OVERFLOW
  -- a comma
  else if 44 ∈ contractVersion ∨ 44 ∈ contractName then .ok CODE_ADDRESS_OR_VERSION_ERROR
  else do
    checkLengthValidate contractName CNS_CONTRACT_NAME_MAX_LENGTH
      CODE_TABLE_KEY_VALUE_LENGTH_OVERFLOW
    checkLengthValidate contractAbi USER_TABLE_FIELD_VALUE_MAX_LENGTH
      CODE_TABLE_FIELD_VALUE_LENGTH_OVERFLOW
    return CODE_SUCCESS

/-- The code with the name and the version, which have been trimmed. The status of the contract
is only written to the log. -/
def checkCNSParam (contractAddress contractName contractVersion contractAbi : Bytes) :
    Script κ (Int × Bytes × Bytes) := do
  let contractName := trim contractName
  let contractVersion := trim contractVersion
  let _ ← getContractStatus x (USER_APPS_PREFIX ++ bytesToString contractAddress)
  match checkNames contractName contractVersion contractAbi with
  | .error e => .throw e
  | .ok code => return (code, contractName, contractVersion)

def insert (contractName contractVersion : Bytes) (address : InterfaceAddress x.isWasm)
    (contractAbi : Bytes) : Script κ Int := do
  let contractAddress := address.stored
  let (validCode, contractName, contractVersion) ←
    checkCNSParam x contractAddress contractName contractVersion contractAbi
  if validCode < 0 then
    return CODE_VERSION_LENGTH_OVERFLOW
  else do
    foundTable SYS_CNS SYS_VALUE_FIELDS
    match ← getRow SYS_CNS contractName with
    | some entry =>
      match x.cnsInfo.decode entry with
      | none => .throw (.stdException "decode")
      | some cnsInfo =>
        if contractVersion ∈ cnsInfo then
          return CODE_ADDRESS_AND_VERSION_EXIST
        else do
          setRow SYS_CNS contractName (x.cnsInfo.encode
            (cnsInfo.insertNew contractVersion (contractAddress, contractAbi)))
          return CODE_SUCCESS
    | none => do
      setRow SYS_CNS contractName (x.cnsInfo.encode
        ((∅ : CNSInfoMap).insertNew contractVersion (contractAddress, contractAbi)))
      return CODE_SUCCESS

/-- The name is taken as it comes. -/
def selectByName (contractName : Bytes) : Script κ (List CNSInfo) := do
  foundTable SYS_CNS SYS_VALUE_FIELDS
  match ← getRow SYS_CNS contractName with
  | some entry =>
    match x.cnsInfo.decode entry with
    | none => .throw (.stdException "decode")
    | some cnsInfoMap =>
      return cnsInfoMap.entries.map fun cnsInfo =>
        ⟨contractName, cnsInfo.1, cnsInfo.2.1, cnsInfo.2.2⟩
  | none => return []

/-- The two readers of one version, which differ in what they give back when there is one. -/
def selectVersion (found : InterfaceAddress x.isWasm → Bytes → Reply x.isWasm)
    (contractName contractVersion : Bytes) : Script κ (Reply x.isWasm) := do
  foundTable SYS_CNS SYS_VALUE_FIELDS
  let contractName := trim contractName
  let contractVersion := trim contractVersion
  match ← getRow SYS_CNS contractName with
  | none => return .binding .none []
  | some entry =>
    match x.cnsInfo.decode entry with
    | none => .throw (.stdException "decode")
    | some cnsInfoMap =>
      match cnsInfoMap.lookup contractVersion with
      | none => return .binding .none []
      | some (contractAddress, abi) => return found (x.readAddress x.isWasm contractAddress) abi

def selectByNameAndVersion (contractName contractVersion : Bytes) : Script κ (Reply x.isWasm) :=
  selectVersion x .binding contractName contractVersion

def getContractAddress (contractName contractVersion : Bytes) : Script κ (Reply x.isWasm) :=
  selectVersion x (fun address _ => .address address) contractName contractVersion

end

theorem dropWhile_dropWhile {α : Type} (p : α → Bool) (s : List α) :
    (s.dropWhile p).dropWhile p = s.dropWhile p := by
  induction s with
  | nil => rfl
  | cons a s ih =>
    by_cases h : p a = true
    · rw [List.dropWhile_cons_of_pos h, ih]
    · rw [List.dropWhile_cons_of_neg h, List.dropWhile_cons_of_neg h]

/-- What is dropped behind leaves the front as it is. -/
theorem dropWhile_reverse_dropWhile {α : Type} {p : α → Bool} {s : List α}
    (h : s.dropWhile p = s) :
    ((s.reverse.dropWhile p).reverse).dropWhile p = (s.reverse.dropWhile p).reverse := by
  cases hcons : (s.reverse.dropWhile p).reverse with
  | nil => rfl
  | cons a rest =>
    have hsuffix := List.dropWhile_suffix p (l := s.reverse)
    have hprefix := List.reverse_prefix.mpr hsuffix
    rw [List.reverse_reverse, hcons] at hprefix
    obtain ⟨dropped, hs⟩ := hprefix
    have ha : p a ≠ true := by
      intro hpa
      rw [← hs, List.cons_append, List.dropWhile_cons_of_pos hpa] at h
      have hle := (List.dropWhile_suffix p (l := rest ++ dropped)).length_le
      have hlen := congrArg List.length h
      rw [List.length_cons] at hlen
      omega
    exact List.dropWhile_cons_of_neg ha

@[simp] theorem trim_trim (s : Bytes) : trim (trim s) = trim s := by
  unfold trim
  rw [dropWhile_reverse_dropWhile (dropWhile_dropWhile isSpace s), List.reverse_reverse,
    dropWhile_dropWhile]

end CNSPrecompiled

end BcosExecutor
