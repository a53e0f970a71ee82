import BcosExecutor.ContractAuth
import BcosExecutor.FilePaths

namespace BcosExecutor

open FilePaths
open ContractAuth (CODE_SUCCESS)

/-- What the file system uses of the framework: the codec of the listings of the directories, and
the serialization of the fields of an entry. -/
structure FileCodec where
  bfs : Codec (StdMap String Bytes)
  setObject : List (String × String) → Bytes

/-- The `insert` of a `std::map`: a key that is there keeps its value. -/
def StdMap.insertNew {α β : Type} [DecidableEq α] (m : StdMap α β) (a : α) (b : β) : StdMap α β :=
  if a ∈ m then m else AList.insert a b m

/-- There is no listing where the decoder throws. -/
def FileCodec.insertBfs (c : FileCodec) (sub : Bytes) (dir : String) (kind : Bytes) :
    Option Bytes :=
  (c.bfs.decode sub).map fun bfsInfo => c.bfs.encode (bfsInfo.insertNew dir kind)

/-- A chain of wasm contracts over this file system. -/
def FileCodec.environment (c : FileCodec) (env : Environment) : Environment :=
  { env with
    isWasm := true
    insertBfs := c.insertBfs
    emptyBfs := c.bfs.encode ∅ }

namespace FileSystem

def FS_PATH_MAX_LENGTH : Nat := 56

def FS_PATH_MAX_LEVEL : Nat := 6

def USER_TABLE_PREFIX : String := "/tables/"

def USER_APPS_PREFIX : String := "/apps/"

def CODE_FILE_INVALID_PATH : Int := -53005

def CODE_FILE_BUILD_DIR_FAILED : Int := -53003

def CODE_FILE_ALREADY_EXIST : Int := -53002

def isNameChar (c : Char) : Bool :=
  c.isAlphanum || c = '_'

def checkFieldNameValidate (fieldName : String) : Bool :=
  fieldName ≠ "" && fieldName.toList.head? ≠ some '_' && fieldName.toList.all isNameChar

def checkPathValid (path : String) : Bool :=
  if path = "" || FS_PATH_MAX_LENGTH < path.toList.length then false
  else if path = "/" then true
  else (dirList path).length ≤ FS_PATH_MAX_LEVEL && (dirList path).all checkFieldNameValidate

variable {κ : Type} (c : FileCodec)

/-- The rows of a new directory, and its name in the listing of its parent. -/
def addDirectory (root next : String) (bfsInfo : Bytes) : Script κ Unit := do
  createTable next SYS_VALUE_FIELDS
  setRow next FS_KEY_TYPE FS_TYPE_DIR
  setRow next FS_KEY_SUB (c.bfs.encode ∅)
  setRow next FS_ACL_TYPE (ascii "0")
  setRow next FS_ACL_WHITE []
  setRow next FS_ACL_BLACK []
  setRow next FS_KEY_EXTRA []
  setRow root FS_KEY_SUB bfsInfo

/-- The loop of `recursiveBuildDir`. -/
def buildDirs : String → List String → Script κ Bool
  | _, [] => return true
  | root, dir :: rest => do
    if !(← openTable root) then
      return false
    else
      match ← getRow root FS_KEY_TYPE with
      | none => return false
      | some _ =>
        let next := childName root dir
        if ← openTable next then
          if (← getRow next FS_KEY_TYPE) = some FS_TYPE_DIR then
            buildDirs next rest
          else
            return false
        else
          match ← getRow root FS_KEY_SUB with
          | none => .abort
          | some sub =>
            match c.insertBfs sub dir FS_TYPE_DIR with
            | none => .throw (.stdException "decode")
            | some bfsInfo => do
              addDirectory c root next bfsInfo
              buildDirs next rest

def recursiveBuildDir (absoluteDir : String) : Script κ Bool :=
  if absoluteDir = "" then
    return false
  -- without its slash nothing is left that has a last character
  else if absoluteDir = "/" then
    .throw (.stdException "basic_string::at")
  else
    buildDirs c "/" (dirList absoluteDir)

def makeDir (absolutePath : String) : Script κ Int :=
  if !checkPathValid absolutePath then
    return CODE_FILE_INVALID_PATH
  else if !(USER_APPS_PREFIX.toList.isPrefixOf absolutePath.toList ||
      USER_TABLE_PREFIX.toList.isPrefixOf absolutePath.toList) then
    return CODE_FILE_INVALID_PATH
  else do
    if ← openTable absolutePath then
      return CODE_FILE_ALREADY_EXIST
    else
      if ← recursiveBuildDir c absolutePath then
        return CODE_SUCCESS
      else
        return CODE_FILE_BUILD_DIR_FAILED

end FileSystem

namespace KVTableFactory

open FileSystem

def SYS_TABLE_KEY_FIELD_NAME_MAX_LENGTH : Nat := 64

def SYS_TABLE_KEY_FIELD_MAX_LENGTH : Nat := 1024

def SYS_TABLE_VALUE_FIELD_MAX_LENGTH : Nat := 1024

def USER_TABLE_KEY_VALUE_MAX_LENGTH : Nat := 255

def USER_TABLE_NAME_MAX_LENGTH : Nat := 64

def USER_TABLE_NAME_MAX_LENGTH_S : Nat := 50

def USER_TABLE_FIELD_VALUE_MAX_LENGTH : Nat := 16 * 1024 * 1024 - 1

def CODE_TABLE_NAME_ALREADY_EXIST : Int := -50001

def CODE_TABLE_KEY_VALUE_LENGTH_OVERFLOW : Int := -50005

def CODE_TABLE_CREATE_ERROR : Int := -50104

def getTableName (tableName : String) : String :=
  USER_TABLE_PREFIX ++ String.ofList
    (if tableName.toList.head? = some '/' then tableName.toList.drop 1 else tableName.toList)

def getParentDirAndBaseName (absolutePath : String) : String × String :=
  if absolutePath = "/" then ("/", "/")
  else ("/" ++ joinSlash (dirList absolutePath).dropLast, (dirList absolutePath).getLast?.getD "")

def isSpace (c : Char) : Bool :=
  c = ' ' || 9 ≤ c.toNat && c.toNat ≤ 13

def trim (s : String) : String :=
  String.ofList ((s.toList.dropWhile isSpace).reverse.dropWhile isSpace).reverse

/-- The names between the commas. -/
def fieldList (field : String) : List String :=
  (field.toList.splitOn ',').map fun name => trim (String.ofList name)

def refuse (comment : String) : Except Exc Unit :=
  .error (.precompiledError (some comment))

def checkTableNameValidate (tableName : String) : Except Exc Unit :=
  if tableName.toList.all fun c => isNameChar c || c = '/' then .ok ()
  else refuse ("invalid table name:" ++ tableName)

def checkFieldName (fieldName : String) : Except Exc Unit :=
  if fieldName = "" || fieldName.toList.head? = some '_' then
    refuse ("invalid field: " ++ fieldName)
  else if fieldName.toList.all fun c => isNameChar c || c = '$' || c = '@' then .ok ()
  else refuse ("invalid filed: " ++ fieldName)

/-- Every name is checked once it is known not to be one of those before it. -/
def checkFieldNames (duplicated : String) (before : List String) : List String → Except Exc Unit
  | [] => .ok ()
  | name :: names => do
    if name ∈ before then
      refuse (duplicated ++ name)
    else
      checkFieldName name
      checkFieldNames duplicated (name :: before) names

def checkNameValidate (tableName : String) (keyFieldList valueFieldList : List String) :
    Except Exc Unit := do
  checkTableNameValidate tableName
  checkFieldNames "duplicated key: " [] keyFieldList
  checkFieldNames "duplicated field: " [] valueFieldList

def checkLength (s : String) (maxLength : Nat) (comment : String) : Except Exc Unit :=
  if maxLength < s.toList.length then refuse (comment ++ toString maxLength) else .ok ()

def joinComma (names : List String) : String :=
  String.ofList ([','].intercalate (names.map String.toList))

/-- The trimmed key field and value field. -/
def checkCreateTableParam (tableName keyField valueField : String) :
    Except Exc (String × String) := do
  checkLength keyField SYS_TABLE_KEY_FIELD_NAME_MAX_LENGTH "table field name length overflow "
  (fieldList keyField).forM fun name =>
    checkLength name SYS_TABLE_KEY_FIELD_NAME_MAX_LENGTH "table key name length overflow "
  (fieldList valueField).forM fun name =>
    checkLength name SYS_TABLE_KEY_FIELD_NAME_MAX_LENGTH "table field name length overflow "
  checkNameValidate tableName (fieldList keyField) (fieldList valueField)
  checkLength (joinComma (fieldList keyField)) SYS_TABLE_KEY_FIELD_MAX_LENGTH
    "total table key name length overflow "
  checkLength (joinComma (fieldList valueField)) SYS_TABLE_VALUE_FIELD_MAX_LENGTH
    "total table field name length overflow "
  let name := getTableName tableName
  if USER_TABLE_NAME_MAX_LENGTH < name.toList.length ||
      USER_TABLE_NAME_MAX_LENGTH_S < name.toList.length then
    .error (.precompiledError
      (some ("tableName length overflow " ++ toString USER_TABLE_NAME_MAX_LENGTH)))
  else
    .ok (joinComma (fieldList keyField), joinComma (fieldList valueField))

variable {κ : Type} (c : FileCodec)

/-- The part of `createTable` after the directories have been built. -/
def enterTable (newTableName parentDir tableBaseName keyField valueField : String) :
    Script κ Int := do
  BcosExecutor.createTable newTableName valueField
  match ← getRow sysTables (ascii newTableName) with
  | none => return CODE_TABLE_CREATE_ERROR
  | some _ => do
    setRow sysTables (ascii newTableName) (ascii (valueField ++ "," ++ keyField))
    if !(← openTable parentDir) then
      .abort
    else
      match ← getRow parentDir FS_KEY_SUB with
      | none => .abort
      | some sub =>
        match c.insertBfs sub tableBaseName FS_TYPE_CONTRACT with
        | none => .throw (.stdException "decode")
        | some bfsInfo => do
          setRow parentDir FS_KEY_SUB bfsInfo
          return CODE_SUCCESS

def createTable (tableName keyField valueField : String) : Script κ Int :=
  if tableName = "" then
    .throw (.precompiledError (some "Table name error."))
  else
    match checkCreateTableParam tableName keyField valueField with
    | .error e => .throw e
    | .ok (keyField, valueField) => do
      let newTableName := getTableName tableName
      if ← openTable newTableName then
        return CODE_TABLE_NAME_ALREADY_EXIST
      else
        let (parentDir, tableBaseName) := getParentDirAndBaseName newTableName
        if ← recursiveBuildDir c parentDir then
          enterTable c newTableName parentDir tableBaseName keyField valueField
        else
          return CODE_FILE_BUILD_DIR_FAILED

def checkLengthValidate (fieldValue : List α) (maxLength : Nat) : Except Exc Unit :=
  if maxLength < fieldValue.length then
    refuse (" error code: " ++ toString CODE_TABLE_KEY_VALUE_LENGTH_OVERFLOW)
  else .ok ()

def checkEntry (key : Bytes) (entryTuple : List (String × String)) : Except Exc Unit := do
  checkLengthValidate key USER_TABLE_KEY_VALUE_MAX_LENGTH
  entryTuple.forM fun kv => checkLengthValidate kv.2.toList USER_TABLE_FIELD_VALUE_MAX_LENGTH

def set (tableName : String) (key : Bytes) (entryTuple : List (String × String)) :
    Script κ Int := do
  if ← openTable (getTableName tableName) then
    match checkEntry key entryTuple with
    | .error e => .throw e
    | .ok () => do
      setRow (getTableName tableName) key (c.setObject entryTuple)
      return 1
  else
    .throw (.precompiledError (some (getTableName tableName ++ " does not exist")))

end KVTableFactory

end BcosExecutor
