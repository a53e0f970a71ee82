import BcosExecutor.DagTransferCommutes
import BcosExecutor.DirectoryBuilding
import BcosExecutor.Runs
import BcosExecutor.TableNames

namespace BcosExecutor

open FilePaths
open TransactionExecutive (createdAuthTable)

/-- What the constructor of a contract does with the table of the contract, and how it ends. -/
inductive ConstructorCode
  | done (result : Result)
  | throw (e : Exc)
  | get (key : Bytes) (k : Bytes → ConstructorCode)
  | set (key value : Bytes) (k : ConstructorCode)

namespace ConstructorCode

def run (host : HostContext) : ConstructorCode → Script Empty Result
  | done result => pure result
  | throw e => .throw e
  | get key k => host.get key >>= fun value => (k value).run host
  | set key value k => host.set key value >>= fun _ => k.run host

/-- The constructor does not make a directory of its table. -/
def Plain : ConstructorCode → Prop
  | done _ | throw _ => True
  | get _ k => ∀ value, (k value).Plain
  | set key value k => ¬(key = FS_KEY_TYPE ∧ value = FS_TYPE_DIR) ∧ k.Plain

end ConstructorCode

/-- The creation of a wasm contract. -/
structure WasmCreation where
  env : Environment
  params : CallParameters
  checkAuth : Bool
  code : ConstructorCode
  logEntries : List LogEntry := []

namespace WasmCreation

variable (c : FileCodec) (o : WasmCreation)

def message : CallParameters :=
  { o.params with create := true }

def environment : Environment :=
  c.environment o.env

def tableName : String :=
  TransactionExecutive.getContractTableName (o.environment c).toBlockContext o.params.codeAddress

def behaviour : Behaviour Empty where
  checkAuth := o.checkAuth
  precompiled := .abort
  vm := o.code.run ⟨o.message, o.tableName c⟩
  logEntries := o.logEntries

/-- The rows that the executive of the creation leaves. -/
def rowsAfter (rows : Rows) : Rows :=
  (settleRows rows
    ((TransactionExecutive.execute (o.environment c) (o.behaviour c) o.message).onRows rows)).2

end WasmCreation

inductive FileOperation
  | mkdir (absolutePath : String)
  | createTable (tableName keyField valueField : String)
  | set (tableName : String) (key : Bytes) (entryTuple : List (String × String))
  | create (creation : WasmCreation)

namespace FileOperation

variable (c : FileCodec)

def step (rows : Rows) : FileOperation → Rows
  | mkdir absolutePath => keptRows (FileSystem.makeDir c absolutePath) rows
  | createTable tableName keyField valueField =>
    keptRows (KVTableFactory.createTable c tableName keyField valueField) rows
  | set tableName key entryTuple => keptRows (KVTableFactory.set c tableName key entryTuple) rows
  | create creation => creation.rowsAfter c rows

/-- Where an operation is refused, or else leaves the tree in order: a new table is named as the
directories are that are built for it, and what is written tells nothing new of a directory. -/
def Proper (rows : Rows) : FileOperation → Prop
  | mkdir _ => True
  | createTable tableName keyField valueField =>
    (KVTableFactory.checkCreateTableParam tableName keyField valueField).isOk = false ∨
      TableThere rows (KVTableFactory.getTableName tableName) ∨
      IsCleanPath (KVTableFactory.getTableName tableName)
  | set tableName key entryTuple =>
    (KVTableFactory.checkEntry key entryTuple).isOk = false ∨
      ¬TableThere rows (KVTableFactory.getTableName tableName) ∨
      FileCodec.Unrelated c rows ⟨KVTableFactory.getTableName tableName, key⟩
        (some (c.setObject entryTuple))
  | create creation =>
    TableThere rows (creation.tableName c) ∨
      IsCleanPath (creation.tableName c) ∧
      createdAuthTable (creation.environment c).toBlockContext creation.params.codeAddress
        creation.params.senderAddress = none ∧
      creation.code.Plain

end FileOperation

theorem keptRows_openTable {α : Type} (tableName : String) (f : Bool → Script Empty α) (s : Rows) :
    keptRows (openTable tableName >>= f) s =
      keptRows (f (s ⟨sysTables, ascii tableName⟩).isSome) s := by
  unfold keptRows
  rw [Script.onRows_bind, Script.onRows_openTable]

variable {c : FileCodec} {rows : Rows}

namespace FileSystem

theorem isNameChar_spec {char : Char} (h : isNameChar char = true) :
    char.toNat < 256 ∧ char ≠ '/' := by
  constructor
  · unfold isNameChar Char.isAlphanum Char.isAlpha Char.isUpper Char.isLower Char.isDigit at h
    rw [Bool.or_eq_true, decide_eq_true_iff] at h
    rcases h with h | rfl
    · simp only [Bool.or_eq_true, Bool.and_eq_true, decide_eq_true_iff, UInt32.le_iff_toNat_le] at h
      have hnat : char.toNat = char.val.toNat := rfl
      simp at h
      omega
    · decide
  · rintro rfl
    revert h
    decide

theorem isFileName_of_valid {name : String} (h : checkFieldNameValidate name = true) :
    IsFileName name := by
  unfold checkFieldNameValidate at h
  simp only [Bool.and_eq_true, decide_eq_true_iff, List.all_eq_true] at h
  obtain ⟨⟨hne, -⟩, hall⟩ := h
  exact ⟨fun char hchar => (isNameChar_spec (hall char hchar)).1, hne,
    fun hslash => (isNameChar_spec (hall _ hslash)).2 rfl⟩

theorem recursiveBuildDir_onRows {path : String} (h : c.Filed none rows)
    (hdirs : ∀ dir ∈ dirList path, IsFileName dir) :
    ∃ out rows', (recursiveBuildDir c path : Script Empty Bool).onRows rows = (out, rows') ∧
      c.Filed none rows' ∧
      (out = some (.ok true) → IsDirectory rows' ((dirList path).foldl childName "/")) := by
  unfold recursiveBuildDir
  by_cases hempty : path = ""
  · rw [if_pos hempty]
    exact ⟨some (.ok false), rows, rfl, h, by simp⟩
  · rw [if_neg hempty]
    by_cases hroot : path = "/"
    · rw [if_pos hroot]
      exact ⟨some (.error (.stdException "basic_string::at")), rows, rfl, h, by simp⟩
    · rw [if_neg hroot]
      have hrootDir : IsDirectory rows "/" := h.wellListed.root_mem
      obtain ⟨built, rows', hrun, hbuilt⟩ := buildDirs_onRows h nofun hrootDir hdirs
      refine ⟨_, rows', hrun, hbuilt.filed, fun hout => hbuilt.directory ?_⟩
      simpa using hout

theorem isFileName_of_pathValid {path : String} (h : checkPathValid path = true) (hne : path ≠ "/") :
    ∀ dir ∈ dirList path, IsFileName dir := by
  unfold checkPathValid at h
  rw [if_neg hne] at h
  split at h
  next => cases h
  next =>
    rw [Bool.and_eq_true, List.all_eq_true] at h
    exact fun dir hdir => isFileName_of_valid (h.2 dir hdir)

theorem makeDir_filed (h : c.Filed none rows) (absolutePath : String) :
    c.Filed none ((makeDir c absolutePath : Script Empty Int).onRows rows).2 := by
  unfold makeDir
  by_cases hvalid : checkPathValid absolutePath = true
  · rw [hvalid, Bool.not_true, if_neg Bool.false_ne_true]
    split
    next => exact h
    next hunder =>
      have hne : absolutePath ≠ "/" := by
        rintro rfl
        exact hunder (by decide)
      obtain ⟨out, rows', hrun, hfiled, -⟩ :=
        recursiveBuildDir_onRows h (isFileName_of_pathValid hvalid hne)
      rw [Script.onRows_bind, Script.onRows_openTable]
      dsimp only
      split
      next => exact h
      next =>
        rw [Script.onRows_bind, hrun]
        match out with
        | none => exact hfiled
        | some (.error _) => exact hfiled
        | some (.ok true) => exact hfiled
        | some (.ok false) => exact hfiled
  · rw [Bool.not_eq_true] at hvalid
    rw [hvalid, Bool.not_false, if_pos rfl]
    exact h

end FileSystem

namespace KVTableFactory

open FileCodec

theorem enterTable_filed {parentDir tableBaseName keyField valueField : String}
    (h : c.Filed none rows) (hdir : IsDirectory rows parentDir) (hname : IsFileName tableBaseName)
    {out : Option (Except Exc Int)} {rows' : Rows}
    (hrun : (enterTable c (childName parentDir tableBaseName) parentDir tableBaseName keyField
      valueField).onRows rows = (out, rows')) (hout : isThrown out = false) :
    c.Filed none rows' := by
  have hparent := h.paths parentDir hdir
  have hpath := isPath_childName hparent hname
  have hsys : sysTables ≠ parentDir := (path_ne_sysTables hparent).symm
  obtain ⟨bfsInfo, hlisting⟩ := h.listing_isSome hdir
  obtain ⟨sub, hsub, hinsert⟩ := insertBfs_eq hlisting tableBaseName FS_TYPE_CONTRACT
  unfold enterTable BcosExecutor.createTable at hrun
  by_cases hthere : (rows ⟨sysTables, ascii (childName parentDir tableBaseName)⟩).isSome = true
  · simp only [Script.onRows_bind, Script.onRows_openTable, hthere, ↓reduceIte,
      Script.onRows_throw, Prod.mk.injEq] at hrun
    rw [← hrun.1] at hout
    cases hout
  · have hgone : (rows ⟨sysTables, ascii (childName parentDir tableBaseName)⟩).isSome = false :=
      Bool.eq_false_iff.mpr hthere
    have hthereParent (fields : Bytes) : (Function.update rows
        ⟨sysTables, ascii (childName parentDir tableBaseName)⟩ (some fields)
          ⟨sysTables, ascii parentDir⟩).isSome = true :=
      (there_update hpath fields hparent).mpr (.inl (h.there_of_directory hdir).1)
    have hrow (fields : Bytes) (t : String) (key : Bytes) (hkey : key ∈ [FS_KEY_TYPE, FS_KEY_SUB]) :
        Function.update rows ⟨sysTables, ascii (childName parentDir tableBaseName)⟩ (some fields)
          ⟨t, key⟩ = rows ⟨t, key⟩ := by
      have hslash : ∀ key ∈ [FS_KEY_TYPE, FS_KEY_SUB], key.head? ≠ some 47 := by decide
      exact Function.update_of_ne (tableRow_ne hpath (hslash key hkey) t) _ _
    simp only [Script.onRows_bind, Script.onRows_openTable, hgone, Bool.false_eq_true, ↓reduceIte,
      Script.onRows_set, Script.onRows_get, Function.update_self, Function.update_idem,
      hthereParent, Bool.not_true, hrow _ _ FS_KEY_SUB (by simp), hsub, hinsert] at hrun
    obtain ⟨-, rfl⟩ := Prod.mk.inj hrun
    refine (h.entered_contract hdir hname hlisting (fun hboth => hthere hboth.1) ?_ (hrow _)).1
    intro t ht
    rw [there_update hpath _ ht, and_iff_left (nofun : none ≠ some t),
      and_iff_left (nofun : none ≠ some t)]

theorem getParentDirAndBaseName_pathOf {parts : List String} {name : String}
    (hparts : ∀ part ∈ parts, IsFileName part) (hname : IsFileName name) :
    getParentDirAndBaseName (pathOf (parts ++ [name])) = ("/" ++ joinSlash parts, name) := by
  have hall : ∀ part ∈ parts ++ [name], IsFileName part := by
    intro part hpart
    rcases List.mem_append.mp hpart with hold | hlast
    · exact hparts part hold
    · exact List.mem_singleton.mp hlast ▸ hname
  have hne : pathOf (parts ++ [name]) ≠ "/" := by
    unfold pathOf
    rw [List.foldl_append]
    exact childName_ne_root _ hname
  unfold getParentDirAndBaseName
  rw [if_neg hne, dirList_pathOf (by simp) hall, List.dropLast_concat, List.getLast?_concat]
  rfl

theorem createTable_filed {tableName keyField valueField : String} (h : c.Filed none rows)
    (hproper : FileOperation.Proper c rows (.createTable tableName keyField valueField)) :
    c.Filed none (keptRows (createTable c tableName keyField valueField) rows) := by
  unfold createTable
  by_cases hempty : tableName = ""
  · rw [if_pos hempty]
    exact h
  · rw [if_neg hempty]
    cases hcheck : checkCreateTableParam tableName keyField valueField with
    | error e => exact h
    | ok fields =>
      obtain ⟨keyField', valueField'⟩ := fields
      dsimp only
      rw [keptRows_openTable]
      by_cases hthere : (rows ⟨sysTables, ascii (getTableName tableName)⟩).isSome = true
      · rw [if_pos hthere]
        exact h
      · have hclean : IsCleanPath (getTableName tableName) := by
          rcases hproper with hfails | hold | hclean
          · rw [hcheck] at hfails
            cases hfails
          · exact (hthere hold).elim
          · exact hclean
        obtain ⟨parts, hne, hparts, hpath⟩ := hclean
        obtain ⟨parents, name, rfl⟩ : ∃ parents name, parts = parents ++ [name] :=
          ⟨parts.dropLast, parts.getLast hne, (List.dropLast_append_getLast hne).symm⟩
        have hname : IsFileName name := hparts name (by simp)
        have hparents : ∀ part ∈ parents, IsFileName part := fun part hpart =>
          hparts part (List.mem_append_left _ hpart)
        rw [if_neg hthere, hpath, getParentDirAndBaseName_pathOf hparents hname]
        dsimp only
        cases parents with
        | nil => exact h
        | cons first rest =>
          rw [pathOf_eq_joinSlash (List.cons_ne_nil _ _) hparents]
          have hdirs := dirList_pathOf (List.cons_ne_nil _ _) hparents
          obtain ⟨out, rows', hrun, hfiled, hdir⟩ :=
            FileSystem.recursiveBuildDir_onRows h (hdirs.symm ▸ hparents)
          refine keptRows_invariant h fun out' s' hrun' hout' => ?_
          rw [Script.onRows_bind, hrun] at hrun'
          match out with
          | none =>
            cases hrun'
            exact hfiled
          | some (.error _) =>
            cases hrun'
            exact hfiled
          | some (.ok false) =>
            cases hrun'
            exact hfiled
          | some (.ok true) =>
            have hparent := hdir rfl
            rw [hdirs] at hparent
            have hpathOf : pathOf (first :: rest ++ [name]) =
                childName (pathOf (first :: rest)) name := by
              unfold pathOf
              rw [List.foldl_append]
              rfl
            dsimp only at hrun'
            rw [if_pos rfl, hpathOf] at hrun'
            exact enterTable_filed hfiled hparent hname hrun' hout'

theorem set_filed {tableName : String} {key : Bytes} {entryTuple : List (String × String)}
    (h : c.Filed none rows) (hproper : FileOperation.Proper c rows (.set tableName key entryTuple)) :
    c.Filed none (keptRows (set c tableName key entryTuple) rows) := by
  unfold set
  rw [keptRows_openTable]
  by_cases hthere : (rows ⟨sysTables, ascii (getTableName tableName)⟩).isSome = true
  · rw [if_pos hthere]
    cases hcheck : checkEntry key entryTuple with
    | error e => exact h
    | ok u =>
      rcases hproper with hfails | hgone | hunrelated
      · rw [hcheck] at hfails
        cases hfails
      · exact (hgone hthere).elim
      · exact h.write hunrelated
  · rw [if_neg hthere]
    exact h

end KVTableFactory

end BcosExecutor
