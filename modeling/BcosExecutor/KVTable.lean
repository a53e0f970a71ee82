import BcosExecutor.FileTreeRuns
import BcosExecutor.LastWrites

namespace BcosExecutor

open FilePaths
open FileSystem (USER_TABLE_PREFIX)

namespace Script

variable {α : Type} {W W' : StateRow → Option Entry → Prop}

theorem Writes.mono {m : Script Empty α} (hm : m.Writes W)
    (hsub : ∀ row entry, W row entry → W' row entry) : m.Writes W' := by
  induction m with
  | pure a => trivial
  | throw x => trivial
  | abort => trivial
  | getRow row k ih => exact fun entry => ih entry (hm entry)
  | setRow row entry k ih => exact ⟨hsub row entry hm.1, ih hm.2⟩
  | externalCall callee => exact callee.elim

theorem writes_bind_of_returns {β : Type} {P : α → Prop} {m : Script Empty α}
    {f : α → Script Empty β} (hm : m.Writes W) (hreturns : m.Returns P)
    (hf : ∀ a, P a → (f a).Writes W) : (m >>= f).Writes W := by
  show (m.bind f).Writes W
  induction m with
  | pure a => exact hf a hreturns
  | throw x => trivial
  | abort => trivial
  | getRow row k ih => exact fun entry => ih entry (hm entry) (hreturns entry)
  | setRow row entry k ih => exact ⟨hm.1, ih hm.2 hreturns⟩
  | externalCall callee => exact callee.elim

end Script

/-- The keys of the rows of a directory. -/
def directoryKeys : List Bytes :=
  [FS_KEY_TYPE, FS_KEY_SUB, FS_ACL_TYPE, FS_ACL_WHITE, FS_ACL_BLACK, FS_KEY_EXTRA]

def IsUserTable (tableName : String) : Prop :=
  USER_TABLE_PREFIX.toList <+: tableName.toList

/-- No table is taken away, and of a user table only what makes a directory of it is written. -/
def SystemWrite (row : StateRow) (entry : Option Entry) : Prop :=
  (row.table = sysTables → entry.isSome) ∧ (IsUserTable row.table → row.key ∈ directoryKeys)

theorem not_isUserTable_sysTables : ¬IsUserTable sysTables := by
  unfold IsUserTable
  decide

theorem setRow_systemWrite {table : String} {key : Bytes} (entry : Entry)
    (h : IsUserTable table → key ∈ directoryKeys) :
    (setRow table key entry : Script Empty Unit).Writes SystemWrite :=
  ⟨⟨fun _ => rfl, h⟩, trivial⟩

theorem createTable_systemWrite (tableName valueFields : String) :
    (createTable tableName valueFields : Script Empty Unit).Writes SystemWrite := by
  intro there
  show Script.Writes _ (if there.isSome then _ else _)
  exact Script.writes_ite trivial
    (setRow_systemWrite _ fun h => (not_isUserTable_sysTables h).elim)

/-- A row of a directory is written. -/
theorem writes_directoryRow {α : Type} {key : Bytes} (h : key ∈ directoryKeys) (table : String)
    (entry : Entry) {m : Script Empty α} (hm : m.Writes SystemWrite) :
    (setRow table key entry >>= fun _ => m).Writes SystemWrite :=
  ⟨⟨fun _ => rfl, fun _ => h⟩, hm⟩

namespace FileSystem

variable (c : FileCodec)

/-- The rows of a new directory, and what follows. -/
theorem writes_newDirectory {α : Type} (next : String) (sub : Bytes) {m : Script Empty α}
    (hm : m.Writes SystemWrite) :
    (do
      createTable next SYS_VALUE_FIELDS
      setRow next FS_KEY_TYPE FS_TYPE_DIR
      setRow next FS_KEY_SUB sub
      setRow next FS_ACL_TYPE (ascii "0")
      setRow next FS_ACL_WHITE []
      setRow next FS_ACL_BLACK []
      setRow next FS_KEY_EXTRA []
      m).Writes SystemWrite :=
  Script.writes_bind (createTable_systemWrite _ _) fun _ =>
    writes_directoryRow (by decide) _ _ <| writes_directoryRow (by decide) _ _ <|
    writes_directoryRow (by decide) _ _ <| writes_directoryRow (by decide) _ _ <|
    writes_directoryRow (by decide) _ _ <| writes_directoryRow (by decide) _ _ hm

theorem buildDirs_writes (root : String) (dirs : List String) :
    (buildDirs c root dirs : Script Empty Bool).Writes SystemWrite := by
  induction dirs generalizing root with
  | nil => trivial
  | cons dir rest ih =>
    unfold buildDirs
    refine Script.writes_bind (fun _ => trivial) fun there => ?_
    refine Script.writes_ite trivial (Script.writes_bind (fun _ => trivial) fun kind => ?_)
    cases kind with
    | none => trivial
    | some kind =>
      refine Script.writes_bind (fun _ => trivial) fun there => ?_
      refine Script.writes_ite (Script.writes_bind (fun _ => trivial) fun kind => ?_)
        (Script.writes_bind (fun _ => trivial) fun sub => ?_)
      · exact Script.writes_ite (ih _) trivial
      · cases sub with
        | none => trivial
        | some sub =>
          dsimp only
          cases c.insertBfs sub dir FS_TYPE_DIR with
          | none => trivial
          | some bfsInfo =>
            refine Script.writes_bind ?_ fun _ => ih _
            exact writes_newDirectory _ _ (setRow_systemWrite _ fun _ => by decide)

theorem recursiveBuildDir_writes (absoluteDir : String) :
    (recursiveBuildDir c absoluteDir : Script Empty Bool).Writes SystemWrite := by
  unfold recursiveBuildDir
  generalize dirList absoluteDir = dirs
  exact Script.writes_ite trivial (Script.writes_ite trivial (buildDirs_writes c "/" dirs))

theorem makeDir_writes (absolutePath : String) :
    (makeDir c absolutePath : Script Empty Int).Writes SystemWrite := by
  unfold makeDir
  refine Script.writes_ite trivial (Script.writes_ite trivial ?_)
  refine Script.writes_bind (fun _ => trivial) fun there => Script.writes_ite trivial ?_
  exact Script.writes_bind (recursiveBuildDir_writes c _) fun built =>
    Script.writes_ite trivial trivial

end FileSystem

namespace KVTableFactory

variable (c : FileCodec)

theorem enterTable_writes (newTableName parentDir tableBaseName keyField valueField : String) :
    (enterTable c newTableName parentDir tableBaseName keyField valueField :
      Script Empty Int).Writes SystemWrite := by
  unfold enterTable
  refine Script.writes_bind (createTable_systemWrite _ _) fun _ =>
    Script.writes_bind (fun _ => trivial) fun sysEntry => ?_
  cases sysEntry with
  | none => trivial
  | some sysEntry =>
    refine Script.writes_bind (setRow_systemWrite _ fun h =>
      (not_isUserTable_sysTables h).elim) fun _ => ?_
    refine Script.writes_bind (fun _ => trivial) fun there => Script.writes_ite trivial ?_
    refine Script.writes_bind (fun _ => trivial) fun sub => ?_
    cases sub with
    | none => trivial
    | some sub =>
      dsimp only
      cases c.insertBfs sub tableBaseName FS_TYPE_CONTRACT with
      | none => trivial
      | some bfsInfo => exact writes_directoryRow (by decide) _ _ trivial

theorem createTable_writes (tableName keyField valueField : String) :
    (createTable c tableName keyField valueField : Script Empty Int).Writes SystemWrite := by
  unfold createTable
  refine Script.writes_ite trivial ?_
  cases checkCreateTableParam tableName keyField valueField with
  | error x => trivial
  | ok fields =>
    obtain ⟨keyField', valueField'⟩ := fields
    dsimp only
    refine Script.writes_bind (fun _ => Script.writes_pure _) fun there =>
      Script.writes_ite (Script.writes_pure _) ?_
    generalize getParentDirAndBaseName (getTableName tableName) = parent
    obtain ⟨parentDir, tableBaseName⟩ := parent
    refine Script.writes_bind (FileSystem.recursiveBuildDir_writes c _) fun built => ?_
    exact Script.writes_ite (enterTable_writes c _ _ _ _ _) (Script.writes_pure _)

end KVTableFactory

namespace TransactionExecutive

variable {env : Environment} {b : Behaviour Empty} {p : CallParameters}

/-- A contract has no user table, nor has what is named after it. -/
theorem not_isUserTable_contract (context : BlockContext) (address suffix : String) :
    ¬IsUserTable (getContractTableName context address ++ suffix) := by
  unfold IsUserTable getContractTableName
  dsimp only
  split <;>
  · rw [String.toList_append, String.toList_append, List.append_assoc]
    rintro ⟨rest, hrest⟩
    cases hrest

theorem contract_ne_sysTables (context : BlockContext) (address : String) :
    getContractTableName context address ≠ sysTables := by
  unfold getContractTableName
  dsimp only
  intro heq
  have hhead := congrArg (fun s => s.toList.head?) heq
  split at hhead <;>
  · simp only [String.toList_append] at hhead
    cases hhead

theorem creatAuthTable_writes (context : BlockContext) (address origin sender : String) :
    (creatAuthTable context (getContractTableName context address) origin sender :
      Script Empty Unit).Writes SystemWrite := by
  have hauth (key value : Bytes) : (setRow (getContractTableName context address ++
      CONTRACT_SUFFIX) key value : Script Empty Unit).Writes SystemWrite :=
    setRow_systemWrite _ fun h => (not_isUserTable_contract context address _ h).elim
  have hrest (admin : Bytes) : (do
      createTable (getContractTableName context address ++ CONTRACT_SUFFIX) STORAGE_VALUE
      setRow (getContractTableName context address ++ CONTRACT_SUFFIX) ADMIN_FIELD admin
      setRow (getContractTableName context address ++ CONTRACT_SUFFIX) METHOD_AUTH_TYPE []
      setRow (getContractTableName context address ++ CONTRACT_SUFFIX) METHOD_AUTH_WHITE []
      setRow (getContractTableName context address ++ CONTRACT_SUFFIX) METHOD_AUTH_BLACK [] :
        Script Empty Unit).Writes SystemWrite :=
    Script.writes_bind (createTable_systemWrite _ _) fun _ =>
      Script.writes_bind (hauth _ _) fun _ => Script.writes_bind (hauth _ _) fun _ =>
        Script.writes_bind (hauth _ _) fun _ => hauth _ _
  unfold creatAuthTable
  dsimp only
  refine Script.writes_ite trivial (Script.writes_ite ?_ (hrest _))
  refine Script.writes_bind (fun _ => trivial) fun entry => ?_
  cases entry with
  | none => trivial
  | some admin => exact hrest admin

theorem buildDirs_writes (root : String) (dirs : List String) :
    (buildDirs env root dirs : Script Empty Bool).Writes SystemWrite := by
  induction dirs generalizing root with
  | nil => trivial
  | cons dir rest ih =>
    unfold buildDirs
    refine Script.writes_bind (fun _ => trivial) fun there => ?_
    refine Script.writes_ite trivial (Script.writes_bind (fun _ => trivial) fun kind => ?_)
    cases kind with
    | none => trivial
    | some kind =>
      refine Script.writes_bind (fun _ => trivial) fun there => ?_
      refine Script.writes_ite (Script.writes_bind (fun _ => trivial) fun kind => ?_)
        (Script.writes_bind (fun _ => trivial) fun sub => ?_)
      · exact Script.writes_ite (ih _) trivial
      · cases sub with
        | none => trivial
        | some sub =>
          dsimp only
          cases env.insertBfs sub dir (if rest.isEmpty then FS_TYPE_CONTRACT else FS_TYPE_DIR) with
          | none => trivial
          | some bfsInfo =>
            have hlisted := writes_directoryRow (show FS_KEY_SUB ∈ directoryKeys by decide) root
              bfsInfo (ih ((if root ≠ "/" then root ++ "/" else root) ++ dir))
            exact Script.writes_ite (FileSystem.writes_newDirectory _ _ hlisted) hlisted

theorem buildBfsPath_writes (absoluteDir : String) :
    (buildBfsPath env absoluteDir : Script Empty Bool).Writes SystemWrite := by
  unfold buildBfsPath
  dsimp only
  generalize splitPath _ = dirs
  exact Script.writes_ite trivial (buildDirs_writes "/" dirs)

theorem createContract_writes (params abi : Bytes) :
    (createContract env b p params abi).Writes SystemWrite := by
  have htables : (createTables env p (getContractTableName env.toBlockContext p.codeAddress) :
      Script Empty Unit).Writes SystemWrite :=
    Script.writes_bind (createTable_systemWrite _ _) fun _ =>
      Script.writes_ite (creatAuthTable_writes _ _ _ _) trivial
  unfold createContract
  refine Script.writes_ite trivial (Script.writes_bind htables.attempt fun created => ?_)
  cases created with
  | error x => trivial
  | ok u =>
    refine Script.writes_ite trivial (Script.writes_bind (buildBfsPath_writes _) fun built => ?_)
    exact Script.writes_ite trivial trivial

/-- The constructor is to run over this table. -/
def ConstructsIn (tableName : String) : Settled (HostContext × Bytes × Bytes) → Prop
  | .goOn (host, _, _) => host.isCreate = true ∧ host.tableName = tableName
  | .ends _ => True

theorem constructsIn_createContract (hcreate : p.create = true) (params abi : Bytes) :
    (createContract env b p params abi).Returns
      (ConstructsIn (getContractTableName env.toBlockContext p.codeAddress)) := by
  unfold createContract
  split
  · exact True.intro
  · refine Script.returns_bind (Script.returns_true _) fun created _ => ?_
    cases created with
    | error x => exact True.intro
    | ok u =>
      dsimp only
      split
      · exact ⟨hcreate, rfl⟩
      · refine Script.returns_bind (Script.returns_true _) fun built _ => ?_
        split
        · exact ⟨hcreate, rfl⟩
        · exact True.intro

theorem decodeInput_writes : (decodeInput env p : Script Empty _).Writes SystemWrite := by
  unfold decodeInput
  refine Script.writes_ite trivial ?_
  cases env.decode p.data with
  | none => trivial
  | some input =>
    obtain ⟨⟨code, params⟩, abi⟩ := input
    refine Script.writes_ite trivial ?_
    cases env.injectMeter code <;> trivial

theorem go_systemWrite {host : HostContext} (hcreate : host.isCreate = true) {address : String}
    (htable : host.tableName = getContractTableName env.toBlockContext address)
    (hvm : b.vm.Writes SystemWrite) (abi : Bytes) :
    (go env b host abi).Writes SystemWrite := by
  have hown (row : StateRow) (entry : Option Entry) (h : OwnWrite host.tableName row entry) :
      SystemWrite row entry := by
    unfold SystemWrite
    rw [h.1, htable]
    refine ⟨fun heq => (contract_ne_sysTables _ _ heq).elim, fun huser => ?_⟩
    have hplain := not_isUserTable_contract env.toBlockContext address ""
    rw [String.append_empty] at hplain
    exact (hplain huser).elim
  unfold go
  dsimp only
  rw [if_pos hcreate]
  exact Script.writes_bind hvm.attempt fun out => (concludeCreate_writes _ abi out).mono hown

/-- The creation of a contract writes to no user table, but to make a directory of it. -/
theorem execute_writes (hcreate : p.create = true) (hvm : b.vm.Writes SystemWrite) :
    (execute env b p).Writes SystemWrite := by
  unfold execute prepare create
  rw [if_pos hcreate]
  refine Script.writes_bind_of_returns
    (P := ConstructsIn (getContractTableName env.toBlockContext p.codeAddress)) ?_ ?_ ?_
  · refine Script.writes_bind decodeInput_writes fun settled => ?_
    cases settled with
    | ends ending => trivial
    | goOn r => exact createContract_writes _ _
  · refine Script.returns_bind (keepsInput_decodeInput env p) fun settled hdecoded => ?_
    cases settled with
    | ends ending => exact True.intro
    | goOn r =>
      obtain ⟨p', params, abi⟩ := r
      obtain ⟨data, rfl⟩ := hdecoded
      have hcreate' : ({ p with data }).create = true := hcreate
      exact constructsIn_createContract hcreate' params abi
  · intro settled hsettled
    cases settled with
    | ends ending => trivial
    | goOn r =>
      obtain ⟨host, params, abi⟩ := r
      exact go_systemWrite hsettled.1 hsettled.2 hvm abi

end TransactionExecutive

theorem ConstructorCode.run_systemWrite {host : HostContext} {context : BlockContext}
    {address : String} (htable : host.tableName =
      TransactionExecutive.getContractTableName context address) (code : ConstructorCode) :
    (code.run host).Writes SystemWrite := by
  induction code with
  | done result => trivial
  | throw x => trivial
  | get key k ih => exact fun entry => ih _
  | set key value k ih =>
    have hplain := TransactionExecutive.not_isUserTable_contract context address ""
    rw [String.append_empty, ← htable] at hplain
    exact ⟨⟨fun _ => rfl, fun huser => (hplain huser).elim⟩, ih⟩

namespace FileOperation

variable {c : FileCodec} {rows : Rows} {T : String} {key : Bytes}

/-- The table is there, and has this under the key. -/
def Stays (T : String) (key : Bytes) (entry : Option Entry) (rows : Rows) : Prop :=
  TableThere rows T ∧ rows ⟨T, key⟩ = entry

theorem Stays.write (hT : IsUserTable T) (hkey : key ∉ directoryKeys) {entry : Option Entry}
    (s : Rows) (row : StateRow) (value : Option Entry) (h : Stays T key entry s)
    (hwrite : SystemWrite row value) : Stays T key entry (Function.update s row value) := by
  obtain ⟨hthere, hentry⟩ := h
  obtain ⟨hsys, huser⟩ := hwrite
  constructor
  · show (Function.update s row value ⟨sysTables, ascii T⟩).isSome = true
    by_cases hrow : (⟨sysTables, ascii T⟩ : StateRow) = row
    · rw [hrow, Function.update_self]
      exact hsys (hrow ▸ rfl)
    · rw [Function.update_of_ne hrow]
      exact hthere
  · rw [Function.update_of_ne, hentry]
    rintro rfl
    exact hkey (huser hT)

/-- What is settled or kept has the rows of the program, or those before it. -/
theorem Stays.kept (hT : IsUserTable T) (hkey : key ∉ directoryKeys) {entry : Option Entry}
    {α : Type} {m : Script Empty α} (hm : m.Writes SystemWrite) (h : Stays T key entry rows) :
    Stays T key entry (keptRows m rows) := by
  refine keptRows_invariant h fun out s' hrun _ => ?_
  have hafter := hm.invariant (Stays.write hT hkey) h
  rw [hrun] at hafter
  exact hafter

theorem Stays.create (hT : IsUserTable T) (hkey : key ∉ directoryKeys) {entry : Option Entry}
    (creation : WasmCreation) (h : Stays T key entry rows) :
    Stays T key entry (creation.rowsAfter c rows) := by
  have hwrites : (TransactionExecutive.execute (creation.environment c) (creation.behaviour c)
      creation.message).Writes SystemWrite :=
    TransactionExecutive.execute_writes rfl (ConstructorCode.run_systemWrite rfl creation.code)
  have hafter := hwrites.invariant (Stays.write hT hkey) h
  unfold WasmCreation.rowsAfter
  generalize (TransactionExecutive.execute (creation.environment c) (creation.behaviour c)
    creation.message).onRows rows = r at hafter
  obtain ⟨out, s⟩ := r
  match out with
  | none => exact hafter
  | some (.error _) => exact hafter
  | some (.ok ending) =>
    show Stays T key entry (if ending.reverted then rows else s)
    split
    · exact h
    · exact hafter

end FileOperation

namespace KVTableFactory

open FileOperation (Stays)

/-- How the fields of an entry are read back. -/
structure EntryCodec (c : FileCodec) where
  getObject : Entry → Option (List (String × String))
  getObject_setObject : ∀ entryTuple, getObject (c.setObject entryTuple) = some entryTuple

variable {c : FileCodec} (x : EntryCodec c)

def entryTupleOf : Option Entry → Except Exc (Bool × List (String × String))
  | none => .ok (false, [])
  | some entry =>
    match x.getObject entry with
    | some entryTuple => .ok (true, entryTuple)
    | none => .error (.stdException "getObject")

def get {κ : Type} (tableName : String) (key : Bytes) :
    Script κ (Bool × List (String × String)) := do
  if ← openTable (getTableName tableName) then
    DagTransfer.ofExcept (entryTupleOf x (← getRow (getTableName tableName) key))
  else
    .throw (.precompiledError (some (getTableName tableName ++ " does not exist")))

theorem contains_directoryKeys {key : Bytes} :
    directoryKeys.contains key = false ↔ key ∉ directoryKeys := by
  rw [List.contains_eq_mem, decide_eq_false_iff_not]

/-- The entry that an operation sets in a table; the rows of a directory are no entries. -/
def accepted (T : String) : FileOperation →
    Option ({key : Bytes // key ∉ directoryKeys} × Except Exc (Bool × List (String × String)))
  | .set tableName key entryTuple =>
    if h : (getTableName tableName = T ∧ (checkEntry key entryTuple).isOk = true) ∧
        directoryKeys.contains key = false then
      some (⟨key, contains_directoryKeys.mp h.2⟩, .ok (true, entryTuple))
    else none
  | .mkdir _ | .createTable _ _ _ | .create _ => none

def store (T : String) : LastWrites.Store Rows FileOperation {key : Bytes // key ∉ directoryKeys}
    (Except Exc (Bool × List (String × String))) where
  step := FileOperation.step c
  read rows key := entryTupleOf x (rows ⟨T, key⟩)
  write _ := accepted T

variable {x} {rows : Rows} {T : String}

theorem isUserTable_getTableName (tableName : String) : IsUserTable (getTableName tableName) := by
  unfold IsUserTable getTableName
  rw [String.toList_append]
  exact List.prefix_append _ _

theorem set_step (tableName : String) (key : Bytes) (entryTuple : List (String × String)) :
    keptRows (set c tableName key entryTuple) rows =
      if TableThere rows (getTableName tableName) ∧ (checkEntry key entryTuple).isOk = true then
        Function.update rows ⟨getTableName tableName, key⟩ (some (c.setObject entryTuple))
      else rows := by
  unfold set
  rw [keptRows_openTable]
  by_cases hthere : TableThere rows (getTableName tableName)
  · rw [show (rows ⟨sysTables, ascii (getTableName tableName)⟩).isSome = true from hthere,
      if_pos rfl]
    cases hcheck : checkEntry key entryTuple with
    | error x => rw [if_neg (fun h => nomatch h.2)]; rfl
    | ok u => rw [if_pos ⟨hthere, rfl⟩]; rfl
  · rw [show (rows ⟨sysTables, ascii (getTableName tableName)⟩).isSome = false from
      Bool.eq_false_of_not_eq_true hthere, if_neg Bool.false_ne_true, if_neg fun h => hthere h.1]
    rfl

/-- What sets no entry of the table leaves all of them. -/
theorem stays_of_unaccepted (hT : IsUserTable T) {operation : FileOperation}
    (hnone : accepted T operation = none) {key : Bytes} (hkey : key ∉ directoryKeys)
    {entry : Option Entry} (h : Stays T key entry rows) :
    Stays T key entry (operation.step c rows) := by
  cases operation with
  | mkdir absolutePath => exact h.kept hT hkey (FileSystem.makeDir_writes c _)
  | createTable tableName keyField valueField =>
    exact h.kept hT hkey (createTable_writes c _ _ _)
  | create creation => exact h.create hT hkey creation
  | set tableName key' entryTuple =>
    show Stays T key entry (keptRows (set c tableName key' entryTuple) rows)
    rw [set_step]
    split
    next hset =>
      have hother : ¬((getTableName tableName = T ∧ (checkEntry key' entryTuple).isOk = true) ∧
          directoryKeys.contains key' = false) := by
        intro hall
        dsimp only [accepted] at hnone
        rw [dif_pos hall] at hnone
        cases hnone
      refine ⟨?_, ?_⟩
      · show (Function.update rows _ _ ⟨sysTables, ascii T⟩).isSome = true
        rw [Function.update_of_ne]
        · exact h.1
        · intro hrow
          have htable : sysTables = getTableName tableName := congrArg StateRow.table hrow
          exact not_isUserTable_sysTables (htable ▸ isUserTable_getTableName tableName)
      · rw [Function.update_of_ne, h.2]
        intro hrow
        obtain ⟨htable, rfl⟩ := StateRow.mk.inj hrow
        exact hother ⟨⟨htable.symm, hset.2⟩, contains_directoryKeys.mpr hkey⟩
    next => exact h

/-- What is accepted is set. -/
theorem step_of_accepted {operation : FileOperation}
    {key : {key : Bytes // key ∉ directoryKeys}}
    {answer : Except Exc (Bool × List (String × String))} (hthere : TableThere rows T)
    (haccepted : accepted T operation = some (key, answer)) :
    ∃ entryTuple, answer = .ok (true, entryTuple) ∧ operation.step c rows =
      Function.update rows ⟨T, key⟩ (some (c.setObject entryTuple)) := by
  cases operation with
  | set tableName key' entryTuple =>
    dsimp only [accepted] at haccepted
    split at haccepted
    next hall =>
      cases haccepted
      obtain ⟨⟨rfl, hcheck⟩, hkey⟩ := hall
      refine ⟨entryTuple, rfl, ?_⟩
      show keptRows (set c tableName key' entryTuple) rows = _
      rw [set_step, if_pos ⟨hthere, hcheck⟩]
    next => cases haccepted
  | mkdir absolutePath => cases haccepted
  | createTable tableName keyField valueField => cases haccepted
  | create creation => cases haccepted

theorem store_faithful (hT : IsUserTable T) :
    (store x T).Faithful fun rows => TableThere rows T where
  keep rows operation h := by
    cases haccepted : accepted T operation with
    | none =>
      have hkey : ([] : Bytes) ∉ directoryKeys := by decide
      exact (stays_of_unaccepted hT haccepted hkey ⟨h, rfl⟩).1
    | some w =>
      obtain ⟨entryTuple, -, hstep⟩ := step_of_accepted (c := c) h haccepted
      show TableThere (operation.step c rows) T
      rw [hstep]
      show (Function.update rows _ _ ⟨sysTables, ascii T⟩).isSome = true
      rw [Function.update_of_ne]
      · exact h
      · intro hrow
        have htable : sysTables = T := congrArg StateRow.table hrow
        exact not_isUserTable_sysTables (htable ▸ hT)
  written rows operation h key answer haccepted := by
    obtain ⟨entryTuple, rfl, hstep⟩ := step_of_accepted (c := c) h haccepted
    funext key'
    show entryTupleOf x (operation.step c rows ⟨T, key'⟩) = _
    rw [hstep]
    by_cases hkey : key' = key
    · subst hkey
      rw [Function.update_self, Function.update_self]
      dsimp only [entryTupleOf]
      rw [x.getObject_setObject]
    · have hrow : (⟨T, key'⟩ : StateRow) ≠ ⟨T, key⟩ :=
        fun heq => hkey (Subtype.ext (congrArg StateRow.key heq))
      rw [Function.update_of_ne hkey, Function.update_of_ne hrow]
      rfl
  unwritten rows operation h hnone := by
    funext key
    show entryTupleOf x (operation.step c rows ⟨T, key⟩) = entryTupleOf x (rows ⟨T, key⟩)
    rw [(stays_of_unaccepted hT hnone key.property ⟨h, rfl⟩).2]

theorem get_onRows (tableName : String) (key : Bytes) :
    (get x tableName key : Script Empty _).onRows rows =
      if TableThere rows (getTableName tableName) then
        (some (entryTupleOf x (rows ⟨getTableName tableName, key⟩)), rows)
      else (some (.error (.precompiledError
        (some (getTableName tableName ++ " does not exist")))), rows) := by
  unfold get
  rw [Script.onRows_bind]
  by_cases hthere : TableThere rows (getTableName tableName)
  · rw [if_pos hthere, hthere.onRows_openTable]
    dsimp only
    rw [if_pos rfl, Script.onRows_bind, Script.onRows_get]
    dsimp only
    cases entryTupleOf x (rows ⟨getTableName tableName, key⟩) <;> rfl
  · rw [if_neg hthere, Script.onRows_openTable, show
      (rows ⟨sysTables, ascii (getTableName tableName)⟩).isSome = false from
        Bool.eq_false_of_not_eq_true hthere]
    rfl

/-- After any directories, tables, contracts and entries that have been made and set since, a key
of a table has the entry that was set last in that table, by whatever name of it, or the one it
had. -/
theorem get_run (x : EntryCodec c) {tableName : String}
    (hthere : TableThere rows (getTableName tableName)) (operations : List FileOperation)
    {key : Bytes} (hkey : key ∉ directoryKeys) :
    let after := operations.foldl (FileOperation.step c) rows
    (get x tableName key : Script Empty _).onRows after =
      (some ((LastWrites.lastOf (operations.filterMap (accepted (getTableName tableName)))
        ⟨key, hkey⟩).getD (entryTupleOf x (rows ⟨getTableName tableName, key⟩))), after) := by
  intro after
  have hfaithful := store_faithful (x := x) (isUserTable_getTableName tableName)
  have hread : entryTupleOf x (after ⟨getTableName tableName, key⟩) = _ :=
    hfaithful.read_run_filterMap (fun _ _ => rfl) operations hthere ⟨key, hkey⟩
  have hthere' : TableThere after (getTableName tableName) := hfaithful.run operations hthere
  rw [get_onRows, if_pos hthere', hread]
  rfl

def entryFiles : FileCodec :=
  { fileCodec with setObject := (PrefixCode.string.pair PrefixCode.string).list.encode }

def entryCodec : EntryCodec entryFiles where
  getObject entry := ((PrefixCode.string.pair PrefixCode.string).list.decode entry).map Prod.fst
  getObject_setObject entryTuple := by
    have hdecode := (PrefixCode.string.pair PrefixCode.string).list.decode_append entryTuple []
    rw [List.append_nil] at hdecode
    exact congrArg (Option.map Prod.fst) hdecode

/-- The rows after a table was created. -/
def rowsWithTable : Rows :=
  (FileOperation.createTable "t" "key" "value").step entryFiles (initialRows entryFiles)

/-- The table has a second name, under which the entry is set again. -/
theorem get_run_alias : ∃ after : Rows,
    (get entryCodec "t" (ascii "k") : Script Empty _).onRows after =
      (some (.ok (true, [("value", "w")])), after) := by
  have hthere : TableThere rowsWithTable (getTableName "t") := by
    unfold TableThere
    decide +kernel
  exact ⟨_, get_run entryCodec hthere [.set "t" (ascii "k") [("value", "v")],
    .set "/t" (ascii "k") [("value", "w")], .set "t" (ascii "l") [("value", "v")],
    .mkdir "/tables/d", .create helloCreation] (by decide)⟩

end KVTableFactory

end BcosExecutor
