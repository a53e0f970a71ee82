import BcosExecutor.ExceptRuns
import BcosExecutor.FileTreeRuns
import BcosExecutor.HexAddresses

namespace BcosExecutor

open DagTransfer (IsCppString)
open ContractAuth (CODE_SUCCESS)

namespace KVTableFactory

/-- The part behind the last comma, all of it where there is none. -/
def afterLastComma (s : String) : String :=
  String.ofList (s.toList.reverse.takeWhile (· ≠ ',')).reverse

/-- The part before the last comma, all of it where there is none. -/
def beforeLastComma (s : String) : String :=
  if ',' ∈ s.toList then String.ofList ((s.toList.reverse.dropWhile (· ≠ ',')).drop 1).reverse
  else s

/-- The key field and the value fields. -/
def desc {κ : Type} (tableName : String) : Script κ (String × String) := do
  let table ← openTable (getTableName tableName)
  let sysEntry ← getRow sysTables (ascii (getTableName tableName))
  if !table || sysEntry.isNone then
    return ("", "")
  else
    let valueKey := bytesToString (sysEntry.getD [])
    return (afterLastComma valueKey, beforeLastComma valueKey)

/-- Later rows, for writes of any kind. -/
def later (rows : Rows) (writes : List (StateRow × Option Entry)) : Rows :=
  writes.foldl (fun rows w => Function.update rows w.1 w.2) rows

theorem later_row {row : StateRow} {writes : List (StateRow × Option Entry)}
    (h : ∀ w ∈ writes, w.1 ≠ row) (rows : Rows) : later rows writes row = rows row := by
  unfold later
  induction writes generalizing rows with
  | nil => rfl
  | cons w writes ih =>
    obtain ⟨hw, hwrites⟩ := List.forall_mem_cons.mp h
    rw [List.foldl_cons, ih hwrites, Function.update_of_ne hw.symm]

theorem comma_notMem_afterLastComma (s : String) : ',' ∉ (afterLastComma s).toList := by
  unfold afterLastComma
  rw [String.toList_ofList, List.mem_reverse]
  intro hmem
  exact of_decide_eq_true (List.all_eq_true.mp List.all_takeWhile ',' hmem) rfl

theorem splitLastComma {a b : List Char} (hb : ',' ∉ b) {s : String}
    (hs : s.toList = a ++ ',' :: b) :
    afterLastComma s = String.ofList b ∧ beforeLastComma s = String.ofList a := by
  have hreverse : s.toList.reverse = b.reverse ++ ',' :: a.reverse := by
    rw [hs, List.reverse_append, List.reverse_cons, List.append_assoc, List.singleton_append]
  have hall : ∀ x ∈ b.reverse, decide (x ≠ ',') = true := by
    intro x hx
    rw [decide_eq_true_iff]
    rintro rfl
    exact hb (List.mem_reverse.mp hx)
  constructor
  · unfold afterLastComma
    rw [hreverse, List.takeWhile_append_of_pos hall, List.takeWhile_cons_of_neg (by decide),
      List.append_nil, List.reverse_reverse]
  · unfold beforeLastComma
    rw [if_pos (hs ▸ List.mem_append_right a List.mem_cons_self), hreverse,
      List.dropWhile_append_of_pos hall, List.dropWhile_cons_of_neg (by decide), List.drop_one,
      List.tail_cons, List.reverse_reverse]

/-- What is joined by a comma is split again exactly when the part behind it has no other. -/
theorem splitLastComma_iff (values keys : String) :
    (afterLastComma (values ++ "," ++ keys), beforeLastComma (values ++ "," ++ keys)) =
      (keys, values) ↔ ',' ∉ keys.toList := by
  constructor
  · intro heq
    have hkeys : afterLastComma (values ++ "," ++ keys) = keys := (Prod.mk.inj heq).1
    rw [← hkeys]
    exact comma_notMem_afterLastComma _
  · intro hnone
    have hstored : (values ++ "," ++ keys).toList = values.toList ++ ',' :: keys.toList := by
      rw [String.toList_append, String.toList_append, List.append_assoc]
      rfl
    obtain ⟨hafter, hbefore⟩ := splitLastComma hnone hstored
    rw [hafter, hbefore, String.ofList_toList, String.ofList_toList]

/-- A name without a comma is the whole of its field. -/
theorem fieldList_of_notMem {field : String} (h : ',' ∉ field.toList) :
    fieldList field = [trim field] := by
  unfold fieldList
  rw [List.splitOn_eq_singleton h, List.map_singleton, String.ofList_toList]

theorem comma_mem_joinComma {field : String} (h : ',' ∈ field.toList) :
    ',' ∈ (joinComma (fieldList field)).toList := by
  have hlength : 2 ≤ (fieldList field).length := by
    unfold fieldList
    rw [List.length_map]
    obtain ⟨before, after, heq⟩ := List.append_of_mem h
    rw [heq, List.splitOn_append_cons_self, List.length_append]
    have hbefore := List.length_pos_iff.mpr (List.splitOn_ne_nil ',' before)
    have hafter := List.length_pos_iff.mpr (List.splitOn_ne_nil ',' after)
    omega
  unfold joinComma
  rw [String.toList_ofList]
  match fieldList field, hlength with
  | name :: name' :: names, _ =>
    rw [List.map_cons, List.map_cons, List.intercalate_cons_cons]
    exact List.mem_append_left _ (List.mem_append_right _ (List.mem_singleton_self ','))

theorem mem_joinComma {names : List String} {x : Char} (h : x ∈ (joinComma names).toList) :
    x = ',' ∨ ∃ name ∈ names, x ∈ name.toList := by
  unfold joinComma at h
  rw [String.toList_ofList] at h
  obtain heq | ⟨l, hl, hx⟩ := FilePaths.mem_intercalate h
  · exact Or.inl heq
  · obtain ⟨name, hname, rfl⟩ := List.mem_map.mp hl
    exact Or.inr ⟨name, hname, hx⟩

/-- The characters of a name that passes. -/
theorem checkFieldName_spec {name : String} (h : checkFieldName name = .ok ()) :
    ∀ x ∈ name.toList, x.toNat < 256 ∧ x ≠ ',' := by
  unfold checkFieldName refuse at h
  split at h
  next => cases h
  next =>
    split at h
    next hall =>
      intro x hx
      have hchar := List.all_eq_true.mp hall x hx
      rw [Bool.or_eq_true, Bool.or_eq_true, decide_eq_true_iff, decide_eq_true_iff] at hchar
      rcases hchar with (hname | rfl) | rfl
      · refine ⟨(FileSystem.isNameChar_spec hname).1, ?_⟩
        rintro rfl
        revert hname
        decide
      · decide
      · decide
    next => cases h

theorem checkFieldNames_spec {duplicated : String} {before names : List String}
    (h : checkFieldNames duplicated before names = .ok ()) :
    ∀ name ∈ names, checkFieldName name = .ok () := by
  induction names generalizing before with
  | nil => exact nofun
  | cons name names ih =>
    unfold checkFieldNames at h
    split at h
    next => cases h
    next =>
      obtain ⟨_, hname, hrest⟩ := ExceptRuns.bind_eq_ok.mp h
      exact List.forall_mem_cons.mpr ⟨hname, ih hrest⟩

/-- What passes is the trimmed fields, and their names have no comma. -/
theorem checkCreateTableParam_spec {tableName keyField valueField : String}
    {fields : String × String}
    (h : checkCreateTableParam tableName keyField valueField = .ok fields) :
    fields = (joinComma (fieldList keyField), joinComma (fieldList valueField)) ∧
      (∀ name ∈ fieldList keyField, checkFieldName name = .ok ()) ∧
      ∀ name ∈ fieldList valueField, checkFieldName name = .ok () := by
  unfold checkCreateTableParam at h
  obtain ⟨_, -, h⟩ := ExceptRuns.bind_eq_ok.mp h
  obtain ⟨_, -, h⟩ := ExceptRuns.bind_eq_ok.mp h
  obtain ⟨_, -, h⟩ := ExceptRuns.bind_eq_ok.mp h
  obtain ⟨_, hnames, h⟩ := ExceptRuns.bind_eq_ok.mp h
  obtain ⟨_, -, h⟩ := ExceptRuns.bind_eq_ok.mp h
  obtain ⟨_, -, h⟩ := ExceptRuns.bind_eq_ok.mp h
  unfold checkNameValidate at hnames
  obtain ⟨_, -, hnames⟩ := ExceptRuns.bind_eq_ok.mp hnames
  obtain ⟨_, hkeys, hvalues⟩ := ExceptRuns.bind_eq_ok.mp hnames
  refine ⟨?_, checkFieldNames_spec hkeys, checkFieldNames_spec hvalues⟩
  dsimp only at h
  split at h
  · cases h
  · exact (Except.ok.inj h).symm

variable {c : FileCodec} {rows rows' : Rows}

/-- The row of a new table. -/
theorem enterTable_row {newTableName parentDir tableBaseName keyField valueField : String}
    (hparent : sysTables ≠ parentDir) {code : Int}
    (hrun : (enterTable c newTableName parentDir tableBaseName keyField valueField).onRows rows =
      (some (.ok code), rows')) :
    rows' ⟨sysTables, ascii newTableName⟩ = some (ascii (valueField ++ "," ++ keyField)) := by
  unfold enterTable BcosExecutor.createTable at hrun
  cases hthere : (rows ⟨sysTables, ascii newTableName⟩).isSome with
  | true =>
    simp only [Script.onRows_bind, Script.onRows_openTable, hthere, ↓reduceIte,
      Script.onRows_throw, Prod.mk.injEq] at hrun
    cases hrun.1
  | false =>
    simp only [Script.onRows_bind, Script.onRows_openTable, hthere, Bool.false_eq_true, ↓reduceIte,
      Script.onRows_set, Script.onRows_get, Function.update_self, Function.update_idem] at hrun
    generalize hcreated : Function.update rows ⟨sysTables, ascii newTableName⟩
      (some (ascii (valueField ++ "," ++ keyField))) = created at hrun
    have hrow : created ⟨sysTables, ascii newTableName⟩ =
        some (ascii (valueField ++ "," ++ keyField)) := by
      rw [← hcreated, Function.update_self]
    cases hopened : (created ⟨sysTables, ascii parentDir⟩).isSome with
    | false =>
      rw [hopened] at hrun
      cases hrun
    | true =>
      rw [hopened, Bool.not_true, if_neg Bool.false_ne_true, Script.onRows_bind,
        Script.onRows_get] at hrun
      dsimp only at hrun
      cases hsub : created ⟨parentDir, FS_KEY_SUB⟩ with
      | none =>
        rw [hsub] at hrun
        cases hrun
      | some sub =>
        rw [hsub] at hrun
        dsimp only at hrun
        cases hinsert : c.insertBfs sub tableBaseName FS_TYPE_CONTRACT with
        | none =>
          rw [hinsert] at hrun
          cases hrun
        | some bfsInfo =>
          rw [hinsert] at hrun
          cases hrun
          rw [Function.update_of_ne fun heq => hparent (congrArg StateRow.table heq)]
          exact hrow

theorem parentDir_ne (path : String) : sysTables ≠ (getParentDirAndBaseName path).1 := by
  unfold getParentDirAndBaseName
  split
  · decide
  · intro heq
    have hhead := congrArg (fun s => s.toList.head?) heq
    simp only [String.toList_append] at hhead
    cases hhead

theorem createTable_row {tableName keyField valueField : String}
    (hrun : (createTable c tableName keyField valueField).onRows rows =
      (some (.ok CODE_SUCCESS), rows')) :
    checkCreateTableParam tableName keyField valueField =
        .ok (joinComma (fieldList keyField), joinComma (fieldList valueField)) ∧
      rows' ⟨sysTables, ascii (getTableName tableName)⟩ =
        some (ascii (joinComma (fieldList valueField) ++ "," ++ joinComma (fieldList keyField))) := by
  unfold createTable at hrun
  split at hrun
  · cases hrun
  · cases hcheck : checkCreateTableParam tableName keyField valueField with
    | error e =>
      rw [hcheck] at hrun
      cases hrun
    | ok fields =>
      obtain ⟨rfl, -, -⟩ := checkCreateTableParam_spec hcheck
      rw [hcheck] at hrun
      dsimp only at hrun
      rw [Script.onRows_bind, Script.onRows_openTable] at hrun
      dsimp only at hrun
      refine ⟨rfl, ?_⟩
      split at hrun
      · cases hrun
      · rw [Script.onRows_bind] at hrun
        rcases hbuild : (FileSystem.recursiveBuildDir c
          (getParentDirAndBaseName (getTableName tableName)).1 : Script Empty Bool).onRows rows
          with ⟨out, built⟩
        rw [hbuild] at hrun
        match out with
        | none => cases hrun
        | some (.error e) => cases hrun
        | some (.ok false) => cases hrun
        | some (.ok true) => exact enterTable_row (parentDir_ne _) hrun

theorem joinComma_chars {names : List String} (h : ∀ name ∈ names, checkFieldName name = .ok ()) :
    ∀ x ∈ (joinComma names).toList, x.toNat < 256 := by
  intro x hx
  obtain rfl | ⟨name, hname, hx⟩ := mem_joinComma hx
  · decide
  · exact (checkFieldName_spec (h name hname) x hx).1

theorem joined_chars {values keys : List String}
    (hvalues : ∀ name ∈ values, checkFieldName name = .ok ())
    (hkeys : ∀ name ∈ keys, checkFieldName name = .ok ()) :
    ∀ x ∈ (joinComma values ++ "," ++ joinComma keys).toList, x.toNat < 256 := by
  intro x hx
  rw [String.toList_append, String.toList_append, List.mem_append, List.mem_append] at hx
  rcases hx with (hx | hx) | hx
  · exact joinComma_chars hvalues x hx
  · rw [List.mem_singleton.mp (show x ∈ [','] from hx)]
    decide
  · exact joinComma_chars hkeys x hx

/-- Trimming takes away no comma, as a single name has none. -/
theorem comma_mem_keys_iff {keyField : String}
    (hkeys : ∀ name ∈ fieldList keyField, checkFieldName name = .ok ()) :
    ',' ∈ (joinComma (fieldList keyField)).toList ↔ ',' ∈ keyField.toList := by
  refine ⟨fun hmem => ?_, comma_mem_joinComma⟩
  by_contra hsingle
  rw [fieldList_of_notMem hsingle] at hmem hkeys
  have hname := checkFieldName_spec (hkeys _ (List.mem_singleton_self _)) ','
  unfold joinComma at hmem
  rw [List.map_singleton, List.intercalate_singleton, String.ofList_toList] at hmem
  exact (hname hmem).2 rfl

theorem desc_onRows {tableName : String} {valueKey : String}
    (hchars : ∀ x ∈ valueKey.toList, x.toNat < 256)
    (hrow : rows ⟨sysTables, ascii (getTableName tableName)⟩ = some (ascii valueKey)) :
    (desc tableName : Script Empty (String × String)).onRows rows =
      (some (.ok (afterLastComma valueKey, beforeLastComma valueKey)), rows) := by
  unfold desc
  rw [Script.onRows_bind, Script.onRows_openTable, hrow]
  dsimp only
  rw [Script.onRows_bind, Script.onRows_get, hrow]
  dsimp only
  rw [Option.getD_some, bytesToString_ascii hchars]
  rfl

/-- The description of a table that has been created gives back its fields, for all later rows in
which its own row is left, exactly when the key field is a single name. -/
theorem desc_createTable_iff (c : FileCodec) {rows rows' : Rows}
    {tableName keyField valueField : String}
    (hcreate : (createTable c tableName keyField valueField).onRows rows =
      (some (.ok CODE_SUCCESS), rows'))
    {writes : List (StateRow × Option Entry)}
    (hwrites : ∀ w ∈ writes, w.1 ≠ ⟨sysTables, ascii (getTableName tableName)⟩) :
    (desc tableName : Script Empty (String × String)).onRows (later rows' writes) =
        (some (.ok (joinComma (fieldList keyField), joinComma (fieldList valueField))),
          later rows' writes) ↔
      ',' ∉ keyField.toList := by
  obtain ⟨hcheck, hrow⟩ := createTable_row hcreate
  obtain ⟨-, hkeys, hvalues⟩ := checkCreateTableParam_spec hcheck
  rw [desc_onRows (joined_chars hvalues hkeys) ((later_row hwrites rows').trans hrow)]
  have hsplit := splitLastComma_iff (joinComma (fieldList valueField))
    (joinComma (fieldList keyField))
  refine Iff.trans ?_ (hsplit.trans (not_congr (comma_mem_keys_iff hkeys)))
  constructor
  · intro heq
    exact Except.ok.inj (Option.some.inj (Prod.mk.inj heq).1)
  · intro heq
    rw [heq]

/-- The rows after a table with two values was created. -/
def createdRows (keyField : String) : Rows :=
  ((createTable fileCodec "t" keyField "a, b" : Script Empty Int).onRows
    (initialRows fileCodec)).2

theorem createTable_succeeds {keyField : String}
    (h : ContractAuth.succeeded ((createTable fileCodec "t" keyField "a, b" :
      Script Empty Int).onRows (initialRows fileCodec)).1 = true) :
    (createTable fileCodec "t" keyField "a, b").onRows (initialRows fileCodec) =
      (some (.ok CODE_SUCCESS), createdRows keyField) := by
  unfold createdRows
  generalize (createTable fileCodec "t" keyField "a, b" : Script Empty Int).onRows
    (initialRows fileCodec) = out at h ⊢
  obtain ⟨out, rows⟩ := out
  match out, h with
  | some (.ok code), h => rw [eq_of_beq h]

theorem desc_createTable_iff_single :
    (desc "t" : Script Empty (String × String)).onRows
        (later (createdRows " key") [(⟨"/tables/t", []⟩, none)]) =
        (some (.ok (joinComma (fieldList " key"), joinComma (fieldList "a, b"))),
          later (createdRows " key") [(⟨"/tables/t", []⟩, none)]) ↔
      ',' ∉ " key".toList :=
  desc_createTable_iff fileCodec (createTable_succeeds (by decide +kernel))
    (List.forall_mem_singleton.mpr (by decide))

/-- Whether a description came back with these fields. -/
def describedAs (fields : String × String) : Option (Except Exc (String × String)) → Bool
  | some (.ok found) => found = fields
  | _ => false

/-- Of two key fields the first is taken for a value field. -/
theorem not_desc_createTable : ¬∀ (c : FileCodec) (rows rows' : Rows)
    (tableName keyField valueField : String),
    (createTable c tableName keyField valueField).onRows rows =
      (some (.ok CODE_SUCCESS), rows') →
    (desc tableName : Script Empty (String × String)).onRows rows' =
      (some (.ok (joinComma (fieldList keyField), joinComma (fieldList valueField))), rows') := by
  intro h
  have hdesc := congrArg Prod.fst (h fileCodec (initialRows fileCodec) (createdRows "k,l") "t" "k,l"
    "a, b" (createTable_succeeds (by decide +kernel)))
  have hfields := congrArg (describedAs ("k,l", "a,b")) hdesc
  revert hfields
  decide +kernel

end KVTableFactory

end BcosExecutor
