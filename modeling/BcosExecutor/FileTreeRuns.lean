import BcosExecutor.WasmCreations

namespace BcosExecutor

open FilePaths FileCodec
open TransactionExecutive (createdAuthTable)

variable {c : FileCodec} {rows : Rows}

theorem FileOperation.step_filed (h : c.Filed none rows) {op : FileOperation}
    (hproper : op.Proper c rows) : c.Filed none (op.step c rows) := by
  cases op with
  | mkdir absolutePath =>
    refine keptRows_invariant h fun out s' hrun _ => ?_
    have hfiled := FileSystem.makeDir_filed h absolutePath
    rw [hrun] at hfiled
    exact hfiled
  | createTable tableName keyField valueField =>
    exact KVTableFactory.createTable_filed h hproper
  | set tableName key entryTuple => exact KVTableFactory.set_filed h hproper
  | create creation =>
    refine create_filed h rfl rfl (hproper.imp id fun hall => ?_)
    obtain ⟨hclean, hauth, hplain⟩ := hall
    exact ⟨hclean, hauth, hplain.writes ⟨creation.message, creation.tableName c⟩⟩

variable {st : StateStorage}

/-- The rows that follow the message of a creation. -/
theorem FileOperation.create_message (h : st.Lawful) (creation : WasmCreation) (s : st.State) :
    st.getRow (executeMessage st (creation.environment c) (creation.behaviour c) creation.message
      s).storage = (FileOperation.create creation).step c (st.getRow s) :=
  congrArg Prod.snd
    (executeMessage_rows h (creation.environment c) (creation.behaviour c) creation.message s)

/-- The root with the directories of the contracts and of the user tables, and no others. -/
structure InitialDirectories (c : FileCodec) (rows : Rows) : Prop where
  there : ∀ t, IsPath t → (TableThere rows t ↔ t = "/" ∨ t = "/apps" ∨ t = "/tables")
  directories : ∀ t, IsDirectory rows t ↔ t = "/" ∨ t = "/apps" ∨ t = "/tables"
  root : ∃ bfsInfo, c.listing rows "/" = some bfsInfo ∧ ∀ name kind,
    bfsInfo.lookup name = some kind ↔ (name = "apps" ∨ name = "tables") ∧ kind = FS_TYPE_DIR
  apps : c.listing rows "/apps" = some ∅
  tables : c.listing rows "/tables" = some ∅

theorem isFileName_of_all {name : String} (hchars : name.toList.all (·.toNat < 256) = true)
    (hne : name ≠ "") (hslash : '/' ∉ name.toList) : IsFileName name :=
  ⟨fun c hc => of_decide_eq_true (List.all_eq_true.mp hchars c hc), hne, hslash⟩

theorem isFileName_apps : IsFileName "apps" :=
  isFileName_of_all (by decide) (by decide) (by decide)

theorem isFileName_tables : IsFileName "tables" :=
  isFileName_of_all (by decide) (by decide) (by decide)

theorem InitialDirectories.filed (h : InitialDirectories c rows) : c.Filed none rows := by
  have happs : "/apps" = childName "/" "apps" := by decide
  have htables : "/tables" = childName "/" "tables" := by decide
  have hpathApps : IsPath "/apps" := happs ▸ isPath_childName isPath_root isFileName_apps
  have hpathTables : IsPath "/tables" := htables ▸ isPath_childName isPath_root isFileName_tables
  -- only the root has children
  have hchild {dir name : String} (hdir : IsPath dir) (hname : IsFileName name) :
      (childName dir name = "/" ∨ childName dir name = "/apps" ∨ childName dir name = "/tables") ↔
        dir = "/" ∧ (name = "apps" ∨ name = "tables") := by
    rw [or_iff_right (childName_ne_root dir hname), happs, htables]
    constructor
    · rintro (heq | heq)
      · obtain ⟨hd, hn⟩ := childName_injective hdir isPath_root hname isFileName_apps heq
        exact ⟨hd, .inl hn⟩
      · obtain ⟨hd, hn⟩ := childName_injective hdir isPath_root hname isFileName_tables heq
        exact ⟨hd, .inr hn⟩
    · rintro ⟨rfl, rfl | rfl⟩
      · exact .inl rfl
      · exact .inr rfl
  have hpaths (t : String) (ht : IsDirectory rows t) : IsPath t := by
    rcases (h.directories t).mp ht with rfl | rfl | rfl
    · exact isPath_root
    · exact hpathApps
    · exact hpathTables
  have hempty {dir : String} (hdir : dir = "/apps" ∨ dir = "/tables") :
      c.listing rows dir = some ∅ := by
    rcases hdir with rfl | rfl
    · exact h.apps
    · exact h.tables
  obtain ⟨rootInfo, hrootInfo, hrootNames⟩ := h.root
  have hwell : (c.tree none rows).WellListed tableNaming := by
    refine ⟨(h.directories "/").mpr (.inl rfl), fun t ht => ?_, fun dir hdir => ?_, fun t ht => ?_⟩
    · exact ⟨(h.there t.1 t.2).mpr ((h.directories t.1).mp ht), nofun⟩
    · obtain ⟨dir, hdirPath⟩ := dir
      have hchildThere (name : FileName) : TableThere rows (childName dir name.1) ↔
          dir = "/" ∧ (name.1 = "apps" ∨ name.1 = "tables") :=
        (h.there _ (isPath_childName hdirPath name.2)).trans (hchild hdirPath name.2)
      have hchildDir (name : FileName) : IsDirectory rows (childName dir name.1) ↔
          dir = "/" ∧ (name.1 = "apps" ∨ name.1 = "tables") :=
        (h.directories _).trans (hchild hdirPath name.2)
      rcases (h.directories dir).mp hdir with rfl | hother
      · refine ⟨fun name : FileName => (rootInfo.lookup name.1).map fun kind =>
          decide (kind = FS_TYPE_DIR), ?_, fun name isDirectory => ?_⟩
        · show (c.listing rows "/").map _ = _
          rw [hrootInfo]
          rfl
        · show (rootInfo.lookup name.1).map _ = some isDirectory ↔
            (TableThere rows (childName "/" name.1) ∧ none ≠ some (childName "/" name.1)) ∧
              (isDirectory = true ↔ IsDirectory rows (childName "/" name.1))
          rw [hchildThere, hchildDir]
          by_cases hname : name.1 = "apps" ∨ name.1 = "tables"
          · rw [(hrootNames name.1 FS_TYPE_DIR).mpr ⟨hname, rfl⟩]
            simp only [Option.map_some, decide_true, hname, and_self, true_and, ne_eq, reduceCtorEq,
              not_false_eq_true, iff_true, Option.some.injEq]
            exact eq_comm
          · have hnone : rootInfo.lookup name.1 = none := by
              by_contra hsome
              obtain ⟨kind, hkind⟩ := Option.ne_none_iff_exists'.mp hsome
              exact hname ((hrootNames name.1 kind).mp hkind).1
            rw [hnone]
            simp only [Option.map_none, reduceCtorEq, hname, and_false, false_and]
      · have hne : dir ≠ "/" := by rcases hother with rfl | rfl <;> decide
        refine ⟨fun _ => none, ?_, fun name isDirectory => ?_⟩
        · show (c.listing rows dir).map _ = _
          rw [hempty hother]
          rfl
        · show _ ↔ (TableThere rows (childName dir name.1) ∧ none ≠ some (childName dir name.1)) ∧
            (isDirectory = true ↔ IsDirectory rows (childName dir name.1))
          rw [hchildThere]
          simp only [reduceCtorEq, hne, false_and]
    · obtain ⟨t, htPath⟩ := t
      have hroot : IsDirectory rows "/" := (h.directories "/").mpr (.inl rfl)
      rcases (h.there t htPath).mp ht.1 with rfl | rfl | rfl
      · exact .inl rfl
      · exact .inr ⟨⟨"/", isPath_root⟩, hroot, ⟨"apps", isFileName_apps⟩, Subtype.ext happs⟩
      · exact .inr ⟨⟨"/", isPath_root⟩, hroot, ⟨"tables", isFileName_tables⟩, Subtype.ext htables⟩
  refine ⟨hwell, hpaths, fun dir bfsInfo hdir hlisting name hmem => ?_⟩
  rcases (h.directories dir).mp hdir with rfl | hother
  · obtain rfl := Option.some.inj (hrootInfo.symm.trans hlisting)
    obtain ⟨kind, hkind⟩ := lookup_isSome.mp hmem
    rcases ((hrootNames name kind).mp hkind).1 with rfl | rfl
    · exact isFileName_apps
    · exact isFileName_tables
  · obtain rfl := Option.some.inj ((hempty hother).symm.trans hlisting)
    exact (AList.notMem_empty name hmem).elim

/-- The rows of the directories that a chain begins with. -/
def initialRows (c : FileCodec) : Rows :=
  let rows := c.withDirectory "/" "/" (c.bfs.encode ∅) fun _ => none
  let rows := c.withDirectory "/" "/apps" (c.bfs.encode (AList.insert "apps" FS_TYPE_DIR ∅)) rows
  c.withDirectory "/" "/tables"
    (c.bfs.encode (AList.insert "tables" FS_TYPE_DIR (AList.insert "apps" FS_TYPE_DIR ∅))) rows

theorem initialDirectories (c : FileCodec) : InitialDirectories c (initialRows c) := by
  have hpathApps : IsPath "/apps" := isPath_childName isPath_root isFileName_apps
  have hpathTables : IsPath "/tables" := isPath_childName isPath_root isFileName_tables
  have hlisting (t : String) : c.listing (initialRows c) t =
      if t = "/" then some (AList.insert "tables" FS_TYPE_DIR (AList.insert "apps" FS_TYPE_DIR ∅))
      else if t = "/tables" ∨ t = "/apps" then some ∅ else none := by
    unfold FileCodec.listing initialRows
    rw [withDirectory_sub hpathTables, withDirectory_sub hpathApps, withDirectory_sub isPath_root]
    by_cases hroot : t = "/"
    · rw [if_pos hroot, if_pos hroot]
      exact c.bfs.decode_encode _
    by_cases htables : t = "/tables"
    · simp only [if_neg hroot, if_pos htables, if_pos (Or.inl htables : t = "/tables" ∨ t = "/apps")]
      exact c.bfs.decode_encode _
    by_cases happs : t = "/apps"
    · simp only [if_neg hroot, if_neg htables, if_pos happs,
        if_pos (Or.inr happs : t = "/tables" ∨ t = "/apps")]
      exact c.bfs.decode_encode _
    · simp only [hroot, htables, happs, if_false, or_self, Option.bind_none]
  refine ⟨fun t ht => ?_, fun t => ?_, ⟨_, hlisting "/", fun name kind => ?_⟩, ?_, ?_⟩
  · unfold initialRows
    rw [withDirectory_table isPath_root hpathTables ht, withDirectory_table isPath_root hpathApps ht,
      withDirectory_table isPath_root isPath_root ht]
    have hnone : ¬TableThere (fun _ => none) t := Bool.false_ne_true
    simp only [hnone, false_or, or_assoc]
  · unfold initialRows
    rw [withDirectory_type hpathTables, withDirectory_type hpathApps, withDirectory_type isPath_root]
    have hnone : ¬IsDirectory (fun _ => none) t := nofun
    simp only [hnone, false_or, or_assoc]
  · by_cases htables : name = "tables"
    · subst htables
      rw [AList.lookup_insert]
      simp only [Option.some.injEq, or_true, true_and]
      exact eq_comm
    rw [AList.lookup_insert_ne htables]
    by_cases happs : name = "apps"
    · subst happs
      rw [AList.lookup_insert]
      simp only [Option.some.injEq, true_or, true_and]
      exact eq_comm
    · rw [AList.lookup_insert_ne happs, AList.lookup_empty]
      simp only [reduceCtorEq, happs, htables, or_self, false_and]
  · exact hlisting "/apps"
  · exact hlisting "/tables"

/-- In a run whose operations are all proper the file system is a tree in every state. -/
theorem FileOperation.fileTree_of_proper (hinitial : InitialDirectories c rows) {ops : List FileOperation}
    (h : Runs.Always (FileOperation.step c) (FileOperation.Proper c) rows ops) :
    FileTree c (ops.foldl (FileOperation.step c) rows) := by
  have hrun : ∀ {ops : List FileOperation} {rows : Rows}, c.Filed none rows →
      Runs.Always (FileOperation.step c) (FileOperation.Proper c) rows ops →
        c.Filed none (ops.foldl (FileOperation.step c) rows) := by
    intro ops
    induction ops with
    | nil => exact fun hfiled _ => hfiled
    | cons op ops ih => exact fun hfiled h => ih (step_filed hfiled h.1) h.2
  exact (hrun hinitial.filed h).fileTree

def fileCodec : FileCodec where
  bfs := (PrefixCode.string.map PrefixCode.byte.list).toCodec (PrefixCode.map_encode_ne_nil _ _)
  setObject entryTuple := entryTuple.flatMap fun kv => ascii (kv.1 ++ "=" ++ kv.2 ++ ";")

def helloCreation : WasmCreation where
  env := { evmEnvironment with
    isWasm := true
    decode := fun data => some ((data, []), [])
    injectMeter := some }
  params := { codeAddress := "/hello", data := [0, 97, 115, 109, 1, 0, 0, 0], type := .message }
  checkAuth := true
  code := .set (ascii "greeting") (ascii "hi") (.done ⟨.success, 0, [1]⟩)

/-- A directory, a table in it, an entry of the table and a contract. -/
def properOperations : List FileOperation :=
  [.mkdir "/tables/d", .createTable "d/t" "key" "value", .set "d/t" (ascii "k") [("value", "v")],
    .create helloCreation]

theorem isFileName_names : ∀ name ∈ ["tables", "d", "t", "apps", "hello"], IsFileName name := by
  have hnames : ∀ name ∈ ["tables", "d", "t", "apps", "hello"],
      name.toList.all (·.toNat < 256) = true ∧ name ≠ "" ∧ '/' ∉ name.toList := by
    decide
  intro name hname
  obtain ⟨hchars, hne, hslash⟩ := hnames name hname
  exact isFileName_of_all hchars hne hslash

theorem FileOperation.fileTree_proper :
    FileTree fileCodec
      (properOperations.foldl (FileOperation.step fileCodec) (initialRows fileCodec)) := by
  refine FileOperation.fileTree_of_proper (initialDirectories fileCodec) ⟨trivial, ?_, ?_, ?_, trivial⟩
  · refine .inr (.inr ⟨["tables", "d", "t"], by decide, fun name hname => ?_, by decide⟩)
    exact isFileName_names name (List.mem_of_mem_take (i := 3) hname)
  · refine .inr (.inr ⟨by decide, fun hkey => ?_, fun hkey => ?_⟩)
    · exact absurd hkey (by decide)
    · exact absurd hkey (by decide)
  · refine .inr ⟨⟨["apps", "hello"], by decide, fun name hname => ?_, by decide⟩, rfl, ?_, trivial⟩
    · exact isFileName_names name (List.mem_of_mem_drop (i := 3) hname)
    · exact fun hwrite => absurd hwrite.1 (by decide)

/-- An entry is set in a directory, under the key of its listing. -/
def listingOverwritten : Rows :=
  [.mkdir "/tables/d", .set "d" FS_KEY_SUB [("a", "b")]].foldl (FileOperation.step fileCodec)
    (initialRows fileCodec)

theorem FileOperation.not_fileTree_listingOverwritten :
    InitialDirectories fileCodec (initialRows fileCodec) ∧
      ¬FileTree fileCodec listingOverwritten := by
  refine ⟨initialDirectories fileCodec, fun h => ?_⟩
  have hdir : listingOverwritten ⟨"/tables/d", FS_KEY_TYPE⟩ = some FS_TYPE_DIR := by
    decide +kernel
  have hnone : (fileCodec.listing listingOverwritten "/tables/d").isNone = true := by
    decide +kernel
  obtain ⟨bfsInfo, hlisting, -⟩ := h.listed "/tables/d" hdir
  rw [hlisting] at hnone
  cases hnone

end BcosExecutor
