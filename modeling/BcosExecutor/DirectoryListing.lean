import BcosExecutor.PathSpelling

namespace BcosExecutor

open FilePaths FileCodec

section

variable {β : Type} (m : StdMap String β)

theorem StdMap.mem_inOrder {name : String} {v : β} :
    (name, v) ∈ m.inOrder ↔ m.lookup name = some v := by
  rw [inOrder, List.mem_insertionSort, List.mem_map]
  constructor
  · rintro ⟨⟨name', v'⟩, hmem, heq⟩
    cases heq
    exact AList.mem_lookup_iff.mpr hmem
  · exact fun h => ⟨⟨name, v⟩, AList.mem_lookup_iff.mp h, rfl⟩

theorem StdMap.nodup_inOrder : (m.inOrder.map Prod.fst).Nodup := by
  have hperm : (m.inOrder.map Prod.fst).Perm m.keys := by
    have hsort := (List.perm_insertionSort (fun kv kv' => kv.1.toList ≤ kv'.1.toList)
      (m.entries.map fun kv => (kv.1, kv.2))).map Prod.fst
    rw [List.map_map] at hsort
    exact hsort
  exact hperm.nodup_iff.mpr m.keys_nodup

/-- A `std::map` is gone through in the order of the keys. -/
theorem StdMap.pairwise_inOrder :
    m.inOrder.Pairwise fun kv kv' => kv.1.toList < kv'.1.toList := by
  have hle : m.inOrder.Pairwise fun kv kv' => kv.1.toList ≤ kv'.1.toList :=
    List.pairwise_insertionSort (fun kv kv' : String × β => kv.1.toList ≤ kv'.1.toList) _
  have hne : m.inOrder.Pairwise fun kv kv' => kv.1 ≠ kv'.1 :=
    List.pairwise_map.mp m.nodup_inOrder
  refine (hle.and hne).imp fun {kv kv'} h => lt_of_le_of_ne h.1 fun heq => h.2 ?_
  exact String.toList_inj.mp heq

end

theorem FileOperation.run_filed {c : FileCodec} {rows : Rows} {ops : List FileOperation}
    (h : c.Filed none rows)
    (hproper : Runs.Always (FileOperation.step c) (FileOperation.Proper c) rows ops) :
    c.Filed none (ops.foldl (FileOperation.step c) rows) := by
  induction ops generalizing rows with
  | nil => exact h
  | cons op ops ih => exact ih (step_filed h hproper.1) hproper.2

namespace FileSystem

/-- The files of a directory by name, with the kind of each. -/
structure ListsDirectory (rows : Rows) (dir : String) (files : List (String × Bytes)) : Prop where
  sorted : files.Pairwise fun file file' => file.1.toList < file'.1.toList
  names : ∀ name, name ∈ files.map Prod.fst ↔
    IsFileName name ∧ TableThere rows (childName dir name)
  kinds : ∀ file ∈ files, file.2 = FS_TYPE_DIR ↔ IsDirectory rows (childName dir file.1)

/-- A directory is answered with its files, and what is not one with itself as a contract. -/
inductive Lists (rows : Rows) (path : String) : ListAnswer → Prop
  | invalid : checkPathValid path = false → Lists rows path (.code CODE_FILE_INVALID_PATH)
  | notExist : checkPathValid path = true → ¬TableThere rows path →
      Lists rows path (.code CODE_FILE_NOT_EXIST)
  | directory {files} : checkPathValid path = true → IsDirectory rows path →
      ListsDirectory rows path files → Lists rows path (.files files)
  | contract : checkPathValid path = true → TableThere rows path → ¬IsDirectory rows path →
      Lists rows path (.files [((KVTableFactory.getParentDirAndBaseName path).2, FS_TYPE_CONTRACT)])

variable {c : FileCodec} {rows : Rows} {path : String}

theorem listsDirectory_inOrder (h : c.Filed none rows) {dir : String} (hdir : IsDirectory rows dir)
    {bfsInfo : StdMap String Bytes} (hlisting : c.listing rows dir = some bfsInfo) :
    ListsDirectory rows dir bfsInfo.inOrder := by
  obtain ⟨bfsInfo', hlisting', hnames, hkinds⟩ := h.fileTree.listed dir hdir
  obtain rfl := Option.some.inj (hlisting.symm.trans hlisting')
  refine ⟨bfsInfo.pairwise_inOrder, fun name => ?_, fun file hfile => ?_⟩
  · rw [← hnames, lookup_isSome, List.mem_map]
    constructor
    · rintro ⟨⟨name', kind⟩, hmem, rfl⟩
      exact ⟨kind, bfsInfo.mem_inOrder.mp hmem⟩
    · rintro ⟨kind, hkind⟩
      exact ⟨(name, kind), bfsInfo.mem_inOrder.mpr hkind, rfl⟩
  · exact hkinds file.1 file.2 (bfsInfo.mem_inOrder.mp hfile)

theorem listDir_there (hvalid : checkPathValid path = true) (hthere : TableThere rows path) :
    (listDir c path : Script Empty ListAnswer).onRows rows =
      match rows ⟨path, FS_KEY_TYPE⟩ with
      | none => (some (.ok (.files
          [((KVTableFactory.getParentDirAndBaseName path).2, FS_TYPE_CONTRACT)])), rows)
      | some _ =>
        match rows ⟨path, FS_KEY_SUB⟩ with
        | none => (none, rows)
        | some sub =>
          match c.bfs.decode sub with
          | none => (some (.error (.stdException "decode")), rows)
          | some bfsInfo => (some (.ok (.files bfsInfo.inOrder)), rows) := by
  unfold listDir
  rw [hvalid, Bool.not_true, if_neg Bool.false_ne_true, Script.onRows_bind,
    hthere.onRows_openTable]
  dsimp only
  rw [if_pos rfl, Script.onRows_bind, Script.onRows_get]
  dsimp only
  cases rows ⟨path, FS_KEY_TYPE⟩ with
  | none => rfl
  | some kind =>
    dsimp only
    rw [Script.onRows_bind, Script.onRows_get]
    dsimp only
    cases rows ⟨path, FS_KEY_SUB⟩ with
    | none => rfl
    | some sub =>
      dsimp only
      cases c.bfs.decode sub with
      | none => rfl
      | some bfsInfo => rfl

/-- `list` answers from a tree that is in order unless the table has a row for its type that is not
that of a directory. -/
theorem listDir_filed (h : c.Filed none rows) (path : String)
    (htype : IsDirectory rows path ∨ rows ⟨path, FS_KEY_TYPE⟩ = none) :
    ∃ answer, (listDir c path : Script Empty ListAnswer).onRows rows =
      (some (.ok answer), rows) ∧ Lists rows path answer := by
  cases hvalid : checkPathValid path with
  | false =>
    refine ⟨.code CODE_FILE_INVALID_PATH, ?_, .invalid hvalid⟩
    unfold listDir
    rw [hvalid]
    rfl
  | true =>
    by_cases hthere : TableThere rows path
    · by_cases hdir : IsDirectory rows path
      · obtain ⟨bfsInfo, hlisting⟩ := h.listing_isSome hdir
        obtain ⟨sub, hsub, hdecode⟩ := Option.bind_eq_some_iff.mp hlisting
        refine ⟨.files bfsInfo.inOrder, ?_, .directory hvalid hdir
          (listsDirectory_inOrder h hdir hlisting)⟩
        rw [listDir_there hvalid hthere, show rows ⟨path, FS_KEY_TYPE⟩ = some FS_TYPE_DIR from hdir,
          hsub]
        dsimp only
        rw [hdecode]
      · refine ⟨_, ?_, .contract hvalid hthere hdir⟩
        rw [listDir_there hvalid hthere, htype.resolve_left hdir]
    · exact ⟨_, listDir_new hvalid hthere, .notExist hvalid hthere⟩

/-- In every state that proper operations lead to, `list` answers for a path what is there. -/
theorem listDir_run (hinitial : InitialDirectories c rows) {ops : List FileOperation}
    (h : Runs.Always (FileOperation.step c) (FileOperation.Proper c) rows ops) (path : String)
    (htype : IsDirectory (ops.foldl (FileOperation.step c) rows) path ∨
      ops.foldl (FileOperation.step c) rows ⟨path, FS_KEY_TYPE⟩ = none) :
    ∃ answer, (listDir c path : Script Empty ListAnswer).onRows
        (ops.foldl (FileOperation.step c) rows) =
      (some (.ok answer), ops.foldl (FileOperation.step c) rows) ∧
      Lists (ops.foldl (FileOperation.step c) rows) path answer :=
  listDir_filed (FileOperation.run_filed hinitial.filed h) path htype

theorem listDir_run_directories : ∃ files,
    (listDir fileCodec "/tables" : Script Empty ListAnswer).onRows directoryRows =
        (some (.ok (.files files)), directoryRows) ∧
      ListsDirectory directoryRows "/tables" files := by
  have hdir : IsDirectory directoryRows "/tables" := by
    unfold IsDirectory
    decide +kernel
  have hthere : TableThere directoryRows "/tables" := by
    unfold TableThere
    decide +kernel
  have hproper : Runs.Always (FileOperation.step fileCodec) (FileOperation.Proper fileCodec)
      (initialRows fileCodec) [.mkdir "/tables/d"] := ⟨trivial, trivial⟩
  obtain ⟨answer, hrun, hlists⟩ :=
    listDir_run (initialDirectories fileCodec) hproper "/tables" (.inl hdir)
  cases hlists with
  | invalid hvalid => exact absurd hvalid (by decide)
  | notExist hvalid hnot => exact absurd hthere hnot
  | directory hvalid hdir hlist => exact ⟨_, hrun, hlist⟩
  | contract hvalid hthere' hnot => exact absurd hdir hnot

end FileSystem

end BcosExecutor
