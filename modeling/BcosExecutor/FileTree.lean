import BcosExecutor.FileSystem

namespace BcosExecutor

open FilePaths
open DagTransfer (IsCppString)

def IsDirectory (rows : Rows) (tableName : String) : Prop :=
  rows ⟨tableName, FS_KEY_TYPE⟩ = some FS_TYPE_DIR

instance (rows : Rows) (tableName : String) : Decidable (IsDirectory rows tableName) :=
  inferInstanceAs (Decidable (_ = _))

namespace FileCodec

variable (c : FileCodec)

/-- The listing of a directory. -/
def listing (rows : Rows) (dir : String) : Option (StdMap String Bytes) :=
  (rows ⟨dir, FS_KEY_SUB⟩).bind c.bfs.decode

/-- What the tables show of the tree; a table that is still hidden does not count. -/
def tree (hidden : Option String) (rows : Rows) : ListedTree TablePath FileName where
  there := {p | TableThere rows p.1 ∧ hidden ≠ some p.1}
  directories := {p | IsDirectory rows p.1}
  listing p := (c.listing rows p.1).map fun bfsInfo name =>
    (bfsInfo.lookup name.1).map fun kind => kind = FS_TYPE_DIR

/-- The tree is well listed, and whatever is a directory has a path and lists names. -/
structure Filed (hidden : Option String) (rows : Rows) : Prop where
  wellListed : (c.tree hidden rows).WellListed tableNaming
  paths : ∀ dir, IsDirectory rows dir → IsPath dir
  names : ∀ dir bfsInfo, IsDirectory rows dir → c.listing rows dir = some bfsInfo →
    ∀ name ∈ bfsInfo, IsFileName name

end FileCodec

/-- The file system is a tree: every directory lists the tables in it with their kinds, and every
table under `/apps` or `/tables` is listed by the directory that it is in. -/
structure FileTree (c : FileCodec) (rows : Rows) : Prop where
  listed : ∀ dir, IsDirectory rows dir → ∃ bfsInfo, c.listing rows dir = some bfsInfo ∧
    (∀ name, name ∈ bfsInfo ↔ IsFileName name ∧ TableThere rows (childName dir name)) ∧
    ∀ name kind, bfsInfo.lookup name = some kind →
      (kind = FS_TYPE_DIR ↔ IsDirectory rows (childName dir name))
  inParent : ∀ tableName, IsCppString tableName → TableThere rows tableName →
    "/apps/".toList <+: tableName.toList ∨ "/tables/".toList <+: tableName.toList →
    ∃ dir name bfsInfo, dir ≠ "" ∧ '/' ∉ name.toList ∧ tableName = childName dir name ∧
      c.listing rows dir = some bfsInfo ∧ name ∈ bfsInfo

namespace FileCodec

variable {c : FileCodec} {hidden : Option String} {rows : Rows}

theorem lookup_isSome {bfsInfo : StdMap String Bytes} {name : String} :
    name ∈ bfsInfo ↔ ∃ kind, bfsInfo.lookup name = some kind := by
  rw [← AList.lookup_isSome, Option.isSome_iff_exists]

namespace Filed

variable (h : c.Filed hidden rows)
include h

theorem there_of_directory {dir : String} (hdir : IsDirectory rows dir) :
    TableThere rows dir ∧ hidden ≠ some dir :=
  h.wellListed.there_of_directory (show (⟨dir, h.paths dir hdir⟩ : TablePath) ∈
    (c.tree hidden rows).directories from hdir)

theorem listing_isSome {dir : String} (hdir : IsDirectory rows dir) :
    ∃ bfsInfo, c.listing rows dir = some bfsInfo := by
  obtain ⟨children, hchildren, -⟩ := h.wellListed.listed ⟨dir, h.paths dir hdir⟩ hdir
  obtain ⟨bfsInfo, hlisting, -⟩ := Option.map_eq_some_iff.mp hchildren
  exact ⟨bfsInfo, hlisting⟩

theorem listed_iff {dir : String} (hdir : IsDirectory rows dir) {bfsInfo : StdMap String Bytes}
    (hlisting : c.listing rows dir = some bfsInfo) (name : FileName) (isDirectory : Bool) :
    (bfsInfo.lookup name.1).map (fun kind => decide (kind = FS_TYPE_DIR)) = some isDirectory ↔
      (TableThere rows (childName dir name.1) ∧ hidden ≠ some (childName dir name.1)) ∧
        (isDirectory = true ↔ IsDirectory rows (childName dir name.1)) := by
  have hmap : (c.tree hidden rows).listing ⟨dir, h.paths dir hdir⟩ = some fun name : FileName =>
      (bfsInfo.lookup name.1).map fun kind => decide (kind = FS_TYPE_DIR) := by
    show (c.listing rows dir).map _ = _
    rw [hlisting]
    rfl
  have hmem : (⟨dir, h.paths dir hdir⟩ : TablePath) ∈ (c.tree hidden rows).directories := hdir
  exact h.wellListed.listed_iff hmem hmap name isDirectory

theorem mem_iff {dir : String} (hdir : IsDirectory rows dir) {bfsInfo : StdMap String Bytes}
    (hlisting : c.listing rows dir = some bfsInfo) {name : String} (hname : IsFileName name) :
    name ∈ bfsInfo ↔ TableThere rows (childName dir name) ∧ hidden ≠ some (childName dir name) := by
  have hiff := h.listed_iff hdir hlisting ⟨name, hname⟩
  rw [lookup_isSome]
  constructor
  · rintro ⟨kind, hkind⟩
    exact ((hiff (decide (kind = FS_TYPE_DIR))).mp (by rw [hkind]; rfl)).1
  · intro hthere
    classical
    have hmap := (hiff (decide (IsDirectory rows (childName dir name)))).mpr
      ⟨hthere, decide_eq_true_iff⟩
    obtain ⟨kind, hkind, -⟩ := Option.map_eq_some_iff.mp hmap
    exact ⟨kind, hkind⟩

end Filed

theorem Filed.fileTree (h : c.Filed none rows) : FileTree c rows := by
  constructor
  · intro dir hdir
    obtain ⟨bfsInfo, hlisting⟩ := h.listing_isSome hdir
    refine ⟨bfsInfo, hlisting, fun name => ?_, fun name kind hkind => ?_⟩
    · constructor
      · intro hmem
        have hname := h.names dir bfsInfo hdir hlisting name hmem
        exact ⟨hname, ((h.mem_iff hdir hlisting hname).mp hmem).1⟩
      · rintro ⟨hname, hthere⟩
        exact (h.mem_iff hdir hlisting hname).mpr ⟨hthere, nofun⟩
    · have hname := h.names dir bfsInfo hdir hlisting name (lookup_isSome.mpr ⟨kind, hkind⟩)
      have hiff := h.listed_iff hdir hlisting ⟨name, hname⟩ (decide (kind = FS_TYPE_DIR))
      have hmap : (bfsInfo.lookup name).map (fun kind => decide (kind = FS_TYPE_DIR)) =
          some (decide (kind = FS_TYPE_DIR)) := by
        rw [hkind]
        rfl
      exact decide_eq_true_iff.symm.trans (hiff.mp hmap).2
  · intro tableName hcpp hthere hunder
    have hslash : tableName.toList.head? = some '/' := by
      rcases hunder with ⟨rest, hrest⟩ | ⟨rest, hrest⟩ <;> rw [← hrest] <;> rfl
    rcases h.wellListed.parent ⟨tableName, hcpp, hslash⟩ ⟨hthere, nofun⟩ with
      hroot | ⟨dir, hdir, name, heq⟩
    · have hname : tableName = "/" := congrArg Subtype.val hroot
      subst hname
      rcases hunder with ⟨rest, hrest⟩ | ⟨rest, hrest⟩ <;>
        exact absurd (congrArg List.length hrest) (by simp)
    · have hname : tableName = childName dir.1 name.1 := congrArg Subtype.val heq
      obtain ⟨bfsInfo, hlisting⟩ := h.listing_isSome hdir
      refine ⟨dir.1, name.1, bfsInfo, ?_, name.2.2.2, hname, hlisting, ?_⟩
      · intro hempty
        have hhead := dir.2.2
        rw [hempty] at hhead
        cases hhead
      · exact (h.mem_iff hdir hlisting name.2).mpr ⟨hname ▸ hthere, nofun⟩

/-- The rows show a new table in a directory that has entered it into its listing. -/
structure Entered (c : FileCodec) (hidden hidden' : Option String) (rows rows' : Rows)
    (dir name : String) (kind : Bytes) (bfsInfo : StdMap String Bytes) : Prop where
  there : ∀ t, IsPath t → (TableThere rows' t ∧ hidden' ≠ some t ↔
    TableThere rows t ∧ hidden ≠ some t ∨ t = childName dir name)
  directories : ∀ t, IsDirectory rows' t ↔
    IsDirectory rows t ∨ t = childName dir name ∧ kind = FS_TYPE_DIR
  listing_dir : c.listing rows' dir = some (bfsInfo.insertNew name kind)
  listing_new : kind = FS_TYPE_DIR → c.listing rows' (childName dir name) = some ∅
  listing_other : ∀ t, IsPath t → t ≠ dir → t ≠ childName dir name →
    c.listing rows' t = c.listing rows t

theorem insertNew_of_notMem {bfsInfo : StdMap String Bytes} {name : String} {kind : Bytes}
    (h : name ∉ bfsInfo) : bfsInfo.insertNew name kind = AList.insert name kind bfsInfo :=
  if_neg h

theorem Filed.entered {hidden' : Option String} {rows' : Rows} {dir name : String} {kind : Bytes}
    {bfsInfo : StdMap String Bytes} (h : c.Filed hidden rows) (hdir : IsDirectory rows dir)
    (hname : IsFileName name) (hlisting : c.listing rows dir = some bfsInfo)
    (hnew : ¬(TableThere rows (childName dir name) ∧ hidden ≠ some (childName dir name)))
    (he : Entered c hidden hidden' rows rows' dir name kind bfsInfo) : c.Filed hidden' rows' := by
  have hpath := h.paths dir hdir
  have hnext := isPath_childName hpath hname
  have hgone : name ∉ bfsInfo := fun hmem => hnew ((h.mem_iff hdir hlisting hname).mp hmem)
  have hinsert : bfsInfo.insertNew name kind = AList.insert name kind bfsInfo :=
    insertNew_of_notMem hgone
  refine ⟨?_, ?_, ?_⟩
  · have hold : (c.tree hidden rows).listing ⟨dir, hpath⟩ = some fun name : FileName =>
        (bfsInfo.lookup name.1).map fun kind => decide (kind = FS_TYPE_DIR) := by
      show (c.listing rows dir).map _ = _
      rw [hlisting]
      rfl
    have hadded : ListedTree.Added tableNaming (c.tree hidden rows) (c.tree hidden' rows')
        ⟨dir, hpath⟩ ⟨name, hname⟩ (decide (kind = FS_TYPE_DIR)) fun name : FileName =>
          (bfsInfo.lookup name.1).map fun kind => decide (kind = FS_TYPE_DIR) := by
      refine ⟨?_, ?_, ?_, ?_, ?_⟩
      · rintro ⟨t, ht⟩
        rw [Subtype.ext_iff]
        exact he.there t ht
      · rintro ⟨t, ht⟩
        rw [Subtype.ext_iff, decide_eq_true_iff]
        exact he.directories t
      · show (c.listing rows' dir).map _ = _
        rw [he.listing_dir, hinsert]
        refine congrArg some (funext fun name' => ?_)
        show (AList.lookup name'.1 (AList.insert name kind bfsInfo)).map _ = _
        by_cases hsame : name' = ⟨name, hname⟩
        · subst hsame
          rw [Function.update_self, AList.lookup_insert]
          rfl
        · have hne : name'.1 ≠ name := fun heq => hsame (Subtype.ext heq)
          rw [Function.update_of_ne hsame, AList.lookup_insert_ne hne]
      · intro hkind
        show (c.listing rows' (childName dir name)).map _ = _
        rw [he.listing_new (decide_eq_true_iff.mp hkind)]
        rfl
      · rintro ⟨t, ht⟩ hne hne'
        have hlist := he.listing_other t ht (fun heq => hne (Subtype.ext heq))
          (fun heq => hne' (Subtype.ext heq))
        show (c.listing rows' t).map _ = (c.listing rows t).map _
        rw [hlist]
    have hmem : (⟨dir, hpath⟩ : TablePath) ∈ (c.tree hidden rows).directories := hdir
    have hunlisted : tableNaming.child ⟨dir, hpath⟩ ⟨name, hname⟩ ∉ (c.tree hidden rows).there :=
      hnew
    exact h.wellListed.added hmem hold hunlisted hadded
  · intro t ht
    rcases (he.directories t).mp ht with hold | ⟨rfl, -⟩
    · exact h.paths t hold
    · exact hnext
  · intro t bfsInfo' ht hlisting' name' hmem
    rcases (he.directories t).mp ht with hold | ⟨rfl, hkind⟩
    · by_cases hsame : t = dir
      · subst hsame
        obtain rfl := Option.some.inj (he.listing_dir.symm.trans hlisting')
        rw [hinsert, AList.mem_insert] at hmem
        rcases hmem with rfl | hmem
        · exact hname
        · exact h.names t bfsInfo hold hlisting name' hmem
      · have hne : t ≠ childName dir name := by
          rintro rfl
          exact hnew (h.there_of_directory hold)
        rw [he.listing_other t (h.paths t hold) hsame hne] at hlisting'
        exact h.names t bfsInfo' hold hlisting' name' hmem
    · rw [he.listing_new hkind] at hlisting'
      obtain rfl := Option.some.inj hlisting'
      exact (AList.notMem_empty name' hmem).elim

/-- A write that changes neither what a table is nor what a directory lists. -/
structure Unrelated (c : FileCodec) (rows : Rows) (row : StateRow) (entry : Option Entry) :
    Prop where
  table : row.table ≠ sysTables
  type : row.key = FS_KEY_TYPE → (entry = some FS_TYPE_DIR ↔ IsDirectory rows row.table)
  sub : row.key = FS_KEY_SUB → IsDirectory rows row.table →
    entry.bind c.bfs.decode = c.listing rows row.table

theorem Unrelated.there {row : StateRow} {entry : Option Entry} (h : Unrelated c rows row entry)
    (t : String) : TableThere (Function.update rows row entry) t ↔ TableThere rows t := by
  have hne : (⟨sysTables, ascii t⟩ : StateRow) ≠ row := by
    rintro rfl
    exact h.table rfl
  unfold TableThere
  rw [Function.update_of_ne hne]

theorem Unrelated.directory {row : StateRow} {entry : Option Entry}
    (h : Unrelated c rows row entry) (t : String) :
    IsDirectory (Function.update rows row entry) t ↔ IsDirectory rows t := by
  by_cases heq : ⟨t, FS_KEY_TYPE⟩ = row
  · subst heq
    have htype := h.type rfl
    unfold IsDirectory at htype ⊢
    rw [Function.update_self]
    exact htype
  · unfold IsDirectory
    rw [Function.update_of_ne heq]

theorem Unrelated.listing {row : StateRow} {entry : Option Entry} (h : Unrelated c rows row entry)
    {t : String} (ht : IsDirectory rows t) :
    c.listing (Function.update rows row entry) t = c.listing rows t := by
  by_cases heq : ⟨t, FS_KEY_SUB⟩ = row
  · subst heq
    have hsub := h.sub rfl ht
    unfold FileCodec.listing at hsub ⊢
    rw [Function.update_self]
    exact hsub
  · unfold FileCodec.listing
    rw [Function.update_of_ne heq]

theorem Filed.alike {hidden' : Option String} {rows' : Rows} (h : c.Filed hidden rows)
    (hthere : ∀ t, IsPath t →
      (TableThere rows' t ∧ hidden' ≠ some t ↔ TableThere rows t ∧ hidden ≠ some t))
    (hdirectory : ∀ t, IsDirectory rows' t ↔ IsDirectory rows t)
    (hlisting : ∀ t, IsDirectory rows t → c.listing rows' t = c.listing rows t) :
    c.Filed hidden' rows' := by
  have halike : ListedTree.Alike (c.tree hidden rows) (c.tree hidden' rows') := by
    refine ⟨?_, ?_, ?_⟩
    · ext t
      exact hthere t.1 t.2
    · ext t
      exact hdirectory t.1
    · intro t ht
      show (c.listing rows' t.1).map _ = (c.listing rows t.1).map _
      rw [hlisting t.1 ht]
  refine ⟨h.wellListed.alike halike, fun t ht => ?_, fun t bfsInfo ht hbfs => ?_⟩
  · exact h.paths t ((hdirectory t).mp ht)
  · have hold := (hdirectory t).mp ht
    rw [hlisting t hold] at hbfs
    exact h.names t bfsInfo hold hbfs

theorem Filed.write {row : StateRow} {entry : Option Entry} (h : c.Filed hidden rows)
    (hunrelated : Unrelated c rows row entry) : c.Filed hidden (Function.update rows row entry) :=
  h.alike (fun t _ => and_congr_left fun _ => hunrelated.there t) hunrelated.directory
    fun _ ht => hunrelated.listing ht

theorem ascii_path {tableName : String} (hpath : IsPath tableName) :
    (ascii tableName).head? = some 47 := by
  unfold ascii
  rw [List.head?_map, hpath.2]
  rfl

/-- The row of a table is neither the type nor the listing of another. -/
theorem tableRow_ne {tableName : String} (hpath : IsPath tableName) {key : Bytes}
    (hkey : key.head? ≠ some 47) (t : String) :
    (⟨t, key⟩ : StateRow) ≠ ⟨sysTables, ascii tableName⟩ := by
  intro heq
  have hascii : key = ascii tableName := congrArg StateRow.key heq
  rw [hascii] at hkey
  exact hkey (ascii_path hpath)

theorem there_update {tableName : String} (hpath : IsPath tableName) (valueFields : Bytes)
    {t : String} (ht : IsPath t) :
    TableThere (Function.update rows ⟨sysTables, ascii tableName⟩ (some valueFields)) t ↔
      TableThere rows t ∨ t = tableName := by
  unfold TableThere
  by_cases heq : t = tableName
  · subst heq
    rw [Function.update_self]
    exact ⟨fun _ => .inr rfl, fun _ => rfl⟩
  · have hne : (⟨sysTables, ascii t⟩ : StateRow) ≠ ⟨sysTables, ascii tableName⟩ := fun hrow =>
      heq (AbiCaching.ascii_injective ht.1 hpath.1 (congrArg StateRow.key hrow))
    rw [Function.update_of_ne hne, or_iff_left heq]

/-- The table that is created first is hidden until it is listed. -/
theorem Filed.hide {tableName : String} (h : c.Filed none rows) (hpath : IsPath tableName)
    (hnew : ¬TableThere rows tableName) (valueFields : Bytes) :
    c.Filed (some tableName)
      (Function.update rows ⟨sysTables, ascii tableName⟩ (some valueFields)) := by
  refine h.alike (fun t ht => ?_) (fun t => ?_) fun t _ => ?_
  · rw [there_update hpath valueFields ht]
    constructor
    · rintro ⟨hthere | rfl, hhidden⟩
      · exact ⟨hthere, nofun⟩
      · exact (hhidden rfl).elim
    · rintro ⟨hthere, -⟩
      refine ⟨.inl hthere, ?_⟩
      rintro ⟨⟩
      exact hnew hthere
  · unfold IsDirectory
    rw [Function.update_of_ne (tableRow_ne hpath (by decide) t)]
  · unfold FileCodec.listing
    rw [Function.update_of_ne (tableRow_ne hpath (by decide) t)]

end FileCodec

end BcosExecutor
