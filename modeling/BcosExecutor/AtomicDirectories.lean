import BcosExecutor.FileTreeRuns

namespace BcosExecutor

open FilePaths

namespace FileSystem

/-- What a directory is to list about a part of a path. -/
structure PathEntry where
  dir : String
  name : String
  kind : Bytes

def PathEntry.table (e : PathEntry) : String :=
  childName e.dir e.name

/-- The entries for a path below a directory; all but the last are directories. -/
def pathEntries (last : Bytes) : String → List String → List PathEntry
  | _, [] => []
  | root, dir :: rest =>
    ⟨root, dir, if rest.isEmpty then last else FS_TYPE_DIR⟩ ::
      pathEntries last (childName root dir) rest

/-- A new directory is made, and everything new is listed. -/
def withEntry (c : FileCodec) (e : PathEntry) (rows : Rows) : Rows :=
  let bfsInfo := c.bfs.encode (((c.listing rows e.dir).getD ∅).insertNew e.name e.kind)
  if e.kind = FS_TYPE_DIR then c.withDirectory e.dir e.table bfsInfo rows
  else Function.update rows ⟨e.dir, FS_KEY_SUB⟩ (some bfsInfo)

/-- What building a path comes to over rows in which nothing that it reads is missing. -/
def enterAll (c : FileCodec) : Rows → List PathEntry → Bool × Rows
  | rows, [] => (true, rows)
  | rows, e :: es =>
    if e.kind = FS_TYPE_DIR ∧ TableThere rows e.table then
      if IsDirectory rows e.table then enterAll c rows es else (false, rows)
    else enterAll c (withEntry c e rows) es

/-- The rows that an entry may write: those of a new directory, and the listing it is new to. -/
def PathEntry.Writes (rows : Rows) (e : PathEntry) (row : StateRow) : Prop :=
  (e.kind = FS_TYPE_DIR → ¬TableThere rows e.table) ∧
    (row = ⟨e.dir, FS_KEY_SUB⟩ ∨
      e.kind = FS_TYPE_DIR ∧ (row = ⟨sysTables, ascii e.table⟩ ∨ row.table = e.table))

/-- The directories of the path are there, and nothing but its entries is new. -/
structure OnlyBuilt (c : FileCodec) (rows rows' : Rows) (es : List PathEntry) : Prop where
  directory : ∀ e ∈ es, e.kind = FS_TYPE_DIR → TableThere rows' e.table ∧ IsDirectory rows' e.table
  keeps : ∀ e ∈ es, IsDirectory rows e.dir →
    c.listing rows' e.dir = (c.listing rows e.dir).map fun bfsInfo => bfsInfo.insertNew e.name e.kind
  only : ∀ e ∈ es, ¬TableThere rows e.dir →
    c.listing rows' e.dir = some ((∅ : StdMap String Bytes).insertNew e.name e.kind)
  empty : ∀ e ∈ es, e.kind = FS_TYPE_DIR → ¬TableThere rows e.table →
    (∀ e' ∈ es, e'.dir ≠ e.table) → c.listing rows' e.table = some ∅
  frame : ∀ row, (∀ e ∈ es, ¬e.Writes rows row) → rows' row = rows row

/-- Each part of the path is listed too. -/
structure PathBuilt (c : FileCodec) (rows rows' : Rows) (es : List PathEntry) : Prop
    extends OnlyBuilt c rows rows' es where
  listed : ∀ e ∈ es, ∃ bfsInfo, c.listing rows' e.dir = some bfsInfo ∧
    bfsInfo.lookup e.name = some e.kind

/-- A program that builds either fails and changes nothing, or succeeds with what is due. -/
def AllOrNothing (m : Script Empty Bool) (rows : Rows) (Done : Rows → Prop) : Prop :=
  ∃ built rows', m.onRows rows = (some (.ok built), rows') ∧
    if built then Done rows' else rows' = rows

/-- The entries go down from the root, and only the last one may be no directory. -/
def Chain : String → List PathEntry → Prop
  | _, [] => True
  | root, e :: es =>
    e.dir = root ∧ IsFileName e.name ∧ (e.kind ≠ FS_TYPE_DIR → es = []) ∧ Chain e.table es

theorem chain_pathEntries {dirs : List String} (hdirs : ∀ dir ∈ dirs, IsFileName dir)
    (last : Bytes) (root : String) : Chain root (pathEntries last root dirs) := by
  induction dirs generalizing root with
  | nil => trivial
  | cons dir rest ih =>
    obtain ⟨hdir, hrest⟩ := List.forall_mem_cons.mp hdirs
    refine ⟨rfl, hdir, fun hkind => ?_, ih hrest _⟩
    cases rest with
    | nil => rfl
    | cons dir' rest => exact absurd rfl hkind

theorem length_childName (root : String) {name : String} (hname : IsFileName name) :
    root.toList.length < (childName root name).toList.length := by
  have hpos : 0 < name.toList.length :=
    List.length_pos_iff.mpr fun hnil => hname.2.1 (String.toList_injective hnil)
  rw [childName_toList, List.length_append, List.length_cons]
  unfold stem
  split
  next hroot =>
    subst hroot
    have hlength : ("/" : String).toList.length = 1 := rfl
    rw [hlength, List.length_nil]
    omega
  next => omega

/-- The entries of a chain lie ever deeper. -/
theorem Chain.deeper {root : String} {es : List PathEntry} (h : Chain root es)
    (hroot : IsPath root) : ∀ e ∈ es, IsPath e.dir ∧ IsPath e.table ∧
      root.toList.length ≤ e.dir.toList.length ∧ e.dir.toList.length < e.table.toList.length := by
  induction es generalizing root with
  | nil => exact nofun
  | cons e es ih =>
    obtain ⟨hdir, hname, -, hrest⟩ := h
    have hlength := length_childName e.dir hname
    have hpath : IsPath e.table := isPath_childName (hdir ▸ hroot) hname
    refine List.forall_mem_cons.mpr ⟨⟨hdir ▸ hroot, hpath, by rw [hdir], hlength⟩, ?_⟩
    intro e' he'
    obtain ⟨hpath', htable', hle, hlt⟩ := ih hrest hpath e' he'
    have hle' : e.dir.toList.length < e.table.toList.length := hlength
    rw [hdir] at hle'
    exact ⟨hpath', htable', by omega, hlt⟩

theorem Chain.name_of_mem {root : String} {es : List PathEntry} (h : Chain root es)
    {e : PathEntry} (he : e ∈ es) : IsFileName e.name := by
  induction es generalizing root with
  | nil => cases he
  | cons e' es ih =>
    obtain ⟨-, hname, -, hrest⟩ := h
    obtain rfl | he := List.mem_cons.mp he
    · exact hname
    · exact ih hrest he

variable {c : FileCodec} {hidden : Option String} {rows rows' : Rows} {root : String}
  {e : PathEntry} {es : List PathEntry}

/-- What lies no deeper than where a chain starts keeps its rows, the listing of the start apart. -/
theorem Chain.not_writes_key (h : Chain root es) (hroot : IsPath root) {t : String}
    (ht : IsPath t) (hle : t.toList.length ≤ root.toList.length) {key : Bytes}
    (hkey : t.toList.length < root.toList.length ∨ key ≠ FS_KEY_SUB) :
    ∀ e ∈ es, ¬e.Writes rows ⟨t, key⟩ := by
  rintro e he ⟨-, hrow | ⟨-, hrow | hrow⟩⟩
  · obtain ⟨-, -, hdeep, -⟩ := h.deeper hroot e he
    have hdir : t = e.dir := congrArg StateRow.table hrow
    rw [← hdir] at hdeep
    rcases hkey with hlt | hkey
    · omega
    · exact hkey (congrArg StateRow.key hrow)
  · exact FileCodec.path_ne_sysTables ht (congrArg StateRow.table hrow)
  · obtain ⟨-, -, hdeep, hlt⟩ := h.deeper hroot e he
    have htable : t = e.table := hrow
    rw [← htable] at hlt
    omega

theorem Chain.not_writes_table (h : Chain root es) (hroot : IsPath root) {t : String}
    (ht : IsPath t) (hle : t.toList.length ≤ root.toList.length) :
    ∀ e ∈ es, ¬e.Writes rows ⟨sysTables, ascii t⟩ := by
  intro e he hwrites
  obtain ⟨hdir, htable, hdeep, hlt⟩ := h.deeper hroot e he
  obtain ⟨-, hrow | ⟨-, hrow | hrow⟩⟩ := hwrites
  · exact FileCodec.path_ne_sysTables hdir (congrArg StateRow.table hrow).symm
  · have heq : t = e.table :=
      AbiCaching.ascii_injective ht.1 htable.1 (congrArg StateRow.key hrow)
    rw [← heq] at hlt
    omega
  · exact FileCodec.path_ne_sysTables htable hrow.symm

namespace OnlyBuilt

theorem nil (c : FileCodec) (rows : Rows) : OnlyBuilt c rows rows [] where
  directory := nofun
  keeps := nofun
  only := nofun
  empty := nofun
  frame := fun _ _ => rfl

theorem directory_kept (h : OnlyBuilt c rows rows' es) {table : String}
    (hchain : Chain table es) (hpath : IsPath table) :
    (TableThere rows' table ↔ TableThere rows table) ∧
      (IsDirectory rows' table ↔ IsDirectory rows table) := by
  unfold TableThere IsDirectory
  rw [h.frame _ (hchain.not_writes_table hpath hpath le_rfl),
    h.frame _ (hchain.not_writes_key hpath hpath le_rfl (Or.inr (by decide)))]
  exact ⟨Iff.rfl, Iff.rfl⟩

theorem listing_kept (h : OnlyBuilt c rows rows' es) {table t : String}
    (hchain : Chain table es) (hpath : IsPath table) (ht : IsPath t)
    (hlt : t.toList.length < table.toList.length) : c.listing rows' t = c.listing rows t := by
  unfold FileCodec.listing
  rw [h.frame _ (hchain.not_writes_key hpath ht (Nat.le_of_lt hlt) (Or.inl hlt))]

theorem insertNew_of_mem {m : StdMap String Bytes} {name : String} (h : name ∈ m) (kind : Bytes) :
    m.insertNew name kind = m :=
  if_pos h

/-- A directory that was there before the rest of the path. -/
theorem cons_old (h : c.Filed hidden rows) (hdir : IsDirectory rows e.dir)
    (hname : IsFileName e.name) (hthere : TableThere rows e.table)
    (hvisible : hidden ≠ some e.table) (htable : IsDirectory rows e.table)
    (hchain : Chain e.table es) (hb : OnlyBuilt c rows rows' es) :
    OnlyBuilt c rows rows' (e :: es) := by
  have hpath := h.paths e.dir hdir
  have hpath' : IsPath e.table := isPath_childName hpath hname
  have hlisting := hb.listing_kept hchain hpath' hpath (length_childName _ hname)
  refine ⟨List.forall_mem_cons.mpr ⟨fun _ => ?_, hb.directory⟩,
    List.forall_mem_cons.mpr ⟨fun _ => ?_, hb.keeps⟩,
    List.forall_mem_cons.mpr ⟨fun hgone => ?_, hb.only⟩, ?_, ?_⟩
  · obtain ⟨hthere', htable'⟩ := hb.directory_kept hchain hpath'
    exact ⟨hthere'.mpr hthere, htable'.mpr htable⟩
  · obtain ⟨bfsInfo, hbfs⟩ := h.listing_isSome hdir
    have hmem := (h.mem_iff hdir hbfs hname).mpr ⟨hthere, hvisible⟩
    rw [hlisting, hbfs, Option.map_some, insertNew_of_mem hmem]
  · exact absurd (h.there_of_directory hdir).1 hgone
  · refine List.forall_mem_cons.mpr ⟨fun _ hgone => absurd hthere hgone, ?_⟩
    intro e' he' hkind' hgone hlast
    exact hb.empty e' he' hkind' hgone fun e'' he'' => hlast e'' (List.mem_cons_of_mem e he'')
  · exact fun row hrow => hb.frame row fun e' he' => hrow e' (List.mem_cons_of_mem e he')

/-- The entries below a new directory are not about it, nor about the one that it is in. -/
theorem apart_of_chain (hpath : IsPath e.dir) (hname : IsFileName e.name)
    (hchain : Chain e.table es) : ∀ e' ∈ es, e'.dir ≠ e.dir ∧ e'.table ≠ e.table := by
  intro e' he'
  have hlt : e.dir.toList.length < e.table.toList.length := length_childName _ hname
  obtain ⟨-, -, hdeep, hlt'⟩ := hchain.deeper (isPath_childName hpath hname) e' he'
  constructor
  · intro heq
    rw [heq] at hdeep
    omega
  · intro heq
    rw [heq] at hlt'
    omega

/-- A directory that is made before the rest of the path. -/
theorem cons_new (h : c.Filed hidden rows) (hdir : IsDirectory rows e.dir)
    (hname : IsFileName e.name) (hkind : e.kind = FS_TYPE_DIR) (hnew : ¬TableThere rows e.table)
    (hchain : Chain e.table es) (hb : OnlyBuilt c (withEntry c e rows) rows' es) :
    OnlyBuilt c rows rows' (e :: es) := by
  have hpath := h.paths e.dir hdir
  have hpath' : IsPath e.table := isPath_childName hpath hname
  have hlt : e.dir.toList.length < e.table.toList.length := length_childName _ hname
  have hne : e.table ≠ e.dir := fun heq => by rw [heq] at hlt; exact Nat.lt_irrefl _ hlt
  have hapart := apart_of_chain hpath hname hchain
  obtain ⟨bfsInfo, hbfs⟩ := h.listing_isSome hdir
  have hrows : withEntry c e rows = c.withDirectory e.dir e.table
      (c.bfs.encode (bfsInfo.insertNew e.name e.kind)) rows := by
    unfold withEntry
    rw [if_pos hkind, hbfs]
    rfl
  have hlisting (t : String) : c.listing (c.withDirectory e.dir e.table
      (c.bfs.encode (bfsInfo.insertNew e.name e.kind)) rows) t =
      if t = e.dir then some (bfsInfo.insertNew e.name e.kind)
      else if t = e.table then some ∅ else c.listing rows t :=
    FileCodec.withDirectory_listing hpath' _ t
  rw [hrows] at hb
  generalize c.bfs.encode (bfsInfo.insertNew e.name e.kind) = sub at hb hlisting
  have hstays {t : String} : ¬TableThere (c.withDirectory e.dir e.table sub rows) t →
      ¬TableThere rows t := mt (FileCodec.withDirectory_stays hpath hpath')
  have hgone {t : String} (ht : IsPath t) (hold : ¬TableThere rows t) (hother : t ≠ e.table) :
      ¬TableThere (c.withDirectory e.dir e.table sub rows) t := by
    rw [FileCodec.withDirectory_table hpath hpath' ht]
    exact not_or.mpr ⟨hold, hother⟩
  obtain ⟨hthere', htable'⟩ := hb.directory_kept hchain hpath'
  refine ⟨List.forall_mem_cons.mpr ⟨fun _ => ⟨hthere'.mpr ?_, htable'.mpr ?_⟩, hb.directory⟩,
    List.forall_mem_cons.mpr ⟨fun _ => ?_, ?_⟩,
    List.forall_mem_cons.mpr ⟨fun hgone => absurd (h.there_of_directory hdir).1 hgone, ?_⟩,
    List.forall_mem_cons.mpr ⟨fun _ _ hlast => ?_, ?_⟩, fun row hrow => ?_⟩
  · exact (FileCodec.withDirectory_table hpath hpath' hpath').mpr (Or.inr rfl)
  · exact (FileCodec.withDirectory_type hpath' _).mpr (Or.inr rfl)
  · rw [hb.listing_kept hchain hpath' hpath hlt, hlisting, if_pos rfl, hbfs]
    rfl
  · intro e' he' hdir'
    have hother : e'.dir ≠ e.table := fun heq =>
      hnew (heq ▸ (h.there_of_directory hdir').1)
    rw [hb.keeps e' he' ((FileCodec.withDirectory_type hpath' _).mpr (Or.inl hdir')), hlisting,
      if_neg (hapart e' he').1, if_neg hother]
  · intro e' he' hold
    by_cases hsame : e'.dir = e.table
    · rw [hb.keeps e' he' ((FileCodec.withDirectory_type hpath' _).mpr (Or.inr hsame)), hlisting,
        if_neg (hapart e' he').1, if_pos hsame]
      rfl
    · obtain ⟨hdirPath, -, -, -⟩ := hchain.deeper hpath' e' he'
      exact hb.only e' he' (hgone hdirPath hold hsame)
  · have hfree : ∀ e' ∈ es, ¬e'.Writes (c.withDirectory e.dir e.table sub rows)
        ⟨e.table, FS_KEY_SUB⟩ := by
      rintro e' he' ⟨-, hrow | ⟨-, hrow | hrow⟩⟩
      · exact hlast e' (List.mem_cons_of_mem e he') (congrArg StateRow.table hrow).symm
      · exact FileCodec.path_ne_sysTables hpath' (congrArg StateRow.table hrow)
      · exact (hapart e' he').2 hrow.symm
    have hkept := hlisting e.table
    unfold FileCodec.listing at hkept ⊢
    rw [hb.frame _ hfree, hkept, if_neg hne, if_pos rfl]
  · intro e' he' hkind' hold hlast
    obtain ⟨-, htablePath, -, -⟩ := hchain.deeper hpath' e' he'
    exact hb.empty e' he' hkind' (hgone htablePath hold (hapart e' he').2) fun e'' he'' =>
      hlast e'' (List.mem_cons_of_mem e he'')
  · have hrest : ∀ e' ∈ es, ¬e'.Writes (c.withDirectory e.dir e.table sub rows) row := by
      rintro e' he' ⟨hfree, hwrites⟩
      exact hrow e' (List.mem_cons_of_mem e he') ⟨fun hkind' => hstays (hfree hkind'), hwrites⟩
    have hself := hrow e List.mem_cons_self
    unfold PathEntry.Writes at hself
    rw [and_iff_right fun _ => hnew, and_iff_right hkind, not_or, not_or] at hself
    obtain ⟨hlist, htable, hown⟩ := hself
    rw [hb.frame row hrest, FileCodec.withDirectory_frame hlist htable hown]

/-- The last entry where it is no directory. -/
theorem singleton (h : c.Filed hidden rows) (hdir : IsDirectory rows e.dir)
    (hkind : e.kind ≠ FS_TYPE_DIR) : OnlyBuilt c rows (withEntry c e rows) [e] := by
  obtain ⟨bfsInfo, hbfs⟩ := h.listing_isSome hdir
  unfold withEntry
  rw [if_neg hkind, hbfs]
  refine ⟨List.forall_mem_singleton.mpr fun h => absurd h hkind,
    List.forall_mem_singleton.mpr fun _ => ?_,
    List.forall_mem_singleton.mpr fun hgone => absurd (h.there_of_directory hdir).1 hgone,
    List.forall_mem_singleton.mpr fun h => absurd h hkind, fun row hrow => ?_⟩
  · rw [hbfs]
    unfold FileCodec.listing
    rw [Function.update_self]
    exact c.bfs.decode_encode _
  · have hself := hrow e (List.mem_singleton_self e)
    unfold PathEntry.Writes at hself
    rw [and_iff_right fun h => absurd h hkind, not_or] at hself
    exact Function.update_of_ne hself.1 _ _

end OnlyBuilt

theorem directory_of_child (h : c.Filed hidden rows) {dir name : String} (hpath : IsPath dir)
    (hname : IsFileName name) (hthere : TableThere rows (childName dir name))
    (hvisible : hidden ≠ some (childName dir name)) : IsDirectory rows dir := by
  rcases h.wellListed.parent ⟨childName dir name, isPath_childName hpath hname⟩
    ⟨hthere, hvisible⟩ with hroot | ⟨dir', hdir', name', heq⟩
  · exact absurd (congrArg Subtype.val hroot) (childName_ne_root dir hname)
  · obtain ⟨hsame, -⟩ :=
      childName_injective hpath dir'.2 hname name'.2 (congrArg Subtype.val heq)
    rw [hsame]
    exact hdir'

/-- In a directory that is not there nothing is there. -/
theorem not_there_child (h : c.Filed hidden rows) {dir name : String} (hpath : IsPath dir)
    (hname : IsFileName name) (hgone : ¬TableThere rows dir)
    (hvisible : hidden ≠ some (childName dir name)) : ¬TableThere rows (childName dir name) :=
  fun hthere => hgone (h.there_of_directory (directory_of_child h hpath hname hthere hvisible)).1

theorem Chain.not_there (h : c.Filed hidden rows) (hchain : Chain root es) (hpath : IsPath root)
    (hgone : ¬TableThere rows root)
    (hvisible : ∀ e ∈ es, e.kind = FS_TYPE_DIR → hidden ≠ some e.table) :
    ∀ e ∈ es, e.kind = FS_TYPE_DIR → ¬TableThere rows e.table := by
  induction es generalizing root with
  | nil => exact nofun
  | cons e es ih =>
    obtain ⟨rfl, hname, hlast, hrest⟩ := hchain
    obtain ⟨hvisible, hvisible'⟩ := List.forall_mem_cons.mp hvisible
    have hself (hkind : e.kind = FS_TYPE_DIR) : ¬TableThere rows e.table :=
      not_there_child h hpath hname hgone (hvisible hkind)
    refine List.forall_mem_cons.mpr ⟨hself, ?_⟩
    by_cases hkind : e.kind = FS_TYPE_DIR
    · exact ih hrest (isPath_childName hpath hname) (hself hkind) hvisible'
    · rw [hlast hkind]
      exact nofun

theorem Chain.directory_root (h : c.Filed hidden rows) (hchain : Chain root es)
    (hpath : IsPath root) (hvisible : ∀ e ∈ es, e.kind = FS_TYPE_DIR → hidden ≠ some e.table)
    (he : e ∈ es) (hdir : IsDirectory rows e.dir) : IsDirectory rows root := by
  induction es generalizing root with
  | nil => cases he
  | cons e' es ih =>
    obtain ⟨rfl, hname, hlast, hrest⟩ := hchain
    obtain ⟨hvisible, hvisible'⟩ := List.forall_mem_cons.mp hvisible
    obtain rfl | he := List.mem_cons.mp he
    · exact hdir
    · have htable := ih hrest (isPath_childName hpath hname) hvisible' he
      by_cases hkind : e'.kind = FS_TYPE_DIR
      · exact directory_of_child h hpath hname (h.there_of_directory htable).1 (hvisible hkind)
      · rw [hlast hkind] at he
        cases he

/-- Above a directory that is to list no directory everything is one. -/
theorem Chain.directories (h : c.Filed hidden rows) (hchain : Chain root es)
    (hpath : IsPath root) (hvisible : ∀ e ∈ es, e.kind = FS_TYPE_DIR → hidden ≠ some e.table)
    (he : e ∈ es) (hkind : e.kind ≠ FS_TYPE_DIR) (hdir : IsDirectory rows e.dir) :
    ∀ e' ∈ es, e'.kind = FS_TYPE_DIR → IsDirectory rows e'.table := by
  induction es generalizing root with
  | nil => exact nofun
  | cons e' es ih =>
    obtain ⟨rfl, hname, hlast, hrest⟩ := hchain
    obtain ⟨-, hvisible'⟩ := List.forall_mem_cons.mp hvisible
    obtain rfl | he := List.mem_cons.mp he
    · rw [hlast hkind]
      exact List.forall_mem_singleton.mpr fun h => absurd h hkind
    · have hpath' := isPath_childName hpath hname
      exact List.forall_mem_cons.mpr ⟨fun _ => hrest.directory_root h hpath' hvisible' he hdir,
        ih hrest hpath' hvisible' he⟩

theorem withEntry_directory (hkind : e.kind = FS_TYPE_DIR) {bfsInfo : StdMap String Bytes}
    (hbfs : c.listing rows e.dir = some bfsInfo) :
    withEntry c e rows = c.withDirectory e.dir e.table
      (c.bfs.encode (bfsInfo.insertNew e.name FS_TYPE_DIR)) rows := by
  unfold withEntry
  rw [if_pos hkind, hbfs, hkind]
  rfl

theorem enterAll_old (hkind : e.kind = FS_TYPE_DIR) (hthere : TableThere rows e.table)
    (htable : IsDirectory rows e.table) (es : List PathEntry) :
    enterAll c rows (e :: es) = enterAll c rows es := by
  rw [enterAll, if_pos ⟨hkind, hthere⟩, if_pos htable]

theorem enterAll_blocked (hkind : e.kind = FS_TYPE_DIR) (hthere : TableThere rows e.table)
    (htable : ¬IsDirectory rows e.table) (es : List PathEntry) :
    enterAll c rows (e :: es) = (false, rows) := by
  rw [enterAll, if_pos ⟨hkind, hthere⟩, if_neg htable]

theorem enterAll_new (hnew : e.kind = FS_TYPE_DIR → ¬TableThere rows e.table)
    (es : List PathEntry) :
    enterAll c rows (e :: es) = enterAll c (withEntry c e rows) es := by
  rw [enterAll, if_neg fun hboth => hnew hboth.1 hboth.2]

/-- What is blocked by something that is no directory changes nothing: past the first directory
that is made, nothing is there that could block. -/
theorem enterAll_spec (h : c.Filed hidden rows) (hhidden : ∀ t, hidden = some t → TableThere rows t)
    (hchain : Chain root es) (hroot : IsDirectory rows root)
    (hvisible : ∀ e ∈ es, e.kind = FS_TYPE_DIR → hidden ≠ some e.table) :
    enterAll c rows es = (false, rows) ∧
        (∃ e ∈ es, e.kind = FS_TYPE_DIR ∧ TableThere rows e.table ∧ ¬IsDirectory rows e.table) ∨
      ∃ rows', enterAll c rows es = (true, rows') ∧ OnlyBuilt c rows rows' es := by
  induction es generalizing root rows with
  | nil => exact Or.inr ⟨rows, rfl, OnlyBuilt.nil c rows⟩
  | cons e es ih =>
    obtain ⟨rfl, hname, hlast, hrest⟩ := hchain
    obtain ⟨hvisible, hvisible'⟩ := List.forall_mem_cons.mp hvisible
    have hpath := h.paths e.dir hroot
    have hpath' : IsPath e.table := isPath_childName hpath hname
    by_cases hkind : e.kind = FS_TYPE_DIR
    · by_cases hthere : TableThere rows e.table
      · by_cases htable : IsDirectory rows e.table
        · rw [enterAll_old hkind hthere htable]
          rcases ih h hhidden hrest htable hvisible' with
            ⟨hrun, e', he', hblocked⟩ | ⟨rows', hrun, hbuilt⟩
          · exact Or.inl ⟨hrun, e', List.mem_cons_of_mem e he', hblocked⟩
          · exact Or.inr ⟨rows', hrun,
              OnlyBuilt.cons_old h hroot hname hthere (hvisible hkind) htable hrest hbuilt⟩
        · rw [enterAll_blocked hkind hthere htable]
          exact Or.inl ⟨rfl, e, List.mem_cons_self, hkind, hthere, htable⟩
      · rw [enterAll_new fun _ => hthere]
        right
        obtain ⟨bfsInfo, hbfs⟩ := h.listing_isSome hroot
        have hrows := withEntry_directory hkind hbfs
        have hfiled : c.Filed hidden (withEntry c e rows) := by
          rw [hrows]
          exact h.entered_directory hhidden hroot hname hbfs hthere
        have hdirectory : IsDirectory (withEntry c e rows) e.table := by
          rw [hrows]
          exact (FileCodec.withDirectory_type hpath' _).mpr (Or.inr rfl)
        have hhidden' (t : String) (ht : hidden = some t) :
            TableThere (withEntry c e rows) t := by
          rw [hrows]
          exact FileCodec.withDirectory_stays hpath hpath' (hhidden t ht)
        rcases ih hfiled hhidden' hrest hdirectory hvisible' with
          ⟨hrun, e', he', hkind', hthere', -⟩ | ⟨rows', hrun, hbuilt⟩
        · obtain ⟨-, htablePath, hdeep, hlt⟩ := hrest.deeper hpath' e' he'
          rw [hrows, FileCodec.withDirectory_table hpath hpath' htablePath] at hthere'
          rcases hthere' with hold | heq
          · exact absurd hold (hrest.not_there h hpath' hthere hvisible' e' he' hkind')
          · rw [heq] at hlt
            exact absurd hlt (not_lt_of_ge hdeep)
        · exact ⟨rows', hrun, OnlyBuilt.cons_new h hroot hname hkind hthere hrest hbuilt⟩
    · rw [enterAll_new fun h => absurd h hkind, hlast hkind]
      exact Or.inr ⟨_, rfl, OnlyBuilt.singleton h hroot hkind⟩

theorem pathEntries_directory (root dir : String) (rest : List String) :
    pathEntries FS_TYPE_DIR root (dir :: rest) =
      ⟨root, dir, FS_TYPE_DIR⟩ :: pathEntries FS_TYPE_DIR (childName root dir) rest := by
  rw [pathEntries, ite_self]

/-- What both loops do with a directory of the path enters it, before the rest is entered. -/
theorem turn_enterAll (h : c.Filed hidden rows)
    (hhidden : ∀ t, hidden = some t → TableThere rows t) (hroot : IsDirectory rows root)
    {dir : String} (hdir : IsFileName dir) {bfsInfo : StdMap String Bytes}
    (hlisting : c.listing rows root = some bfsInfo) {es : List PathEntry}
    {loop : Rows → Option (Except Exc Bool) × Rows}
    (hloop : ∀ rows', c.Filed hidden rows' → (∀ t, hidden = some t → TableThere rows' t) →
      IsDirectory rows' (childName root dir) →
        loop rows' = (some (.ok (enterAll c rows' es).1), (enterAll c rows' es).2)) :
    (if TableThere rows (childName root dir) then
        if IsDirectory rows (childName root dir) then loop rows else (some (.ok false), rows)
      else loop (c.withDirectory root (childName root dir)
        (c.bfs.encode (bfsInfo.insertNew dir FS_TYPE_DIR)) rows)) =
      (some (.ok (enterAll c rows (⟨root, dir, FS_TYPE_DIR⟩ :: es)).1),
        (enterAll c rows (⟨root, dir, FS_TYPE_DIR⟩ :: es)).2) := by
  by_cases hnext : TableThere rows (childName root dir)
  · rw [if_pos hnext]
    by_cases hnextDir : IsDirectory rows (childName root dir)
    · rw [if_pos hnextDir, enterAll_old (e := ⟨root, dir, FS_TYPE_DIR⟩) rfl hnext hnextDir]
      exact hloop rows h hhidden hnextDir
    · rw [if_neg hnextDir, enterAll_blocked (e := ⟨root, dir, FS_TYPE_DIR⟩) rfl hnext hnextDir]
  · have hpath := h.paths root hroot
    have hpath' := isPath_childName hpath hdir
    rw [if_neg hnext, enterAll_new (e := ⟨root, dir, FS_TYPE_DIR⟩) fun _ => hnext,
      withEntry_directory (e := ⟨root, dir, FS_TYPE_DIR⟩) rfl hlisting]
    exact hloop _ (h.entered_directory hhidden hroot hdir hlisting hnext)
      (fun t ht => FileCodec.withDirectory_stays hpath hpath' (hhidden t ht))
      ((FileCodec.withDirectory_type hpath' _).mpr (Or.inr rfl))

/-- The loop of `recursiveBuildDir` enters the directories of the path. -/
theorem buildDirs_enterAll {dirs : List String} (h : c.Filed hidden rows)
    (hhidden : ∀ t, hidden = some t → TableThere rows t) (hroot : IsDirectory rows root)
    (hdirs : ∀ dir ∈ dirs, IsFileName dir) :
    (buildDirs c root dirs : Script Empty Bool).onRows rows =
      (some (.ok (enterAll c rows (pathEntries FS_TYPE_DIR root dirs)).1),
        (enterAll c rows (pathEntries FS_TYPE_DIR root dirs)).2) := by
  induction dirs generalizing root rows with
  | nil => rfl
  | cons dir rest ih =>
    obtain ⟨hdir, hrest⟩ := List.forall_mem_cons.mp hdirs
    obtain ⟨bfsInfo, hlisting⟩ := h.listing_isSome hroot
    rw [pathEntries_directory, buildDirs_cons h hroot hlisting dir rest]
    exact turn_enterAll h hhidden hroot hdir hlisting fun _ h' hhidden' hroot' =>
      ih h' hhidden' hroot' hrest

end FileSystem

namespace TransactionExecutive

open FileSystem

variable {c : FileCodec} {hidden : Option String} {rows : Rows} {root : String}

/-- The loop of `buildBfsPath` enters the same, with a contract for the last part. -/
theorem buildDirs_enterAll (env : Environment) {dirs : List String} (h : c.Filed hidden rows)
    (hhidden : ∀ t, hidden = some t → TableThere rows t) (hroot : IsDirectory rows root)
    (hdirs : ∀ dir ∈ dirs, IsFileName dir) :
    (buildDirs (c.environment env) root dirs : Script Empty Bool).onRows rows =
      (some (.ok (enterAll c rows (pathEntries FS_TYPE_CONTRACT root dirs)).1),
        (enterAll c rows (pathEntries FS_TYPE_CONTRACT root dirs)).2) := by
  induction dirs generalizing root rows with
  | nil => rfl
  | cons dir rest ih =>
    obtain ⟨hdir, hrest⟩ := List.forall_mem_cons.mp hdirs
    obtain ⟨bfsInfo, hlisting⟩ := h.listing_isSome hroot
    unfold pathEntries
    cases rest with
    | nil =>
      have hkind : FS_TYPE_CONTRACT ≠ FS_TYPE_DIR := by decide
      have hrows : withEntry c ⟨root, dir, FS_TYPE_CONTRACT⟩ rows = Function.update rows
          ⟨root, FS_KEY_SUB⟩ (some (c.bfs.encode (bfsInfo.insertNew dir FS_TYPE_CONTRACT))) := by
        unfold withEntry
        rw [if_neg hkind, hlisting]
        rfl
      rw [buildDirs_cons env h hroot hlisting dir [], List.isEmpty_nil, if_pos rfl, if_pos rfl,
        enterAll_new (e := ⟨root, dir, FS_TYPE_CONTRACT⟩) fun h => absurd h hkind, hrows]
      rfl
    | cons dir' rest =>
      rw [buildDirs_cons env h hroot hlisting dir (dir' :: rest), List.isEmpty_cons,
        if_neg Bool.false_ne_true, if_neg Bool.false_ne_true]
      exact turn_enterAll h hhidden hroot hdir hlisting fun _ h' hhidden' hroot' =>
        ih h' hhidden' hroot' hrest

end TransactionExecutive

namespace FileSystem

open TransactionExecutive (buildBfsPath)

variable {c : FileCodec} {hidden : Option String} {rows rows' : Rows} {root : String}
  {e : PathEntry} {es : List PathEntry}

theorem lookup_insertNew (m : StdMap String Bytes) (name : String) (kind : Bytes) :
    (m.insertNew name kind).lookup name = some ((m.lookup name).getD kind) := by
  unfold StdMap.insertNew
  by_cases hmem : name ∈ m
  · obtain ⟨kind', hlookup⟩ := Option.isSome_iff_exists.mp (AList.lookup_isSome.mpr hmem)
    rw [if_pos hmem, hlookup]
    rfl
  · rw [if_neg hmem, AList.lookup_insert, AList.lookup_eq_none.mpr hmem]
    rfl

/-- Every directory of a chain is where it starts or the table of an entry. -/
theorem Chain.dir_cases (hchain : Chain root es) (he : e ∈ es) :
    e.dir = root ∨ ∃ e' ∈ es, e'.kind = FS_TYPE_DIR ∧ e'.table = e.dir := by
  induction es generalizing root with
  | nil => cases he
  | cons e' es ih =>
    obtain ⟨hdir, -, hlast, hrest⟩ := hchain
    obtain rfl | he := List.mem_cons.mp he
    · exact Or.inl hdir
    · right
      have hkind : e'.kind = FS_TYPE_DIR := by
        by_contra hkind
        rw [hlast hkind] at he
        cases he
      rcases ih hrest he with heq | ⟨e'', he'', hdir''⟩
      · exact ⟨e', List.mem_cons_self, hkind, heq.symm⟩
      · exact ⟨e'', List.mem_cons_of_mem e' he'', hdir''⟩

theorem OnlyBuilt.directory_old (hb : OnlyBuilt c rows rows' es) {t : String} (ht : IsPath t)
    (hthere : TableThere rows t) : IsDirectory rows' t ↔ IsDirectory rows t := by
  unfold IsDirectory
  rw [hb.frame]
  rintro e' - ⟨hfree, hrow | ⟨hkind, hrow | hrow⟩⟩
  · exact (by decide : FS_KEY_TYPE ≠ FS_KEY_SUB) (congrArg StateRow.key hrow)
  · exact FileCodec.path_ne_sysTables ht (congrArg StateRow.table hrow)
  · have htable : t = e'.table := hrow
    exact hfree hkind (htable ▸ hthere)

/-- The directory that is to list an entry lists it as nothing else. -/
def ListsOnly (c : FileCodec) (rows : Rows) (e : PathEntry) : Prop :=
  IsDirectory rows e.dir → ∀ kind,
    ((c.listing rows e.dir).bind fun bfsInfo => bfsInfo.lookup e.name) = some kind → kind = e.kind

theorem listsOnly_directory (h : c.Filed hidden rows) (hname : IsFileName e.name)
    (hkind : e.kind = FS_TYPE_DIR) (htable : TableThere rows e.table → IsDirectory rows e.table) :
    ListsOnly c rows e := by
  intro hdir kind hlookup
  obtain ⟨bfsInfo, hbfs⟩ := h.listing_isSome hdir
  rw [hbfs] at hlookup
  have hlookup : bfsInfo.lookup e.name = some kind := hlookup
  obtain ⟨⟨hthere, -⟩, hiff⟩ := (h.listed_iff hdir hbfs ⟨e.name, hname⟩
    (decide (kind = FS_TYPE_DIR))).mp (by rw [hlookup]; rfl)
  rw [hkind]
  exact of_decide_eq_true (hiff.mpr (htable hthere))

theorem OnlyBuilt.listed_iff (h : c.Filed hidden rows) (hchain : Chain root es)
    (hroot : IsDirectory rows root) (hb : OnlyBuilt c rows rows' es) (he : e ∈ es) :
    (∃ bfsInfo, c.listing rows' e.dir = some bfsInfo ∧ bfsInfo.lookup e.name = some e.kind) ↔
      ListsOnly c rows e := by
  have hpath := h.paths root hroot
  by_cases hthere : TableThere rows e.dir
  · have hdir : IsDirectory rows e.dir := by
      rcases hchain.dir_cases he with heq | ⟨e', he', hkind', heq⟩
      · rw [heq]
        exact hroot
      · obtain ⟨hdirPath, -, -, -⟩ := hchain.deeper hpath e he
        exact (hb.directory_old hdirPath hthere).mp (heq ▸ (hb.directory e' he' hkind').2)
    obtain ⟨bfsInfo, hbfs⟩ := h.listing_isSome hdir
    unfold ListsOnly
    rw [hb.keeps e he hdir, hbfs, forall_prop_of_true hdir]
    constructor
    · rintro ⟨_, hinserted, hlookup⟩ kind hkind
      obtain rfl := Option.some.inj hinserted
      have hkind : bfsInfo.lookup e.name = some kind := hkind
      rw [lookup_insertNew, hkind] at hlookup
      exact Option.some.inj hlookup
    · intro honly
      refine ⟨_, rfl, ?_⟩
      rw [lookup_insertNew]
      cases hlookup : bfsInfo.lookup e.name with
      | none => rfl
      | some kind => rw [Option.getD_some, honly kind hlookup]
  · refine iff_of_true ⟨_, hb.only e he hthere, ?_⟩ fun hdir => ?_
    · rw [lookup_insertNew, AList.lookup_empty]
      rfl
    · exact absurd (h.there_of_directory hdir).1 hthere

theorem OnlyBuilt.pathBuilt_iff (h : c.Filed hidden rows) (hchain : Chain root es)
    (hroot : IsDirectory rows root) (hb : OnlyBuilt c rows rows' es) :
    PathBuilt c rows rows' es ↔ ∀ e ∈ es, e.kind ≠ FS_TYPE_DIR → ListsOnly c rows e := by
  constructor
  · intro hbuilt e he _
    exact (hb.listed_iff h hchain hroot he).mp (hbuilt.listed e he)
  · intro honly
    refine ⟨hb, fun e he => (hb.listed_iff h hchain hroot he).mpr ?_⟩
    by_cases hkind : e.kind = FS_TYPE_DIR
    · refine listsOnly_directory h (hchain.name_of_mem he) hkind fun hthere => ?_
      obtain ⟨-, htable, -, -⟩ := hchain.deeper (h.paths root hroot) e he
      exact (hb.directory_old htable hthere).mp (hb.directory e he hkind).2
    · exact honly e he hkind

theorem enterAll_done (hdone : ∀ e ∈ es, e.kind = FS_TYPE_DIR ∧ TableThere rows e.table ∧
    IsDirectory rows e.table) : enterAll c rows es = (true, rows) := by
  induction es with
  | nil => rfl
  | cons e es ih =>
    obtain ⟨⟨hkind, hthere, htable⟩, hrest⟩ := List.forall_mem_cons.mp hdone
    rw [enterAll_old hkind hthere htable]
    exact ih hrest

theorem kind_of_mem {last : Bytes} {root : String} {dirs : List String} {e : PathEntry}
    (he : e ∈ pathEntries last root dirs) : e.kind = FS_TYPE_DIR ∨ e.kind = last := by
  induction dirs generalizing root with
  | nil => cases he
  | cons dir rest ih =>
    obtain rfl | he := List.mem_cons.mp he
    · dsimp only
      split
      · exact Or.inr rfl
      · exact Or.inl rfl
    · exact ih he

theorem kind_of_directories {root : String} {dirs : List String} {e : PathEntry}
    (he : e ∈ pathEntries FS_TYPE_DIR root dirs) : e.kind = FS_TYPE_DIR :=
  (kind_of_mem he).elim id id

/-- A directory on the way to a contract has fewer names. -/
theorem table_of_contract {root : String} {dirs : List String} {e : PathEntry}
    (he : e ∈ pathEntries FS_TYPE_CONTRACT root dirs) (hkind : e.kind = FS_TYPE_DIR) :
    ∃ pre, pre ≠ [] ∧ (∀ dir ∈ pre, dir ∈ dirs) ∧ pre.length < dirs.length ∧
      e.table = pre.foldl childName root := by
  induction dirs generalizing root with
  | nil => cases he
  | cons dir rest ih =>
    obtain rfl | he := List.mem_cons.mp he
    · cases rest with
      | nil => exact absurd (show FS_TYPE_CONTRACT = FS_TYPE_DIR from hkind) (by decide)
      | cons dir' rest =>
        refine ⟨[dir], List.cons_ne_nil _ _, ?_, ?_, rfl⟩
        · exact List.forall_mem_singleton.mpr List.mem_cons_self
        · exact Nat.lt_add_of_pos_left (Nat.succ_pos _)
    · obtain ⟨pre, -, hmem, hlt, htable⟩ := ih he
      refine ⟨dir :: pre, List.cons_ne_nil _ _, ?_, Nat.succ_lt_succ hlt, htable⟩
      exact List.forall_mem_cons.mpr
        ⟨List.mem_cons_self, fun dir' hdir' => List.mem_cons_of_mem dir (hmem dir' hdir')⟩

theorem recursiveBuildDir_eq {path : String} (hvalid : checkPathValid path = true)
    (hne : path ≠ "/") :
    (recursiveBuildDir c path : Script Empty Bool) = buildDirs c "/" (dirList path) := by
  have hempty : path ≠ "" := by
    rintro rfl
    cases hvalid
  unfold recursiveBuildDir
  rw [if_neg hempty, if_neg hne]

theorem buildBfsPath_eq (env : Environment) {path : String} (hvalid : checkPathValid path = true) :
    (buildBfsPath env path : Script Empty Bool) =
      TransactionExecutive.buildDirs env "/" (dirList path) := by
  have hempty : path.isEmpty = false := by
    rw [Bool.eq_false_iff, ne_eq, String.isEmpty_iff]
    rintro rfl
    cases hvalid
  unfold buildBfsPath
  rw [hempty, if_neg Bool.false_ne_true]
  rfl

/-- What is due where `recursiveBuildDir` succeeds. -/
def DirectoryDone (c : FileCodec) (rows : Rows) (path : String) (rows' : Rows) : Prop :=
  IsDirectory rows' "/" ∧ PathBuilt c rows rows' (pathEntries FS_TYPE_DIR "/" (dirList path)) ∧
    (recursiveBuildDir c path : Script Empty Bool).onRows rows' = (some (.ok true), rows')

/-- What is due where `buildBfsPath` succeeds. -/
def ContractDone (c : FileCodec) (rows : Rows) (path : String) (rows' : Rows) : Prop :=
  IsDirectory rows' "/" ∧ PathBuilt c rows rows' (pathEntries FS_TYPE_CONTRACT "/" (dirList path))

theorem buildDirs_allOrNothing (h : c.Filed none rows) {dirs : List String}
    (hdirs : ∀ dir ∈ dirs, IsFileName dir) :
    AllOrNothing (buildDirs c "/" dirs) rows fun rows' =>
      IsDirectory rows' "/" ∧ PathBuilt c rows rows' (pathEntries FS_TYPE_DIR "/" dirs) ∧
        (buildDirs c "/" dirs : Script Empty Bool).onRows rows' = (some (.ok true), rows') := by
  have hroot : IsDirectory rows "/" := h.wellListed.root_mem
  have hchain := chain_pathEntries hdirs FS_TYPE_DIR "/"
  have hhidden : ∀ t, none = some t → TableThere rows t := fun _ ht => nomatch ht
  have hrun := buildDirs_enterAll h hhidden hroot hdirs
  unfold AllOrNothing
  rw [hrun]
  rcases enterAll_spec h hhidden hchain hroot fun _ _ _ => (Option.some_ne_none _).symm with
    ⟨henter, -⟩ | ⟨rows', henter, hb⟩
  · rw [henter]
    exact ⟨false, rows, rfl, rfl⟩
  · obtain ⟨built, rows'', hrun', hbuilt⟩ := buildDirs_onRows h hhidden hroot hdirs
    rw [hrun, henter] at hrun'
    cases hrun'
    have hroot' : IsDirectory rows' "/" := hbuilt.filed.wellListed.root_mem
    rw [henter]
    refine ⟨true, rows', rfl, hroot', ?_, ?_⟩
    · exact (hb.pathBuilt_iff h hchain hroot).mpr fun e he hkind =>
        absurd (kind_of_directories he) hkind
    · rw [buildDirs_enterAll hbuilt.filed (fun _ ht => nomatch ht) hroot' hdirs, enterAll_done]
      exact fun e he => ⟨kind_of_directories he, hb.directory e he (kind_of_directories he)⟩

theorem buildContract_allOrNothing_iff (env : Environment) (h : c.Filed hidden rows)
    (hhidden : ∀ t, hidden = some t → TableThere rows t) {dirs : List String}
    (hdirs : ∀ dir ∈ dirs, IsFileName dir)
    (hvisible : ∀ e ∈ pathEntries FS_TYPE_CONTRACT "/" dirs, e.kind = FS_TYPE_DIR →
      hidden ≠ some e.table) :
    AllOrNothing (TransactionExecutive.buildDirs (c.environment env) "/" dirs) rows
        (fun rows' => IsDirectory rows' "/" ∧
          PathBuilt c rows rows' (pathEntries FS_TYPE_CONTRACT "/" dirs)) ↔
      ∀ e ∈ pathEntries FS_TYPE_CONTRACT "/" dirs, e.kind = FS_TYPE_CONTRACT →
        ListsOnly c rows e := by
  have hroot : IsDirectory rows "/" := h.wellListed.root_mem
  have hchain := chain_pathEntries hdirs FS_TYPE_CONTRACT "/"
  have hkinds : FS_TYPE_CONTRACT ≠ FS_TYPE_DIR := by decide
  unfold AllOrNothing
  rw [TransactionExecutive.buildDirs_enterAll env h hhidden hroot hdirs]
  rcases enterAll_spec h hhidden hchain hroot hvisible with
    ⟨henter, e', he', hkind', -, htable'⟩ | ⟨rows', henter, hb⟩
  · rw [henter]
    refine iff_of_true ⟨false, rows, rfl, rfl⟩ fun e he hkind hdir => ?_
    exact absurd (hchain.directories h isPath_root hvisible he (hkind ▸ hkinds) hdir e' he' hkind')
      htable'
  · have hroot' : IsDirectory rows' "/" :=
      (hb.directory_old isPath_root (h.there_of_directory hroot).1).mpr hroot
    have hiff := hb.pathBuilt_iff h hchain hroot
    rw [henter]
    constructor
    · rintro ⟨built, rows'', hout, hdone⟩ e he hkind
      cases hout
      exact hiff.mp hdone.2 e he (hkind ▸ hkinds)
    · intro honly
      refine ⟨true, rows', rfl, hroot', hiff.mpr fun e he hkind => honly e he ?_⟩
      exact (kind_of_mem he).resolve_left hkind

theorem recursiveBuildDir_allOrNothing_iff (h : c.Filed none rows) {path : String}
    (hvalid : checkPathValid path = true) :
    AllOrNothing (recursiveBuildDir c path) rows (DirectoryDone c rows path) ↔ path ≠ "/" := by
  constructor
  · rintro ⟨built, rows', hrun, -⟩ rfl
    cases hrun
  · intro hne
    have hdirs := isFileName_of_pathValid hvalid hne
    unfold DirectoryDone
    rw [recursiveBuildDir_eq hvalid hne]
    generalize dirList path = dirs at hdirs
    exact buildDirs_allOrNothing h hdirs

/-- The rows in which a table has just been created. -/
def tableCreated (rows : Rows) (tableName : String) (fields : Bytes) : Rows :=
  Function.update rows ⟨sysTables, ascii tableName⟩ (some fields)

theorem buildBfsPath_allOrNothing_iff (env : Environment) (h : c.Filed none rows) {path : String}
    (hvalid : checkPathValid path = true) (hpath : IsPath path) (hnew : ¬TableThere rows path)
    (fields : Bytes) :
    AllOrNothing (buildBfsPath (c.environment env) path) (tableCreated rows path fields)
        (ContractDone c (tableCreated rows path fields) path) ↔
      ∀ e ∈ pathEntries FS_TYPE_CONTRACT "/" (dirList path), e.kind = FS_TYPE_CONTRACT →
        ListsOnly c (tableCreated rows path fields) e := by
  have hfiled : c.Filed (some path) (tableCreated rows path fields) := h.hide hpath hnew fields
  have hne : path ≠ "/" := by
    rintro rfl
    exact hnew (h.there_of_directory h.wellListed.root_mem).1
  have hthere : ∀ t, some path = some t → TableThere (tableCreated rows path fields) t := by
    rintro t ⟨⟩
    unfold TableThere tableCreated
    rw [Function.update_self]
    rfl
  have hdirs := isFileName_of_pathValid hvalid hne
  unfold ContractDone
  rw [buildBfsPath_eq _ hvalid]
  generalize hdirList : dirList path = dirs at hdirs
  refine buildContract_allOrNothing_iff env hfiled hthere hdirs fun e he hkind heq => ?_
  obtain ⟨pre, hnil, hmem, hlt, htable⟩ := table_of_contract he hkind
  have hsplit := dirList_pathOf hnil fun dir hdir => hdirs dir (hmem dir hdir)
  unfold pathOf at hsplit
  rw [← htable, ← Option.some.inj heq, hdirList] at hsplit
  rw [hsplit] at hlt
  exact Nat.lt_irrefl _ hlt

/-- Building is all or nothing, but of the root, which has no last character once its slash is
dropped, and of a contract whose last name the directory lists as something else. -/
theorem building_allOrNothing_iff (c : FileCodec) (env : Environment) {rows : Rows}
    (h : c.Filed none rows) {path : String} (hvalid : checkPathValid path = true) :
    (AllOrNothing (recursiveBuildDir c path) rows (DirectoryDone c rows path) ↔ path ≠ "/") ∧
      ∀ fields, IsPath path → ¬TableThere rows path →
        (AllOrNothing (buildBfsPath (c.environment env) path) (tableCreated rows path fields)
            (ContractDone c (tableCreated rows path fields) path) ↔
          ∀ e ∈ pathEntries FS_TYPE_CONTRACT "/" (dirList path), e.kind = FS_TYPE_CONTRACT →
            ListsOnly c (tableCreated rows path fields) e) :=
  ⟨recursiveBuildDir_allOrNothing_iff h hvalid,
    fun fields hpath hnew => buildBfsPath_allOrNothing_iff env h hvalid hpath hnew fields⟩

theorem isPath_hello : IsPath "/apps/hello" := by
  refine ⟨fun char hchar => ?_, rfl⟩
  have hall : "/apps/hello".toList.all (·.toNat < 256) = true := by decide
  exact of_decide_eq_true (List.all_eq_true.mp hall char hchar)

theorem building_allOrNothing_iff_hello :
    (AllOrNothing (recursiveBuildDir fileCodec "/apps/hello") (initialRows fileCodec)
        (DirectoryDone fileCodec (initialRows fileCodec) "/apps/hello") ↔ "/apps/hello" ≠ "/") ∧
      (AllOrNothing (buildBfsPath (fileCodec.environment evmEnvironment) "/apps/hello")
          (tableCreated (initialRows fileCodec) "/apps/hello" [])
          (ContractDone fileCodec (tableCreated (initialRows fileCodec) "/apps/hello" [])
            "/apps/hello") ↔
        ∀ e ∈ pathEntries FS_TYPE_CONTRACT "/" (dirList "/apps/hello"),
          e.kind = FS_TYPE_CONTRACT →
            ListsOnly fileCodec (tableCreated (initialRows fileCodec) "/apps/hello" []) e) := by
  have hboth := building_allOrNothing_iff fileCodec evmEnvironment
    (initialDirectories fileCodec).filed (show checkPathValid "/apps/hello" = true by decide)
  exact ⟨hboth.1, hboth.2 [] isPath_hello (by decide)⟩

/-- Building the root throws. -/
theorem not_allOrNothing_root : ¬∀ (c : FileCodec) (rows : Rows), c.Filed none rows →
    ∀ path, checkPathValid path = true →
      AllOrNothing (recursiveBuildDir c path) rows (DirectoryDone c rows path) := by
  intro h
  obtain ⟨built, rows', hrun, -⟩ :=
    h fileCodec (initialRows fileCodec) (initialDirectories fileCodec).filed "/" (by decide)
  cases hrun

end FileSystem

end BcosExecutor
