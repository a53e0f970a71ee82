import BcosExecutor.FileTree

namespace BcosExecutor

open FilePaths

namespace FileCodec

variable {c : FileCodec} {hidden : Option String} {rows : Rows}

/-- The rows after `addDirectory`. -/
def withDirectory (c : FileCodec) (root next : String) (bfsInfo : Bytes) (rows : Rows) : Rows :=
  let rows := Function.update rows ⟨sysTables, ascii next⟩ (some (ascii SYS_VALUE_FIELDS))
  let rows := Function.update rows ⟨next, FS_KEY_TYPE⟩ (some FS_TYPE_DIR)
  let rows := Function.update rows ⟨next, FS_KEY_SUB⟩ (some (c.bfs.encode ∅))
  let rows := Function.update rows ⟨next, FS_ACL_TYPE⟩ (some (ascii "0"))
  let rows := Function.update rows ⟨next, FS_ACL_WHITE⟩ (some [])
  let rows := Function.update rows ⟨next, FS_ACL_BLACK⟩ (some [])
  let rows := Function.update rows ⟨next, FS_KEY_EXTRA⟩ (some [])
  Function.update rows ⟨root, FS_KEY_SUB⟩ (some bfsInfo)

theorem addDirectory_onRows {root next : String} {bfsInfo : Bytes} (hnew : ¬TableThere rows next) :
    (FileSystem.addDirectory c root next bfsInfo : Script Empty Unit).onRows rows =
      (some (.ok ()), c.withDirectory root next bfsInfo rows) := by
  have hgone : (rows ⟨sysTables, ascii next⟩).isSome = false := by
    simpa [TableThere] using hnew
  unfold FileSystem.addDirectory createTable
  simp only [Script.onRows_bind, Script.onRows_openTable, hgone, Bool.false_eq_true, ↓reduceIte,
    Script.onRows_set]
  rfl

theorem path_ne_sysTables {path : String} (hpath : IsPath path) : path ≠ sysTables := by
  rintro rfl
  cases hpath.2

theorem withDirectory_tableRow {root next : String} {bfsInfo : Bytes} (hroot : IsPath root)
    (hnext : IsPath next) (name : Bytes) :
    c.withDirectory root next bfsInfo rows ⟨sysTables, name⟩ =
      Function.update rows ⟨sysTables, ascii next⟩ (some (ascii SYS_VALUE_FIELDS))
        ⟨sysTables, name⟩ := by
  have hsys {path : String} (hpath : IsPath path) (key : Bytes) :
      (⟨sysTables, name⟩ : StateRow) ≠ ⟨path, key⟩ := fun heq =>
    path_ne_sysTables hpath (congrArg StateRow.table heq).symm
  unfold withDirectory
  simp only [Function.update_of_ne (hsys hroot _), Function.update_of_ne (hsys hnext _)]

theorem withDirectory_table {root next t : String} {bfsInfo : Bytes} (hroot : IsPath root)
    (hnext : IsPath next) (ht : IsPath t) :
    TableThere (c.withDirectory root next bfsInfo rows) t ↔ TableThere rows t ∨ t = next := by
  unfold TableThere
  rw [withDirectory_tableRow hroot hnext]
  exact there_update hnext _ ht

theorem withDirectory_stays {root next t : String} {bfsInfo : Bytes} (hroot : IsPath root)
    (hnext : IsPath next) (ht : TableThere rows t) :
    TableThere (c.withDirectory root next bfsInfo rows) t := by
  unfold TableThere
  rw [withDirectory_tableRow hroot hnext, Function.update_apply]
  split
  next => rfl
  next => exact ht

theorem withDirectory_type {root next : String} {bfsInfo : Bytes} (hnext : IsPath next)
    (t : String) :
    IsDirectory (c.withDirectory root next bfsInfo rows) t ↔ IsDirectory rows t ∨ t = next := by
  have hkey (path : String) (key : Bytes) (h : FS_KEY_TYPE ≠ key) :
      (⟨t, FS_KEY_TYPE⟩ : StateRow) ≠ ⟨path, key⟩ := fun heq => h (congrArg StateRow.key heq)
  have hsys : (⟨t, FS_KEY_TYPE⟩ : StateRow) ≠ ⟨sysTables, ascii next⟩ :=
    tableRow_ne hnext (by decide) t
  have hsame : (c.withDirectory root next bfsInfo rows) ⟨t, FS_KEY_TYPE⟩ =
      if t = next then some FS_TYPE_DIR else rows ⟨t, FS_KEY_TYPE⟩ := by
    unfold withDirectory
    simp only [Function.update_of_ne (hkey _ FS_KEY_SUB (by decide)),
      Function.update_of_ne (hkey _ FS_ACL_TYPE (by decide)),
      Function.update_of_ne (hkey _ FS_ACL_WHITE (by decide)),
      Function.update_of_ne (hkey _ FS_ACL_BLACK (by decide)),
      Function.update_of_ne (hkey _ FS_KEY_EXTRA (by decide))]
    rw [Function.update_apply, Function.update_of_ne hsys]
    simp only [StateRow.mk.injEq, and_true]
  unfold IsDirectory
  rw [hsame]
  split
  next heq => exact ⟨fun _ => .inr heq, fun _ => rfl⟩
  next hne => exact (or_iff_left hne).symm

theorem withDirectory_sub {root next : String} {bfsInfo : Bytes} (hnext : IsPath next)
    (t : String) :
    c.withDirectory root next bfsInfo rows ⟨t, FS_KEY_SUB⟩ =
      if t = root then some bfsInfo
      else if t = next then some (c.bfs.encode ∅)
      else rows ⟨t, FS_KEY_SUB⟩ := by
  have hkey (path : String) (key : Bytes) (h : FS_KEY_SUB ≠ key) :
      (⟨t, FS_KEY_SUB⟩ : StateRow) ≠ ⟨path, key⟩ := fun heq => h (congrArg StateRow.key heq)
  have hsys : (⟨t, FS_KEY_SUB⟩ : StateRow) ≠ ⟨sysTables, ascii next⟩ :=
    tableRow_ne hnext (by decide) t
  unfold withDirectory
  rw [Function.update_apply]
  simp only [Function.update_of_ne (hkey _ FS_ACL_TYPE (by decide)),
    Function.update_of_ne (hkey _ FS_ACL_WHITE (by decide)),
    Function.update_of_ne (hkey _ FS_ACL_BLACK (by decide)),
    Function.update_of_ne (hkey _ FS_KEY_EXTRA (by decide))]
  rw [Function.update_apply, Function.update_of_ne (hkey _ FS_KEY_TYPE (by decide)),
    Function.update_of_ne hsys]
  simp only [StateRow.mk.injEq, and_true]

/-- The new directory is empty, and the one that it is in lists what was written. -/
theorem withDirectory_listing {root next : String} (hnext : IsPath next)
    (bfsInfo : StdMap String Bytes) (t : String) :
    c.listing (c.withDirectory root next (c.bfs.encode bfsInfo) rows) t =
      if t = root then some bfsInfo else if t = next then some ∅ else c.listing rows t := by
  unfold FileCodec.listing
  rw [withDirectory_sub hnext]
  split
  · exact c.bfs.decode_encode _
  · split
    · exact c.bfs.decode_encode _
    · rfl

theorem withDirectory_frame {root next : String} {bfsInfo : Bytes} {row : StateRow}
    (hlist : row ≠ ⟨root, FS_KEY_SUB⟩) (htable : row ≠ ⟨sysTables, ascii next⟩)
    (hown : row.table ≠ next) : c.withDirectory root next bfsInfo rows row = rows row := by
  have hkey (key : Bytes) : row ≠ ⟨next, key⟩ := fun heq => hown (congrArg StateRow.table heq)
  unfold withDirectory
  simp only [Function.update_of_ne hlist, Function.update_of_ne (hkey _),
    Function.update_of_ne htable]

/-- A new directory is entered into the listing of the directory that it is in. -/
theorem Filed.entered_directory {root dir : String} {bfsInfo : StdMap String Bytes}
    (h : c.Filed hidden rows) (hhidden : ∀ t, hidden = some t → TableThere rows t)
    (hroot : IsDirectory rows root) (hdir : IsFileName dir)
    (hlisting : c.listing rows root = some bfsInfo)
    (hnew : ¬TableThere rows (childName root dir)) :
    c.Filed hidden (c.withDirectory root (childName root dir)
      (c.bfs.encode (bfsInfo.insertNew dir FS_TYPE_DIR)) rows) := by
  have hpath := h.paths root hroot
  have hnext := isPath_childName hpath hdir
  have hapart : hidden ≠ some (childName root dir) := fun heq => hnew (hhidden _ heq)
  have hne : childName root dir ≠ root := by
    intro heq
    rw [heq] at hnew
    exact hnew (h.there_of_directory hroot).1
  suffices hentered : Entered c hidden hidden rows (c.withDirectory root (childName root dir)
      (c.bfs.encode (bfsInfo.insertNew dir FS_TYPE_DIR)) rows) root dir FS_TYPE_DIR bfsInfo from
    h.entered hroot hdir hlisting (fun hthere => hnew hthere.1) hentered
  refine ⟨?_, ?_, ?_, ?_, ?_⟩
  · intro t ht
    rw [withDirectory_table hpath hnext ht]
    constructor
    · rintro ⟨hthere | heq, hne⟩
      · exact .inl ⟨hthere, hne⟩
      · exact .inr heq
    · rintro (⟨hthere, hne⟩ | heq)
      · exact ⟨.inl hthere, hne⟩
      · exact ⟨.inr heq, heq ▸ hapart⟩
  · intro t
    rw [withDirectory_type hnext, and_iff_left rfl]
  · rw [withDirectory_listing hnext, if_pos rfl]
  · intro _
    rw [withDirectory_listing hnext, if_neg hne, if_pos rfl]
  · intro t _ hroot' hnext'
    rw [withDirectory_listing hnext, if_neg hroot', if_neg hnext']

theorem insertBfs_eq {dir : String} {bfsInfo : StdMap String Bytes}
    (hlisting : c.listing rows dir = some bfsInfo) (name : String) (kind : Bytes) :
    ∃ sub, rows ⟨dir, FS_KEY_SUB⟩ = some sub ∧
      c.insertBfs sub name kind = some (c.bfs.encode (bfsInfo.insertNew name kind)) := by
  obtain ⟨sub, hsub, hdecode⟩ := Option.bind_eq_some_iff.mp hlisting
  refine ⟨sub, hsub, ?_⟩
  unfold insertBfs
  rw [hdecode]
  rfl

end FileCodec

namespace FileSystem

open FileCodec

variable {c : FileCodec} {hidden : Option String} {rows : Rows}

/-- What the directories that are built leave of the tree. -/
structure Built (c : FileCodec) (hidden : Option String) (rows rows' : Rows) (path : String)
    (built : Bool) : Prop where
  filed : c.Filed hidden rows'
  directory : built = true → IsDirectory rows' path
  stays : ∀ t, TableThere rows t → TableThere rows' t

/-- One turn of the loop, in a directory. -/
theorem buildDirs_cons {root : String} {bfsInfo : StdMap String Bytes} (h : c.Filed hidden rows)
    (hroot : IsDirectory rows root) (hlisting : c.listing rows root = some bfsInfo) (dir : String)
    (rest : List String) : (buildDirs c root (dir :: rest) : Script Empty Bool).onRows rows =
      if TableThere rows (childName root dir) then
        if IsDirectory rows (childName root dir) then
          (buildDirs c (childName root dir) rest).onRows rows
        else (some (.ok false), rows)
      else (buildDirs c (childName root dir) rest).onRows (c.withDirectory root
        (childName root dir) (c.bfs.encode (bfsInfo.insertNew dir FS_TYPE_DIR)) rows) := by
  have hthere : TableThere rows root := (h.there_of_directory hroot).1
  have htype : rows ⟨root, FS_KEY_TYPE⟩ = some FS_TYPE_DIR := hroot
  rw [buildDirs, Script.onRows_bind, hthere.onRows_openTable]
  dsimp only
  rw [Bool.not_true, if_neg Bool.false_ne_true, Script.onRows_bind, Script.onRows_get, htype]
  dsimp only
  rw [Script.onRows_bind]
  by_cases hnext : TableThere rows (childName root dir)
  · rw [if_pos hnext, hnext.onRows_openTable]
    dsimp only
    rw [if_pos rfl, Script.onRows_bind, Script.onRows_get]
    dsimp only
    by_cases hnextDir : IsDirectory rows (childName root dir)
    · rw [if_pos hnextDir, if_pos (show rows _ = some FS_TYPE_DIR from hnextDir)]
    · rw [if_neg hnextDir, if_neg (show ¬rows _ = some FS_TYPE_DIR from hnextDir)]
      rfl
  · obtain ⟨sub, hsub, hinsert⟩ := insertBfs_eq hlisting dir FS_TYPE_DIR
    rw [if_neg hnext, onRows_openTable_gone hnext]
    dsimp only
    rw [if_neg Bool.false_ne_true, Script.onRows_bind, Script.onRows_get, hsub]
    dsimp only
    rw [hinsert]
    dsimp only
    rw [Script.onRows_bind, addDirectory_onRows hnext]

theorem buildDirs_onRows {root : String} {dirs : List String} (h : c.Filed hidden rows)
    (hhidden : ∀ t, hidden = some t → TableThere rows t) (hroot : IsDirectory rows root)
    (hdirs : ∀ dir ∈ dirs, IsFileName dir) :
    ∃ built rows', (buildDirs c root dirs : Script Empty Bool).onRows rows =
      (some (.ok built), rows') ∧
        Built c hidden rows rows' (dirs.foldl childName root) built := by
  induction dirs generalizing root rows with
  | nil => exact ⟨true, rows, rfl, h, fun _ => hroot, fun _ => id⟩
  | cons dir rest ih =>
    obtain ⟨hdir, hrest⟩ := List.forall_mem_cons.mp hdirs
    obtain ⟨bfsInfo, hlisting⟩ := h.listing_isSome hroot
    rw [buildDirs_cons h hroot hlisting dir rest]
    by_cases hnext : TableThere rows (childName root dir)
    · rw [if_pos hnext]
      by_cases hnextDir : IsDirectory rows (childName root dir)
      · rw [if_pos hnextDir]
        exact ih h hhidden hnextDir hrest
      · rw [if_neg hnextDir]
        exact ⟨false, rows, rfl, h, nofun, fun _ => id⟩
    · have hpath := h.paths root hroot
      have hpath' := isPath_childName hpath hdir
      have hfiled := h.entered_directory hhidden hroot hdir hlisting hnext
      rw [if_neg hnext]
      obtain ⟨built, rows', hrun, hbuilt⟩ := ih hfiled
        (fun t ht => withDirectory_stays hpath hpath' (hhidden t ht))
        ((withDirectory_type hpath' _).mpr (.inr rfl)) hrest
      exact ⟨built, rows', hrun, hbuilt.filed, hbuilt.directory,
        fun t ht => hbuilt.stays t (withDirectory_stays hpath hpath' ht)⟩

end FileSystem

namespace FileCodec

variable {c : FileCodec} {hidden : Option String} {rows : Rows}

/-- A table that shows up, or is made, as the directory that it is in lists it. -/
theorem Filed.entered_contract {hidden' : Option String} {rows' : Rows} {dir name : String}
    {bfsInfo : StdMap String Bytes} (h : c.Filed hidden rows) (hdir : IsDirectory rows dir)
    (hname : IsFileName name) (hlisting : c.listing rows dir = some bfsInfo)
    (hnew : ¬(TableThere rows (childName dir name) ∧ hidden ≠ some (childName dir name)))
    (hthere : ∀ t, IsPath t → (TableThere rows' t ∧ hidden' ≠ some t ↔
      TableThere rows t ∧ hidden ≠ some t ∨ t = childName dir name))
    (hrow : ∀ t, ∀ key ∈ [FS_KEY_TYPE, FS_KEY_SUB], rows' ⟨t, key⟩ = rows ⟨t, key⟩) :
    c.Filed hidden' (Function.update rows' ⟨dir, FS_KEY_SUB⟩
      (some (c.bfs.encode (bfsInfo.insertNew name FS_TYPE_CONTRACT)))) ∧
    (¬IsDirectory rows (childName dir name) → ¬IsDirectory (Function.update rows' ⟨dir, FS_KEY_SUB⟩
      (some (c.bfs.encode (bfsInfo.insertNew name FS_TYPE_CONTRACT)))) (childName dir name)) := by
  have hkind : FS_TYPE_CONTRACT ≠ FS_TYPE_DIR := by decide
  have hkey : FS_KEY_TYPE ≠ FS_KEY_SUB := by decide
  have hsys : sysTables ≠ dir := (path_ne_sysTables (h.paths dir hdir)).symm
  generalize hrows : Function.update rows' ⟨dir, FS_KEY_SUB⟩
    (some (c.bfs.encode (bfsInfo.insertNew name FS_TYPE_CONTRACT))) = rows''
  have htype (t : String) : rows'' ⟨t, FS_KEY_TYPE⟩ = rows ⟨t, FS_KEY_TYPE⟩ := by
    rw [← hrows, Function.update_of_ne fun heq => hkey (congrArg StateRow.key heq)]
    exact hrow t _ (by simp)
  have hsub (t : String) : rows'' ⟨t, FS_KEY_SUB⟩ = if t = dir then
      some (c.bfs.encode (bfsInfo.insertNew name FS_TYPE_CONTRACT)) else rows ⟨t, FS_KEY_SUB⟩ := by
    rw [← hrows, Function.update_apply, hrow t _ (by simp)]
    simp only [StateRow.mk.injEq, and_true]
  have htable (t : String) : TableThere rows'' t ↔ TableThere rows' t := by
    unfold TableThere
    rw [← hrows, Function.update_of_ne fun heq => hsys (congrArg StateRow.table heq)]
  suffices hentered : Entered c hidden hidden' rows rows'' dir name FS_TYPE_CONTRACT bfsInfo by
    refine ⟨h.entered hdir hname hlisting hnew hentered, fun hold => ?_⟩
    unfold IsDirectory at hold ⊢
    rw [htype]
    exact hold
  refine ⟨fun t ht => ?_, fun t => ?_, ?_, fun heq => (hkind heq).elim, fun t _ hne _ => ?_⟩
  · rw [htable]
    exact hthere t ht
  · unfold IsDirectory
    rw [htype]
    exact ⟨.inl, fun hd => hd.resolve_right fun ⟨_, heq⟩ => hkind heq⟩
  · unfold FileCodec.listing
    rw [hsub, if_pos rfl]
    exact c.bfs.decode_encode _
  · unfold FileCodec.listing
    rw [hsub, if_neg hne]

end FileCodec

namespace TransactionExecutive

open FileCodec

variable {c : FileCodec} {hidden : Option String} {rows : Rows}

/-- One turn of the loop, in a directory; where the path ends it only lists. -/
theorem buildDirs_cons (env : Environment) {root : String} {bfsInfo : StdMap String Bytes}
    (h : c.Filed hidden rows) (hroot : IsDirectory rows root)
    (hlisting : c.listing rows root = some bfsInfo) (dir : String) (rest : List String) :
    (buildDirs (c.environment env) root (dir :: rest) : Script Empty Bool).onRows rows =
      if rest.isEmpty then
        (some (.ok true), Function.update rows ⟨root, FS_KEY_SUB⟩
          (some (c.bfs.encode (bfsInfo.insertNew dir FS_TYPE_CONTRACT))))
      else if TableThere rows (childName root dir) then
        if IsDirectory rows (childName root dir) then
          (buildDirs (c.environment env) (childName root dir) rest).onRows rows
        else (some (.ok false), rows)
      else (buildDirs (c.environment env) (childName root dir) rest).onRows (c.withDirectory root
        (childName root dir) (c.bfs.encode (bfsInfo.insertNew dir FS_TYPE_DIR)) rows) := by
  have hthere : TableThere rows root := (h.there_of_directory hroot).1
  have htype : rows ⟨root, FS_KEY_TYPE⟩ = some FS_TYPE_DIR := hroot
  have hname : (if root ≠ "/" then root ++ "/" else root) ++ dir = childName root dir := rfl
  rw [buildDirs, Script.onRows_bind, hthere.onRows_openTable]
  dsimp only
  rw [Bool.not_true, if_neg Bool.false_ne_true, hname, Script.onRows_bind, Script.onRows_get, htype]
  dsimp only
  rw [Script.onRows_bind]
  cases rest with
  | nil =>
    obtain ⟨sub, hsub, hinsert⟩ := insertBfs_eq hlisting dir FS_TYPE_CONTRACT
    rw [Script.onRows_openTable]
    simp only [List.isEmpty_nil, Bool.not_true, Bool.false_and, Bool.false_eq_true, ↓reduceIte]
    rw [Script.onRows_bind, Script.onRows_get, hsub]
    dsimp only
    rw [show (c.environment env).insertBfs sub dir FS_TYPE_CONTRACT = _ from hinsert]
    rfl
  | cons dir' rest =>
    simp only [List.isEmpty_cons, Bool.not_false, Bool.true_and, Bool.false_eq_true, ↓reduceIte]
    by_cases hnext : TableThere rows (childName root dir)
    · rw [if_pos hnext, hnext.onRows_openTable]
      dsimp only
      rw [if_pos rfl, Script.onRows_bind, Script.onRows_get]
      dsimp only
      by_cases hnextDir : IsDirectory rows (childName root dir)
      · rw [if_pos hnextDir, if_pos (show rows _ = some FS_TYPE_DIR from hnextDir)]
      · rw [if_neg hnextDir, if_neg (show ¬rows _ = some FS_TYPE_DIR from hnextDir)]
        rfl
    · obtain ⟨sub, hsub, hinsert⟩ := insertBfs_eq hlisting dir FS_TYPE_DIR
      rw [if_neg hnext, onRows_openTable_gone hnext]
      dsimp only
      rw [if_neg Bool.false_ne_true, Script.onRows_bind, Script.onRows_get, hsub]
      dsimp only
      rw [show (c.environment env).insertBfs sub dir FS_TYPE_DIR = _ from hinsert]
      simp only [createTable, Script.onRows_bind, onRows_openTable_gone hnext,
        Bool.false_eq_true, ↓reduceIte, Script.onRows_set]
      rfl

theorem buildDirs_onRows (env : Environment) {root tableName : String} {dirs : List String}
    (h : c.Filed (some tableName) rows) (hthere : TableThere rows tableName)
    (hroot : IsDirectory rows root) (hdirs : ∀ dir ∈ dirs, IsFileName dir) (hne : dirs ≠ [])
    (hpath : dirs.foldl childName root = tableName) :
    ∃ built rows', (buildDirs (c.environment env) root dirs : Script Empty Bool).onRows rows =
      (some (.ok built), rows') ∧
        (built = true → c.Filed none rows' ∧ ¬IsDirectory rows' tableName) := by
  induction dirs generalizing root rows with
  | nil => exact (hne rfl).elim
  | cons dir rest ih =>
    obtain ⟨hdir, hrest⟩ := List.forall_mem_cons.mp hdirs
    obtain ⟨bfsInfo, hlisting⟩ := h.listing_isSome hroot
    rw [buildDirs_cons env h hroot hlisting dir rest]
    cases rest with
    | nil =>
      have hnext : childName root dir = tableName := hpath
      subst hnext
      have hshown (t : String) (_ : IsPath t) : TableThere rows t ∧ none ≠ some t ↔
          TableThere rows t ∧ some (childName root dir) ≠ some t ∨ t = childName root dir := by
        constructor
        · rintro ⟨ht, -⟩
          by_cases heq : t = childName root dir
          · exact .inr heq
          · exact .inl ⟨ht, fun hsome => heq (Option.some.inj hsome).symm⟩
        · rintro (⟨ht, -⟩ | rfl)
          · exact ⟨ht, (Option.some_ne_none t).symm⟩
          · exact ⟨hthere, (Option.some_ne_none _).symm⟩
      obtain ⟨hfiled, hplain⟩ := h.entered_contract hroot hdir hlisting
        (fun hboth => hboth.2 rfl) hshown fun _ _ _ => rfl
      refine ⟨true, _, rfl, fun _ => ⟨hfiled, hplain fun hd => ?_⟩⟩
      exact (h.there_of_directory hd).2 rfl
    | cons dir' rest =>
      rw [List.isEmpty_cons, if_neg Bool.false_ne_true]
      by_cases hnext : TableThere rows (childName root dir)
      · rw [if_pos hnext]
        by_cases hnextDir : IsDirectory rows (childName root dir)
        · rw [if_pos hnextDir]
          exact ih h hthere hnextDir hrest (List.cons_ne_nil _ _) hpath
        · rw [if_neg hnextDir]
          exact ⟨false, rows, rfl, fun hbuilt => absurd hbuilt Bool.false_ne_true⟩
      · have hroot' := h.paths root hroot
        have hnext' := isPath_childName hroot' hdir
        have hhidden (t : String) (ht : some tableName = some t) : TableThere rows t := by
          cases ht
          exact hthere
        have hfiled := h.entered_directory hhidden hroot hdir hlisting hnext
        rw [if_neg hnext]
        exact ih hfiled (withDirectory_stays hroot' hnext' hthere)
          ((withDirectory_type hnext' _).mpr (.inr rfl)) hrest (List.cons_ne_nil _ _) hpath

end TransactionExecutive

end BcosExecutor
