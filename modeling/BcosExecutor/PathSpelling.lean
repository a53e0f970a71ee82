import BcosExecutor.AtomicDirectories
import Mathlib.Algebra.GroupWithZero.Nat
import Mathlib.Algebra.Order.BigOperators.Group.List
import Mathlib.Algebra.Order.Group.Nat
import Mathlib.Data.Char
import Mathlib.Data.List.Lex
import Mathlib.Data.List.Sort

namespace BcosExecutor

open FilePaths
open TransactionExecutive (splitPath)
open DagTransfer (IsCppString)

/-- The pairs in the order in which a `std::map` is gone through. -/
def StdMap.inOrder {β : Type} (m : StdMap String β) : List (String × β) :=
  (m.entries.map fun kv => (kv.1, kv.2)).insertionSort fun kv kv' => kv.1.toList ≤ kv'.1.toList

namespace FileSystem

def CODE_FILE_NOT_EXIST : Int := -53001

/-- The files are an array of names and types. -/
inductive ListAnswer
  | code (code : Int)
  | files (files : List (String × Bytes))
  deriving DecidableEq

def listDir {κ : Type} (c : FileCodec) (absolutePath : String) : Script κ ListAnswer :=
  if !checkPathValid absolutePath then
    return .code CODE_FILE_INVALID_PATH
  else do
    if ← openTable absolutePath then
      match ← getRow absolutePath FS_KEY_TYPE with
      | some _ =>
        match ← getRow absolutePath FS_KEY_SUB with
        | none => .abort
        | some sub =>
          match c.bfs.decode sub with
          | none => .throw (.stdException "decode")
          | some bfsInfo => return .files bfsInfo.inOrder
      | none =>
        let (_, baseName) := KVTableFactory.getParentDirAndBaseName absolutePath
        return .files [(baseName, FS_TYPE_CONTRACT)]
    else
      return .code CODE_FILE_NOT_EXIST

/-- The prefix test of `makeDir`. -/
def InUserDirectory (path : String) : Bool :=
  USER_APPS_PREFIX.toList.isPrefixOf path.toList || USER_TABLE_PREFIX.toList.isPrefixOf path.toList

/-- The spelling with single slashes, one of them in front and none at the end. -/
def canonicalPath (path : String) : String :=
  pathOf (dirList path)

variable {c : FileCodec} {rows : Rows} {path : String}

theorem dropLast_append_last {α : Type} (l : List α) : l.dropLast ++ l.getLast?.toList = l := by
  cases hlast : l.getLast? with
  | none => rw [List.getLast?_eq_none_iff.mp hlast]; rfl
  | some a => exact List.dropLast_append_getLast? a hlast

theorem splitPath_sublist (path : String) :
    ((splitPath path).map String.toList).Sublist (path.toList.splitOn '/') := by
  have hid : (String.toList ∘ String.ofList) = id := funext fun _ => String.toList_ofList
  have hparts : (splitPath path).Sublist ((path.toList.splitOn '/').map String.ofList) := by
    unfold splitPath
    dsimp only
    generalize (path.toList.splitOn '/').map String.ofList = parts
    rw [List.append_assoc]
    have hsub := (((parts.drop 1).dropLast.filter_sublist (p := (· ≠ ""))).append_right
      (parts.drop 1).getLast?.toList).append_left (parts.take 1)
    rw [dropLast_append_last, List.take_append_drop] at hsub
    exact hsub
  have hmap := hparts.map String.toList
  rw [List.map_map, hid, List.map_id] at hmap
  exact hmap

/-- What is dropped is empty. -/
theorem mem_splitPath {path : String} {l : List Char} (hl : l ∈ path.toList.splitOn '/')
    (hne : l ≠ []) : String.ofList l ∈ splitPath path := by
  have hmem : String.ofList l ∈ (path.toList.splitOn '/').map String.ofList :=
    List.mem_map_of_mem hl
  have hname : String.ofList l ≠ "" := fun h => hne (by simpa using congrArg String.toList h)
  unfold splitPath
  dsimp only
  generalize (path.toList.splitOn '/').map String.ofList = parts at hmem
  rw [← List.take_append_drop 1 parts, ← dropLast_append_last (parts.drop 1), List.mem_append,
    List.mem_append] at hmem
  rw [List.mem_append, List.mem_append, List.mem_filter, decide_eq_true_iff]
  rcases hmem with hfirst | hmiddle | hlast
  · exact Or.inl (Or.inl hfirst)
  · exact Or.inl (Or.inr ⟨hmiddle, hname⟩)
  · exact Or.inr hlast

theorem length_intercalate (sep : Char) {ls : List (List Char)} (hne : ls ≠ []) :
    ([sep].intercalate ls).length + 1 = (ls.map fun l => l.length + 1).sum := by
  induction ls with
  | nil => exact absurd rfl hne
  | cons l ls ih =>
    cases ls with
    | nil => rw [List.intercalate_singleton, List.map_singleton, List.sum_singleton]
    | cons l' ls =>
      rw [List.intercalate_cons_cons, List.map_cons, List.sum_cons, ← ih (List.cons_ne_nil _ _),
        List.length_append, List.length_append, List.length_singleton]
      omega

theorem length_intercalate_le (sep : Char) {ls ls' : List (List Char)} (h : ls.Sublist ls') :
    ([sep].intercalate ls).length ≤ ([sep].intercalate ls').length := by
  by_cases hne : ls = []
  · rw [hne]
    exact Nat.zero_le _
  · have hne' : ls' ≠ [] := fun hnil => hne (List.sublist_nil.mp (hnil ▸ h))
    have hsum := (h.map fun l => l.length + 1).sum_le_sum fun _ _ => Nat.zero_le _
    have hlength := length_intercalate sep hne
    have hlength' := length_intercalate sep hne'
    omega

theorem withoutSlashes_length {l : List Char} (h : l.head? = some '/') :
    (withoutSlashes l).length + 1 ≤ l.length := by
  obtain ⟨rest, rfl⟩ := List.head?_eq_some_iff.mp h
  unfold withoutSlashes
  dsimp only
  rw [if_pos h, List.drop_one, List.tail_cons, List.length_cons]
  split
  · rw [List.length_dropLast]
    omega
  · exact le_rfl

/-- The characters that are dropped are slashes. -/
theorem mem_withoutSlashes {l : List Char} {x : Char} (hx : x ∈ l) :
    x = '/' ∨ x ∈ withoutSlashes l := by
  unfold withoutSlashes
  dsimp only
  have hfront : x = '/' ∨ x ∈ if l.head? = some '/' then l.drop 1 else l := by
    by_cases hhead : l.head? = some '/'
    · obtain ⟨rest, rfl⟩ := List.head?_eq_some_iff.mp hhead
      rw [if_pos hhead]
      exact List.mem_cons.mp hx
    · rw [if_neg hhead]
      exact Or.inr hx
  generalize (if l.head? = some '/' then l.drop 1 else l) = dir at hfront
  split
  next hlast =>
    rcases hfront with heq | hmem
    · exact Or.inl heq
    · rw [← List.dropLast_append_getLast? _ hlast, List.mem_append, List.mem_singleton] at hmem
      exact hmem.symm
  next => exact hfront

theorem intercalate_withoutSlashes (path : String) :
    ['/'].intercalate ((withoutSlashes path.toList).splitOn '/') = withoutSlashes path.toList :=
  List.intercalate_splitOn '/'

theorem isCppString_of_pathValid {path : String} (h : checkPathValid path = true)
    (hne : path ≠ "/") : IsCppString path := by
  intro x hx
  have hslash : x = '/' → x.toNat < 256 := by
    rintro rfl
    decide
  obtain heq | hx := mem_withoutSlashes hx
  · exact hslash heq
  · rw [← intercalate_withoutSlashes path] at hx
    obtain heq | ⟨l, hl, hx⟩ := mem_intercalate hx
    · exact hslash heq
    · have hmem : String.ofList l ∈ dirList path := by
        unfold dirList
        refine mem_splitPath ?_ (List.ne_nil_of_mem hx)
        rw [String.toList_ofList]
        exact hl
      have hname := (isFileName_of_pathValid h hne _ hmem).1 x
      rw [String.toList_ofList] at hname
      exact hname hx

theorem head_of_inUserDirectory (h : InUserDirectory path = true) :
    path.toList.head? = some '/' ∧ path ≠ "/" := by
  unfold InUserDirectory at h
  rw [Bool.or_eq_true, List.isPrefixOf_iff_prefix, List.isPrefixOf_iff_prefix] at h
  constructor
  · rcases h with ⟨rest, hrest⟩ | ⟨rest, hrest⟩ <;> rw [← hrest] <;> rfl
  · rintro rfl
    rcases h with ⟨rest, hrest⟩ | ⟨rest, hrest⟩ <;>
      exact absurd (congrArg List.length hrest) (by simp [USER_APPS_PREFIX, USER_TABLE_PREFIX])

/-- A path of the user directories, as it is accepted. -/
structure Accepted (path : String) : Prop where
  valid : checkPathValid path = true
  user : InUserDirectory path = true

namespace Accepted

theorem ne_root (h : Accepted path) : path ≠ "/" :=
  (head_of_inUserDirectory h.user).2

theorem isPath (h : Accepted path) : IsPath path :=
  ⟨isCppString_of_pathValid h.valid h.ne_root, (head_of_inUserDirectory h.user).1⟩

theorem names (h : Accepted path) : ∀ dir ∈ dirList path, IsFileName dir :=
  isFileName_of_pathValid h.valid h.ne_root

theorem dirList_ne_nil (h : Accepted path) : dirList path ≠ [] := by
  obtain ⟨name, hname⟩ : ∃ x ∈ withoutSlashes path.toList, x ≠ '/' := by
    by_contra hnone
    have hall : ∀ x ∈ path.toList, x = '/' := by
      intro x hx
      obtain heq | hmem := mem_withoutSlashes hx
      · exact heq
      · by_contra hne
        exact hnone ⟨x, hmem, hne⟩
    have huser := h.user
    unfold InUserDirectory at huser
    rw [Bool.or_eq_true, List.isPrefixOf_iff_prefix, List.isPrefixOf_iff_prefix] at huser
    rcases huser with hstart | hstart
    · exact absurd (hall 'a' (hstart.subset (by decide))) (by decide)
    · exact absurd (hall 't' (hstart.subset (by decide))) (by decide)
  rw [← intercalate_withoutSlashes path] at hname
  obtain ⟨hmem, hne⟩ := hname
  obtain heq | ⟨l, hl, hx⟩ := mem_intercalate hmem
  · exact absurd heq hne
  · refine List.ne_nil_of_mem (a := String.ofList l) ?_
    unfold dirList
    refine mem_splitPath ?_ (List.ne_nil_of_mem hx)
    rw [String.toList_ofList]
    exact hl

theorem dirList_canonical (h : Accepted path) : dirList (canonicalPath path) = dirList path :=
  dirList_pathOf h.dirList_ne_nil h.names

theorem canonical_length (h : Accepted path) :
    (canonicalPath path).toList.length ≤ path.toList.length := by
  unfold canonicalPath
  rw [pathOf_toList h.dirList_ne_nil h.names, List.length_cons]
  refine le_trans (Nat.succ_le_succ ?_) (withoutSlashes_length h.isPath.2)
  have hsub := splitPath_sublist (String.ofList (withoutSlashes path.toList))
  rw [String.toList_ofList] at hsub
  refine (length_intercalate_le '/' hsub).trans ?_
  rw [List.intercalate_splitOn]

theorem valid_canonical (h : Accepted path) (hne : canonicalPath path ≠ "/") :
    checkPathValid (canonicalPath path) = true := by
  have hvalid := h.valid
  have hempty : canonicalPath path ≠ "" := by
    intro hempty
    have hchars := pathOf_toList h.dirList_ne_nil h.names
    rw [show pathOf (dirList path) = "" from hempty] at hchars
    cases hchars
  unfold checkPathValid at hvalid ⊢
  rw [h.dirList_canonical]
  split at hvalid
  next => cases hvalid
  next hlength =>
    rw [Bool.or_eq_true, decide_eq_true_iff, decide_eq_true_iff, not_or] at hlength
    rw [if_neg h.ne_root] at hvalid
    rw [if_neg, if_neg hne]
    · exact hvalid
    · rw [Bool.or_eq_true, decide_eq_true_iff, decide_eq_true_iff, not_or]
      have hle := h.canonical_length
      exact ⟨hempty, by omega⟩

theorem canonical (h : Accepted path) (huser : InUserDirectory (canonicalPath path) = true) :
    Accepted (canonicalPath path) :=
  ⟨h.valid_canonical (head_of_inUserDirectory huser).2, huser⟩

end Accepted

/-- Every table of a tree has a path of names. -/
theorem parts_of_there (h : c.Filed none rows) :
    ∀ {path : String}, IsPath path → TableThere rows path →
      ∃ parts : List String, (∀ part ∈ parts, IsFileName part) ∧ path = pathOf parts := by
  intro path
  induction hlength : path.toList.length using Nat.strong_induction_on generalizing path with
  | _ n ih =>
    intro hpath hthere
    rcases h.wellListed.parent ⟨path, hpath⟩ ⟨hthere, nofun⟩ with hroot | ⟨dir, hdir, name, heq⟩
    · exact ⟨[], nofun, congrArg Subtype.val hroot⟩
    · have hchild : path = childName dir.1 name.1 := congrArg Subtype.val heq
      have hlt := length_childName dir.1 name.2
      rw [← hchild, hlength] at hlt
      obtain ⟨parts, hparts, hdirPath⟩ := ih _ hlt rfl dir.2 (h.there_of_directory hdir).1
      refine ⟨parts ++ [name.1], ?_, ?_⟩
      · intro part hpart
        obtain hmem | hmem := List.mem_append.mp hpart
        · exact hparts part hmem
        · rw [List.mem_singleton.mp hmem]
          exact name.2
      · unfold pathOf
        rw [List.foldl_append, List.foldl_cons, List.foldl_nil, hchild]
        exact congrArg (childName · name.1) hdirPath

/-- A table is there under the canonical spelling only. -/
theorem not_there_of_spelling (h : c.Filed none rows) (hpath : Accepted path)
    (hne : path ≠ canonicalPath path) : ¬TableThere rows path := by
  intro hthere
  obtain ⟨parts, hparts, heq⟩ := parts_of_there h hpath.isPath hthere
  have hnil : parts ≠ [] := by
    rintro rfl
    exact hpath.ne_root heq
  apply hne
  unfold canonicalPath
  have hsplit := dirList_pathOf hnil hparts
  rw [← heq] at hsplit
  rw [hsplit]
  exact heq

theorem makeDir_there (hpath : Accepted path) (hthere : TableThere rows path) :
    (makeDir c path : Script Empty Int).onRows rows =
      (some (.ok CODE_FILE_ALREADY_EXIST), rows) := by
  have huser := hpath.user
  unfold InUserDirectory at huser
  unfold makeDir
  rw [hpath.valid, huser, Bool.not_true, if_neg Bool.false_ne_true, if_neg Bool.false_ne_true,
    Script.onRows_bind, hthere.onRows_openTable]
  rfl

theorem makeDir_new (hpath : Accepted path) (hnew : ¬TableThere rows path) :
    (makeDir c path : Script Empty Int).onRows rows =
      (do return if ← buildDirs c "/" (dirList path) then ContractAuth.CODE_SUCCESS
        else CODE_FILE_BUILD_DIR_FAILED : Script Empty Int).onRows rows := by
  have huser := hpath.user
  unfold InUserDirectory at huser
  unfold makeDir
  rw [hpath.valid, huser, Bool.not_true, if_neg Bool.false_ne_true, if_neg Bool.false_ne_true,
    Script.onRows_bind, onRows_openTable_gone hnew,
    ← recursiveBuildDir_eq hpath.valid hpath.ne_root]
  dsimp only
  rw [if_neg Bool.false_ne_true, Script.onRows_bind, Script.onRows_bind]
  rcases (recursiveBuildDir c path : Script Empty Bool).onRows rows with ⟨out, rows'⟩
  match out with
  | none => rfl
  | some (.error e) => rfl
  | some (.ok true) => rfl
  | some (.ok false) => rfl

theorem listDir_new (hvalid : checkPathValid path = true) (hnew : ¬TableThere rows path) :
    (listDir c path : Script Empty ListAnswer).onRows rows =
      (some (.ok (.code CODE_FILE_NOT_EXIST)), rows) := by
  unfold listDir
  rw [hvalid, Bool.not_true, if_neg Bool.false_ne_true, Script.onRows_bind,
    onRows_openTable_gone hnew]
  rfl

/-- Creating and listing do the same under a spelling as under the canonical one. -/
structure SpelledAlike (c : FileCodec) (rows : Rows) (path : String) : Prop where
  makeDir : (makeDir c path : Script Empty Int).onRows rows =
    (FileSystem.makeDir c (canonicalPath path)).onRows rows
  listDir : (listDir c path : Script Empty ListAnswer).onRows rows =
    (FileSystem.listDir c (canonicalPath path)).onRows rows
  present : TableThere rows (canonicalPath path) →
    (FileSystem.makeDir c path : Script Empty Int).onRows rows =
      (some (.ok CODE_FILE_ALREADY_EXIST), rows)

/-- The spelling of an accepted path matters exactly where the canonical one names something. -/
theorem spelledAlike_iff (c : FileCodec) {rows : Rows} (h : c.Filed none rows) {path : String}
    (hpath : Accepted path) (huser : InUserDirectory (canonicalPath path) = true) :
    SpelledAlike c rows path ↔
      path = canonicalPath path ∨ ¬TableThere rows (canonicalPath path) := by
  have hcanonical := hpath.canonical huser
  constructor
  · intro halike
    by_contra hneither
    obtain ⟨hne, hthere⟩ := not_or.mp hneither
    have hcode := halike.present (not_not.mp hthere)
    rw [makeDir_new hpath (not_there_of_spelling h hpath hne)] at hcode
    have hroot : IsDirectory rows "/" := h.wellListed.root_mem
    obtain ⟨built, rows', hrun, -⟩ :=
      buildDirs_onRows h (fun _ ht => nomatch ht) hroot hpath.names
    rw [Script.onRows_bind, hrun] at hcode
    cases built <;> cases hcode
  · rintro (heq | hnew)
    · refine ⟨congrArg (fun p => (FileSystem.makeDir c p).onRows rows) heq,
        congrArg (fun p => (FileSystem.listDir c p).onRows rows) heq, fun hthere => ?_⟩
      exact makeDir_there hpath (heq ▸ hthere)
    · have hnew' : ¬TableThere rows path := by
        by_cases heq : path = canonicalPath path
        · rw [heq]
          exact hnew
        · exact not_there_of_spelling h hpath heq
      refine ⟨?_, ?_, fun hthere => absurd hthere hnew⟩
      · rw [makeDir_new hpath hnew', makeDir_new hcanonical hnew, hpath.dirList_canonical]
      · rw [listDir_new hpath.valid hnew', listDir_new hcanonical.valid hnew]

theorem spelledAlike_iff_hello :
    SpelledAlike fileCodec (initialRows fileCodec) "/apps//hello" ↔
      "/apps//hello" = canonicalPath "/apps//hello" ∨
        ¬TableThere (initialRows fileCodec) (canonicalPath "/apps//hello") :=
  spelledAlike_iff fileCodec (initialDirectories fileCodec).filed ⟨by decide, by decide⟩ (by decide)

/-- The rows with a directory of a user. -/
def directoryRows : Rows :=
  ((makeDir fileCodec "/tables/d" : Script Empty Int).onRows (initialRows fileCodec)).2

/-- A second slash lets a directory that is there be created again. -/
theorem not_spelledAlike_directory : ¬∀ (c : FileCodec) (rows : Rows), c.Filed none rows →
    ∀ path, Accepted path → InUserDirectory (canonicalPath path) = true →
      SpelledAlike c rows path := by
  intro h
  have halike := h fileCodec directoryRows
    (makeDir_filed (initialDirectories fileCodec).filed "/tables/d") "/tables//d"
    ⟨by decide, by decide⟩ (by decide)
  have hthere : TableThere directoryRows (canonicalPath "/tables//d") := by
    unfold TableThere
    decide +kernel
  have hcode := congrArg (fun out => ContractAuth.succeeded out.1) (halike.present hthere)
  revert hcode
  decide +kernel

end FileSystem

end BcosExecutor
