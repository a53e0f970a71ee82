import BcosExecutor.AbiCache
import BcosExecutor.DagTransfer
import BcosExecutor.ListedTree

namespace BcosExecutor

open DagTransfer (IsCppString)
open TransactionExecutive (splitPath)

abbrev CppString := {s : String // IsCppString s}

/-- A name of a table in a directory. -/
def IsFileName (name : String) : Prop :=
  IsCppString name ∧ name ≠ "" ∧ '/' ∉ name.toList

def IsPath (path : String) : Prop :=
  IsCppString path ∧ path.toList.head? = some '/'

abbrev FileName := {name : String // IsFileName name}

abbrev TablePath := {path : String // IsPath path}

namespace FilePaths

/-- The path without one slash at its front and one at its end. -/
def withoutSlashes (path : List Char) : List Char :=
  let dir := if path.head? = some '/' then path.drop 1 else path
  if dir.getLast? = some '/' then dir.dropLast else dir

/-- What a path is split into. -/
def dirList (path : String) : List String :=
  splitPath (String.ofList (withoutSlashes path.toList))

def joinSlash (parts : List String) : String :=
  String.ofList (['/'].intercalate (parts.map String.toList))

/-- The table `dir` of the directory `root`. -/
def childName (root dir : String) : String :=
  (if root ≠ "/" then root ++ "/" else root) ++ dir

/-- What stands before the slash of a child. -/
def stem (root : String) : List Char :=
  if root = "/" then [] else root.toList

theorem childName_toList (root dir : String) :
    (childName root dir).toList = stem root ++ '/' :: dir.toList := by
  unfold childName stem
  by_cases hroot : root = "/"
  · subst hroot
    simp
  · simp [hroot]

theorem stem_injective {path path' : String} (hp : IsPath path) (hp' : IsPath path')
    (h : stem path = stem path') : path = path' := by
  have hne : ∀ {q}, IsPath q → q.toList ≠ [] := by
    rintro q ⟨-, hhead⟩ hnil
    rw [hnil] at hhead
    cases hhead
  unfold stem at h
  split at h <;> split at h
  next h₁ h₂ => exact h₁.trans h₂.symm
  next => exact (hne hp' h.symm).elim
  next => exact (hne hp h).elim
  next => exact String.toList_injective h

theorem append_slash_inj {l l' r r' : List Char} (hl : '/' ∉ l) (hl' : '/' ∉ l')
    (h : l ++ '/' :: r = l' ++ '/' :: r') : l = l' ∧ r = r' := by
  induction l generalizing l' with
  | nil =>
    cases l' with
    | nil => exact ⟨rfl, (List.cons.inj h).2⟩
    | cons c l' =>
      cases (List.cons.inj h).1
      exact (hl' List.mem_cons_self).elim
  | cons c l ih =>
    cases l' with
    | nil =>
      cases (List.cons.inj h).1
      exact (hl List.mem_cons_self).elim
    | cons c' l' =>
      obtain ⟨hc, htail⟩ := List.cons.inj h
      obtain ⟨hll, hrr⟩ := ih (fun hm => hl (List.mem_cons_of_mem _ hm))
        (fun hm => hl' (List.mem_cons_of_mem _ hm)) htail
      exact ⟨by rw [hc, hll], hrr⟩

theorem childName_injective {path path' name name' : String} (hp : IsPath path) (hp' : IsPath path')
    (hn : IsFileName name) (hn' : IsFileName name') (h : childName path name = childName path' name') :
    path = path' ∧ name = name' := by
  have hchars := congrArg (fun s => s.toList.reverse) h
  simp only [childName_toList, List.reverse_append, List.reverse_cons, List.append_assoc,
    List.singleton_append] at hchars
  have hname : '/' ∉ name.toList.reverse := by simpa using hn.2.2
  have hname' : '/' ∉ name'.toList.reverse := by simpa using hn'.2.2
  obtain ⟨hnames, hstems⟩ := append_slash_inj hname hname' hchars
  exact ⟨stem_injective hp hp' (List.reverse_injective hstems),
    String.toList_injective (List.reverse_injective hnames)⟩

theorem isPath_root : IsPath "/" := by
  refine ⟨fun c hc => ?_, rfl⟩
  have heq : c = '/' := by simpa using hc
  subst heq
  decide

theorem isPath_childName {path name : String} (hp : IsPath path) (hn : IsFileName name) :
    IsPath (childName path name) := by
  constructor
  · intro c hc
    rw [childName_toList, List.mem_append, List.mem_cons] at hc
    rcases hc with hstem | rfl | hname
    · unfold stem at hstem
      split at hstem
      next => cases hstem
      next => exact hp.1 c hstem
    · decide
    · exact hn.1 c hname
  · rw [childName_toList]
    unfold stem
    split
    next => rfl
    next =>
      obtain ⟨rest, hrest⟩ := List.head?_eq_some_iff.mp hp.2
      rw [hrest]
      rfl

theorem childName_ne_root {name : String} (path : String) (hn : IsFileName name) :
    childName path name ≠ "/" := by
  intro h
  have hchars := congrArg String.toList h
  rw [childName_toList] at hchars
  have hlength := congrArg List.length hchars
  have hpos : name.toList ≠ [] := fun hnil => hn.2.1 (String.toList_injective hnil)
  have hname : 0 < name.toList.length := List.length_pos_iff.mpr hpos
  have hroot : ("/" : String).toList.length = 1 := rfl
  rw [List.length_append, List.length_cons, hroot] at hlength
  omega

/-- How the tables of the file system are named. -/
def tableNaming : PathNaming TablePath FileName where
  root := ⟨"/", isPath_root⟩
  child path name := ⟨childName path.1 name.1, isPath_childName path.2 name.2⟩
  child_injective path path' name name' h := by
    obtain ⟨hpath, hname⟩ :=
      childName_injective path.2 path'.2 name.2 name'.2 (congrArg Subtype.val h)
    exact ⟨Subtype.ext hpath, Subtype.ext hname⟩
  child_ne_root path name h := childName_ne_root path.1 name.2 (congrArg Subtype.val h)

/-- A path of names, each behind its slash. -/
def pathOf (parts : List String) : String :=
  parts.foldl childName "/"

def IsCleanPath (path : String) : Prop :=
  ∃ parts : List String, parts ≠ [] ∧ (∀ part ∈ parts, IsFileName part) ∧ path = pathOf parts

theorem isPath_foldl {parts : List String} (hparts : ∀ part ∈ parts, IsFileName part)
    {root : String} (hroot : IsPath root) : IsPath (parts.foldl childName root) := by
  induction parts generalizing root with
  | nil => exact hroot
  | cons part parts ih =>
    obtain ⟨hpart, hparts⟩ := List.forall_mem_cons.mp hparts
    exact ih hparts (isPath_childName hroot hpart)

theorem pathOf_toList {parts : List String} (hne : parts ≠ [])
    (hparts : ∀ part ∈ parts, IsFileName part) :
    (pathOf parts).toList = '/' :: ['/'].intercalate (parts.map String.toList) := by
  have hfold : ∀ (parts : List String) (root : String), (∀ part ∈ parts, IsFileName part) →
      parts ≠ [] → (parts.foldl childName root).toList =
        stem root ++ '/' :: ['/'].intercalate (parts.map String.toList) := by
    intro parts
    induction parts with
    | nil => exact fun root _ hne => (hne rfl).elim
    | cons part parts ih =>
      intro root hparts _
      obtain ⟨hpart, hparts⟩ := List.forall_mem_cons.mp hparts
      cases parts with
      | nil => simp [childName_toList]
      | cons part' parts =>
        have hstem : stem (childName root part) = stem root ++ '/' :: part.toList := by
          rw [← childName_toList]
          exact if_neg (childName_ne_root root hpart)
        rw [List.foldl_cons, ih (childName root part) hparts (List.cons_ne_nil _ _), hstem]
        simp [List.intercalate_cons_cons]
  exact hfold parts "/" hparts hne

theorem pathOf_eq_joinSlash {parts : List String} (hne : parts ≠ [])
    (hparts : ∀ part ∈ parts, IsFileName part) : "/" ++ joinSlash parts = pathOf parts := by
  apply String.toList_injective
  rw [pathOf_toList hne hparts]
  simp [joinSlash]

theorem mem_intercalate {x : Char} {sep : Char} {ls : List (List Char)}
    (h : x ∈ [sep].intercalate ls) : x = sep ∨ ∃ l ∈ ls, x ∈ l := by
  induction ls with
  | nil => cases h
  | cons l ls ih =>
    cases ls with
    | nil =>
      rw [List.intercalate_singleton] at h
      exact Or.inr ⟨l, List.mem_cons_self, h⟩
    | cons l' ls =>
      rw [List.intercalate_cons_cons, List.mem_append, List.mem_append, List.mem_singleton] at h
      rcases h with (h | h) | h
      · exact Or.inr ⟨l, List.mem_cons_self, h⟩
      · exact Or.inl h
      · obtain heq | ⟨l'', hmem, hx⟩ := ih h
        · exact Or.inl heq
        · exact Or.inr ⟨l'', List.mem_cons_of_mem l hmem, hx⟩

theorem getLast?_intercalate {parts : List String} (hne : parts ≠ [])
    (hparts : ∀ part ∈ parts, IsFileName part) :
    (['/'].intercalate (parts.map String.toList)).getLast? ≠ some '/' ∧
      ['/'].intercalate (parts.map String.toList) ≠ [] := by
  induction parts with
  | nil => exact (hne rfl).elim
  | cons part parts ih =>
    obtain ⟨hpart, hparts⟩ := List.forall_mem_cons.mp hparts
    cases parts with
    | nil =>
      rw [List.map_singleton, List.intercalate_singleton]
      refine ⟨fun hlast => hpart.2.2 (List.mem_of_getLast? hlast), fun hnil => ?_⟩
      exact hpart.2.1 (String.toList_injective hnil)
    | cons part' parts =>
      obtain ⟨hlast, hrest⟩ := ih (List.cons_ne_nil _ _) hparts
      rw [List.map_cons, List.map_cons, List.intercalate_cons_cons, ← List.map_cons]
      refine ⟨?_, by simp⟩
      rw [List.getLast?_append_of_ne_nil _ hrest]
      exact hlast

/-- A path of names is split into its names. -/
theorem dirList_pathOf {parts : List String} (hne : parts ≠ [])
    (hparts : ∀ part ∈ parts, IsFileName part) : dirList (pathOf parts) = parts := by
  obtain ⟨hlast, -⟩ := getLast?_intercalate hne hparts
  have hwithout : withoutSlashes (pathOf parts).toList =
      ['/'].intercalate (parts.map String.toList) := by
    rw [pathOf_toList hne hparts]
    unfold withoutSlashes
    simp only [List.head?_cons, ↓reduceIte, List.drop_one, List.tail_cons]
    exact if_neg hlast
  have hsplit : (['/'].intercalate (parts.map String.toList)).splitOn '/' =
      parts.map String.toList := by
    refine List.splitOn_intercalate '/' ?_ (by simpa using hne)
    intro l hl
    obtain ⟨part, hpart, rfl⟩ := List.mem_map.mp hl
    exact (hparts part hpart).2.2
  unfold dirList splitPath
  rw [hwithout, String.toList_ofList, hsplit, List.map_map]
  have hid : (String.ofList ∘ String.toList) = id := by
    funext part
    simp
  rw [hid, List.map_id]
  cases parts with
  | nil => exact (hne rfl).elim
  | cons part parts =>
    have hnames : parts.dropLast.filter (· ≠ "") = parts.dropLast := by
      refine List.filter_eq_self.mpr fun name hname => ?_
      have hmem := List.mem_cons_of_mem part (List.mem_of_mem_dropLast hname)
      simpa using (hparts name hmem).2.1
    simp only [List.take_succ_cons, List.take_zero, List.drop_succ_cons, List.drop_zero, hnames]
    cases parts using List.reverseRecOn with
    | nil => rfl
    | append_singleton parts last => simp

end FilePaths

end BcosExecutor
