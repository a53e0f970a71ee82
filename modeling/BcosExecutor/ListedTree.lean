import Mathlib.Data.Set.Basic
import Mathlib.Logic.Function.Basic

/-- What there is to see of a tree of directories: the paths that are there, those of them that are
directories, and by its names what a directory says of its children. -/
structure ListedTree (Path Name : Type*) where
  there : Set Path
  directories : Set Path
  listing : Path → Option (Name → Option Bool)

/-- How the paths of a tree are named. -/
structure PathNaming (Path Name : Type*) where
  root : Path
  child : Path → Name → Path
  child_injective : Function.Injective2 child
  child_ne_root : ∀ p name, child p name ≠ root

namespace ListedTree

variable {Path Name : Type*} (P : PathNaming Path Name) {t t' : ListedTree Path Name}

/-- Every directory lists its children and their kinds, and every path but the root is one. -/
structure WellListed (t : ListedTree Path Name) : Prop where
  root_mem : P.root ∈ t.directories
  there_of_directory : t.directories ⊆ t.there
  listed : ∀ dir ∈ t.directories, ∃ children, t.listing dir = some children ∧
    ∀ name isDirectory, children name = some isDirectory ↔
      P.child dir name ∈ t.there ∧ (isDirectory = true ↔ P.child dir name ∈ t.directories)
  parent : ∀ p ∈ t.there, p = P.root ∨ ∃ dir ∈ t.directories, ∃ name, p = P.child dir name

/-- A new child of a directory, which has been entered into the listing. -/
structure Added [DecidableEq Name] (t t' : ListedTree Path Name) (dir : Path) (name : Name)
    (isDirectory : Bool) (children : Name → Option Bool) : Prop where
  there : ∀ p, p ∈ t'.there ↔ p ∈ t.there ∨ p = P.child dir name
  directories : ∀ p, p ∈ t'.directories ↔
    p ∈ t.directories ∨ p = P.child dir name ∧ isDirectory = true
  listing_dir : t'.listing dir = some (Function.update children name (some isDirectory))
  listing_new : isDirectory = true → t'.listing (P.child dir name) = some fun _ => none
  listing_other : ∀ p, p ≠ dir → p ≠ P.child dir name → t'.listing p = t.listing p

/-- The same tree, as far as its directories list it. -/
structure Alike (t t' : ListedTree Path Name) : Prop where
  there : t'.there = t.there
  directories : t'.directories = t.directories
  listing : ∀ dir ∈ t.directories, t'.listing dir = t.listing dir

variable {P}

theorem WellListed.alike (h : t.WellListed P) (halike : Alike t t') : t'.WellListed P := by
  refine ⟨?_, ?_, ?_, ?_⟩
  · rw [halike.directories]
    exact h.root_mem
  · rw [halike.directories, halike.there]
    exact h.there_of_directory
  · intro dir hdir
    rw [halike.directories] at hdir
    rw [halike.listing dir hdir, halike.there, halike.directories]
    exact h.listed dir hdir
  · intro p hp
    rw [halike.there] at hp
    rw [halike.directories]
    exact h.parent p hp

namespace WellListed

variable {dir p : Path} {name : Name} {children : Name → Option Bool}

theorem listed_iff (h : t.WellListed P) (hdir : dir ∈ t.directories)
    (hlisting : t.listing dir = some children) (name : Name) (isDirectory : Bool) :
    children name = some isDirectory ↔
      P.child dir name ∈ t.there ∧ (isDirectory = true ↔ P.child dir name ∈ t.directories) := by
  obtain ⟨children', hlisting', hlisted⟩ := h.listed dir hdir
  obtain rfl := Option.some.inj (hlisting.symm.trans hlisting')
  exact hlisted name isDirectory

/-- What is not there has no children. -/
theorem no_grandchild (h : t.WellListed P) (hp : p ∉ t.there) (name : Name) :
    P.child p name ∉ t.there := by
  intro hchild
  rcases h.parent _ hchild with hroot | ⟨dir, hdir, name', heq⟩
  · exact P.child_ne_root p name hroot
  · obtain ⟨rfl, -⟩ := P.child_injective heq
    exact hp (h.there_of_directory hdir)

theorem added [DecidableEq Name] {isDirectory : Bool} (h : t.WellListed P)
    (hdir : dir ∈ t.directories) (hlisting : t.listing dir = some children)
    (hnew : P.child dir name ∉ t.there) (hadded : Added P t t' dir name isDirectory children) :
    t'.WellListed P := by
  have hne : ∀ {q}, q ∈ t.there → q ≠ P.child dir name := by
    rintro q hq rfl
    exact hnew hq
  have hnewDirectory : P.child dir name ∉ t.directories := fun hmem =>
    hnew (h.there_of_directory hmem)
  refine ⟨(hadded.directories _).mpr (.inl h.root_mem), ?_, ?_, ?_⟩
  · intro q hq
    rcases (hadded.directories q).mp hq with hold | ⟨rfl, -⟩
    · exact (hadded.there q).mpr (.inl (h.there_of_directory hold))
    · exact (hadded.there _).mpr (.inr rfl)
  · intro d hd
    rcases (hadded.directories d).mp hd with hold | ⟨rfl, hkind⟩
    · by_cases hsame : d = dir
      · subst hsame
        refine ⟨_, hadded.listing_dir, fun name' kind => ?_⟩
        by_cases hname : name' = name
        · subst hname
          rw [Function.update_self, Option.some.injEq, hadded.there, hadded.directories]
          constructor
          · rintro rfl
            exact ⟨.inr rfl, fun hkind => .inr ⟨rfl, hkind⟩,
              fun hmem => (hmem.resolve_left hnewDirectory).2⟩
          · rintro ⟨-, hkind⟩
            have hiff : kind = true ↔ isDirectory = true := by
              rw [hkind]
              exact ⟨fun hmem => (hmem.resolve_left hnewDirectory).2, fun hk => .inr ⟨rfl, hk⟩⟩
            cases kind <;> cases isDirectory <;> simp_all
        · have hchild : P.child d name' ≠ P.child d name := fun heq =>
            hname (P.child_injective heq).2
          rw [Function.update_of_ne hname, h.listed_iff hold hlisting, hadded.there,
            hadded.directories]
          simp only [hchild, or_false, false_and]
      · obtain ⟨others, hothers, hiff⟩ := h.listed d hold
        refine ⟨others, ?_, fun name' kind => ?_⟩
        · rw [hadded.listing_other d hsame (hne (h.there_of_directory hold)), hothers]
        · have hchild : P.child d name' ≠ P.child dir name := fun heq =>
            hsame (P.child_injective heq).1
          rw [hiff, hadded.there, hadded.directories]
          simp only [hchild, or_false, false_and]
    · refine ⟨_, hadded.listing_new hkind, fun name' kind => ?_⟩
      have hgone := h.no_grandchild hnew name'
      have hchild : P.child (P.child dir name) name' ≠ P.child dir name := fun heq =>
        hne (h.there_of_directory hdir) (P.child_injective heq).1.symm
      rw [hadded.there]
      simp only [hgone, hchild, or_self, false_and, reduceCtorEq]
  · intro q hq
    rcases (hadded.there q).mp hq with hold | rfl
    · rcases h.parent q hold with hroot | ⟨d, hd, name', heq⟩
      · exact .inl hroot
      · exact .inr ⟨d, (hadded.directories d).mpr (.inl hd), name', heq⟩
    · exact .inr ⟨dir, (hadded.directories dir).mpr (.inl hdir), name, rfl⟩

end WellListed

end ListedTree
