import BcosExecutor.Commuting
import Mathlib.Data.List.Pairwise
import Mathlib.Data.Set.Basic
import Mathlib.Logic.Function.Basic

namespace Interleaving

variable {ι κ ν Out : Type*} [DecidableEq κ]

/-- A program over a store, one access after the other. -/
inductive Program (κ ν Out : Type*)
  | done (out : Out)
  | read (k : κ) (next : Option ν → Program κ ν Out)
  | write (k : κ) (v : Option ν) (next : Program κ ν Out)

/-- The keys that a program may look at and those that it may change. -/
structure Footprint (κ : Type*) where
  reads : Set κ
  writes : Set κ

/-- Neither changes what the other looks at or changes. -/
structure Footprint.Apart (f g : Footprint κ) : Prop where
  writes_reads : ∀ k ∈ f.writes, k ∉ g.reads
  reads_writes : ∀ k ∈ f.reads, k ∉ g.writes
  writes : ∀ k ∈ f.writes, k ∉ g.writes

namespace Program

def step : Program κ ν Out → (κ → Option ν) → Program κ ν Out × (κ → Option ν)
  | done out, s => (done out, s)
  | read k next, s => (next (s k), s)
  | write k v next, s => (next, Function.update s k v)

def run : Program κ ν Out → (κ → Option ν) → Out × (κ → Option ν)
  | done out, s => (out, s)
  | read k next, s => (next (s k)).run s
  | write k v next, s => next.run (Function.update s k v)

/-- The program keeps to its footprint as long as what it reads is good, and what it writes is
good. -/
def Within (good : κ → Option ν → Prop) (f : Footprint κ) : Program κ ν Out → Prop
  | done _ => True
  | read k next => k ∈ f.reads ∧ ∀ v, good k v → (next v).Within good f
  | write k v next => k ∈ f.writes ∧ good k v ∧ next.Within good f

variable {good : κ → Option ν → Prop} {f g : Footprint κ} {p q : Program κ ν Out}
  {s : κ → Option ν}

theorem good_update {k : κ} {v : Option ν} (hs : ∀ k, good k (s k)) (hv : good k v) (k' : κ) :
    good k' (Function.update s k v k') := by
  by_cases hk : k' = k
  · subst hk
    rwa [Function.update_self]
  · rw [Function.update_of_ne hk]
    exact hs k'

theorem Within.step (h : p.Within good f) (hs : ∀ k, good k (s k)) :
    (p.step s).1.Within good f ∧ ∀ k, good k ((p.step s).2 k) := by
  cases p with
  | done out => exact ⟨trivial, hs⟩
  | read k next => exact ⟨h.2 (s k) (hs k), hs⟩
  | write k v next => exact ⟨h.2.2, good_update hs h.2.1⟩

theorem Within.run (h : p.Within good f) (hs : ∀ k, good k (s k)) (k : κ) :
    good k ((p.run s).2 k) := by
  induction p generalizing s with
  | done out => exact hs k
  | read k next ih => exact ih _ (h.2 (s k) (hs k)) hs
  | write k v next ih => exact ih h.2.2 (good_update hs h.2.1)

theorem run_step (p : Program κ ν Out) (s : κ → Option ν) :
    (p.step s).1.run (p.step s).2 = p.run s := by
  cases p <;> rfl

/-- Single accesses of programs with footprints apart come to the same in either order. -/
theorem step_comm (hp : p.Within good f) (hq : q.Within good g) (h : f.Apart g)
    (s : κ → Option ν) :
    (p.step (q.step s).2).1 = (p.step s).1 ∧ (q.step (p.step s).2).1 = (q.step s).1 ∧
      (p.step (q.step s).2).2 = (q.step (p.step s).2).2 := by
  cases p with
  | done out => exact ⟨rfl, rfl, rfl⟩
  | read k next =>
    cases q with
    | done out => exact ⟨rfl, rfl, rfl⟩
    | read k' next' => exact ⟨rfl, rfl, rfl⟩
    | write k' v' next' =>
      have hne : k ≠ k' := fun heq => h.reads_writes k hp.1 (heq ▸ hq.1)
      exact ⟨congrArg next (Function.update_of_ne hne _ _), rfl, rfl⟩
  | write k v next =>
    cases q with
    | done out => exact ⟨rfl, rfl, rfl⟩
    | read k' next' =>
      have hne : k' ≠ k := fun heq => h.writes_reads k hp.1 (heq ▸ hq.1)
      exact ⟨rfl, congrArg next' (Function.update_of_ne hne _ _), rfl⟩
    | write k' v' next' =>
      have hne : k' ≠ k := fun heq => h.writes k hp.1 (heq ▸ hq.1)
      exact ⟨rfl, rfl, Function.update_comm hne _ _ _⟩

/-- The store that the programs leave one after the other. -/
def serialStore (programs : ι → Program κ ν Out) : List ι → (κ → Option ν) → κ → Option ν
  | [], s => s
  | i :: ids, s => serialStore programs ids ((programs i).run s).2

theorem serialStore_congr {programs programs' : ι → Program κ ν Out} {ids : List ι}
    (h : ∀ i ∈ ids, programs i = programs' i) (s : κ → Option ν) :
    serialStore programs ids s = serialStore programs' ids s := by
  induction ids generalizing s with
  | nil => rfl
  | cons i ids ih =>
    obtain ⟨hi, hids⟩ := List.forall_mem_cons.mp h
    rw [serialStore, serialStore, hi, ih hids]

end Program

/-- Programs that are at work on one store. -/
structure Config (ι κ ν Out : Type*) where
  store : κ → Option ν
  programs : ι → Program κ ν Out

namespace Config

variable [DecidableEq ι]

/-- The next access of one program. -/
def step (c : Config ι κ ν Out) (i : ι) : Config ι κ ν Out where
  store := ((c.programs i).step c.store).2
  programs := Function.update c.programs i ((c.programs i).step c.store).1

/-- All that is left of one program, at once. -/
def finish (c : Config ι κ ν Out) (i : ι) : Config ι κ ν Out where
  store := ((c.programs i).run c.store).2
  programs := Function.update c.programs i (.done ((c.programs i).run c.store).1)

/-- The store is good and every program keeps to its footprint. -/
structure Kept (good : κ → Option ν → Prop) (footprints : ι → Footprint κ)
    (c : Config ι κ ν Out) : Prop where
  store : ∀ k, good k (c.store k)
  programs : ∀ i, (c.programs i).Within good (footprints i)

variable {good : κ → Option ν → Prop} {c : Config ι κ ν Out} {footprints : ι → Footprint κ}
  {i j : ι}

theorem step_programs_self (c : Config ι κ ν Out) (i : ι) :
    (c.step i).programs i = ((c.programs i).step c.store).1 :=
  Function.update_self _ _ _

theorem finish_programs_self (c : Config ι κ ν Out) (i : ι) :
    (c.finish i).programs i = .done ((c.programs i).run c.store).1 :=
  Function.update_self _ _ _

theorem step_programs_of_ne (c : Config ι κ ν Out) (h : i ≠ j) :
    (c.step j).programs i = c.programs i :=
  Function.update_of_ne h _ _

theorem finish_programs_of_ne (c : Config ι κ ν Out) (h : i ≠ j) :
    (c.finish j).programs i = c.programs i :=
  Function.update_of_ne h _ _

theorem Kept.step (h : c.Kept good footprints) (i : ι) : (c.step i).Kept good footprints := by
  obtain ⟨hprogram, hstore⟩ := (h.programs i).step h.store
  refine ⟨hstore, fun j => ?_⟩
  by_cases hj : j = i
  · subst hj
    rwa [step_programs_self]
  · rw [step_programs_of_ne c hj]
    exact h.programs j

theorem Kept.finish (h : c.Kept good footprints) (i : ι) : (c.finish i).Kept good footprints := by
  refine ⟨(h.programs i).run h.store, fun j => ?_⟩
  by_cases hj : j = i
  · subst hj
    rw [finish_programs_self]
    trivial
  · rw [finish_programs_of_ne c hj]
    exact h.programs j

theorem step_comm (h : c.Kept good footprints) (hij : i ≠ j)
    (hapart : (footprints i).Apart (footprints j)) : (c.step j).step i = (c.step i).step j := by
  obtain ⟨hi, hj, hstore⟩ := Program.step_comm (h.programs i) (h.programs j) hapart c.store
  have hprogramI : (c.step j).programs i = c.programs i := step_programs_of_ne c hij
  have hprogramJ : (c.step i).programs j = c.programs j := step_programs_of_ne c hij.symm
  unfold step at hprogramI hprogramJ ⊢
  dsimp only at hprogramI hprogramJ ⊢
  rw [hprogramI, hprogramJ, hi, hj, hstore, Function.update_comm hij]

theorem finish_step (c : Config ι κ ν Out) (i : ι) : (c.step i).finish i = c.finish i := by
  unfold finish step
  dsimp only
  rw [Function.update_self, Program.run_step, Function.update_idem]

theorem foldl_step_programs {l : List ι} (h : i ∉ l) (c : Config ι κ ν Out) :
    (l.foldl step c).programs i = c.programs i := by
  induction l generalizing c with
  | nil => rfl
  | cons j l ih =>
    obtain ⟨hij, hl⟩ := not_or.mp (mt List.mem_cons.mpr h)
    exact (ih hl (c.step j)).trans (step_programs_of_ne c hij)

/-- Enough accesses of one program are all that is left of it. -/
theorem foldl_replicate_step {n : Nat} {out : Out} {c : Config ι κ ν Out}
    (h : ((List.replicate n i).foldl step c).programs i = .done out) :
    (List.replicate n i).foldl step c = c.finish i := by
  induction n generalizing c with
  | zero =>
    have hdone : c.programs i = .done out := h
    show c = c.finish i
    unfold finish
    rw [hdone, Program.run, ← hdone, Function.update_eq_self]
  | succ n ih =>
    rw [List.replicate_succ, List.foldl_cons] at h ⊢
    rw [ih h, finish_step]

/-- Accesses in an order in which a program never goes ahead of one that it must wait for leave
what the programs leave one after the other. -/
theorem foldl_step_serial {lt : ι → ι → Prop} {ids l : List ι} (hids : ids.Pairwise lt)
    (hnodup : ids.Nodup) (hl : ∀ i ∈ l, i ∈ ids)
    (order : l.Pairwise fun i j => lt j i → (footprints j).Apart (footprints i))
    (h : c.Kept good footprints)
    (hdone : ∀ i ∈ ids, ∃ out, (l.foldl step c).programs i = .done out) :
    l.foldl step c = ids.foldl finish c := by
  induction ids generalizing l c with
  | nil =>
    rw [List.eq_nil_iff_forall_not_mem.mpr fun i hi => List.not_mem_nil (hl i hi)]
    rfl
  | cons a ids ih =>
    obtain ⟨hfirst, hrest⟩ := List.pairwise_cons.mp hids
    obtain ⟨ha, hnodup⟩ := List.nodup_cons.mp hnodup
    have hcomm : l.Pairwise fun i j => decide (i = a) = false → decide (j = a) = true →
        ∀ c : Config ι κ ν Out, c.Kept good footprints →
          (c.step i).step j = (c.step j).step i := by
      refine order.imp_of_mem fun {i j} hi _ happart hia hja c hc => ?_
      have hne : i ≠ a := of_decide_eq_false hia
      have hj : j = a := of_decide_eq_true hja
      subst hj
      have hmem : i ∈ ids := (List.mem_cons.mp (hl i hi)).resolve_left hne
      exact step_comm hc hne.symm (happart (hfirst i hmem))
    have hothers : ∀ i ∈ l.filter (fun i => !decide (i = a)), i ≠ a ∧ i ∈ ids := by
      intro i hi
      obtain ⟨hi, hia⟩ := List.mem_filter.mp hi
      have hne : i ≠ a := of_decide_eq_false (Bool.not_eq_true' _ ▸ hia)
      exact ⟨hne, (List.mem_cons.mp (hl i hi)).resolve_left hne⟩
    rw [Commuting.foldl_partition (fun c i hc => hc.step i) hcomm h, List.filter_eq] at hdone ⊢
    obtain ⟨out, hout⟩ := hdone a List.mem_cons_self
    rw [foldl_step_programs (fun ha' => (hothers a ha').1 rfl)] at hout
    rw [foldl_replicate_step hout] at hdone ⊢
    exact ih hrest hnodup (fun i hi => (hothers i hi).2) (order.filter _) (h.finish a)
      fun i hi => hdone i (List.mem_cons_of_mem _ hi)

theorem foldl_finish_store {ids : List ι} (hnodup : ids.Nodup) (c : Config ι κ ν Out) :
    (ids.foldl finish c).store = Program.serialStore c.programs ids c.store := by
  induction ids generalizing c with
  | nil => rfl
  | cons i ids ih =>
    obtain ⟨hi, hnodup⟩ := List.nodup_cons.mp hnodup
    rw [List.foldl_cons, ih hnodup, Program.serialStore]
    refine Program.serialStore_congr (fun j hj => finish_programs_of_ne c ?_) _
    exact fun heq => hi (heq ▸ hj)

theorem foldl_finish_programs_of_notMem {ids : List ι} (hi : i ∉ ids) (c : Config ι κ ν Out) :
    (ids.foldl finish c).programs i = c.programs i := by
  induction ids generalizing c with
  | nil => rfl
  | cons j ids ih =>
    obtain ⟨hij, hids⟩ := not_or.mp (mt List.mem_cons.mpr hi)
    exact (ih hids (c.finish j)).trans (finish_programs_of_ne c hij)

/-- A program ends as it does after the ones that stand before it. -/
theorem foldl_finish_programs {before after : List ι} (hnodup : (before ++ i :: after).Nodup)
    (c : Config ι κ ν Out) :
    ((before ++ i :: after).foldl finish c).programs i =
      .done ((c.programs i).run (Program.serialStore c.programs before c.store)).1 := by
  obtain ⟨hbefore, hafter, hdisjoint⟩ := List.nodup_append.mp hnodup
  have hi : i ∉ before := fun hi => hdisjoint i hi i List.mem_cons_self rfl
  rw [List.foldl_append, List.foldl_cons,
    foldl_finish_programs_of_notMem (List.nodup_cons.mp hafter).1, finish_programs_self,
    foldl_finish_programs_of_notMem hi, foldl_finish_store hbefore]

/-- Enough accesses end a program. -/
theorem exists_foldl_step_done (c : Config ι κ ν Out) (i : ι) :
    ∃ n out, ((List.replicate n i).foldl step c).programs i = .done out := by
  suffices ∀ p : Program κ ν Out, ∀ c : Config ι κ ν Out, c.programs i = p →
      ∃ n out, ((List.replicate n i).foldl step c).programs i = .done out from
    this _ c rfl
  intro p
  induction p with
  | done out => exact fun c hc => ⟨0, out, hc⟩
  | read k next ih =>
    intro c hc
    have hnext : (c.step i).programs i = next (c.store k) := by
      rw [step_programs_self, hc, Program.step]
    obtain ⟨n, out, hdone⟩ := ih _ _ hnext
    exact ⟨n + 1, out, hdone⟩
  | write k v next ih =>
    intro c hc
    have hnext : (c.step i).programs i = next := by
      rw [step_programs_self, hc, Program.step]
    obtain ⟨n, out, hdone⟩ := ih _ hnext
    exact ⟨n + 1, out, hdone⟩

end Config

end Interleaving
