import BcosExecutor.CountdownOrder
import BcosExecutor.Interleaving

namespace Interleaving

open Countdown (Before Event)
open Relation (ReflTransGen)

variable {M V κ ν Out : Type*} [DecidableEq κ] [DecidableEq V]

/-- A system of programs, with the history of what it began and ended, the newest first. -/
structure System (M V : Type*) where
  init : M
  Step : M → M → Prop
  log : M → List (Event V)
  Running : M → V → Prop

namespace System

variable {sys : System M V} {must lt : V → V → Prop}

def Reachable (sys : System M V) : M → Prop :=
  ReflTransGen sys.Step sys.init

/-- A program runs between its two events, and one that must wait for another begins after the
end of that one. -/
structure Disciplined (sys : System M V) (must : V → V → Prop) : Prop where
  fresh : sys.log sys.init = []
  grows : ∀ {m m'}, sys.Step m m' → sys.log m' = sys.log m ∨
    (∃ v, sys.log m' = .start v :: sys.log m) ∨
    ∃ v, sys.Running m v ∧ sys.log m' = .finish v :: sys.log m
  running : ∀ {m v}, sys.Reachable m → sys.Running m v →
    .start v ∈ sys.log m ∧ .finish v ∉ sys.log m
  before : ∀ {m i j}, sys.Reachable m → must i j → Before (sys.log m) i j

/-- A move of the system, which sees the end of a program only when it has ended, or one
access of a program that runs. -/
inductive AccessStep (sys : System M V) :
    M × Config V κ ν Out → M × Config V κ ν Out → Prop
  | move {m m' c} : sys.Step m m' →
      (∀ v, sys.log m' = .finish v :: sys.log m → ∃ out, c.programs v = .done out) →
      AccessStep sys (m, c) (m', c)
  | access {m c v} : sys.Running m v → AccessStep sys (m, c) (m, c.step v)

/-- The accesses up to a state, the oldest first. -/
structure Accessed (sys : System M V) (must : V → V → Prop) (c₀ : Config V κ ν Out) (m : M)
    (c : Config V κ ν Out) (accesses : List V) : Prop where
  reachable : sys.Reachable m
  config : c = accesses.foldl Config.step c₀
  started : ∀ v ∈ accesses, .start v ∈ sys.log m
  order : accesses.Pairwise fun i j => ¬ must j i
  done : ∀ v, .finish v ∈ sys.log m → ∃ out, c.programs v = .done out

variable {c₀ c : Config V κ ν Out} {m m' : M} {accesses : List V} {v : V}

theorem Accessed.move (h : Accessed sys must c₀ m c accesses) (hsys : sys.Disciplined must)
    (hstep : sys.Step m m')
    (hend : ∀ v, sys.log m' = .finish v :: sys.log m → ∃ out, c.programs v = .done out) :
    Accessed sys must c₀ m' c accesses := by
  refine ⟨h.reachable.tail hstep, h.config, fun v hv => ?_, h.order, fun v hv => ?_⟩
  · have hstarted := h.started v hv
    rcases hsys.grows hstep with heq | ⟨w, heq⟩ | ⟨w, _, heq⟩
    · rwa [heq]
    · rw [heq]; exact List.mem_cons_of_mem _ hstarted
    · rw [heq]; exact List.mem_cons_of_mem _ hstarted
  · rcases hsys.grows hstep with heq | ⟨w, heq⟩ | ⟨w, _, heq⟩
    · rw [heq] at hv
      exact h.done v hv
    · rw [heq] at hv
      exact h.done v ((List.mem_cons.mp hv).resolve_left (by simp))
    · have hw := hend w heq
      rw [heq] at hv
      rcases List.mem_cons.mp hv with hvw | hv
      · rwa [Event.finish.inj hvw]
      · exact h.done v hv

/-- A program that makes an access waits for none that made one before. -/
theorem Accessed.access (h : Accessed sys must c₀ m c accesses) (hsys : sys.Disciplined must)
    (hrun : sys.Running m v) : Accessed sys must c₀ m (c.step v) (accesses ++ [v]) := by
  obtain ⟨hstart, hunfinished⟩ := hsys.running h.reachable hrun
  refine ⟨h.reachable, ?_, fun w hw => ?_, ?_, fun w hw => ?_⟩
  · rw [List.foldl_append, ← h.config]
    rfl
  · rcases List.mem_append.mp hw with hw | hw
    · exact h.started w hw
    · rwa [List.mem_singleton.mp hw]
  · refine List.pairwise_append.mpr
      ⟨h.order, List.pairwise_singleton _ _, fun i hi j hj hmust => ?_⟩
    rw [List.mem_singleton.mp hj] at hmust
    obtain ⟨l, hl⟩ := Countdown.suffix_of_mem (h.started i hi)
    have hfinish := hsys.before h.reachable hmust l hl
    exact hunfinished (((List.suffix_cons _ l).trans hl).subset hfinish)
  · have hne : w ≠ v := fun heq => hunfinished (heq ▸ hw)
    rw [Config.step_programs_of_ne c hne]
    exact h.done w hw

theorem exists_accessed (hsys : sys.Disciplined must) {x : M × Config V κ ν Out}
    (reach : ReflTransGen sys.AccessStep (sys.init, c₀) x) :
    ∃ accesses, Accessed sys must c₀ x.1 x.2 accesses := by
  induction reach with
  | refl =>
    refine ⟨[], .refl, rfl, fun v hv => absurd hv List.not_mem_nil, .nil, fun v hv => ?_⟩
    rw [hsys.fresh] at hv
    exact absurd hv List.not_mem_nil
  | tail _ step ih =>
    obtain ⟨accesses, h⟩ := ih
    cases step with
    | move hstep hend => exact ⟨_, h.move hsys hstep hend⟩
    | access hrun => exact ⟨_, h.access hsys hrun⟩

/-- However single accesses interleave, the programs leave what they leave one after the other
when those that do not wait for each other keep apart. -/
theorem Disciplined.serial {good : κ → Option ν → Prop} {footprints : V → Footprint κ}
    {ids : List V} (hsys : sys.Disciplined must) (hids : ids.Pairwise lt) (hnodup : ids.Nodup)
    (apart : ∀ i ∈ ids, ∀ j ∈ ids, lt i j → ¬ must i j → (footprints i).Apart (footprints j))
    (kept : c₀.Kept good footprints)
    (reach : ReflTransGen sys.AccessStep (sys.init, c₀) (m, c))
    (known : ∀ v, .start v ∈ sys.log m → v ∈ ids)
    (finished : ∀ v ∈ ids, .finish v ∈ sys.log m) :
    c = ids.foldl Config.finish c₀ := by
  obtain ⟨accesses, h⟩ := exists_accessed hsys reach
  dsimp only at h
  have hmem : ∀ v ∈ accesses, v ∈ ids := fun v hv => known v (h.started v hv)
  have hdone : ∀ v ∈ ids, ∃ out, (accesses.foldl Config.step c₀).programs v = .done out :=
    fun v hv => h.config ▸ h.done v (finished v hv)
  refine h.config.trans (Config.foldl_step_serial hids hnodup hmem ?_ kept hdone)
  exact h.order.imp_of_mem fun {i j} hi hj hmust hlt =>
    apart j (hmem j hj) i (hmem i hi) hlt hmust

theorem reach_accesses (hrun : sys.Running m v) (n : Nat) (c : Config V κ ν Out) :
    ReflTransGen sys.AccessStep (m, c) (m, (List.replicate n v).foldl Config.step c) := by
  induction n generalizing c with
  | zero => exact .refl
  | succ n ih => exact (ih (c.step v)).head (.access hrun)

/-- Every run of the system goes through when each program is let to its end. -/
theorem Disciplined.lift (hsys : sys.Disciplined must) (reach : sys.Reachable m)
    (c₀ : Config V κ ν Out) : ∃ c, ReflTransGen sys.AccessStep (sys.init, c₀) (m, c) := by
  induction reach with
  | refl => exact ⟨c₀, .refl⟩
  | @tail m m' _ hstep ih =>
    obtain ⟨c, hc⟩ := ih
    rcases hsys.grows hstep with heq | ⟨w, heq⟩ | ⟨w, hrun, heq⟩
    · refine ⟨c, hc.tail (.move hstep fun v hv => ?_)⟩
      exact absurd (heq.symm.trans hv) (List.cons_ne_self _ _).symm
    · refine ⟨c, hc.tail (.move hstep fun v hv => ?_)⟩
      cases (List.cons.inj (heq.symm.trans hv)).1
    · obtain ⟨n, out, hdone⟩ := Config.exists_foldl_step_done c w
      refine ⟨_, (hc.trans (reach_accesses hrun n c)).tail (.move hstep fun v hv => ?_)⟩
      cases (List.cons.inj (heq.symm.trans hv)).1
      exact ⟨out, hdone⟩

/-- A net whose nodes are programs. -/
def ofNet (net : Countdown.Net V) : System (Countdown.State V) V where
  init := net.init
  Step := Countdown.Step
  log := Countdown.State.log
  Running s v := v ∈ s.running

/-- Along the paths of a net the programs wait for each other. -/
theorem ofNet_disciplined (net : Countdown.Net V) :
    (ofNet net).Disciplined (Relation.TransGen net.Edge) where
  fresh := rfl
  grows := by
    intro s s' step
    cases step with
    | start hv => exact .inr (.inl ⟨_, rfl⟩)
    | finish hv => exact .inr (.inr ⟨_, hv, rfl⟩)
    | deliver hs he => exact .inl rfl
    | retire hu hsent => exact .inl rfl
  running := fun reach hv => Countdown.running_between (Countdown.reach_inv reach) hv
  before := fun reach path => Countdown.before_of_path reach path

end System

end Interleaving
