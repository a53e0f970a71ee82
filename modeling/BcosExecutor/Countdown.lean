import Mathlib.Data.Multiset.Count
import Mathlib.Algebra.Order.Group.Multiset
import Mathlib.Data.Finset.Basic
import Mathlib.Logic.Relation

namespace Countdown

variable {V : Type*}

inductive Event (V : Type*)
  | start (v : V)
  | finish (v : V)
  deriving DecidableEq

/-- A node runs once it has received one message for every incoming edge;
the sources have no incoming edge and are ready from the beginning. -/
structure Net (V : Type*) where
  edges : Multiset (V × V)
  sources : Finset V
  sources_free : ∀ v ∈ sources, v ∉ edges.map Prod.snd

/-- `left` are the messages still to be delivered; `log` is the newest event first. -/
structure State (V : Type*) where
  left : Multiset (V × V)
  ready : Multiset V
  running : Multiset V
  sending : Multiset V
  done : Multiset V
  log : List (Event V)

def Net.init (net : Net V) : State V :=
  ⟨net.edges, net.sources.val, 0, 0, 0, []⟩

variable [DecidableEq V]

/-- A delivered message makes its target ready when no message to it is left. -/
def State.receive (s : State V) (e : V × V) : State V :=
  { s with
    left := s.left.erase e
    ready := if e.2 ∈ (s.left.erase e).map Prod.snd then s.ready else e.2 ::ₘ s.ready }

inductive Step : State V → State V → Prop
  | start {s : State V} {v : V} : v ∈ s.ready →
      Step s { s with ready := s.ready.erase v, running := v ::ₘ s.running, log := .start v :: s.log }
  | finish {s : State V} {v : V} : v ∈ s.running →
      Step s { s with
        running := s.running.erase v, sending := v ::ₘ s.sending, log := .finish v :: s.log }
  | deliver {s : State V} {e : V × V} : e.1 ∈ s.sending → e ∈ s.left → Step s (s.receive e)
  | retire {s : State V} {u : V} : u ∈ s.sending → (∀ v, (u, v) ∉ s.left) →
      Step s { s with sending := s.sending.erase u, done := u ::ₘ s.done }

def Reach (net : Net V) : State V → Prop :=
  Relation.ReflTransGen Step net.init

/-- Every node that has got all its messages, whatever it has done since. -/
def State.tokens (s : State V) : Multiset V :=
  s.ready + s.running + s.sending + s.done

structure Inv (net : Net V) (s : State V) : Prop where
  nodup : s.tokens.Nodup
  free : ∀ v ∈ s.tokens, v ∉ s.left.map Prod.snd
  token : ∀ v, v ∉ s.left.map Prod.snd → v ∈ net.edges.map Prod.snd → v ∈ s.tokens
  source : ∀ v ∈ net.sources, v ∈ s.tokens
  known : ∀ v ∈ s.tokens, v ∈ net.edges.map Prod.snd ∨ v ∈ net.sources
  left_le : s.left ≤ net.edges
  kept : ∀ u v, u ∉ s.sending + s.done → s.left.count (u, v) = net.edges.count (u, v)
  sent : ∀ u ∈ s.done, ∀ v, (u, v) ∉ s.left
  started : ∀ v, .start v ∈ s.log ↔ v ∈ s.running + s.sending + s.done
  finished : ∀ v, .finish v ∈ s.log ↔ v ∈ s.sending + s.done
  once : s.log.Nodup
  after : ∀ u v l, (.start v :: l) <:+ s.log → (u, v) ∈ net.edges → .finish u ∈ l
  begun : ∀ v l, (.finish v :: l) <:+ s.log → .start v ∈ l

theorem inv_init (net : Net V) : Inv net net.init := by
  have htok : net.init.tokens = net.sources.val := by simp [Net.init, State.tokens]
  refine ⟨?_, ?_, ?_, ?_, ?_, le_rfl, fun _ _ _ => rfl, ?_, ?_, ?_, by simp [Net.init], ?_, ?_⟩
  · rw [htok]; exact net.sources.nodup
  · rw [htok]; exact fun v hv => net.sources_free v hv
  · exact fun v hl he => absurd he hl
  · rw [htok]; exact fun v hv => hv
  · rw [htok]; exact fun v hv => Or.inr hv
  all_goals simp [Net.init]

theorem inv_start {net : Net V} {s : State V} {v : V} (h : Inv net s) (hv : v ∈ s.ready) :
    Inv net { s with
      ready := s.ready.erase v, running := v ::ₘ s.running, log := .start v :: s.log } := by
  obtain ⟨rest, hr⟩ := Multiset.exists_cons_of_mem hv
  have htok : State.tokens { s with
      ready := s.ready.erase v, running := v ::ₘ s.running, log := .start v :: s.log } = s.tokens := by
    simp only [State.tokens, hr, Multiset.erase_cons_head, Multiset.add_cons, Multiset.cons_add]
  have hmem : v ∈ s.tokens := by simp [State.tokens, hv]
  have hfresh : v ∉ s.running + s.sending + s.done := by
    have hn := h.nodup
    simp only [State.tokens, hr, Multiset.cons_add, Multiset.nodup_cons] at hn
    intro hm
    exact hn.1 (by simp only [Multiset.mem_add] at hm ⊢; tauto)
  refine ⟨htok ▸ h.nodup, htok ▸ h.free, htok ▸ h.token, htok ▸ h.source, htok ▸ h.known,
    h.left_le, h.kept, h.sent, ?_, ?_, ?_, ?_, ?_⟩
  · intro w
    simp only [List.mem_cons, Event.start.injEq, h.started w, Multiset.cons_add, Multiset.mem_cons]
  · intro w
    simpa using h.finished w
  · exact List.nodup_cons.mpr ⟨fun hm => hfresh ((h.started v).mp hm), h.once⟩
  · intro u w l hl he
    rcases List.suffix_cons_iff.mp hl with eq | hl
    · obtain ⟨hw, rfl⟩ := List.cons.inj eq
      cases hw
      apply (h.finished u).mpr
      by_contra hu
      have hc := h.kept u v hu
      have hpos := Multiset.count_pos.mpr he
      exact h.free v hmem (Multiset.mem_map.mpr ⟨(u, v), Multiset.count_pos.mp (by omega), rfl⟩)
    · exact h.after u w l hl he
  · intro w l hl
    rcases List.suffix_cons_iff.mp hl with eq | hl
    · cases (List.cons.inj eq).1
    · exact h.begun w l hl

theorem inv_finish {net : Net V} {s : State V} {v : V} (h : Inv net s) (hv : v ∈ s.running) :
    Inv net { s with
      running := s.running.erase v, sending := v ::ₘ s.sending, log := .finish v :: s.log } := by
  obtain ⟨rest, hr⟩ := Multiset.exists_cons_of_mem hv
  have htok : State.tokens { s with
      running := s.running.erase v, sending := v ::ₘ s.sending, log := .finish v :: s.log } =
      s.tokens := by
    simp only [State.tokens, hr, Multiset.erase_cons_head, Multiset.add_cons, Multiset.cons_add]
  have hfresh : v ∉ s.sending + s.done := by
    have hn := h.nodup
    simp only [State.tokens, hr, Multiset.add_cons, Multiset.cons_add, Multiset.nodup_cons] at hn
    intro hm
    exact hn.1 (by simp only [Multiset.mem_add] at hm ⊢; tauto)
  refine ⟨htok ▸ h.nodup, htok ▸ h.free, htok ▸ h.token, htok ▸ h.source, htok ▸ h.known,
    h.left_le, ?_, h.sent, ?_, ?_, ?_, ?_, ?_⟩
  · intro u w hu
    apply h.kept u w
    simp only [Multiset.cons_add, Multiset.mem_cons] at hu
    tauto
  · intro w
    simp only [List.mem_cons, reduceCtorEq, false_or, h.started w, hr, Multiset.erase_cons_head,
      Multiset.mem_add, Multiset.mem_cons]
    tauto
  · intro w
    simp only [List.mem_cons, Event.finish.injEq, h.finished w, Multiset.cons_add,
      Multiset.mem_cons]
  · exact List.nodup_cons.mpr ⟨fun hm => hfresh ((h.finished v).mp hm), h.once⟩
  · intro u w l hl he
    rcases List.suffix_cons_iff.mp hl with eq | hl
    · cases (List.cons.inj eq).1
    · exact h.after u w l hl he
  · intro w l hl
    rcases List.suffix_cons_iff.mp hl with eq | hl
    · obtain ⟨hw, rfl⟩ := List.cons.inj eq
      cases hw
      exact (h.started v).mpr (by simp [hv])
    · exact h.begun w l hl

theorem receive_tokens (s : State V) (e : V × V) :
    (s.receive e).tokens =
      if e.2 ∈ (s.left.erase e).map Prod.snd then s.tokens else e.2 ::ₘ s.tokens := by
  unfold State.receive State.tokens
  split <;> simp

theorem inv_deliver {net : Net V} {s : State V} {e : V × V} (h : Inv net s)
    (hs : e.1 ∈ s.sending) (he : e ∈ s.left) : Inv net (s.receive e) := by
  have hle : s.left.erase e ≤ s.left := Multiset.erase_le e s.left
  have hpend : e.2 ∈ s.left.map Prod.snd := Multiset.mem_map_of_mem Prod.snd he
  have hnew : e.2 ∉ s.tokens := fun hm => h.free e.2 hm hpend
  have hsplit : e.2 ::ₘ (s.left.erase e).map Prod.snd = s.left.map Prod.snd := by
    rw [← Multiset.map_cons, Multiset.cons_erase he]
  have hkeep : ∀ v, v ∈ s.tokens → v ∈ (s.receive e).tokens := by
    intro v hv
    rw [receive_tokens]
    split
    · exact hv
    · exact Multiset.mem_cons_of_mem hv
  refine ⟨?_, ?_, ?_, fun v hv => hkeep v (h.source v hv), ?_, hle.trans h.left_le, ?_, ?_,
    h.started, h.finished, h.once, h.after, h.begun⟩
  · rw [receive_tokens]
    split
    · exact h.nodup
    · exact Multiset.nodup_cons.mpr ⟨hnew, h.nodup⟩
  · intro v hv
    change v ∉ (s.left.erase e).map Prod.snd
    rw [receive_tokens] at hv
    have hold : v ∈ s.tokens → v ∉ (s.left.erase e).map Prod.snd := fun ht hm =>
      h.free v ht (Multiset.mem_of_le (Multiset.map_le_map hle) hm)
    split at hv
    next => exact hold hv
    next hlast =>
      rcases Multiset.mem_cons.mp hv with rfl | hv
      · exact hlast
      · exact hold hv
  · intro v hv hedge
    change v ∉ (s.left.erase e).map Prod.snd at hv
    by_cases hve : v = e.2
    · subst v
      rw [receive_tokens, if_neg hv]
      exact Multiset.mem_cons_self _ _
    · apply hkeep v
      apply h.token v ?_ hedge
      rw [← hsplit]
      exact fun hm => hv ((Multiset.mem_cons.mp hm).resolve_left hve)
  · intro v hv
    rw [receive_tokens] at hv
    split at hv
    next => exact h.known v hv
    next =>
      rcases Multiset.mem_cons.mp hv with rfl | hv
      · exact Or.inl (Multiset.mem_of_le (Multiset.map_le_map h.left_le) hpend)
      · exact h.known v hv
  · intro u v hu
    have hne : (u, v) ≠ e := by
      rintro rfl
      exact hu (Multiset.mem_add.mpr (Or.inl hs))
    change (s.left.erase e).count (u, v) = _
    rw [Multiset.count_erase_of_ne hne]
    exact h.kept u v hu
  · exact fun u hu v hm => h.sent u hu v (Multiset.mem_of_le hle hm)

theorem inv_retire {net : Net V} {s : State V} {u : V} (h : Inv net s) (hu : u ∈ s.sending)
    (hsent : ∀ v, (u, v) ∉ s.left) :
    Inv net { s with sending := s.sending.erase u, done := u ::ₘ s.done } := by
  obtain ⟨rest, hr⟩ := Multiset.exists_cons_of_mem hu
  have hmove : s.sending.erase u + u ::ₘ s.done = s.sending + s.done := by
    simp [hr]
  have htok : State.tokens { s with sending := s.sending.erase u, done := u ::ₘ s.done } =
      s.tokens := by
    simp only [State.tokens, add_assoc, hmove]
  refine ⟨htok ▸ h.nodup, htok ▸ h.free, htok ▸ h.token, htok ▸ h.source, htok ▸ h.known,
    h.left_le, ?_, ?_, ?_, ?_, h.once, h.after, h.begun⟩
  · rw [hmove]; exact h.kept
  · intro w hw v
    rcases Multiset.mem_cons.mp hw with rfl | hw
    · exact hsent v
    · exact h.sent w hw v
  · intro v
    rw [add_assoc, hmove, ← add_assoc]
    exact h.started v
  · rw [hmove]; exact h.finished

theorem inv_step {net : Net V} {s s' : State V} (h : Inv net s) (step : Step s s') :
    Inv net s' := by
  cases step with
  | start hv => exact inv_start h hv
  | finish hv => exact inv_finish h hv
  | deliver hs he => exact inv_deliver h hs he
  | retire hu hsent => exact inv_retire h hu hsent

theorem reach_inv {net : Net V} {s : State V} (reach : Reach net s) : Inv net s := by
  induction reach with
  | refl => exact inv_init net
  | tail _ step ih => exact inv_step ih step

end Countdown
