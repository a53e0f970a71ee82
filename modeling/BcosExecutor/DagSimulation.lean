import BcosExecutor.CountdownOrder
import BcosExecutor.DagWorkers
import Mathlib.Algebra.BigOperators.Group.Finset.Piecewise
import Mathlib.Algebra.Order.BigOperators.Group.Finset

namespace BcosExecutor

open Countdown (Net)

namespace Worker

/-- The vertices a worker keeps that are ready but not started. -/
def ready : Worker → Multiset Nat
  | holding _ id => {id}
  | consuming _ _ _ _ next => (next.toList : Multiset Nat)
  | pushing _ _ _ _ next top => top ::ₘ (next.toList : Multiset Nat)
  | _ => 0

def held : Worker → Multiset Nat
  | holding _ id => {id}
  | _ => 0

def running : Worker → Multiset Nat
  | executing _ id => {id}
  | _ => 0

def sending : Worker → Multiset Nat
  | consuming _ id _ _ _ | pushing _ id _ _ _ _ => {id}
  | _ => 0

def counted : Worker → Nat
  | waiting k | missed k | leaving k => k
  | holding k _ | executing k _ | consuming k _ _ _ _ | pushing k _ _ _ _ _ => k
  | _ => 0

/-- The vertex being consumed with the edges whose targets are still to be decremented. -/
def pending : Worker → Option (Nat × List Nat)
  | consuming _ id es _ _ | pushing _ id es _ _ _ => some (id, es)
  | _ => none

/-- A worker that has produced nothing has kept nothing, and it has counted the vertex it
works on. -/
def Sound : Worker → Prop
  | executing k _ => 0 < k
  | consuming k _ _ p next => 0 < k ∧ (p = 0 → next = none)
  | pushing k _ _ p _ _ => 0 < k ∧ 0 < p
  | _ => True

theorem held_le_ready (w : Worker) (v : Nat) : w.held.count v ≤ w.ready.count v := by
  cases w <;> simp [held, ready]

theorem card_le_counted {w : Worker} (h : w.Sound) :
    w.running.card + w.sending.card ≤ w.counted := by
  cases w <;> simp_all [Sound, running, sending, counted] <;> omega

end Worker

variable {ι σ : Type*} [DecidableEq ι]

theorem update_cases {P : Worker → Prop} {ws : ι → Worker} {i : ι} {w : Worker} (hw : P w)
    (h : ∀ j, P (ws j)) (j : ι) : P (Function.update ws i w j) := by
  by_cases hj : j = i
  · subst j; simpa using hw
  · simpa [hj] using h j

variable [Fintype ι]

theorem sum_update (f : Worker → Nat) (ws : ι → Worker) (i : ι) (w : Worker) :
    (∑ j, f (Function.update ws i w j)) + f (ws i) = (∑ j, f (ws j)) + f w := by
  have hupd : (fun j => f (Function.update ws i w j)) =
      Function.update (fun j => f (ws j)) i (f w) := by
    funext j
    by_cases hj : j = i
    · subst j; simp
    · simp [hj]
  have hsplit := Finset.add_sum_erase Finset.univ (fun j => f (ws j)) (Finset.mem_univ i)
  rw [hupd, Finset.sum_update_of_mem (Finset.mem_univ i), Finset.sdiff_singleton_eq_erase]
  omega

omit [DecidableEq ι] in
theorem le_sum (f : Worker → Nat) (ws : ι → Worker) (i : ι) : f (ws i) ≤ ∑ j, f (ws j) :=
  Finset.single_le_sum (f := fun j => f (ws j)) (fun _ _ => Nat.zero_le _) (Finset.mem_univ i)

theorem add_le_sum (f : Worker → Nat) (ws : ι → Worker) {i j : ι} (hij : i ≠ j) :
    f (ws i) + f (ws j) ≤ ∑ l, f (ws l) := by
  have h := Finset.sum_le_sum_of_subset (f := fun l => f (ws l)) (Finset.subset_univ {i, j})
  rwa [Finset.sum_pair hij] at h

/-- The vertices in the queue and in the hands of the workers are those of the counting net. -/
structure Ledger (m : DagRun ι σ) (c : Countdown.State Nat) : Prop where
  ready : ∀ v, c.ready.count v = m.dag.topLevel.count v + ∑ i, (m.workers i).ready.count v
  running : ∀ v, c.running.count v = ∑ i, (m.workers i).running.count v
  sending : ∀ v, c.sending.count v = ∑ i, (m.workers i).sending.count v
  handed : ∀ v, m.handed.count v = (∑ i, (m.workers i).held.count v) +
    (c.running + c.sending + c.done).count v
  counted : m.exeCnt + ∑ i, (m.workers i).counted = (c.running + c.sending + c.done).card
  consumed : m.dag.totalConsume = c.done.card

/-- One worker moves: what it gives up is what the queue and the net gain. -/
theorem ledger_update {m m' : DagRun ι σ} {c c' : Countdown.State Nat} (h : Ledger m c) {i : ι}
    {w : Worker} (hw : m'.workers = Function.update m.workers i w)
    (ready : ∀ v, c'.ready.count v + m.dag.topLevel.count v + (m.workers i).ready.count v =
      c.ready.count v + m'.dag.topLevel.count v + w.ready.count v)
    (running : ∀ v, c'.running.count v + (m.workers i).running.count v =
      c.running.count v + w.running.count v)
    (sending : ∀ v, c'.sending.count v + (m.workers i).sending.count v =
      c.sending.count v + w.sending.count v)
    (handed : ∀ v, m'.handed.count v + (m.workers i).held.count v +
        (c.running + c.sending + c.done).count v =
      m.handed.count v + w.held.count v + (c'.running + c'.sending + c'.done).count v)
    (counted : m'.exeCnt + w.counted + (c.running + c.sending + c.done).card =
      m.exeCnt + (m.workers i).counted + (c'.running + c'.sending + c'.done).card)
    (consumed : m'.dag.totalConsume + c.done.card = m.dag.totalConsume + c'.done.card) :
    Ledger m' c' := by
  constructor
  · intro v
    have := h.ready v
    have := ready v
    have := sum_update (fun w => w.ready.count v) m.workers i w
    rw [hw]; omega
  · intro v
    have := h.running v
    have := running v
    have := sum_update (fun w => w.running.count v) m.workers i w
    rw [hw]; omega
  · intro v
    have := h.sending v
    have := sending v
    have := sum_update (fun w => w.sending.count v) m.workers i w
    rw [hw]; omega
  · intro v
    have := h.handed v
    have := handed v
    have := sum_update (fun w => w.held.count v) m.workers i w
    rw [hw]; omega
  · have := h.counted
    have := sum_update Worker.counted m.workers i w
    rw [hw]; omega
  · have := h.consumed
    omega

omit [DecidableEq ι] in
/-- What one worker holds is among what the workers hold together. -/
theorem mem_of_count_le {part : Worker → Multiset Nat} {ws : ι → Worker} {i : ι} {v : Nat}
    {all : Multiset Nat} (h : (∑ j, (part (ws j)).count v) ≤ all.count v) (hv : v ∈ part (ws i)) :
    v ∈ all := by
  have hpos := Multiset.count_pos.mpr hv
  have hle := le_sum (fun w => (part w).count v) ws i
  exact Multiset.count_pos.mp (by omega)

omit [DecidableEq ι] in
theorem mem_ready {m : DagRun ι σ} {c : Countdown.State Nat} (h : Ledger m c) {i : ι} {v : Nat}
    (hv : v ∈ (m.workers i).ready) : v ∈ c.ready :=
  mem_of_count_le (by rw [h.ready v]; exact Nat.le_add_left ..) hv

omit [DecidableEq ι] in
theorem mem_running {m : DagRun ι σ} {c : Countdown.State Nat} (h : Ledger m c) {i : ι} {v : Nat}
    (hv : v ∈ (m.workers i).running) : v ∈ c.running :=
  mem_of_count_le (Nat.le_of_eq (h.running v).symm) hv

omit [DecidableEq ι] in
theorem mem_sending {m : DagRun ι σ} {c : Countdown.State Nat} (h : Ledger m c) {i : ι} {v : Nat}
    (hv : v ∈ (m.workers i).sending) : v ∈ c.sending :=
  mem_of_count_le (Nat.le_of_eq (h.sending v).symm) hv

/-- A vertex is consumed by one worker only. -/
theorem sending_unique {net : Net Nat} {m : DagRun ι σ} {c : Countdown.State Nat}
    (h : Ledger m c) (inv : Countdown.Inv net c) {i j : ι} {v : Nat}
    (hi : v ∈ (m.workers i).sending) (hj : v ∈ (m.workers j).sending) : i = j := by
  by_contra hij
  have hle := add_le_sum (fun w => w.sending.count v) m.workers hij
  have hone := Multiset.nodup_iff_count_le_one.mp inv.nodup v
  simp only [Countdown.State.tokens, Multiset.count_add] at hone
  have := h.sending v
  have := Multiset.count_pos.mpr hi
  have := Multiset.count_pos.mpr hj
  omega

/-- The atomic counters and the lists of edges hold the messages that are left. -/
structure Wiring (net : Net Nat) (n : Nat) (m : DagRun ι σ) (c : Countdown.State Nat) : Prop where
  total : m.dag.totalVtxs = n
  degree : ∀ v, m.dag.inDegree v = (c.left.map Prod.snd).count v
  outEdge : ∀ u v, (m.dag.outEdge u).count v = net.edges.count (u, v)
  pending : ∀ i u es, (m.workers i).pending = some (u, es) →
    ∀ v, c.left.count (u, v) = es.count v
  sound : ∀ i, (m.workers i).Sound
  left : ∀ i, m.workers i = .left → m.hasFinished

omit [Fintype ι] in
/-- A move that leaves the messages alone. -/
theorem wiring_move {net : Net Nat} {n : Nat} {m m' : DagRun ι σ} {c c' : Countdown.State Nat}
    (h : Wiring net n m c) {i : ι} {w : Worker}
    (hw : m'.workers = Function.update m.workers i w) (hleft : c'.left = c.left)
    (hvtxs : m'.dag.vtxs = m.dag.vtxs) (htotal : m'.dag.totalVtxs = m.dag.totalVtxs)
    (hcnt : m.exeCnt ≤ m'.exeCnt) (sound : w.Sound)
    (pending : ∀ u es, w.pending = some (u, es) → ∀ v, c.left.count (u, v) = es.count v)
    (exit : w = .left → m.hasFinished) : Wiring net n m' c' := by
  have finished (hf : m.hasFinished) : m'.hasFinished := by
    unfold DagRun.hasFinished at hf ⊢
    omega
  refine ⟨htotal.trans h.total, fun v => ?_, fun u v => ?_, ?_, ?_, ?_⟩
  · rw [hleft, ← h.degree]; simp only [DAG.inDegree, hvtxs]
  · rw [← h.outEdge]; simp only [DAG.outEdge, hvtxs]
  · rw [hw, hleft]
    exact fun j u es => update_cases
      (P := fun w => w.pending = some (u, es) → ∀ v, c.left.count (u, v) = es.count v)
      (pending u es) (fun j => h.pending j u es) j
  · rw [hw]; exact update_cases sound h.sound
  · rw [hw]
    exact fun j => update_cases (P := fun w => w = .left → m'.hasFinished)
      (fun hl => finished (exit hl)) (fun j hl => finished (h.left j hl)) j

def keyedEvent (keyed : Nat → Bool) : Countdown.Event Nat → Bool
  | .start v | .finish v => keyed v

/-- Only the transactions with call parameters leave events, and the state is what the
finished ones made of it. -/
structure Recorded (keyed : Nat → Bool) (exec : Nat → σ → σ) (s₀ : σ) (m : DagRun ι σ)
    (c : Countdown.State Nat) : Prop where
  log : m.log = c.log.filter (keyedEvent keyed)
  params : ∀ v, m.allCallParameters v = true ↔ keyed v = true ∧ .start v ∉ c.log
  running : ∀ i, ∀ v ∈ (m.workers i).running, keyed v = true
  state : m.state = (Countdown.finishes m.log).foldr exec s₀

omit [Fintype ι] in
theorem recorded_move {keyed : Nat → Bool} {exec : Nat → σ → σ} {s₀ : σ} {m m' : DagRun ι σ}
    {c c' : Countdown.State Nat} (h : Recorded keyed exec s₀ m c) {i : ι} {w : Worker}
    (hw : m'.workers = Function.update m.workers i w) (hrun : w.running = 0)
    (hlog : m'.log = m.log) (hparams : m'.allCallParameters = m.allCallParameters)
    (hstate : m'.state = m.state) (hc : c'.log = c.log) : Recorded keyed exec s₀ m' c' := by
  refine ⟨hlog ▸ hc ▸ h.log, hparams ▸ hc ▸ h.params, ?_, hstate ▸ hlog ▸ h.state⟩
  rw [hw]
  exact update_cases (P := fun w => ∀ v ∈ w.running, keyed v = true) (by simp [hrun]) h.running

end BcosExecutor
