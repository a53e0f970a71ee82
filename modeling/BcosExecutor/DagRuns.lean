import BcosExecutor.DagEdges
import BcosExecutor.DagSimulation

namespace BcosExecutor

open Countdown (Net)

/-- The state `m` of the workers shows the state `c` of the counting net. -/
structure Simulates {ι σ : Type*} [Fintype ι] (net : Net Nat) (n : Nat) (keyed : Nat → Bool)
    (exec : Nat → σ → σ) (s₀ : σ) (m : DagRun ι σ) (c : Countdown.State Nat) : Prop where
  reach : Countdown.Reach net c
  ledger : Ledger m c
  wiring : Wiring net n m c
  recorded : Recorded keyed exec s₀ m c

theorem count_erase_add {s : Multiset Nat} {a : Nat} (h : a ∈ s) (v : Nat) :
    (s.erase a).count v + ({a} : Multiset Nat).count v = s.count v := by
  have hs : s.count v = (a ::ₘ s.erase a).count v := by rw [Multiset.cons_erase h]
  rw [hs, Multiset.count_cons, Multiset.count_singleton]

theorem list_count_cons (l : List Nat) (a v : Nat) :
    (a :: l).count v = l.count v + ({a} : Multiset Nat).count v := by
  rw [List.count_cons, Multiset.count_singleton]
  simp only [beq_iff_eq, eq_comm (a := a)]

variable {ι σ : Type*} [DecidableEq ι] [Fintype ι] {net : Net Nat} {n : Nat} {keyed : Nat → Bool}
  {exec : Nat → σ → σ} {s₀ : σ} {m : DagRun ι σ} {c : Countdown.State Nat}

/-- A step of a worker that the counting net does not see. -/
theorem simulates_silent (h : Simulates net n keyed exec s₀ m c) {m' : DagRun ι σ} {i : ι}
    {w : Worker} (hw : m'.workers = Function.update m.workers i w)
    (hdag : m'.dag = { m.dag with topLevel := m'.dag.topLevel }) (hlog : m'.log = m.log)
    (hparams : m'.allCallParameters = m.allCallParameters) (hstate : m'.state = m.state)
    (hrun : (m.workers i).running = 0) (hrun' : w.running = 0)
    (hsend : w.sending = (m.workers i).sending) (hpend : w.pending = (m.workers i).pending)
    (ready : ∀ v, m.dag.topLevel.count v + (m.workers i).ready.count v =
      m'.dag.topLevel.count v + w.ready.count v)
    (handed : ∀ v, m'.handed.count v + (m.workers i).held.count v =
      m.handed.count v + w.held.count v)
    (counted : m'.exeCnt + w.counted = m.exeCnt + (m.workers i).counted)
    (hcnt : m.exeCnt ≤ m'.exeCnt) (sound : w.Sound) (exit : w = .left → m.hasFinished) :
    Simulates net n keyed exec s₀ m' c := by
  refine ⟨h.reach, ?_, ?_, recorded_move h.recorded hw hrun' hlog hparams hstate rfl⟩
  · apply ledger_update h.ledger hw
    · intro v; have := ready v; omega
    · simp [hrun, hrun']
    · simp [hsend]
    · intro v; have := handed v; omega
    · omega
    · rw [hdag]
  · refine wiring_move h.wiring hw rfl (by rw [hdag]) (by rw [hdag]) hcnt sound ?_ exit
    exact fun u es hu => h.wiring.pending i u es (hpend.symm.trans hu)

theorem simulates_begin (h : Simulates net n keyed exec s₀ m c) {i : ι} {k id : Nat}
    (hi : m.workers i = .holding k id) (hp : m.allCallParameters id = true) :
    ∃ c', Simulates net n keyed exec s₀ { m.move i (.executing (k + 1) id) with
      allCallParameters := Function.update m.allCallParameters id false
      log := .start id :: m.log } c' := by
  have hid : id ∈ c.ready := mem_ready h.ledger (i := i) (by simp [hi, Worker.ready])
  obtain ⟨hkeyed, hfresh⟩ := (h.recorded.params id).mp hp
  have hcard := Multiset.card_erase_add_one hid
  refine ⟨_, h.reach.tail (.start hid), ?_, ?_, ?_⟩
  · refine ledger_update h.ledger (i := i) (w := .executing (k + 1) id) rfl ?_ ?_ ?_ ?_ ?_ rfl
    · intro v
      have := count_erase_add hid v
      simp only [hi, Worker.ready, DagRun.move, Multiset.count_zero]
      omega
    · intro v; simp [hi, Worker.running, Multiset.count_cons, Multiset.count_singleton]
    · intro v; simp [hi, Worker.sending]
    · intro v
      simp only [hi, Worker.held, DagRun.move, Multiset.cons_add, Multiset.count_cons,
        Multiset.count_singleton, Multiset.count_zero]
      omega
    · simp only [hi, Worker.counted, DagRun.move, Multiset.cons_add, Multiset.card_cons]
      omega
  · exact wiring_move h.wiring (i := i) (w := .executing (k + 1) id) rfl rfl rfl rfl le_rfl
      (Nat.succ_pos k) (by simp [Worker.pending]) (by simp)
  · refine ⟨?_, ?_, ?_, ?_⟩
    · simp [keyedEvent, hkeyed, h.recorded.log]
    · intro v
      by_cases hv : v = id
      · simp [hv]
      · simp [hv, h.recorded.params v]
    · exact update_cases (P := fun w => ∀ v ∈ w.running, keyed v = true)
        (by simpa [Worker.running] using hkeyed) h.recorded.running
    · simpa [Countdown.finishes, DagRun.move] using h.recorded.state

omit [DecidableEq ι] in
/-- What is left of the messages of a vertex that has not been sent from. -/
theorem left_count_of_fresh (h : Simulates net n keyed exec s₀ m c) {id : Nat}
    (hid : id ∈ c.ready + c.running) (v : Nat) :
    c.left.count (id, v) = (m.dag.outEdge id).count v := by
  have inv := Countdown.reach_inv h.reach
  rw [h.wiring.outEdge]
  apply inv.kept
  have hone := Multiset.nodup_iff_count_le_one.mp inv.nodup id
  have hpos := Multiset.count_pos.mpr hid
  simp only [Countdown.State.tokens, Multiset.count_add] at hone hpos
  rw [← Multiset.count_eq_zero, Multiset.count_add]
  omega

theorem simulates_finish (h : Simulates net n keyed exec s₀ m c) {i : ι} {k id : Nat}
    (hi : m.workers i = .executing k id) :
    ∃ c', Simulates net n keyed exec s₀
      { m.move i (.consuming k id (m.dag.outEdge id) 0 none) with
        log := .finish id :: m.log
        state := exec id m.state } c' := by
  have hid : id ∈ c.running := mem_running h.ledger (i := i) (by simp [hi, Worker.running])
  have hkeyed : keyed id = true := h.recorded.running i id (by simp [hi, Worker.running])
  have hcard := Multiset.card_erase_add_one hid
  have hsound : 0 < k := by simpa [hi, Worker.Sound] using h.wiring.sound i
  refine ⟨_, h.reach.tail (.finish hid), ?_, ?_, ?_⟩
  · refine ledger_update h.ledger (i := i) (w := .consuming k id (m.dag.outEdge id) 0 none)
      rfl ?_ ?_ ?_ ?_ ?_ rfl
    · intro v; simp [hi, Worker.ready, DagRun.move]
    · intro v
      have := count_erase_add hid v
      simp only [hi, Worker.running, Multiset.count_zero]
      omega
    · intro v; simp [hi, Worker.sending, Multiset.count_cons, Multiset.count_singleton]
    · intro v
      have := count_erase_add hid v
      simp only [hi, Worker.held, DagRun.move, Multiset.count_add, Multiset.count_cons,
        Multiset.count_singleton, Multiset.count_zero] at this ⊢
      omega
    · simp only [hi, Worker.counted, DagRun.move, Multiset.card_add, Multiset.card_cons]
      omega
  · refine wiring_move h.wiring (i := i) (w := .consuming k id (m.dag.outEdge id) 0 none)
      rfl rfl rfl rfl le_rfl ⟨hsound, fun _ => rfl⟩ ?_ (by simp)
    intro u es hu v
    cases hu
    exact left_count_of_fresh h (Multiset.mem_add.mpr (Or.inr hid)) v
  · refine ⟨?_, ?_, ?_, ?_⟩
    · simp [keyedEvent, hkeyed, h.recorded.log]
    · simpa [DagRun.move] using h.recorded.params
    · exact update_cases (P := fun w => ∀ v ∈ w.running, keyed v = true)
        (by simp [Worker.running]) h.recorded.running
    · simp only [Countdown.finishes, List.filterMap_cons, List.foldr_cons]
      rw [h.recorded.state, Countdown.finishes]

/-- A vertex without call parameters runs at once and leaves no trace. -/
theorem simulates_skip (h : Simulates net n keyed exec s₀ m c) {i : ι} {k id : Nat}
    (hi : m.workers i = .holding k id) (hp : m.allCallParameters id = false) :
    ∃ c', Simulates net n keyed exec s₀
      (m.move i (.consuming (k + 1) id (m.dag.outEdge id) 0 none)) c' := by
  have hid : id ∈ c.ready := mem_ready h.ledger (i := i) (by simp [hi, Worker.ready])
  have hstart : .start id ∉ c.log := by
    have inv := Countdown.reach_inv h.reach
    have hone := Multiset.nodup_iff_count_le_one.mp inv.nodup id
    have hpos := Multiset.count_pos.mpr hid
    rw [inv.started, ← Multiset.count_eq_zero]
    simp only [Countdown.State.tokens, Multiset.count_add] at hone ⊢
    omega
  have hkeyed : keyed id = false := by
    by_contra hk
    have := (h.recorded.params id).mpr ⟨by simpa using hk, hstart⟩
    simp [hp] at this
  have hcard := Multiset.card_erase_add_one hid
  refine ⟨_, (h.reach.tail (.start hid)).tail (.finish (Multiset.mem_cons_self id _)), ?_, ?_, ?_⟩
  · refine ledger_update h.ledger (i := i)
      (w := .consuming (k + 1) id (m.dag.outEdge id) 0 none) rfl ?_ ?_ ?_ ?_ ?_ rfl
    · intro v
      have := count_erase_add hid v
      simp only [hi, Worker.ready, DagRun.move, Option.toList_none, Multiset.coe_nil,
        Multiset.count_zero]
      omega
    · intro v; simp [hi, Worker.running]
    · intro v; simp [hi, Worker.sending, Multiset.count_cons, Multiset.count_singleton]
    · intro v
      simp only [hi, Worker.held, DagRun.move, Multiset.count_add, Multiset.erase_cons_head,
        Multiset.count_cons, Multiset.count_singleton, Multiset.count_zero]
      omega
    · simp only [hi, Worker.counted, DagRun.move, Multiset.card_add, Multiset.card_cons,
        Multiset.erase_cons_head]
      omega
  · refine wiring_move h.wiring (i := i)
      (w := .consuming (k + 1) id (m.dag.outEdge id) 0 none) rfl rfl rfl rfl le_rfl
      ⟨Nat.succ_pos k, fun _ => rfl⟩ ?_ (by simp)
    intro u es hu v
    cases hu
    exact left_count_of_fresh h (Multiset.mem_add.mpr (Or.inl hid)) v
  · refine ⟨?_, ?_, ?_, ?_⟩
    · simpa [keyedEvent, hkeyed, DagRun.move] using h.recorded.log
    · intro v
      by_cases hv : v = id
      · simp [hv, hp, hkeyed, DagRun.move]
      · simp [hv, h.recorded.params v, DagRun.move]
    · exact update_cases (P := fun w => ∀ v ∈ w.running, keyed v = true)
        (by simp [Worker.running]) h.recorded.running
    · exact h.recorded.state

theorem Worker.mem_sending_of_pending {w : Worker} {u : Nat} {es : List Nat}
    (h : w.pending = some (u, es)) : u ∈ w.sending := by
  cases w <;> simp_all [Worker.pending, Worker.sending]

omit [DecidableEq ι] [Fintype ι] in
theorem receive_ready (h : Wiring net n m c) {u t : Nat} (he : (u, t) ∈ c.left) :
    (c.receive (u, t)).ready = if m.dag.inDegree t = 1 then t ::ₘ c.ready else c.ready := by
  have hmap := Multiset.map_erase_of_mem Prod.snd c.left he
  have hmem : t ∈ c.left.map Prod.snd := Multiset.mem_map_of_mem Prod.snd he
  have hcount := count_erase_add hmem t
  rw [← h.degree, Multiset.count_singleton_self] at hcount
  have hiff : t ∈ (c.left.map Prod.snd).erase t ↔ ¬ m.dag.inDegree t = 1 := by
    rw [← Multiset.count_pos]
    omega
  simp only [Countdown.State.receive, hmap, hiff, ite_not]

/-- One decrement of `DAG::consume`, for whatever is done with a vertex that reaches zero. -/
theorem simulates_deliver (h : Simulates net n keyed exec s₀ m c) {i : ι} {k id t p : Nat}
    {es : List Nat} {next : Option Nat} {w : Worker}
    (hi : m.workers i = .consuming k id (t :: es) p next) (hpend : w.pending = some (id, es))
    (hsend : w.sending = {id}) (hrun : w.running = 0) (hheld : w.held = 0)
    (hcounted : w.counted = k) (sound : w.Sound)
    (hready : w.ready = if m.dag.inDegree t = 1 then t ::ₘ (next.toList : Multiset Nat)
      else (next.toList : Multiset Nat)) :
    ∃ c', Simulates net n keyed exec s₀ { m.move i w with dag := m.dag.decrement t } c' := by
  have hid : id ∈ c.sending := mem_sending h.ledger (i := i) (by simp [hi, Worker.sending])
  have hcount := h.wiring.pending i id (t :: es) (by simp [hi, Worker.pending])
  have he : (id, t) ∈ c.left := by
    rw [← Multiset.count_pos, hcount]
    simp
  have hleft : c.left.map Prod.snd = t ::ₘ (c.left.erase (id, t)).map Prod.snd := by
    rw [← Multiset.map_cons Prod.snd (id, t), Multiset.cons_erase he]
  refine ⟨_, h.reach.tail (.deliver (e := (id, t)) hid he), ?_, ?_, ?_⟩
  · refine ledger_update h.ledger (i := i) (w := w) rfl ?_ ?_ ?_ ?_ ?_ rfl
    · intro v
      rw [receive_ready h.wiring he, hready]
      split
      · simp only [hi, Worker.ready, DAG.decrement, Multiset.count_cons]
        omega
      · simp only [hi, Worker.ready, DAG.decrement]
    · intro v; rw [hi, hrun]; rfl
    · intro v; rw [hi, hsend]; rfl
    · intro v; rw [hi, hheld]; rfl
    · rw [hi, hcounted]; rfl
  · refine ⟨h.wiring.total, fun v => ?_, fun u v => ?_, ?_, ?_, ?_⟩
    · rw [DAG.decrement_inDegree, h.wiring.degree, hleft, Multiset.count_cons]
      simp [Countdown.State.receive]
    · rw [DAG.decrement_outEdge]; exact h.wiring.outEdge u v
    · intro j u es' hj v
      by_cases hji : j = i
      · subst j
        simp only [DagRun.move, Function.update_self, hpend, Option.some.injEq,
          Prod.mk.injEq] at hj
        obtain ⟨rfl, rfl⟩ := hj
        by_cases hv : v = t
        · have := hcount t
          simp only [Countdown.State.receive, hv, Multiset.count_erase_self, List.count_cons_self]
            at this ⊢
          omega
        · have := hcount v
          have hne : (id, v) ≠ (id, t) := by simpa using hv
          simpa [Countdown.State.receive, Multiset.count_erase_of_ne hne, List.count_cons,
            Ne.symm hv] using this
      · simp only [DagRun.move, Function.update_of_ne hji] at hj
        have hne : (u, v) ≠ (id, t) := by
          rintro heq
          cases heq
          exact hji (sending_unique h.ledger (Countdown.reach_inv h.reach)
            (Worker.mem_sending_of_pending hj) (by simp [hi, Worker.sending]))
        simpa [Countdown.State.receive, Multiset.count_erase_of_ne hne] using
          h.wiring.pending j u es' hj v
    · exact update_cases sound h.wiring.sound
    · refine fun j => update_cases (P := fun w => w = .left → m.hasFinished) ?_ h.wiring.left j
      rintro rfl
      cases hpend
  · exact recorded_move h.recorded (i := i) (w := w) rfl hrun rfl rfl rfl rfl

/-- The end of `DAG::consume`: the vertex is counted and the kept one is handed out. -/
theorem simulates_retire (h : Simulates net n keyed exec s₀ m c) {i : ι} {k id p : Nat}
    {next : Option Nat} {w : Worker} (hi : m.workers i = .consuming k id [] p next)
    (hpend : w.pending = none) (hsend : w.sending = 0) (hrun : w.running = 0)
    (hready : w.ready = (next.toList : Multiset Nat))
    (hheld : w.held = (next.toList : Multiset Nat)) (hcounted : w.counted = k) (sound : w.Sound)
    (stay : w ≠ .left) :
    ∃ c', Simulates net n keyed exec s₀ { m.move i w with
      dag := { m.dag with totalConsume := m.dag.totalConsume + 1 }
      handed := next.toList ++ m.handed } c' := by
  have hid : id ∈ c.sending := mem_sending h.ledger (i := i) (by simp [hi, Worker.sending])
  have hsent : ∀ v, (id, v) ∉ c.left := by
    intro v
    rw [← Multiset.count_eq_zero, h.wiring.pending i id [] (by simp [hi, Worker.pending])]
    simp
  have hcard := Multiset.card_erase_add_one hid
  refine ⟨_, h.reach.tail (.retire hid hsent), ?_, ?_, ?_⟩
  · refine ledger_update h.ledger (i := i) (w := w) rfl ?_ ?_ ?_ ?_ ?_ ?_
    · intro v; rw [hi, hready]; rfl
    · intro v; rw [hi, hrun]; rfl
    · intro v
      rw [hi, hsend]
      exact count_erase_add hid v
    · intro v
      have := count_erase_add hid v
      rw [hi, hheld]
      simp only [Worker.held, Multiset.count_add, Multiset.count_cons,
        Multiset.count_singleton, List.count_append, Multiset.coe_count, Multiset.count_zero]
        at this ⊢
      omega
    · rw [hi, hcounted]
      simp only [Worker.counted, DagRun.move, Multiset.card_add, Multiset.card_cons]
      omega
    · simp only [Multiset.card_cons]
      omega
  · exact wiring_move h.wiring (i := i) (w := w) rfl rfl rfl rfl le_rfl sound
      (fun u es hu => by simp [hpend] at hu) (fun hl => absurd hl stay)
  · exact recorded_move h.recorded (i := i) (w := w) rfl hrun rfl rfl rfl rfl

theorem simulates_step (h : Simulates net n keyed exec s₀ m c) {m' : DagRun ι σ}
    (step : DagRun.AnyStep exec m m') : ∃ c', Simulates net n keyed exec s₀ m' c' := by
  obtain ⟨i, step⟩ := step
  have hsound := h.wiring.sound i
  cases step with
  | enter hi hg | leave hi hg | miss hi hg | drained hi hg | retry hi hg | timeout hi hg =>
    refine ⟨c, simulates_silent h (i := i) rfl rfl rfl rfl rfl ?_ ?_ ?_ ?_ ?_ ?_ ?_ le_rfl ?_ ?_⟩ <;>
      simp [hi, hg, DagRun.move, Worker.running, Worker.sending, Worker.pending, Worker.ready,
        Worker.held, Worker.counted, Worker.Sound]
  | pop hi hq =>
    refine ⟨c, simulates_silent h (i := i) rfl rfl rfl rfl rfl ?_ ?_ ?_ ?_ ?_ ?_ ?_ le_rfl ?_ ?_⟩ <;>
      simp [hi, hq, DagRun.move, Worker.running, Worker.sending, Worker.pending, Worker.ready,
        Worker.held, Worker.counted, Worker.Sound, list_count_cons]
  | publish hi =>
    refine ⟨c, simulates_silent h (i := i) rfl rfl rfl rfl rfl ?_ ?_ ?_ ?_ ?_ ?_ ?_
      (Nat.le_add_right _ _) ?_ ?_⟩ <;>
      simp [hi, DagRun.move, Worker.running, Worker.sending, Worker.pending, Worker.ready,
        Worker.held, Worker.counted, Worker.Sound]
  | push hi =>
    rw [hi] at hsound
    obtain ⟨hpos, hp⟩ := hsound
    refine ⟨c, simulates_silent h (i := i) rfl rfl rfl rfl rfl ?_ ?_ ?_ ?_ ?_ ?_ ?_ le_rfl
      ⟨hpos, fun hz => absurd hz (by omega)⟩ ?_⟩ <;>
      simp [hi, DagRun.move, Worker.running, Worker.sending, Worker.pending, Worker.ready,
        Worker.held, Worker.counted, list_count_cons, ← Multiset.singleton_add]
    intro v
    omega
  | skip hi hp => exact simulates_skip h hi hp
  | begin hi hp => exact simulates_begin h hi hp
  | finish hi => exact simulates_finish h hi
  | decrement hi hd =>
    rw [hi] at hsound
    exact simulates_deliver h hi rfl rfl rfl rfl rfl hsound (by simp [Worker.ready, hd])
  | keep hi hd =>
    rw [hi] at hsound
    obtain ⟨hpos, hnone⟩ := hsound
    refine simulates_deliver h hi rfl rfl rfl rfl rfl ⟨hpos, by simp⟩ ?_
    simp [Worker.ready, hd, hnone rfl]
  | produce hi hd =>
    rw [hi] at hsound
    exact simulates_deliver h hi rfl rfl rfl rfl rfl ⟨hsound.1, by omega⟩
      (by simp [Worker.ready, hd])
  | consumeLast hi =>
    exact simulates_retire h hi (w := .waiting _) rfl rfl rfl rfl rfl rfl trivial (by simp)
  | consumeNext hi =>
    exact simulates_retire h hi (w := .holding _ _) rfl rfl rfl rfl rfl rfl trivial (by simp)

end BcosExecutor
