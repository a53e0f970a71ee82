import BcosExecutor.Commuting
import BcosExecutor.DagRuns

namespace BcosExecutor

open Countdown (Net)

/-- The net in which the vertices of a DAG send one message along every edge. -/
def dagNet (n : Nat) (edges : List (Nat × Nat)) : Net Nat where
  edges := edges
  sources := ⟨(List.range n).filter fun v => (edges.map Prod.snd).count v = 0,
    Multiset.coe_nodup.mpr (List.nodup_range.filter _)⟩
  sources_free := by
    intro v hv
    obtain ⟨_, hv⟩ := List.mem_filter.mp (Multiset.mem_coe.mp hv)
    rw [Multiset.map_coe, Multiset.mem_coe]
    exact List.count_eq_zero.mp (of_decide_eq_true hv)

theorem filter_fst_count (edges : List (Nat × Nat)) (u v : Nat) :
    ((edges.filter (·.1 = u)).map Prod.snd).count v =
      (edges : Multiset (Nat × Nat)).count (u, v) := by
  induction edges with
  | nil => rfl
  | cons e edges ih =>
    obtain ⟨a, b⟩ := e
    rw [← Multiset.cons_coe, Multiset.count_cons]
    by_cases ha : a = u
    · subst a
      simp [list_count_cons, Multiset.count_singleton, ih]
    · simp [ih, ha, Ne.symm ha]

variable {ι σ K : Type*} [DecidableEq ι] [Fintype ι] [DecidableEq K] {exec : Nat → σ → σ} {s₀ : σ}
  {txs : List (List K)} {m : DagRun ι σ}

omit [DecidableEq ι] in
theorem simulates_init (exec : Nat → σ → σ) (s₀ : σ) {txs : List (List K)}
    {edges : List (Nat × Nat)}
    (hout : ∀ u, (TxDAG.init txs).outEdge u = (edges.filter (·.1 = u)).map Prod.snd)
    (hdeg : ∀ v, (TxDAG.init txs).inDegree v = (edges.map Prod.snd).count v)
    (htop : (TxDAG.init txs).topLevel =
      (List.range txs.length).filter fun v => (edges.map Prod.snd).count v = 0)
    (htotal : (TxDAG.init txs).totalVtxs = txs.length)
    (hconsume : (TxDAG.init txs).totalConsume = 0) :
    Simulates (ι := ι) (dagNet txs.length edges) txs.length (DagRun.hasCriticals txs) exec s₀
      (DagRun.init txs s₀) (dagNet txs.length edges).init := by
  have idle (f : Worker → Nat) (hf : f .deciding = 0) :
      ∑ i, f ((DagRun.init (ι := ι) txs s₀).workers i) = 0 :=
    Finset.sum_eq_zero fun _ _ => hf
  refine ⟨.refl, ⟨fun v => ?_, fun v => ?_, fun v => ?_, fun v => ?_, ?_, hconsume⟩,
    ⟨htotal, ?_, fun u v => ?_, ?_, fun _ => trivial, ?_⟩, ⟨rfl, ?_, ?_, rfl⟩⟩
  · rw [idle (fun w => w.ready.count v) rfl]
    change _ = (TxDAG.init txs).topLevel.count v + 0
    rw [htop]
    exact Multiset.coe_count v _
  · exact (idle (fun w => w.running.count v) rfl).symm
  · exact (idle (fun w => w.sending.count v) rfl).symm
  · rw [idle (fun w => w.held.count v) rfl]; rfl
  · rw [idle Worker.counted rfl]; rfl
  · exact fun v => (hdeg v).trans (Multiset.coe_count v _).symm
  · change ((TxDAG.init txs).outEdge u).count v = _
    rw [hout, filter_fst_count]
    rfl
  · intro i u es hi; cases hi
  · intro i hi; cases hi
  · simp [DagRun.init, Net.init]
  · intro i v hv; simp [DagRun.init, Worker.running] at hv

/-- Every reachable state of the workers shows a reachable state of the net of a forward DAG
in which the users of one critical are connected. -/
theorem reachable_simulates (reach : DagRun.Reachable exec txs s₀ m) :
    ∃ edges c, Simulates (dagNet txs.length edges) txs.length (DagRun.hasCriticals txs) exec s₀
        m c ∧
      (∀ e ∈ edges, e.1 < e.2 ∧ e.2 < txs.length) ∧
      ∀ i j, i < j → Shares txs i j → Relation.TransGen (Linked edges) i j := by
  obtain ⟨edges, hforward, hordered, hout, hdeg, htop, htotal, hconsume⟩ := init_spec txs
  refine ⟨edges, ?_⟩
  induction reach with
  | refl =>
    exact ⟨_, simulates_init exec s₀ hout hdeg htop htotal hconsume, hforward, hordered⟩
  | tail _ step ih =>
    obtain ⟨c, h, _⟩ := ih
    obtain ⟨c', h'⟩ := simulates_step h step
    exact ⟨c', h', hforward, hordered⟩

variable {edges : List (Nat × Nat)} {c : Countdown.State Nat} {keyed : Nat → Bool} {n : Nat}

omit [DecidableEq ι] in
theorem card_sending_le (h : Ledger m c) (sound : ∀ i, (m.workers i).Sound) :
    c.running.card + c.sending.card ≤ ∑ i, (m.workers i).counted := by
  have hrunning : c.running = ∑ i, (m.workers i).running := by
    ext v
    rw [h.running, Multiset.count_sum']
  have hsending : c.sending = ∑ i, (m.workers i).sending := by
    ext v
    rw [h.sending, Multiset.count_sum']
  rw [hrunning, hsending, Multiset.card_sum, Multiset.card_sum, ← Finset.sum_add_distrib]
  exact Finset.sum_le_sum fun i _ => Worker.card_le_counted (sound i)

theorem vertex_known (hforward : ∀ e ∈ edges, e.1 < e.2 ∧ e.2 < n) (v : Nat) :
    (v ∈ (dagNet n edges).edges.map Prod.snd ∨ v ∈ (dagNet n edges).sources) ↔ v < n := by
  have hsource : v ∈ (dagNet n edges).sources ↔ v < n ∧ (edges.map Prod.snd).count v = 0 := by
    change v ∈ (List.range n).filter _ ↔ _
    rw [List.mem_filter, List.mem_range, decide_eq_true_iff]
  have htarget : v ∈ (dagNet n edges).edges.map Prod.snd ↔ v ∈ edges.map Prod.snd := Iff.rfl
  rw [hsource, htarget]
  constructor
  · rintro (hv | hv)
    · obtain ⟨e, he, rfl⟩ := List.mem_map.mp hv
      exact (hforward e he).2
    · exact hv.1
  · intro hv
    by_cases hmem : v ∈ edges.map Prod.snd
    · exact Or.inl hmem
    · exact Or.inr ⟨hv, List.count_eq_zero.mpr hmem⟩

omit [DecidableEq ι] in
/-- The published count never runs ahead of the vertices that are consumed. -/
theorem done_of_hasFinished (h : Simulates (dagNet n edges) n keyed exec s₀ m c)
    (hforward : ∀ e ∈ edges, e.1 < e.2 ∧ e.2 < n) (hf : m.hasFinished) {v : Nat} (hv : v < n) :
    v ∈ c.done := by
  have inv := Countdown.reach_inv h.reach
  have hcounted := h.ledger.counted
  have hle := card_sending_le h.ledger h.wiring.sound
  have htotal := h.wiring.total
  unfold DagRun.hasFinished at hf
  have hcard : n ≤ c.done.card := by
    simp only [Multiset.card_add] at hcounted
    omega
  have hsub : c.done ≤ c.tokens := Multiset.le_add_left _ _
  have hnodup : c.done.Nodup := Multiset.nodup_of_le hsub inv.nodup
  have hrange : c.done ⊆ Multiset.range n := by
    intro u hu
    exact Multiset.mem_range.mpr
      ((vertex_known hforward u).mp (inv.known u (Multiset.mem_of_le hsub hu)))
  have hle' : c.done ≤ Multiset.range n := (Multiset.le_iff_subset hnodup).mpr hrange
  rw [Multiset.eq_of_le_of_card_le hle' (by simpa using hcard)]
  exact Multiset.mem_range.mpr hv

omit [DecidableEq ι] in
theorem handed_nodup {net : Net Nat} (h : Simulates net n keyed exec s₀ m c) :
    m.handed.Nodup := by
  have inv := Countdown.reach_inv h.reach
  refine List.nodup_iff_count_le_one.mpr fun v => ?_
  have hheld : ∑ i, (m.workers i).held.count v ≤ ∑ i, (m.workers i).ready.count v :=
    Finset.sum_le_sum fun i _ => Worker.held_le_ready (m.workers i) v
  have hready := h.ledger.ready v
  have hhanded := h.ledger.handed v
  have hone := Multiset.nodup_iff_count_le_one.mp inv.nodup v
  simp only [Countdown.State.tokens, Multiset.count_add] at hone hhanded
  omega

/-- The vertices a worker has taken out of the graph and not yet counted as consumed. -/
def Worker.vertices (w : Worker) : Multiset Nat :=
  w.ready + w.running + w.sending

omit [DecidableEq ι] in
/-- While vertices are unconsumed, either the queue or some worker has one. -/
theorem exists_busy (h : Simulates (dagNet n edges) n keyed exec s₀ m c)
    (hforward : ∀ e ∈ edges, e.1 < e.2 ∧ e.2 < n) (hleft : m.dag.totalConsume < m.dag.totalVtxs)
    (hqueue : m.dag.topLevel = []) : ∃ i, (m.workers i).vertices ≠ 0 := by
  have inv := Countdown.reach_inv h.reach
  have hcard : c.done.card < n := by
    have := h.ledger.consumed
    have := h.wiring.total
    omega
  obtain ⟨v, hv, hd⟩ : ∃ v, v < n ∧ v ∉ c.done := by
    by_contra hall
    push Not at hall
    have hsub : Multiset.range n ≤ c.done :=
      (Multiset.le_iff_subset (Multiset.nodup_range n)).mpr fun u hu =>
        hall u (Multiset.mem_range.mp hu)
    have := Multiset.card_le_card hsub
    simp only [Multiset.card_range] at this
    omega
  obtain ⟨w, hw⟩ := Countdown.exists_active_of_not_done inv id
    (fun u v he => Or.inr (hforward _ he).1)
    (fun u hu hnot => by
      have hlt : u < n := by
        obtain ⟨e, he, rfl⟩ := Multiset.mem_map.mp hu
        have := hforward e he
        omega
      exact ((vertex_known hforward u).mpr hlt).resolve_left hnot)
    (fun u he _ => Nat.lt_irrefl u (hforward _ he).1) ((vertex_known hforward v).mpr hv) hd
  by_contra hidle
  push Not at hidle
  have hnone (i : ι) : (m.workers i).ready.count w = 0 ∧ (m.workers i).running.count w = 0 ∧
      (m.workers i).sending.count w = 0 := by
    have := congrArg (Multiset.count w) (hidle i)
    simp only [Worker.vertices, Multiset.count_add, Multiset.count_zero] at this
    omega
  have hready := h.ledger.ready w
  have hrunning := h.ledger.running w
  have hsending := h.ledger.sending w
  have hpos := Multiset.count_pos.mpr hw
  simp only [hqueue, List.count_nil, hnone, Finset.sum_const_zero] at hready hrunning hsending
  simp only [Multiset.count_add] at hpos
  omega

omit [Fintype ι] [DecidableEq ι] in
theorem finishes_filter (keyed : Nat → Bool) (log : List (Countdown.Event Nat)) :
    Countdown.finishes (log.filter (keyedEvent keyed)) =
      (Countdown.finishes log).filter keyed := by
  induction log with
  | nil => rfl
  | cons e log ih =>
    cases e with
    | start v =>
      by_cases hk : keyed v = true
      · simpa [keyedEvent, hk, Countdown.finishes] using ih
      · simpa [keyedEvent, hk, Countdown.finishes] using ih
    | finish v =>
      by_cases hk : keyed v = true
      · simpa [keyedEvent, hk, Countdown.finishes] using ih
      · simpa [keyedEvent, hk, Countdown.finishes] using ih

omit [DecidableEq K] in
theorem hasCriticals_of_shares {txs : List (List K)} {i j : Nat} (h : Shares txs i j) :
    DagRun.hasCriticals txs i = true := by
  obtain ⟨x, hx, _⟩ := h
  cases hi : txs.getD i [] with
  | nil => rw [hi] at hx; cases hx
  | cons y ys => simp only [DagRun.hasCriticals, hi, List.isEmpty_cons, Bool.not_false]

omit [DecidableEq ι] [DecidableEq K] in
/-- The final state is that of the executions in index order. -/
theorem state_of_hasFinished
    (h : Simulates (dagNet txs.length edges) txs.length (DagRun.hasCriticals txs) exec s₀ m c)
    (hforward : ∀ e ∈ edges, e.1 < e.2 ∧ e.2 < txs.length)
    (hordered : ∀ i j, i < j → Shares txs i j → Relation.TransGen (Linked edges) i j)
    (hf : m.hasFinished)
    (comm : ∀ i j, i < txs.length → j < txs.length → ¬ Shares txs i j →
      ∀ s, exec j (exec i s) = exec i (exec j s)) :
    m.state = ((List.range txs.length).filter (DagRun.hasCriticals txs)).foldl
      (fun s id => exec id s) s₀ := by
  have inv := Countdown.reach_inv h.reach
  have hlt {v : Nat} (hv : v ∈ Countdown.finishes c.log) : v < txs.length := by
    have hmem := (inv.finished v).mp (Countdown.mem_finishes.mp hv)
    refine (vertex_known hforward v).mp (inv.known v ?_)
    simp only [Countdown.State.tokens, Multiset.mem_add] at hmem ⊢
    tauto
  have hnodup := Countdown.finishes_nodup inv
  have hperm : ((Countdown.finishes c.log).filter (DagRun.hasCriticals txs)).reverse.Perm
      ((List.range txs.length).filter (DagRun.hasCriticals txs)) := by
    refine (List.reverse_perm _).trans (List.Perm.filter _ ?_)
    refine (List.perm_ext_iff_of_nodup hnodup List.nodup_range).mpr fun v => ?_
    rw [List.mem_range]
    refine ⟨hlt, fun hv => Countdown.mem_finishes.mpr ((inv.finished v).mpr ?_)⟩
    exact Multiset.mem_add.mpr (Or.inr (done_of_hasFinished h hforward hf hv))
  rw [h.recorded.state, h.recorded.log, finishes_filter, ← List.foldl_reverse]
  refine Commuting.foldl_eq_of_conflicts_ordered (Shares txs) (· < ·)
    (fun _ _ => Nat.lt_asymm) hperm (List.pairwise_lt_range.filter _) ?_ ?_ s₀
  · have hpaths := Countdown.finishes_respect_paths h.reach
    refine List.pairwise_reverse.mpr (((hpaths.and hnodup).filter _).imp ?_)
    intro later earlier hlater hshare
    by_contra hle
    have hne := hlater.2
    obtain ⟨x, hx, hx'⟩ := hshare
    exact hlater.1 (hordered later earlier (by omega) ⟨x, hx', hx⟩)
  · intro i hi j hj hij s
    have hi' := List.mem_filter.mp (List.mem_reverse.mp hi)
    have hj' := List.mem_filter.mp (List.mem_reverse.mp hj)
    exact comm i j (hlt hi'.1) (hlt hj'.1) hij s

/-- Every interleaving of the workers hands out a vertex at most once, has executed every
transaction with criticals exactly once when the loop can be left, never gets stuck, and
orders the transactions that share a critical by their index. -/
theorem dagExecute_correct (reach : DagRun.Reachable exec txs s₀ m) :
    m.handed.Nodup ∧
    ((m.hasFinished ∨ ∃ i, m.workers i = .left) →
      ∀ id < txs.length, DagRun.hasCriticals txs id = true →
        m.log.count (.start id) = 1 ∧ m.log.count (.finish id) = 1) ∧
    (m.dag.totalConsume < m.dag.totalVtxs → m.dag.topLevel = [] →
      ∃ i, (m.workers i).vertices ≠ 0) ∧
    (∀ i j, i < j → Shares txs i j → Countdown.Before m.log i j) ∧
    ((∀ i j, i < txs.length → j < txs.length → ¬ Shares txs i j →
        ∀ s, exec j (exec i s) = exec i (exec j s)) →
      (m.hasFinished ∨ ∃ i, m.workers i = .left) →
      m.state = ((List.range txs.length).filter (DagRun.hasCriticals txs)).foldl
        (fun s id => exec id s) s₀) := by
  obtain ⟨edges, c, h, hforward, hordered⟩ := reachable_simulates reach
  have inv := Countdown.reach_inv h.reach
  have finished (hf : m.hasFinished ∨ ∃ i, m.workers i = .left) : m.hasFinished :=
    hf.elim id fun ⟨i, hi⟩ => h.wiring.left i hi
  refine ⟨handed_nodup h, fun hf id hid hkeyed => ?_, exists_busy h hforward, ?_, ?_⟩
  · have hdone := done_of_hasFinished h hforward (finished hf) hid
    obtain ⟨hs, hfin⟩ := Countdown.started_at_most_once inv id
    have hstart := List.count_pos_iff.mpr ((inv.started id).mpr (by simp [hdone]))
    have hfinish := List.count_pos_iff.mpr ((inv.finished id).mpr (by simp [hdone]))
    have hkeep : keyedEvent (DagRun.hasCriticals txs) (.start id) = true ∧
        keyedEvent (DagRun.hasCriticals txs) (.finish id) = true := ⟨hkeyed, hkeyed⟩
    rw [h.recorded.log, List.count_filter hkeep.1, List.count_filter hkeep.2]
    omega
  · intro i j hij hshare
    rw [h.recorded.log]
    exact Countdown.before_filter (Countdown.before_of_path h.reach (hordered i j hij hshare))
      (hasCriticals_of_shares hshare)
  · exact fun comm hf => state_of_hasFinished h hforward hordered (finished hf) comm

theorem dagExecute_correct_single : ∃ m : DagRun Unit (List Nat),
    DagRun.Reachable (fun id s => id :: s) [[7]] [] m ∧ m.hasFinished ∧ m.state = [0] := by
  have start : DagRun.Reachable (ι := Unit) (fun id (s : List Nat) => id :: s) [[7]] []
    (DagRun.init [[7]] []) := .refl
  have run := (((((((start.tail ⟨(), .enter rfl (Nat.not_succ_le_zero 0)⟩).tail ⟨(), .pop rfl rfl⟩).tail
    ⟨(), .begin rfl rfl⟩).tail ⟨(), .finish rfl⟩).tail ⟨(), .consumeLast rfl⟩).tail
    ⟨(), .miss rfl rfl⟩).tail ⟨(), .drained rfl (by decide)⟩).tail ⟨(), .publish rfl⟩
  refine ⟨_, run, Nat.le_refl 1, ?_⟩
  exact (dagExecute_correct run).2.2.2.2 (fun i j hi hj _ s => by simp at hi hj; simp [hi, hj])
    (Or.inl (Nat.le_refl 1))

end BcosExecutor
