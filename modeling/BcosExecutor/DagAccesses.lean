import BcosExecutor.DagSchedule
import BcosExecutor.InterleavedRuns
import BcosExecutor.RowAccesses

namespace BcosExecutor

open Interleaving (Config Footprint System Program)

variable {ι K : Type*} [DecidableEq ι] [Fintype ι] [DecidableEq K]

/-- The workers of the DAG execution, without the transactions that they execute. -/
def dagSystem (ι : Type*) [DecidableEq ι] (txsCriticals : List (List K)) :
    System (DagRun ι Unit) Nat where
  init := DagRun.init txsCriticals ()
  Step := DagRun.AnyStep fun _ s => s
  log := DagRun.log
  Running m id := ∃ i k, m.workers i = .executing k id

variable {txs : List (List K)} {m m' : DagRun ι Unit}

omit [Fintype ι] [DecidableEq K] in
theorem step_log {exec : Nat → Unit → Unit} (step : DagRun.AnyStep exec m m') :
    m'.log = m.log ∨ (∃ v, m'.log = .start v :: m.log) ∨
      ∃ v, (∃ i k, m.workers i = .executing k v) ∧ m'.log = .finish v :: m.log := by
  obtain ⟨i, step⟩ := step
  cases step with
  | begin hi hp => exact .inr (.inl ⟨_, rfl⟩)
  | finish hi => exact .inr (.inr ⟨_, ⟨i, _, hi⟩, rfl⟩)
  | _ => exact .inl rfl

theorem dagSystem_disciplined (ι : Type*) [DecidableEq ι] [Fintype ι] (txs : List (List K)) :
    (dagSystem ι txs).Disciplined fun i j => i < j ∧ Shares txs i j where
  fresh := rfl
  grows := step_log
  running := by
    rintro m v reach ⟨i, k, hi⟩
    obtain ⟨edges, c, h, _⟩ := reachable_simulates reach
    have inv := Countdown.reach_inv h.reach
    have hworker : v ∈ (m.workers i).running := by
      rw [hi]
      exact Multiset.mem_singleton_self v
    have hrunning : v ∈ c.running := mem_running h.ledger hworker
    have hkeyed := h.recorded.running i v hworker
    obtain ⟨hstart, hfinish⟩ := Countdown.running_between inv hrunning
    show .start v ∈ m.log ∧ .finish v ∉ m.log
    rw [h.recorded.log]
    exact ⟨List.mem_filter.mpr ⟨hstart, hkeyed⟩, fun hmem => hfinish (List.mem_filter.mp hmem).1⟩
  before := fun reach h => (dagExecute_correct reach).2.2.2.1 _ _ h.1 h.2

/-- The transactions that the workers execute, in the order of the block. -/
def keyedTxs (txsCriticals : List (List K)) (n : Nat) : List Nat :=
  (List.range n).filter (DagRun.hasCriticals txsCriticals)

omit [DecidableEq K] in
theorem mem_keyedTxs {n id : Nat} :
    id ∈ keyedTxs txs n ↔ id < n ∧ DagRun.hasCriticals txs id = true := by
  rw [keyedTxs, List.mem_filter, List.mem_range]

omit [DecidableEq K] in
theorem pairwise_keyedTxs {n : Nat} : (keyedTxs txs n).Pairwise (· < ·) :=
  List.pairwise_lt_range.filter _

omit [DecidableEq K] in
theorem lt_of_hasCriticals {id : Nat} (h : DagRun.hasCriticals txs id = true) :
    id < txs.length := by
  by_contra hle
  rw [DagRun.hasCriticals, List.getD_eq_getElem?_getD,
    List.getElem?_eq_none (Nat.le_of_not_lt hle)] at h
  exact Bool.false_ne_true h

omit [DecidableEq K] in
/-- The transactions before one of them, and those behind it. -/
theorem keyedTxs_split {n id : Nat} (hid : id < n) (hkeyed : DagRun.hasCriticals txs id = true) :
    ∃ after, keyedTxs txs n = keyedTxs txs id ++ id :: after := by
  obtain ⟨k, rfl⟩ := Nat.exists_eq_add_of_lt hid
  refine ⟨((List.range k).map (id + 1 + ·)).filter (DagRun.hasCriticals txs), ?_⟩
  have hrange : List.range (id + k + 1) =
      List.range id ++ id :: (List.range k).map (id + 1 + ·) := by
    rw [show id + k + 1 = id + 1 + k by omega, List.range_add, List.range_succ]
    simp
  rw [keyedTxs, hrange, List.filter_append, List.filter_cons_of_pos hkeyed]
  rfl

/-- The log of the workers names transactions with criticals. -/
theorem keyed_of_start (reach : (dagSystem ι txs).Reachable m) {id : Nat}
    (h : .start id ∈ m.log) : id ∈ keyedTxs txs txs.length := by
  obtain ⟨edges, c, hsim, hforward, _⟩ := reachable_simulates reach
  have inv := Countdown.reach_inv hsim.reach
  rw [hsim.recorded.log] at h
  obtain ⟨hstart, hkeyed⟩ := List.mem_filter.mp h
  refine mem_keyedTxs.mpr ⟨(vertex_known hforward id).mp (inv.known id ?_), hkeyed⟩
  have hmem := (inv.started id).mp hstart
  simp only [Countdown.State.tokens, Multiset.mem_add] at hmem ⊢
  tauto

/-- A block whose transactions with criticals have executives over these rows. -/
def dagConfig (txsCriticals : List (List K)) (env : Environment) (behaviour : Nat → Behaviour Empty)
    (block : Nat → CallParameters) (rows : Rows) :
    Config Nat StateRow Entry (Option (Except Exc Ending)) where
  store := rows
  programs id :=
    if DagRun.hasCriticals txsCriticals id then messageAccesses env (behaviour id) (block id)
    else .done none

section

variable {st : StateStorage} {env : Environment} {behaviour : Nat → Behaviour Empty}
  {block : Nat → CallParameters}

omit [DecidableEq K] in
theorem dagConfig_program {id : Nat} (hkeyed : DagRun.hasCriticals txs id = true) (rows : Rows) :
    (dagConfig txs env behaviour block rows).programs id =
      messageAccesses env (behaviour id) (block id) :=
  if_pos hkeyed

omit [DecidableEq K] in
theorem dagConfig_serialStore (h : st.Lawful) (n : Nat) (s : st.State) :
    Program.serialStore (dagConfig txs env behaviour block (st.getRow s)).programs (keyedTxs txs n)
        (st.getRow s) = st.getRow (serialState st env behaviour block s (keyedTxs txs n)) := by
  have hprograms : ∀ id ∈ keyedTxs txs n,
      (dagConfig txs env behaviour block (st.getRow s)).programs id =
        messageAccesses env (behaviour id) (block id) :=
    fun id hid => dagConfig_program (mem_keyedTxs.mp hid).2 _
  have hserial := serialStore_messages h hprograms s
  rwa [List.map_id'] at hserial

omit [DecidableEq K] in
theorem kept_dagConfig {good : StateRow → Option Entry → Prop}
    {footprints : Nat → Footprint StateRow}
    (keeps : ∀ id, DagRun.hasCriticals txs id = true →
      (TransactionExecutive.execute env (behaviour id) (block id)).Keeps good (footprints id))
    {s : st.State} (hs : ∀ row, good row (st.getRow s row)) :
    (dagConfig txs env behaviour block (st.getRow s)).Kept good footprints := by
  refine ⟨hs, fun id => ?_⟩
  unfold dagConfig
  dsimp only
  split
  next hkeyed => exact (keeps id hkeyed).accesses _ (by simp)
  next => trivial

/-- However the rows are read and written while the workers execute a block, what is left are the
rows and the answers of its transactions with criticals one after the other, when transactions
that share no critical keep apart. -/
theorem dagExecute_serializable (h : st.Lawful) {good : StateRow → Option Entry → Prop}
    {footprints : Nat → Footprint StateRow}
    (keeps : ∀ id, DagRun.hasCriticals txs id = true →
      (TransactionExecutive.execute env (behaviour id) (block id)).Keeps good (footprints id))
    (apart : ∀ i j, i < j → DagRun.hasCriticals txs i = true → DagRun.hasCriticals txs j = true →
      ¬ Shares txs i j → (footprints i).Apart (footprints j))
    {s : st.State} (hs : ∀ row, good row (st.getRow s row))
    {c : Config Nat StateRow Entry (Option (Except Exc Ending))}
    (reach : Relation.ReflTransGen (dagSystem ι txs).AccessStep
      (DagRun.init txs (), dagConfig txs env behaviour block (st.getRow s)) (m, c))
    (hf : m.hasFinished ∨ ∃ i, m.workers i = .left) :
    c.store = st.getRow (serialState st env behaviour block s (keyedTxs txs txs.length)) ∧
      ∀ id, DagRun.hasCriticals txs id = true → ∃ out, c.programs id = .done out ∧
        answered out = (executeMessage st env (behaviour id) (block id)
          (serialState st env behaviour block s (keyedTxs txs id))).response := by
  have hsystem := dagSystem_disciplined ι txs
  obtain ⟨accesses, haccessed⟩ := Interleaving.System.exists_accessed hsystem reach
  have hreach : (dagSystem ι txs).Reachable m := haccessed.reachable
  have hnodup : (keyedTxs txs txs.length).Nodup := List.nodup_range.filter _
  have hserial := hsystem.serial pairwise_keyedTxs hnodup
    (fun i hi j hj hlt hmust => apart i j hlt (mem_keyedTxs.mp hi).2 (mem_keyedTxs.mp hj).2
      fun hshare => hmust ⟨hlt, hshare⟩)
    (kept_dagConfig keeps hs) reach (fun v hv => keyed_of_start hreach hv) fun v hv => by
      obtain ⟨hlt, hkeyed⟩ := mem_keyedTxs.mp hv
      have hcount := ((dagExecute_correct hreach).2.1 hf v hlt hkeyed).2
      exact List.count_pos_iff.mp (hcount ▸ Nat.one_pos)
  rw [hserial]
  refine ⟨?_, fun id hkeyed => ?_⟩
  · rw [Config.foldl_finish_store hnodup]
    exact dagConfig_serialStore h _ s
  · obtain ⟨after, hsplit⟩ := keyedTxs_split (lt_of_hasCriticals hkeyed) hkeyed
    rw [hsplit] at hnodup ⊢
    refine ⟨_, Config.foldl_finish_programs hnodup _, ?_⟩
    have hstore : (dagConfig txs env behaviour block (st.getRow s)).store = st.getRow s := rfl
    rw [dagConfig_program hkeyed, hstore, dagConfig_serialStore h _ s]
    exact (messageAccesses_run h env _ _ _).1

end

/-- Two transactions that share no critical. -/
def apartCriticals : List (List String) :=
  [["a" ++ "100c"], ["b" ++ "100c"]]

theorem apartCriticals_finishes : ∃ m : DagRun Unit Unit,
    (dagSystem Unit apartCriticals).Reachable m ∧ m.hasFinished := by
  have start : (dagSystem Unit apartCriticals).Reachable
      (DagRun.init apartCriticals ()) := .refl
  have first := (((((start.tail ⟨(), .enter rfl (Nat.not_succ_le_zero 1)⟩).tail
    ⟨(), .pop rfl rfl⟩).tail ⟨(), .begin rfl rfl⟩).tail ⟨(), .finish rfl⟩).tail
    ⟨(), .consumeLast rfl⟩)
  have second := (((first.tail ⟨(), .pop rfl rfl⟩).tail
    ⟨(), .begin rfl rfl⟩).tail ⟨(), .finish rfl⟩).tail ⟨(), .consumeLast rfl⟩
  have last := ((second.tail ⟨(), .miss rfl rfl⟩).tail ⟨(), .drained rfl (by decide)⟩).tail
    ⟨(), .publish rfl⟩
  exact ⟨_, last, Nat.le_refl 2⟩

theorem dagExecute_serializable_apart : ∃ (m : DagRun Unit Unit)
    (c : Config Nat StateRow Entry (Option (Except Exc Ending))),
    Relation.ReflTransGen (dagSystem Unit apartCriticals).AccessStep
      (DagRun.init apartCriticals (),
        dagConfig apartCriticals evmEnvironment writesOwnRow toOwnRow fun _ => none) (m, c) ∧
      c.store = undoLogStorage.getRow (serialState undoLogStorage evmEnvironment writesOwnRow
        toOwnRow (fun _ => none) (keyedTxs apartCriticals 2)) := by
  obtain ⟨m, hreach, hf⟩ := apartCriticals_finishes
  obtain ⟨c, hc⟩ := (dagSystem_disciplined Unit apartCriticals).lift hreach
    (dagConfig apartCriticals evmEnvironment writesOwnRow toOwnRow fun _ => none)
  have hserial := dagExecute_serializable undoLogStorage_lawful
    (fun id _ => keeps_writesOwnRow id) (fun i j hlt _ _ _ => apart_ownRow (Nat.ne_of_lt hlt))
    (s := fun _ => none) (fun _ => trivial) hc (.inl hf)
  exact ⟨m, c, hc, hserial.1⟩

end BcosExecutor
