import BcosExecutor.FlowSchedule
import BcosExecutor.InterleavedRuns
import BcosExecutor.RowAccesses

namespace BcosExecutor

open FlowGraph
open Interleaving (Config Footprint System Program)

/-- The executives of the tasks over these rows; the start node only sends its messages. -/
def flowConfig (tasks : Nat) (env : Environment) (behaviour : Nat → Behaviour Empty)
    (block : Nat → CallParameters) (rows : Rows) :
    Config Node StateRow Entry (Option (Except Exc Ending)) where
  store := rows
  programs
    | .start => .done none
    | .task t => if t < tasks then messageAccesses env (behaviour t) (block t) else .done none

/-- The nodes of the flow graph in the order of the block. -/
def flowNodes (tasks : Nat) : List Node :=
  .start :: (List.range tasks).map .task

theorem mem_flowNodes {tasks : Nat} {v : Node} :
    v ∈ flowNodes tasks ↔ v = .start ∨ ∃ t < tasks, v = .task t := by
  unfold flowNodes
  rw [List.mem_cons, List.mem_map]
  refine or_congr_right (exists_congr fun t => ?_)
  rw [List.mem_range, eq_comm]

theorem pairwise_flowNodes (tasks : Nat) :
    (flowNodes tasks).Pairwise fun u v => u.rank < v.rank := by
  refine List.pairwise_cons.mpr ⟨fun v hv => ?_, ?_⟩
  · obtain ⟨t, _, rfl⟩ := List.mem_map.mp hv
    exact Nat.succ_pos t
  · exact List.pairwise_map.mpr (List.pairwise_lt_range.imp fun h => Nat.succ_lt_succ h)

theorem nodup_flowNodes (tasks : Nat) : (flowNodes tasks).Nodup :=
  (pairwise_flowNodes tasks).imp fun hlt heq => absurd (heq ▸ hlt) (Nat.lt_irrefl _)

variable {txs : List (Option (List ConflictField))} {c : Countdown.State Node}

theorem flowNodes_of_start (reach : Countdown.Reach (flowNet txs) c) {v : Node}
    (h : .start v ∈ c.log) : v ∈ flowNodes (txs.filterMap id).length := by
  have inv := Countdown.reach_inv reach
  have hmem := (inv.started v).mp h
  have htoken : v ∈ c.tokens := by
    simp only [Countdown.State.tokens, Multiset.mem_add] at hmem ⊢
    tauto
  refine mem_flowNodes.mpr ?_
  cases v with
  | start => exact .inl rfl
  | task t =>
    refine .inr ⟨t, ?_, rfl⟩
    rcases inv.known _ htoken with htarget | hsource
    · obtain ⟨⟨u, w⟩, he, hw⟩ := Multiset.mem_map.mp htarget
      cases hw
      exact (build_spec txs).2.2.1.known u t he
    · exact absurd (Finset.mem_singleton.mp hsource) (by simp)

theorem flowNodes_finished (forward : ∀ u v, (build txs).Edge (.task u) (.task v) → u < v)
    (reach : Countdown.Reach (flowNet txs) c) (rest : c.ready + c.running + c.sending = 0)
    {v : Node} (hv : v ∈ flowNodes (txs.filterMap id).length) : .finish v ∈ c.log := by
  have hfed : v ∈ (flowNet txs).edges.map Prod.snd ∨ v ∈ (flowNet txs).sources := by
    rcases mem_flowNodes.mp hv with rfl | ⟨t, ht, rfl⟩
    · exact .inr (Finset.mem_singleton_self _)
    · exact .inl (task_is_target ((build_spec txs).2.1 ▸ ht))
  refine (Countdown.finished_iff_of_quiescent reach Node.rank (fun _ _ => flowNet_acyclic)
    flowNet_fed rest hfed).mpr fun u he _ => ?_
  cases u with
  | start => exact (build_spec txs).2.2.1.start _ he
  | task u => exact Nat.lt_irrefl u (forward u u he)

theorem conflicts_path {t t' : Nat} (hlt : t < t')
    (hc : Conflicts ((txs.filterMap id).getD t []) ((txs.filterMap id).getD t' [])) :
    Relation.TransGen (build txs).Edge (.task t) (.task t') := by
  obtain ⟨k, hk, k', hk', hclash⟩ := hc
  refine (build_spec txs).1.ordered t t' k k' hlt hk hk' (hclash.imp_right fun hr => ⟨?_, hr.2⟩)
  simp only [ConflictField.slot, hr.1]

section

variable {st : StateStorage} {env : Environment} {behaviour : Nat → Behaviour Empty}
  {block : Nat → CallParameters}

theorem flowConfig_task {tasks t : Nat} (ht : t < tasks) (rows : Rows) :
    (flowConfig tasks env behaviour block rows).programs (.task t) =
      messageAccesses env (behaviour t) (block t) :=
  if_pos ht

theorem flowConfig_serialStore (h : st.Lawful) {tasks n : Nat} (hn : n ≤ tasks) (s : st.State) :
    Program.serialStore (flowConfig tasks env behaviour block (st.getRow s)).programs (flowNodes n)
        (st.getRow s) = st.getRow (serialState st env behaviour block s (List.range n)) := by
  refine serialStore_messages h (fun t ht => ?_) s
  exact flowConfig_task (Nat.lt_of_lt_of_le (List.mem_range.mp ht) hn) _

theorem flowNodes_split {n t : Nat} (ht : t < n) :
    ∃ after, flowNodes n = flowNodes t ++ .task t :: after := by
  obtain ⟨k, rfl⟩ := Nat.exists_eq_add_of_lt ht
  refine ⟨((List.range k).map (t + 1 + ·)).map .task, ?_⟩
  unfold flowNodes
  rw [show t + k + 1 = t + 1 + k by omega, List.range_add, List.range_succ]
  simp

/-- The start node touches nothing. -/
def nodeFootprint (footprints : Nat → Footprint StateRow) : Node → Footprint StateRow
  | .start => ⟨∅, ∅⟩
  | .task t => footprints t

theorem kept_flowConfig {good : StateRow → Option Entry → Prop}
    {footprints : Nat → Footprint StateRow} {tasks : Nat}
    (keeps : ∀ t < tasks,
      (TransactionExecutive.execute env (behaviour t) (block t)).Keeps good (footprints t))
    {s : st.State} (hs : ∀ row, good row (st.getRow s row)) :
    (flowConfig tasks env behaviour block (st.getRow s)).Kept good (nodeFootprint footprints) := by
  refine ⟨hs, fun v => ?_⟩
  cases v with
  | start => trivial
  | task t =>
    by_cases ht : t < tasks
    · rw [flowConfig_task ht]
      exact (keeps t ht).accesses _ (by simp)
    · have hdone : (flowConfig tasks env behaviour block (st.getRow s)).programs (.task t) =
          .done none := if_neg ht
      rw [hdone]
      trivial

/-- Nodes keep apart that the graph does not order. -/
theorem apart_flowNodes {footprints : Nat → Footprint StateRow}
    (apart : ∀ t t', t < t' → t' < (txs.filterMap id).length →
      ¬ Conflicts ((txs.filterMap id).getD t []) ((txs.filterMap id).getD t' []) →
      (footprints t).Apart (footprints t'))
    {u v : Node} (hv : v ∈ flowNodes (txs.filterMap id).length) (hlt : u.rank < v.rank)
    (hpath : ¬ Relation.TransGen (flowNet txs).Edge u v) :
    (nodeFootprint footprints u).Apart (nodeFootprint footprints v) := by
  cases v with
  | start => exact absurd hlt (Nat.not_lt_zero _)
  | task t' =>
    cases u with
    | start => exact ⟨nofun, nofun, nofun⟩
    | task t =>
      have hlt' : t < t' := Nat.lt_of_succ_lt_succ hlt
      obtain ⟨t'', hbound, heq⟩ := (mem_flowNodes.mp hv).resolve_left (by simp)
      cases heq
      exact apart t t' hlt' hbound fun hc => hpath (conflicts_path hlt' hc)

/-- However the rows are read and written while the flow graph runs a block, what is left are the
rows and the answers of its tasks one after the other, when no task waits for itself and tasks
without a conflict keep apart. -/
theorem flowExecute_serializable (h : st.Lawful)
    (hfirst : ∀ fields, some fields ∈ txs → WholeFirst fields)
    {good : StateRow → Option Entry → Prop} {footprints : Nat → Footprint StateRow}
    (keeps : ∀ t < (txs.filterMap id).length,
      (TransactionExecutive.execute env (behaviour t) (block t)).Keeps good (footprints t))
    (apart : ∀ t t', t < t' → t' < (txs.filterMap id).length →
      ¬ Conflicts ((txs.filterMap id).getD t []) ((txs.filterMap id).getD t' []) →
      (footprints t).Apart (footprints t'))
    {s : st.State} (hs : ∀ row, good row (st.getRow s row))
    {run : Config Node StateRow Entry (Option (Except Exc Ending))}
    (reach : Relation.ReflTransGen (System.ofNet (flowNet txs)).AccessStep
      ((flowNet txs).init,
        flowConfig (txs.filterMap id).length env behaviour block (st.getRow s)) (c, run))
    (rest : c.ready + c.running + c.sending = 0) :
    run.store = st.getRow
        (serialState st env behaviour block s (List.range (txs.filterMap id).length)) ∧
      ∀ t < (txs.filterMap id).length, ∃ out, run.programs (.task t) = .done out ∧
        answered out = (executeMessage st env (behaviour t) (block t)
          (serialState st env behaviour block s (List.range t))).response := by
  have hsystem := System.ofNet_disciplined (flowNet txs)
  obtain ⟨accesses, haccessed⟩ := System.exists_accessed hsystem reach
  have hreach : Countdown.Reach (flowNet txs) c := haccessed.reachable
  have forward := forward_iff.mpr hfirst
  have hnodup := nodup_flowNodes (txs.filterMap id).length
  have hserial := hsystem.serial (pairwise_flowNodes _) hnodup
    (fun u _ v hv hlt hpath => apart_flowNodes apart hv hlt hpath) (kept_flowConfig keeps hs) reach
    (fun v hv => flowNodes_of_start hreach hv)
    fun v hv => flowNodes_finished forward hreach rest hv
  rw [hserial]
  refine ⟨?_, fun t ht => ?_⟩
  · rw [Config.foldl_finish_store hnodup]
    exact flowConfig_serialStore h le_rfl s
  · obtain ⟨after, hsplit⟩ := flowNodes_split ht
    rw [hsplit] at hnodup ⊢
    refine ⟨_, Config.foldl_finish_programs hnodup _, ?_⟩
    have hstore : (flowConfig (txs.filterMap id).length env behaviour block
      (st.getRow s)).store = st.getRow s := rfl
    rw [flowConfig_task ht, hstore, flowConfig_serialStore h ht.le s]
    exact (messageAccesses_run h env _ _ _).1

end

theorem flowExecute_serializable_apart : ∃ (c : Countdown.State Node)
    (run : Config Node StateRow Entry (Option (Except Exc Ending))),
    Relation.ReflTransGen (System.ofNet (flowNet [some [], some []])).AccessStep
      ((flowNet [some [], some []]).init,
        flowConfig 2 evmEnvironment writesOwnRow toOwnRow fun _ => none) (c, run) ∧
      run.store = undoLogStorage.getRow (serialState undoLogStorage evmEnvironment writesOwnRow
        toOwnRow (fun _ => none) [0, 1]) := by
  obtain ⟨c, hreach, hrest⟩ := Countdown.exists_rest (flowNet [some [], some []]).init
  obtain ⟨run, hrun⟩ := (System.ofNet_disciplined (flowNet [some [], some []])).lift hreach
    (flowConfig 2 evmEnvironment writesOwnRow toOwnRow fun _ => none)
  have hfirst : ∀ fields : List ConflictField, some fields ∈ [some [], some []] →
      WholeFirst fields := by
    intro fields hmem
    have hnil : fields = [] := by simpa using hmem
    rw [hnil]
    exact .nil
  have hserial := flowExecute_serializable undoLogStorage_lawful hfirst
    (fun t _ => keeps_writesOwnRow t) (fun t t' hlt _ _ => apart_ownRow (Nat.ne_of_lt hlt))
    (s := fun _ => none) (fun _ => trivial) hrun hrest
  exact ⟨c, run, hrun, hserial.1⟩

end BcosExecutor
