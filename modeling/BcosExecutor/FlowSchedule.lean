import BcosExecutor.FlowEdges

namespace BcosExecutor

open FlowGraph

/-- Some key of one transaction is a key of the other, or lies in a slot that one of them uses as
a whole. -/
def Conflicts (fields fields' : List ConflictField) : Prop :=
  ∃ k ∈ fields, ∃ k' ∈ fields',
    k = k' ∨ k.val.take 8 = k'.val.take 8 ∧ (k.isWhole ∨ k'.isWhole)

/-- The number of the task made for transaction `i`. -/
def taskIndex (txs : List (Option (List ConflictField))) (i : Nat) : Nat :=
  ((txs.take i).filterMap id).length

/-- Every node of the flow graph sends one message to each successor once its body has run. -/
def flowNet (txs : List (Option (List ConflictField))) : Countdown.Net Node where
  edges := (build txs).edges
  sources := {.start}
  sources_free := by
    intro v hv
    obtain rfl := Finset.mem_singleton.mp hv
    rw [Multiset.map_coe, Multiset.mem_coe, List.mem_map]
    rintro ⟨⟨u, v⟩, he, rfl⟩
    exact (build_spec txs).2.2.1.start u he

variable {txs : List (Option (List ConflictField))}

theorem getElem?_taskIndex {i : Nat} {fields : List ConflictField}
    (h : txs[i]? = some (some fields)) : (txs.filterMap id)[taskIndex txs i]? = some fields := by
  obtain ⟨hi, hget⟩ := List.getElem?_eq_some_iff.mp h
  have hsplit : txs = txs.take i ++ some fields :: txs.drop (i + 1) := by
    rw [← hget, ← List.drop_eq_getElem_cons hi, List.take_append_drop]
  have hmap := congrArg (List.filterMap id) hsplit
  rw [List.filterMap_append, List.filterMap_cons_some (f := id) (b := fields) rfl] at hmap
  rw [hmap, taskIndex, List.getElem?_append_right (Nat.le_refl _), Nat.sub_self]
  rfl

theorem taskIndex_lt {i j : Nat} {fields : List ConflictField} (hij : i < j)
    (h : txs[i]? = some (some fields)) : taskIndex txs i < taskIndex txs j := by
  obtain ⟨hi, hget⟩ := List.getElem?_eq_some_iff.mp h
  have hpre : (txs.take (i + 1)) <+: txs.take j := List.take_prefix_take_left hij
  have hlast : txs.take (i + 1) = txs.take i ++ [some fields] := by
    rw [List.take_succ_eq_append_getElem hi, hget]
  have hle := (hpre.filterMap id).length_le
  rw [hlast, List.filterMap_append, List.length_append] at hle
  exact Nat.lt_of_lt_of_le (Nat.lt_succ_self _) hle

theorem mem_getD_taskIndex {i : Nat} {fields : List ConflictField} {k : ConflictField}
    (h : txs[i]? = some (some fields)) (hk : k ∈ fields) :
    k ∈ (txs.filterMap id).getD (taskIndex txs i) [] := by
  rw [List.getD_eq_getElem?_getD, getElem?_taskIndex h]
  exact hk

/-- Two transactions with clashing keys are connected in the flow graph, so the first finishes
before the second starts in every run of the graph. -/
theorem conflicts_ordered {i j : Nat} {fields fields' : List ConflictField} (hij : i < j)
    (hi : txs[i]? = some (some fields)) (hj : txs[j]? = some (some fields'))
    (hc : Conflicts fields fields') :
    Relation.TransGen (build txs).Edge (.task (taskIndex txs i)) (.task (taskIndex txs j)) ∧
      ∀ c, Countdown.Reach (flowNet txs) c →
        Countdown.Before c.log (.task (taskIndex txs i)) (.task (taskIndex txs j)) := by
  obtain ⟨k, hk, k', hk', hclash⟩ := hc
  have hclash' : k.Clash k' := by
    refine hclash.imp_right fun hr => ⟨?_, hr.2⟩
    simp only [ConflictField.slot, hr.1]
  have hpath := (build_spec txs).1.ordered _ _ k k' (taskIndex_lt hij hi)
    (mem_getD_taskIndex hi hk) (mem_getD_taskIndex hj hk') hclash'
  exact ⟨hpath, fun c reach => Countdown.before_of_path reach hpath⟩

theorem conflicts_ordered_pair : Relation.TransGen
    (build [some [⟨[0, 0, 0, 0, 0, 0, 0, 0, 1], by decide⟩], none,
      some [⟨[0, 0, 0, 0, 0, 0, 0, 0], by decide⟩]]).Edge (.task 0) (.task 1) := by
  refine (conflicts_ordered (i := 0) (j := 2) (by decide) rfl rfl ?_).1
  exact ⟨_, List.mem_singleton_self _, _, List.mem_singleton_self _, Or.inr ⟨rfl, Or.inr rfl⟩⟩

/-- The graph of the transactions runs each of them exactly once, following edges to later
tasks only. -/
structure RunsAll (txs : List (Option (List ConflictField))) : Prop where
  forward : ∀ u v, (build txs).Edge (.task u) (.task v) → u < v
  reached : ∀ t < (build txs).tasks, Relation.ReflTransGen (build txs).Edge .start (.task t)
  once : ∀ c, Countdown.Reach (flowNet txs) c → c.ready + c.running + c.sending = 0 →
    ∀ i fields, txs[i]? = some (some fields) →
      c.log.count (.start (.task (taskIndex txs i))) = 1 ∧
      c.log.count (.finish (.task (taskIndex txs i))) = 1

theorem reached_of_forward (forward : ∀ u v, (build txs).Edge (.task u) (.task v) → u < v)
    {t : Nat} (ht : t < (build txs).tasks) :
    Relation.ReflTransGen (build txs).Edge .start (.task t) := by
  obtain ⟨_, htasks, _, hfed⟩ := build_spec txs
  induction t using Nat.strongRecOn with
  | _ t ih =>
    obtain ⟨u, hu⟩ := hfed t (htasks ▸ ht)
    cases u with
    | start => exact .single hu
    | task u =>
      have hlt := forward u t hu
      exact (ih u hlt (Nat.lt_trans hlt ht)).tail hu

def Node.rank : Node → Nat
  | .start => 0
  | .task index => index + 1

theorem flowNet_acyclic {u v : Node} (he : (flowNet txs).Edge u v) : u = v ∨ u.rank < v.rank := by
  obtain ⟨_, _, horiented, _⟩ := build_spec txs
  cases v with
  | start => exact absurd he (horiented.start u)
  | task v =>
    cases u with
    | start => exact .inr (Nat.succ_pos v)
    | task u =>
      rcases horiented.forward u v he with hlt | ⟨heq, _⟩
      · exact .inr (Nat.succ_lt_succ hlt)
      · exact .inl (congrArg Node.task heq)

theorem task_is_target {t : Nat} (ht : t < (build txs).tasks) :
    .task t ∈ (flowNet txs).edges.map Prod.snd := by
  obtain ⟨_, htasks, _, hfed⟩ := build_spec txs
  obtain ⟨u, hu⟩ := hfed t (htasks ▸ ht)
  exact Multiset.mem_map_of_mem Prod.snd (show (u, Node.task t) ∈ (flowNet txs).edges from hu)

theorem flowNet_fed (v : Node) (hv : v ∈ (flowNet txs).edges.map Prod.fst)
    (hnot : v ∉ (flowNet txs).edges.map Prod.snd) : v ∈ (flowNet txs).sources := by
  obtain ⟨_, htasks, horiented, _⟩ := build_spec txs
  cases v with
  | start => exact Finset.mem_singleton_self _
  | task v =>
    obtain ⟨⟨u, w⟩, he, hu⟩ := Multiset.mem_map.mp hv
    cases hu
    cases w with
    | start => exact absurd he (horiented.start _)
    | task w =>
      have hlt := horiented.known _ w he
      have hle : v ≤ w := (horiented.forward v w he).elim Nat.le_of_lt fun h => Nat.le_of_eq h.1
      exact absurd (task_is_target (by omega)) hnot

theorem once_of_forward (forward : ∀ u v, (build txs).Edge (.task u) (.task v) → u < v)
    {c : Countdown.State Node} (reach : Countdown.Reach (flowNet txs) c)
    (rest : c.ready + c.running + c.sending = 0) {t : Nat} (ht : t < (build txs).tasks) :
    c.log.count (.start (.task t)) = 1 ∧ c.log.count (.finish (.task t)) = 1 := by
  have acyclic (u v : Node) (he : (flowNet txs).Edge u v) : u.rank < v.rank := by
    refine (flowNet_acyclic he).resolve_left fun heq => ?_
    subst heq
    cases u with
    | start => exact (build_spec txs).2.2.1.start _ he
    | task u => exact Nat.lt_irrefl u (forward u u he)
  exact Countdown.executed_once_of_quiescent reach Node.rank acyclic flowNet_fed rest
    (Or.inl (task_is_target ht))

/-- The task of the transaction waits for a task that waits for itself. -/
def Blocked (txs : List (Option (List ConflictField))) (i : Nat) : Prop :=
  ∃ u, (build txs).Edge u u ∧
    Relation.ReflTransGen (build txs).Edge u (.task (taskIndex txs i))

theorem task_finished_iff {c : Countdown.State Node} (reach : Countdown.Reach (flowNet txs) c)
    (rest : c.ready + c.running + c.sending = 0) {i : Nat} {fields : List ConflictField}
    (hi : txs[i]? = some (some fields)) :
    .finish (.task (taskIndex txs i)) ∈ c.log ↔ ¬ Blocked txs i := by
  have hlt : taskIndex txs i < (build txs).tasks := by
    rw [(build_spec txs).2.1]
    exact (List.getElem?_eq_some_iff.mp (getElem?_taskIndex hi)).1
  rw [Countdown.finished_iff_of_quiescent reach Node.rank (fun _ _ => flowNet_acyclic) flowNet_fed
    rest (Or.inl (task_is_target hlt))]
  exact ⟨fun h ⟨u, he, path⟩ => h u he path, fun h u he path => h ⟨u, he, path⟩⟩

theorem exists_taskIndex {v : Nat} {fields : List ConflictField}
    (h : (txs.filterMap id)[v]? = some fields) : some fields ∈ txs := by
  obtain ⟨tx, htx, heq⟩ := List.mem_filterMap.mp (List.mem_of_getElem? h)
  exact heq ▸ htx

theorem forward_iff : (∀ u v, (build txs).Edge (.task u) (.task v) → u < v) ↔
    ∀ fields, some fields ∈ txs → WholeFirst fields := by
  obtain ⟨_, _, horiented, _⟩ := build_spec txs
  constructor
  · intro forward fields hmem
    by_contra hself
    obtain ⟨i, hi⟩ := List.getElem?_of_mem hmem
    have hget : (txs.filterMap id).getD (taskIndex txs i) [] = fields := by
      rw [List.getD_eq_getElem?_getD, getElem?_taskIndex hi]
      rfl
    exact Nat.lt_irrefl _ (forward _ _ (horiented.selfEdge _ (hget ▸ hself)))
  · intro hfirst u v he
    refine (horiented.forward u v he).resolve_right fun ⟨_, hself⟩ => hself ?_
    obtain ⟨fields, hget⟩ : ∃ fields, (txs.filterMap id)[v]? = some fields :=
      ⟨_, List.getElem?_eq_getElem (horiented.known _ v he)⟩
    rw [List.getD_eq_getElem?_getD, hget]
    exact hfirst fields (exists_taskIndex hget)

/-- A key of the whole slot after a longer key of the slot in one transaction gives its task an
edge to itself, and nothing else goes wrong. -/
theorem runsAll_iff (txs : List (Option (List ConflictField))) :
    RunsAll txs ↔ ∀ fields, some fields ∈ txs → WholeFirst fields := by
  constructor
  · exact fun h => forward_iff.mp h.forward
  · intro hfirst
    have forward := forward_iff.mpr hfirst
    refine ⟨forward, fun t => reached_of_forward forward, fun c reach rest i fields hi => ?_⟩
    apply once_of_forward forward reach rest
    have hlt := (List.getElem?_eq_some_iff.mp (getElem?_taskIndex hi)).1
    rwa [(build_spec txs).2.1]

theorem not_runsAll_key_then_slot : ¬ RunsAll [some [⟨[0, 0, 0, 0, 0, 0, 0, 0, 1], by decide⟩,
    ⟨[0, 0, 0, 0, 0, 0, 0, 0], by decide⟩]] :=
  fun h => absurd (h.forward 0 0 (by unfold Edge; decide)) (Nat.lt_irrefl 0)

end BcosExecutor
