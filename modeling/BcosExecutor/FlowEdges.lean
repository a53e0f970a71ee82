import BcosExecutor.FlowOrder

namespace BcosExecutor

/-- No key of a slot is followed by the key of the whole slot. -/
def WholeFirst (fields : List ConflictField) : Prop :=
  fields.Pairwise fun k w => ¬ (¬ k.isWhole ∧ w.isWhole ∧ k.slot = w.slot)

theorem wholeFirst_concat {fields : List ConflictField} {field : ConflictField} :
    WholeFirst (fields ++ [field]) ↔ WholeFirst fields ∧
      ∀ k ∈ fields, ¬ (¬ k.isWhole ∧ field.isWhole ∧ k.slot = field.slot) := by
  simp only [WholeFirst, List.pairwise_append, List.pairwise_singleton, List.mem_singleton,
    forall_eq, true_and]

namespace FlowGraph

/-- Where the edges of the graph lead: forward, but for a self-edge of the tasks that use the
whole of a slot after one of its keys. -/
structure Oriented (used : List (List ConflictField)) (g : FlowGraph) : Prop where
  start : ∀ u, ¬ g.Edge u .start
  known : ∀ u v, g.Edge u (.task v) → v < used.length
  forward : ∀ u v, g.Edge (.task u) (.task v) → u < v ∨ u = v ∧ ¬ WholeFirst (used.getD v [])
  selfEdge : ∀ v, ¬ WholeFirst (used.getD v []) → g.Edge (.task v) (.task v)

theorem getLastD_mem {l : List Nat} {a u : Nat} (h : l.getLastD a = u) (hne : u ≠ a) : u ∈ l := by
  cases l with
  | nil => exact absurd h.symm hne
  | cons x l =>
    rw [← h, List.getLastD_cons]
    exact List.getLastD_mem_cons

/-- A task gets its edges from earlier tasks, and from itself only by the whole slot. -/
theorem source_le {used : List (List ConflictField)} {fields : List ConflictField} {g : FlowGraph}
    (h : Tracks (used ++ [fields]) g) {field : ConflictField} {u : Nat}
    (hu : u ∈ g.sources used.length field) :
    u < used.length ∨ u = used.length ∧ ¬ WholeFirst (fields ++ [field]) := by
  have bound {u : Nat} {k : ConflictField} (hk : k ∈ (used ++ [fields]).getD u []) :
      u ≤ used.length := by
    have := lt_of_mem_getD hk
    simp only [List.length_append, List.length_singleton] at this
    omega
  rcases mem_sources.mp hu with ⟨hl, hne⟩ | ⟨hw, k, prev, hl, hs, hmem⟩ | ⟨_, prev, hl, hlast, hne⟩
  · obtain ⟨k, hk⟩ := h.slotUser _ _ hl
    have := bound hk
    omega
  · obtain ⟨hkw, huser⟩ := h.keyUser k prev hl
    have hk := huser u hmem
    rcases Nat.lt_or_eq_of_le (bound hk) with hlt | rfl
    · exact Or.inl hlt
    · rw [getD_concat, if_pos rfl] at hk
      exact Or.inr ⟨rfl, fun hf => (wholeFirst_concat.mp hf).2 k hk ⟨hkw, hw, hs⟩⟩
  · have := bound ((h.keyUser field prev hl).2 u (getLastD_mem hlast hne))
    omega

theorem self_mem_sources {used : List (List ConflictField)} {fields : List ConflictField}
    {g : FlowGraph} (h : Tracks (used ++ [fields]) g) {k field : ConflictField} (hk : k ∈ fields)
    (hkw : ¬ k.isWhole) (hw : field.isWhole) (hs : k.slot = field.slot) :
    used.length ∈ g.sources used.length field := by
  have hused : k ∈ (used ++ [fields]).getD used.length [] := by rwa [getD_concat, if_pos rfl]
  obtain ⟨prev, last, hl, hle, _⟩ := h.key used.length k hused hkw
  have hlast := lt_of_mem_getD ((h.keyUser k _ hl).2 last (by simp))
  simp only [List.length_append, List.length_singleton] at hlast
  have heq : last = used.length := by omega
  exact mem_sources.mpr (Or.inr (Or.inl ⟨hw, k, _, hl, hs, by simp [heq]⟩))

theorem oriented_visitField {used : List (List ConflictField)} {fields : List ConflictField}
    {g : FlowGraph} (ht : Tracks (used ++ [fields]) g) (h : Oriented (used ++ [fields]) g)
    (field : ConflictField) :
    Oriented (used ++ [fields ++ [field]]) (visitField used.length g field) := by
  refine ⟨?_, ?_, ?_, ?_⟩
  · intro u he
    rcases visitField_edge.mp he with he | ⟨_, _, _, hv⟩
    · exact h.start u he
    · cases hv
  · intro u v he
    rcases visitField_edge.mp he with he | ⟨_, _, _, hv⟩
    · simpa using h.known u v he
    · cases hv; simp
  · intro u v he
    rcases visitField_edge.mp he with he | ⟨f, hf, hu, hv⟩
    · refine (h.forward u v he).imp_right fun hself => ⟨hself.1, fun hfirst => hself.2 ?_⟩
      rw [getD_concat] at hfirst ⊢
      split at hfirst
      next hv => rw [if_pos hv]; exact (wholeFirst_concat.mp hfirst).1
      next hv => rwa [if_neg hv]
    · cases hu
      cases hv
      rw [getD_concat, if_pos rfl]
      exact source_le ht hf
  · intro v hself
    have hselfEdge := h.selfEdge v
    rw [getD_concat] at hself hselfEdge
    split at hself
    next hv =>
      subst v
      rw [if_pos rfl] at hselfEdge
      by_cases hfirst : WholeFirst fields
      · rw [wholeFirst_concat] at hself
        push Not at hself
        obtain ⟨k, hk, hkw, hw, hs⟩ := hself hfirst
        exact visitField_edge.mpr (Or.inr ⟨_, self_mem_sources ht hk hkw hw hs, rfl, rfl⟩)
      · exact visitField_edge.mpr (Or.inl (hselfEdge hfirst))
    next hv =>
      rw [if_neg hv] at hselfEdge
      exact visitField_edge.mpr (Or.inl (hselfEdge hself))

/-- A task without an edge so far is still marked `noDeps`. -/
def Marked (index : Nat) (g : FlowGraph) : Prop :=
  g.noDeps = false → ∃ u, g.Edge u (.task index)

theorem marked_visitField {index : Nat} {g : FlowGraph} (h : Marked index g)
    (field : ConflictField) : Marked index (visitField index g field) := by
  intro hn
  rw [visitField_eq] at hn
  rcases Bool.and_eq_false_iff.mp hn with hn | hn
  · obtain ⟨u, hu⟩ := h hn
    exact ⟨u, visitField_edge.mpr (Or.inl hu)⟩
  · obtain ⟨u, hu⟩ := List.exists_mem_of_ne_nil _ (by simpa using hn)
    exact ⟨.task u, visitField_edge.mpr (Or.inr ⟨u, hu, rfl, rfl⟩)⟩

theorem oriented_fields {used : List (List ConflictField)} (more : List ConflictField)
    {fields : List ConflictField} {g : FlowGraph} (ht : Tracks (used ++ [fields]) g)
    (h : Oriented (used ++ [fields]) g) (hm : Marked used.length g) :
    Oriented (used ++ [fields ++ more]) (more.foldl (visitField used.length) g) ∧
      Marked used.length (more.foldl (visitField used.length) g) := by
  induction more generalizing fields g with
  | nil => exact ⟨by simpa using h, hm⟩
  | cons field more ih =>
    simpa using ih (tracks_visitField ht field) (oriented_visitField ht h field)
      (marked_visitField hm field)

/-- Every task has an incoming edge. -/
def Fed (n : Nat) (g : FlowGraph) : Prop :=
  ∀ v < n, ∃ u, g.Edge u (.task v)

theorem visitFields_mono (index : Nat) (fields : List ConflictField) {g : FlowGraph} {u v : Node}
    (h : g.Edge u v) : (fields.foldl (visitField index) g).Edge u v := by
  induction fields generalizing g with
  | nil => exact h
  | cons field fields ih => exact ih (visitField_edge.mpr (Or.inl h))

theorem oriented_addTask {used : List (List ConflictField)} {g : FlowGraph} (ht : Tracks used g)
    (h : Oriented used g) (hfed : Fed used.length g) (htasks : g.tasks = used.length)
    (fields : List ConflictField) : Oriented (used ++ [fields]) (g.addTask (some fields)) ∧
      Fed (used ++ [fields]).length (g.addTask (some fields)) := by
  have htopen : Tracks (used ++ [[]]) g.openTask :=
    tracks_congr ht (getD_concat_nil used) rfl rfl fun _ _ he => he
  have hopen : Oriented (used ++ [[]]) g.openTask := by
    refine ⟨h.start, fun u v he => ?_, fun u v he => ?_, fun v hv => ?_⟩
    · have := h.known u v he
      simp only [List.length_append, List.length_singleton]
      omega
    · rw [getD_concat_nil]; exact h.forward u v he
    · rw [getD_concat_nil] at hv; exact h.selfEdge v hv
  have hmarked : Marked used.length g.openTask := fun hn => by cases hn
  obtain ⟨hloop, hmark⟩ := oriented_fields fields htopen hopen hmarked
  rw [List.nil_append] at hloop
  rw [addTask_eq, htasks]
  refine ⟨⟨fun u he => ?_, fun u v he => ?_, fun u v he => ?_, fun v hv => ?_⟩, fun v hv => ?_⟩
  · rcases closeTask_edge.mp he with he | ⟨_, _, hv⟩
    · exact hloop.start u he
    · cases hv
  · rcases closeTask_edge.mp he with he | ⟨_, _, hv⟩
    · exact hloop.known u v he
    · cases hv; simp
  · rcases closeTask_edge.mp he with he | ⟨_, hu, _⟩
    · exact hloop.forward u v he
    · cases hu
  · exact closeTask_edge.mpr (Or.inl (hloop.selfEdge v hv))
  · simp only [List.length_append, List.length_singleton] at hv
    by_cases hlast : v = used.length
    · subst v
      cases hn : (fields.foldl (visitField used.length) g.openTask).noDeps with
      | true => exact ⟨.start, closeTask_edge.mpr (Or.inr ⟨hn, rfl, rfl⟩)⟩
      | false =>
        obtain ⟨u, hu⟩ := hmark hn
        exact ⟨u, closeTask_edge.mpr (Or.inl hu)⟩
    · obtain ⟨u, hu⟩ := hfed v (by omega)
      exact ⟨u, closeTask_edge.mpr (Or.inl (visitFields_mono used.length fields hu))⟩

theorem build_spec (txs : List (Option (List ConflictField))) :
    Tracks (txs.filterMap id) (build txs) ∧ (build txs).tasks = (txs.filterMap id).length ∧
      Oriented (txs.filterMap id) (build txs) ∧ Fed (txs.filterMap id).length (build txs) := by
  rw [build_eq]
  induction txs.filterMap id using List.reverseRecOn with
  | nil =>
    refine ⟨tracks_init, rfl, ⟨?_, ?_, ?_, ?_⟩, fun v hv => absurd hv (Nat.not_lt_zero v)⟩ <;>
      simp [Edge, init, WholeFirst]
  | append_singleton used fields ih =>
    obtain ⟨ht, htasks, ho, hfed⟩ := ih
    simp only [List.foldl_append, List.foldl_cons, List.foldl_nil]
    refine ⟨tracks_addTask ht htasks fields, ?_, oriented_addTask ht ho hfed htasks fields⟩
    rw [addTask_tasks, htasks, List.length_append, List.length_singleton]

end FlowGraph

end BcosExecutor
