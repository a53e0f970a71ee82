import BcosExecutor.FlowGraph

namespace BcosExecutor

/-- Two conflict keys that may touch the same data. -/
def ConflictField.Clash (k k' : ConflictField) : Prop :=
  k = k' ∨ k.slot = k'.slot ∧ (k.isWhole ∨ k'.isWhole)

theorem ConflictField.Clash.slot_eq {k k' : ConflictField} (h : k.Clash k') : k.slot = k'.slot :=
  h.elim (fun heq => heq ▸ rfl) And.left

namespace FlowGraph

theorem mem_slotIndices {g : FlowGraph} {slot u : Nat} : u ∈ g.slotIndices slot ↔
    ∃ k prev, g.dependencies.lookup k = some prev ∧ k.slot = slot ∧ u ∈ prev := by
  simp only [slotIndices, List.mem_flatMap, List.mem_filter, decide_eq_true_eq]
  constructor
  · rintro ⟨⟨k, prev⟩, ⟨hmem, hs⟩, hu⟩
    exact ⟨k, prev, AList.mem_lookup_iff.mpr hmem, hs, hu⟩
  · rintro ⟨k, prev, hl, hs, hu⟩
    exact ⟨⟨k, prev⟩, ⟨AList.mem_lookup_iff.mp hl, hs⟩, hu⟩

theorem mem_sources {g : FlowGraph} {index u : Nat} {field : ConflictField} :
    u ∈ g.sources index field ↔
      (g.slotUsage.lookup field.slot = some u ∧ u ≠ index) ∨
      (field.isWhole ∧ ∃ k prev, g.dependencies.lookup k = some prev ∧ k.slot = field.slot ∧
        u ∈ prev) ∨
      (¬ field.isWhole ∧ ∃ prev, g.dependencies.lookup field = some prev ∧
        prev.getLastD index = u ∧ u ≠ index) := by
  unfold sources
  rw [List.mem_append, mem_others]
  by_cases hw : field.isWhole
  · simp only [hw, if_true, mem_slotIndices, true_and, not_true_eq_false, false_and, or_false]
  · simp only [hw, if_false, mem_others, Option.map_eq_some_iff, false_and, false_or,
      not_false_eq_true, true_and]
    constructor
    · rintro (h | ⟨⟨prev, hl, hlast⟩, hne⟩)
      · exact Or.inl h
      · exact Or.inr ⟨prev, hl, hlast, hne⟩
    · rintro (h | ⟨prev, hl, hlast, hne⟩)
      · exact Or.inl h
      · exact Or.inr ⟨⟨prev, hl, hlast⟩, hne⟩

theorem storedIndices_last (g : FlowGraph) (index : Nat) (field : ConflictField) :
    ∃ prev, g.storedIndices index field = prev ++ [index] := by
  unfold storedIndices
  split
  · split
    · exact ⟨_, rfl⟩
    · exact ⟨[], rfl⟩
  · exact ⟨[], rfl⟩

theorem mem_storedIndices {g : FlowGraph} {index u : Nat} {field : ConflictField}
    (h : u ∈ g.storedIndices index field) :
    u = index ∨ ∃ prev, g.dependencies.lookup field = some prev ∧ u ∈ prev := by
  unfold storedIndices at h
  split at h
  next prev hl =>
    split at h
    · rcases List.mem_append.mp h with h | h
      · exact Or.inr ⟨prev, hl, h⟩
      · exact Or.inl (List.mem_singleton.mp h)
    · exact Or.inl (List.mem_singleton.mp h)
  next => exact Or.inl (List.mem_singleton.mp h)

/-- The maps of the task loop name, for every key and slot used so far, a task that is reached
from all of its users. `used` lists the keys of every task. -/
structure Tracks (used : List (List ConflictField)) (g : FlowGraph) : Prop where
  key : ∀ t k, k ∈ used.getD t [] → ¬ k.isWhole →
    ∃ prev last, g.dependencies.lookup k = some (prev ++ [last]) ∧ t ≤ last ∧
      Relation.ReflTransGen g.Edge (.task t) (.task last)
  slot : ∀ t k, k ∈ used.getD t [] → k.isWhole →
    ∃ u, g.slotUsage.lookup k.slot = some u ∧ Relation.ReflTransGen g.Edge (.task t) (.task u)
  keyUser : ∀ k prev, g.dependencies.lookup k = some prev →
    ¬ k.isWhole ∧ ∀ t ∈ prev, k ∈ used.getD t []
  slotUser : ∀ s u, g.slotUsage.lookup s = some u → ∃ k, k ∈ used.getD u []
  ordered : ∀ t t' k k', t < t' → k ∈ used.getD t [] → k' ∈ used.getD t' [] → k.Clash k' →
    Relation.TransGen g.Edge (.task t) (.task t')

theorem lt_of_mem_getD {K : Type*} {l : List (List K)} {t : Nat} {k : K} (h : k ∈ l.getD t []) :
    t < l.length := by
  by_contra hn
  rw [List.getD_eq_getElem?_getD, List.getElem?_eq_none (by omega)] at h
  cases h

theorem getD_concat {K : Type*} (l : List (List K)) (x : List K) (t : Nat) :
    (l ++ [x]).getD t [] = if t = l.length then x else l.getD t [] := by
  simp only [List.getD_eq_getElem?_getD]
  rcases Nat.lt_trichotomy t l.length with ht | rfl | ht
  · rw [List.getElem?_append_left ht, if_neg (by omega)]
  · simp
  · have hlong : (l ++ [x])[t]? = none := List.getElem?_eq_none (by simp; omega)
    have hshort : l[t]? = none := List.getElem?_eq_none (by omega)
    rw [hlong, hshort, if_neg (by omega)]

theorem mem_getD_visit {K : Type*} {used : List (List K)} {fields : List K} {field k : K}
    {t : Nat} : k ∈ (used ++ [fields ++ [field]]).getD t [] ↔
      k ∈ (used ++ [fields]).getD t [] ∨ t = used.length ∧ k = field := by
  rw [getD_concat, getD_concat]
  by_cases ht : t = used.length
  · simp [ht]
  · simp [ht]

/-- Every earlier user of a clashing key is connected to the task that now uses one. -/
theorem reaches_index {used : List (List ConflictField)} {g g' : FlowGraph} (h : Tracks used g)
    {t index : Nat} {k field : ConflictField} (hk : k ∈ used.getD t []) (hc : k.Clash field)
    (mono : ∀ u v, g.Edge u v → g'.Edge u v)
    (new : ∀ u ∈ g.sources index field, g'.Edge (.task u) (.task index)) :
    Relation.ReflTransGen g'.Edge (.task t) (.task index) := by
  have last (u : Nat) (hpath : Relation.ReflTransGen g.Edge (.task t) (.task u))
      (hu : u ≠ index → u ∈ g.sources index field) :
      Relation.ReflTransGen g'.Edge (.task t) (.task index) := by
    have hpath' := Relation.ReflTransGen.mono mono _ _ hpath
    by_cases heq : u = index
    · exact heq ▸ hpath'
    · exact hpath'.tail (new u (hu heq))
  by_cases hw : k.isWhole
  · obtain ⟨u, hu, hpath⟩ := h.slot t k hk hw
    rw [hc.slot_eq] at hu
    exact last u hpath fun hne => mem_sources.mpr (Or.inl ⟨hu, hne⟩)
  · obtain ⟨prev, u, hu, _, hpath⟩ := h.key t k hk hw
    refine last u hpath fun hne => mem_sources.mpr (Or.inr ?_)
    by_cases hwf : field.isWhole
    · exact Or.inl ⟨hwf, k, _, hu, hc.slot_eq, by simp⟩
    · have heq : k = field := hc.resolve_right fun hr => hr.2.elim hw hwf
      subst k
      exact Or.inr ⟨hwf, _, hu, by simp, hne⟩

theorem transGen_of_ne {g : FlowGraph} {t t' : Nat} (hne : t ≠ t')
    (h : Relation.ReflTransGen g.Edge (.task t) (.task t')) :
    Relation.TransGen g.Edge (.task t) (.task t') := by
  rcases Relation.reflTransGen_iff_eq_or_transGen.mp h with heq | h
  · cases heq; exact absurd rfl hne
  · exact h

theorem visitField_edge {g : FlowGraph} {index : Nat} {field : ConflictField} {u v : Node} :
    (visitField index g field).Edge u v ↔
      g.Edge u v ∨ ∃ f ∈ g.sources index field, .task f = u ∧ .task index = v := by
  simp only [Edge, visitField_eq, List.mem_append, List.mem_map, Prod.mk.injEq]

theorem visitField_dependencies (g : FlowGraph) (index : Nat) (field k : ConflictField) :
    (visitField index g field).dependencies.lookup k =
      if ¬ field.isWhole ∧ k = field then some (g.storedIndices index field)
      else g.dependencies.lookup k := by
  rw [visitField_eq]
  by_cases hw : field.isWhole
  · simp only [hw, if_true, not_true_eq_false, false_and, if_false]
  · by_cases hk : k = field
    · subst k
      simp only [hw, if_false, AList.lookup_insert, not_false_eq_true, and_self, if_true]
    · simp only [hw, hk, if_false, AList.lookup_insert_ne hk, and_false]

theorem visitField_slotUsage (g : FlowGraph) (index : Nat) (field : ConflictField) (s : Nat) :
    (visitField index g field).slotUsage.lookup s =
      if field.isWhole ∧ s = field.slot then some index else g.slotUsage.lookup s := by
  rw [visitField_eq]
  by_cases hw : field.isWhole
  · by_cases hs : s = field.slot
    · subst s
      simp only [hw, if_true, AList.lookup_insert, and_self]
    · simp only [hw, hs, if_true, AList.lookup_insert_ne hs, and_false, if_false]
  · simp only [hw, if_false, false_and]

theorem tracks_visitField {used : List (List ConflictField)} {fields : List ConflictField}
    {g : FlowGraph} (h : Tracks (used ++ [fields]) g) (field : ConflictField) :
    Tracks (used ++ [fields ++ [field]]) (visitField used.length g field) := by
  have mono (u v : Node) (he : g.Edge u v) : (visitField used.length g field).Edge u v :=
    visitField_edge.mpr (Or.inl he)
  have reach {t : Nat} {k : ConflictField} (hk : k ∈ (used ++ [fields]).getD t [])
      (hc : k.Clash field) :=
    reaches_index h hk hc mono fun u hu => visitField_edge.mpr (Or.inr ⟨u, hu, rfl, rfl⟩)
  have bound {t : Nat} {k : ConflictField} (hk : k ∈ (used ++ [fields]).getD t []) :
      t ≤ used.length := by
    have := lt_of_mem_getD hk
    simp only [List.length_append, List.length_singleton] at this
    omega
  have later {k : ConflictField} {t : Nat} (hk : k ∈ (used ++ [fields]).getD t []) :
      k ∈ (used ++ [fields ++ [field]]).getD t [] := mem_getD_visit.mpr (Or.inl hk)
  refine ⟨?_, ?_, ?_, ?_, ?_⟩
  · intro t k hk hw
    rw [visitField_dependencies]
    by_cases hkf : k = field
    · subst k
      obtain ⟨prev, hprev⟩ := g.storedIndices_last used.length field
      refine ⟨prev, used.length, by rw [if_pos ⟨hw, rfl⟩, hprev], ?_⟩
      rcases mem_getD_visit.mp hk with hk | ⟨rfl, _⟩
      · exact ⟨bound hk, reach hk (Or.inl rfl)⟩
      · exact ⟨Nat.le_refl _, .refl⟩
    · obtain ⟨prev, last, hl, hle, hpath⟩ :=
        h.key t k ((mem_getD_visit.mp hk).resolve_right fun hr => hkf hr.2) hw
      rw [if_neg fun hr => hkf hr.2]
      exact ⟨prev, last, hl, hle, Relation.ReflTransGen.mono mono _ _ hpath⟩
  · intro t k hk hw
    rw [visitField_slotUsage]
    by_cases hs : field.isWhole ∧ k.slot = field.slot
    · refine ⟨used.length, if_pos hs, ?_⟩
      rcases mem_getD_visit.mp hk with hk | ⟨rfl, _⟩
      · exact reach hk (Or.inr ⟨hs.2, Or.inl hw⟩)
      · exact .refl
    · have hold : k ∈ (used ++ [fields]).getD t [] :=
        (mem_getD_visit.mp hk).resolve_right fun hr => hs (hr.2 ▸ ⟨hw, rfl⟩)
      obtain ⟨u, hu, hpath⟩ := h.slot t k hold hw
      rw [if_neg hs]
      exact ⟨u, hu, Relation.ReflTransGen.mono mono _ _ hpath⟩
  · intro k prev hl
    rw [visitField_dependencies] at hl
    split at hl
    next hk =>
      obtain ⟨hw, rfl⟩ := hk
      cases hl
      refine ⟨hw, fun t ht => ?_⟩
      rcases mem_storedIndices ht with rfl | ⟨prev, hl, ht⟩
      · exact mem_getD_visit.mpr (Or.inr ⟨rfl, rfl⟩)
      · exact later ((h.keyUser k prev hl).2 t ht)
    next =>
      obtain ⟨hw, hmem⟩ := h.keyUser k prev hl
      exact ⟨hw, fun t ht => later (hmem t ht)⟩
  · intro s u hl
    rw [visitField_slotUsage] at hl
    split at hl
    next => cases hl; exact ⟨field, mem_getD_visit.mpr (Or.inr ⟨rfl, rfl⟩)⟩
    next =>
      obtain ⟨k, hk⟩ := h.slotUser s u hl
      exact ⟨k, later hk⟩
  · intro t t' k k' htt hk hk' hc
    rcases mem_getD_visit.mp hk' with hk' | ⟨rfl, rfl⟩
    · have := bound hk'
      have hold := (mem_getD_visit.mp hk).resolve_right fun hr => by omega
      exact Relation.TransGen.mono mono _ _ (h.ordered t t' k k' htt hold hk' hc)
    · have hold := (mem_getD_visit.mp hk).resolve_right fun hr => by omega
      exact transGen_of_ne (by omega) (reach hold hc)

theorem tracks_congr {used used' : List (List ConflictField)} {g g' : FlowGraph}
    (h : Tracks used g) (hused : ∀ t, used'.getD t [] = used.getD t [])
    (hdeps : g'.dependencies = g.dependencies) (hslots : g'.slotUsage = g.slotUsage)
    (mono : ∀ u v, g.Edge u v → g'.Edge u v) : Tracks used' g' := by
  refine ⟨?_, ?_, ?_, ?_, ?_⟩
  · intro t k hk hw
    obtain ⟨prev, last, hl, hle, hpath⟩ := h.key t k (hused t ▸ hk) hw
    exact ⟨prev, last, hdeps ▸ hl, hle, Relation.ReflTransGen.mono mono _ _ hpath⟩
  · intro t k hk hw
    obtain ⟨u, hu, hpath⟩ := h.slot t k (hused t ▸ hk) hw
    exact ⟨u, hslots ▸ hu, Relation.ReflTransGen.mono mono _ _ hpath⟩
  · intro k prev hl
    obtain ⟨hw, hmem⟩ := h.keyUser k prev (hdeps ▸ hl)
    exact ⟨hw, fun t ht => hused t ▸ hmem t ht⟩
  · intro s u hl
    rw [hused]
    exact h.slotUser s u (hslots ▸ hl)
  · intro t t' k k' htt hk hk' hc
    rw [hused] at hk hk'
    exact Relation.TransGen.mono mono _ _ (h.ordered t t' k k' htt hk hk' hc)

/-- The loop over the keys of one task. -/
theorem tracks_fields {used : List (List ConflictField)} (more : List ConflictField)
    {fields : List ConflictField} {g : FlowGraph} (h : Tracks (used ++ [fields]) g) :
    Tracks (used ++ [fields ++ more]) (more.foldl (visitField used.length) g) := by
  induction more generalizing fields g with
  | nil => simpa using h
  | cons field more ih => simpa using ih (tracks_visitField h field)

/-- A new task with nothing used yet. -/
def openTask (g : FlowGraph) : FlowGraph :=
  { g with tasks := g.tasks + 1, noDeps := true }

def closeTask (g : FlowGraph) (index : Nat) : FlowGraph :=
  if g.noDeps then { g with edges := g.edges ++ [(.start, .task index)] } else g

theorem addTask_eq (g : FlowGraph) (fields : List ConflictField) :
    g.addTask (some fields) =
      closeTask (fields.foldl (visitField g.tasks) g.openTask) g.tasks := rfl

theorem closeTask_edge {g : FlowGraph} {index : Nat} {u v : Node} :
    (g.closeTask index).Edge u v ↔
      g.Edge u v ∨ g.noDeps = true ∧ u = .start ∧ v = .task index := by
  unfold closeTask Edge
  by_cases hn : g.noDeps = true
  · simp [hn]
  · simp [hn]

theorem closeTask_frame (g : FlowGraph) (index : Nat) :
    (g.closeTask index).tasks = g.tasks ∧ (g.closeTask index).dependencies = g.dependencies ∧
      (g.closeTask index).slotUsage = g.slotUsage := by
  unfold closeTask
  split <;> exact ⟨rfl, rfl, rfl⟩

theorem getD_concat_nil {K : Type*} (used : List (List K)) (t : Nat) :
    (used ++ [[]]).getD t [] = used.getD t [] := by
  rw [getD_concat]
  split
  next ht => rw [List.getD_eq_getElem?_getD, List.getElem?_eq_none (by omega)]; rfl
  next => rfl

theorem tracks_addTask {used : List (List ConflictField)} {g : FlowGraph} (h : Tracks used g)
    (htasks : g.tasks = used.length) (fields : List ConflictField) :
    Tracks (used ++ [fields]) (g.addTask (some fields)) := by
  have hopen : Tracks (used ++ [[]]) g.openTask :=
    tracks_congr h (fun t => getD_concat_nil used t) rfl rfl fun _ _ he => he
  have hloop := tracks_fields fields hopen
  rw [List.nil_append, ← htasks] at hloop
  obtain ⟨_, hdeps, hslots⟩ :=
    closeTask_frame (fields.foldl (visitField g.tasks) g.openTask) g.tasks
  exact tracks_congr hloop (fun _ => rfl) hdeps hslots fun u v he => closeTask_edge.mpr (Or.inl he)

theorem visitFields_tasks (index : Nat) (fields : List ConflictField) (g : FlowGraph) :
    (fields.foldl (visitField index) g).tasks = g.tasks := by
  induction fields generalizing g with
  | nil => rfl
  | cons field fields ih => rw [List.foldl_cons, ih, visitField_eq]

theorem addTask_tasks (g : FlowGraph) (fields : List ConflictField) :
    (g.addTask (some fields)).tasks = g.tasks + 1 := by
  rw [addTask_eq, (closeTask_frame _ _).1, visitFields_tasks]
  rfl

/-- The transactions that are sent back leave the graph alone. -/
theorem build_eq (txs : List (Option (List ConflictField))) :
    build txs = (txs.filterMap id).foldl (fun g fields => g.addTask (some fields)) init := by
  unfold build
  generalize init = g
  induction txs generalizing g with
  | nil => rfl
  | cons tx txs ih =>
    cases tx with
    | none => exact ih g
    | some fields => exact ih (g.addTask (some fields))

theorem tracks_init : Tracks [] init := by
  refine ⟨?_, ?_, ?_, ?_, ?_⟩ <;> simp [init]

end FlowGraph

end BcosExecutor
