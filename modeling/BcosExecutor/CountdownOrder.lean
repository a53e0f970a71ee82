import BcosExecutor.Countdown

namespace Countdown

variable {V : Type*} [DecidableEq V]

/-- Node `v` never starts in the history unless `u` has finished before it. -/
def Before (log : List (Event V)) (u v : V) : Prop :=
  ∀ l, (.start v :: l) <:+ log → .finish u ∈ l

def Net.Edge (net : Net V) (u v : V) : Prop :=
  (u, v) ∈ net.edges

theorem before_of_edge {net : Net V} {s : State V} (h : Inv net s) {u v : V}
    (he : net.Edge u v) : Before s.log u v :=
  fun l hl => h.after u v l hl he

omit [DecidableEq V] in
theorem suffix_of_mem {l : List (Event V)} {e : Event V} (h : e ∈ l) :
    ∃ r, (e :: r) <:+ l := by
  obtain ⟨a, b, rfl⟩ := List.append_of_mem h
  exact ⟨b, a, rfl⟩

theorem before_trans {net : Net V} {s : State V} (h : Inv net s) {u w v : V}
    (huw : Before s.log u w) (hwv : Before s.log w v) : Before s.log u v := by
  intro l hl
  obtain ⟨lw, hlw⟩ := suffix_of_mem (hwv l hl)
  have hll : l <:+ s.log := (List.suffix_cons _ l).trans hl
  obtain ⟨ls, hls⟩ := suffix_of_mem (h.begun w lw (hlw.trans hll))
  have hsub : (Event.start w :: ls) <:+ l := (hls.trans (List.suffix_cons _ lw)).trans hlw
  exact ((List.suffix_cons _ ls).trans hsub).subset (huw ls (hsub.trans hll))

/-- Along every path of the net the earlier node finishes before the later one starts. -/
theorem before_of_path {net : Net V} {s : State V} (reach : Reach net s) {u v : V}
    (path : Relation.TransGen net.Edge u v) : Before s.log u v := by
  have h := reach_inv reach
  induction path with
  | single he => exact before_of_edge h he
  | tail _ he ih => exact before_trans h ih (before_of_edge h he)

/-- A node with an edge to itself waits for its own message. -/
theorem not_started_of_self_edge {net : Net V} {s : State V} (h : Inv net s) {u : V}
    (he : net.Edge u u) : .start u ∉ s.log := by
  intro hu
  obtain ⟨l, hl⟩ := suffix_of_mem hu
  have hfinish := before_of_edge h he l hl
  obtain ⟨r, hr⟩ := suffix_of_mem hfinish
  have hstart := (hr.trans (List.suffix_cons _ l)).trans hl
  have hmem : Event.start u ∈ l :=
    ((List.suffix_cons _ r).trans hr).subset (h.begun u r hstart)
  exact (List.nodup_cons.mp (h.once.sublist hl.sublist)).1 hmem

/-- Whatever has not retired waits for a node that has not retired, so when no node that it
waits for has an edge to itself, the oldest such node has its token: the net is not stuck. -/
theorem exists_active_of_not_done {net : Net V} {s : State V} (h : Inv net s) (rank : V → Nat)
    (acyclic : ∀ u v, net.Edge u v → u = v ∨ rank u < rank v)
    (fed : ∀ v, v ∈ net.edges.map Prod.fst → v ∉ net.edges.map Prod.snd → v ∈ net.sources)
    {v : V} (loose : ∀ u, net.Edge u u → ¬ Relation.ReflTransGen net.Edge u v)
    (hv : v ∈ net.edges.map Prod.snd ∨ v ∈ net.sources) (hd : v ∉ s.done) :
    ∃ w, w ∈ s.ready + s.running + s.sending := by
  induction hr : rank v using Nat.strongRecOn generalizing v with
  | _ n ih =>
    by_cases htok : v ∈ s.tokens
    · exact ⟨v, (Multiset.mem_add.mp htok).resolve_right hd⟩
    · have hpend : v ∈ s.left.map Prod.snd := by
        by_contra hn
        exact hv.elim (fun he => htok (h.token v hn he)) (fun hs => htok (h.source v hs))
      obtain ⟨⟨u, w⟩, hleft, hw⟩ := Multiset.mem_map.mp hpend
      change w = v at hw
      subst w
      have he : net.Edge u v := Multiset.mem_of_le h.left_le hleft
      have hlt : rank u < rank v := (acyclic u v he).resolve_left fun heq =>
        loose v (heq ▸ he) .refl
      have hu : u ∈ net.edges.map Prod.snd ∨ u ∈ net.sources := by
        by_cases hin : u ∈ net.edges.map Prod.snd
        · exact Or.inl hin
        · exact Or.inr (fed u (Multiset.mem_map_of_mem Prod.fst he) hin)
      exact ih (rank u) (hr ▸ hlt) (fun w hww hwu => loose w hww (hwu.tail he)) hu
        (fun hdone => h.sent u hdone v hleft) rfl

theorem started_at_most_once {net : Net V} {s : State V} (h : Inv net s) (v : V) :
    s.log.count (.start v) ≤ 1 ∧ s.log.count (.finish v) ≤ 1 :=
  ⟨List.nodup_iff_count_le_one.mp h.once _, List.nodup_iff_count_le_one.mp h.once _⟩

theorem running_between {net : Net V} {s : State V} (h : Inv net s) {v : V}
    (hv : v ∈ s.running) : .start v ∈ s.log ∧ .finish v ∉ s.log := by
  refine ⟨(h.started v).mpr (by simp only [Multiset.mem_add, hv, true_or]), fun hfinish => ?_⟩
  have hone := Multiset.nodup_iff_count_le_one.mp h.nodup v
  have hpos := Multiset.count_pos.mpr hv
  have hpos' := Multiset.count_pos.mpr ((h.finished v).mp hfinish)
  simp only [State.tokens, Multiset.count_add] at hone hpos'
  omega

/-- A run that has come to rest has executed the nodes that wait for no edge of a node to
itself, and no others. -/
theorem finished_iff_of_quiescent {net : Net V} {s : State V} (reach : Reach net s)
    (rank : V → Nat) (acyclic : ∀ u v, net.Edge u v → u = v ∨ rank u < rank v)
    (fed : ∀ v, v ∈ net.edges.map Prod.fst → v ∉ net.edges.map Prod.snd → v ∈ net.sources)
    (rest : s.ready + s.running + s.sending = 0)
    {v : V} (hv : v ∈ net.edges.map Prod.snd ∨ v ∈ net.sources) :
    .finish v ∈ s.log ↔ ∀ u, net.Edge u u → ¬ Relation.ReflTransGen net.Edge u v := by
  have h := reach_inv reach
  constructor
  · intro hfinish u he path
    obtain ⟨r, hr⟩ := suffix_of_mem hfinish
    have hstart : .start v ∈ s.log :=
      ((List.suffix_cons _ r).trans hr).subset (h.begun v r hr)
    rcases Relation.reflTransGen_iff_eq_or_transGen.mp path with heq | path
    · exact not_started_of_self_edge h he (heq ▸ hstart)
    · obtain ⟨l, hl⟩ := suffix_of_mem hstart
      obtain ⟨k, hk⟩ := suffix_of_mem (before_of_path reach path l hl)
      have hk' := (hk.trans (List.suffix_cons _ l)).trans hl
      exact not_started_of_self_edge h he
        (((List.suffix_cons _ k).trans hk').subset (h.begun u k hk'))
  · intro loose
    refine (h.finished v).mpr (Multiset.mem_add.mpr (Or.inr ?_))
    by_contra hd
    obtain ⟨w, hw⟩ := exists_active_of_not_done h rank acyclic fed loose hv hd
    rw [rest] at hw
    exact Multiset.notMem_zero w hw

/-- A run that has come to rest has executed every node fed by the net exactly once. -/
theorem executed_once_of_quiescent {net : Net V} {s : State V} (reach : Reach net s)
    (rank : V → Nat) (acyclic : ∀ u v, net.Edge u v → rank u < rank v)
    (fed : ∀ v, v ∈ net.edges.map Prod.fst → v ∉ net.edges.map Prod.snd → v ∈ net.sources)
    (rest : s.ready + s.running + s.sending = 0)
    {v : V} (hv : v ∈ net.edges.map Prod.snd ∨ v ∈ net.sources) :
    s.log.count (.start v) = 1 ∧ s.log.count (.finish v) = 1 := by
  have h := reach_inv reach
  have hmem := (finished_iff_of_quiescent reach rank (fun u v he => Or.inr (acyclic u v he)) fed
    rest hv).mpr fun u he _ => Nat.lt_irrefl _ (acyclic u u he)
  obtain ⟨r, hr⟩ := suffix_of_mem hmem
  have hstart := List.count_pos_iff.mpr
    (((List.suffix_cons _ r).trans hr).subset (h.begun v r hr))
  have hfinish := List.count_pos_iff.mpr hmem
  obtain ⟨hs, hf⟩ := started_at_most_once h v
  omega

/-- The nodes in the order in which they finished, the newest first. -/
def finishes (log : List (Event V)) : List V :=
  log.filterMap fun
    | .start _ => none
    | .finish v => some v

omit [DecidableEq V] in
theorem pairwise_of_suffix {α : Type*} {R : α → α → Prop} {log : List α}
    (h : ∀ e l, (e :: l) <:+ log → ∀ e' ∈ l, R e e') : log.Pairwise R := by
  induction log with
  | nil => exact List.Pairwise.nil
  | cons e l ih =>
    refine List.pairwise_cons.mpr ⟨h e l List.suffix_rfl, ih fun e' l' hl => ?_⟩
    exact h e' l' (hl.trans (List.suffix_cons e l))

/-- No node finishes before a node that precedes it in the net. -/
theorem finishes_respect_paths {net : Net V} {s : State V} (reach : Reach net s) :
    (finishes s.log).Pairwise fun later earlier => ¬ Relation.TransGen net.Edge later earlier := by
  have h := reach_inv reach
  apply List.pairwise_filterMap.mpr
  apply pairwise_of_suffix
  intro e l hl e' he' y hy x hx path
  cases e with
  | start v => cases hy
  | finish v =>
    cases e' with
    | start w => cases hx
    | finish w =>
      cases Option.some.inj hy
      cases Option.some.inj hx
      have hll : l <:+ s.log := (List.suffix_cons _ l).trans hl
      obtain ⟨lw, hlw⟩ := suffix_of_mem he'
      obtain ⟨ls, hls⟩ := suffix_of_mem (h.begun x lw (hlw.trans hll))
      have hsub : (Event.start x :: ls) <:+ l := (hls.trans (List.suffix_cons _ lw)).trans hlw
      have hfin := before_of_path reach path ls (hsub.trans hll)
      have hnodup : (Event.finish y :: l).Nodup := h.once.sublist hl.sublist
      exact (List.nodup_cons.mp hnodup).1 (((List.suffix_cons _ ls).trans hsub).subset hfin)

omit [DecidableEq V] in
theorem mem_finishes {log : List (Event V)} {v : V} : v ∈ finishes log ↔ .finish v ∈ log := by
  simp only [finishes, List.mem_filterMap]
  constructor
  · rintro ⟨e, he, hv⟩
    cases e with
    | start w => cases hv
    | finish w => cases Option.some.inj hv; exact he
  · exact fun h => ⟨.finish v, h, rfl⟩

theorem finishes_nodup {net : Net V} {s : State V} (h : Inv net s) : (finishes s.log).Nodup := by
  apply List.pairwise_filterMap.mpr
  refine h.once.imp fun {e e'} hne y hy x hx heq => ?_
  cases e with
  | start v => cases hy
  | finish v =>
    cases e' with
    | start w => cases hx
    | finish w =>
      cases Option.some.inj hy
      cases Option.some.inj hx
      exact hne (congrArg Event.finish heq)

omit [DecidableEq V] in
theorem filter_suffix {α : Type*} {p : α → Bool} {e : α} {l log : List α}
    (h : (e :: l) <:+ log.filter p) : ∃ l', (e :: l') <:+ log ∧ l = l'.filter p := by
  induction log with
  | nil => simp at h
  | cons x log ih =>
    have hlater : (e :: l) <:+ log.filter p → ∃ l', (e :: l') <:+ x :: log ∧ l = l'.filter p := by
      intro hs
      obtain ⟨l', hl', heq⟩ := ih hs
      exact ⟨l', hl'.trans (List.suffix_cons x log), heq⟩
    rw [List.filter_cons] at h
    split at h
    next =>
      rcases List.suffix_cons_iff.mp h with heq | hs
      · obtain ⟨rfl, rfl⟩ := List.cons.inj heq
        exact ⟨log, List.suffix_rfl, rfl⟩
      · exact hlater hs
    next => exact hlater h

omit [DecidableEq V] in
theorem before_filter {log : List (Event V)} {p : Event V → Bool} {u v : V}
    (h : Before log u v) (hu : p (.finish u) = true) : Before (log.filter p) u v := by
  intro l hl
  obtain ⟨l', hl', rfl⟩ := filter_suffix hl
  exact List.mem_filter.mpr ⟨h l' hl', hu⟩

/-- The work left in a state: every step uses some of it up. -/
def State.work (s : State V) : Nat :=
  4 * s.left.card + 3 * s.ready.card + 2 * s.running.card + s.sending.card

theorem step_work_lt {s s' : State V} (step : Step s s') : s'.work < s.work := by
  cases step with
  | start hv | finish hv | retire hv _ =>
    have := Multiset.card_erase_add_one hv
    simp only [State.work, Multiset.card_cons]
    omega
  | deliver hs he =>
    have := Multiset.card_erase_add_one he
    simp only [State.work, State.receive]
    split
    · omega
    · rw [Multiset.card_cons]; omega

theorem exists_step_of_active {s : State V} {w : V} (hw : w ∈ s.ready + s.running + s.sending) :
    ∃ s', Step s s' := by
  simp only [Multiset.mem_add] at hw
  rcases hw with (hw | hw) | hw
  · exact ⟨_, .start hw⟩
  · exact ⟨_, .finish hw⟩
  · by_cases hleft : ∃ v, (w, v) ∈ s.left
    · obtain ⟨v, hv⟩ := hleft
      exact ⟨_, .deliver hw hv⟩
    · exact ⟨_, .retire hw (not_exists.mp hleft)⟩

/-- Every run can be gone on with until it comes to rest. -/
theorem exists_rest (s : State V) :
    ∃ s', Relation.ReflTransGen Step s s' ∧ s'.ready + s'.running + s'.sending = 0 := by
  induction hwork : s.work using Nat.strongRecOn generalizing s with
  | _ n ih =>
    by_cases hrest : s.ready + s.running + s.sending = 0
    · exact ⟨s, .refl, hrest⟩
    · obtain ⟨w, hw⟩ := Multiset.exists_mem_of_ne_zero hrest
      obtain ⟨s₁, hstep⟩ := exists_step_of_active hw
      obtain ⟨s', hreach, hrest'⟩ := ih _ (hwork ▸ step_work_lt hstep) s₁ rfl
      exact ⟨s', .head hstep hreach, hrest'⟩

end Countdown
