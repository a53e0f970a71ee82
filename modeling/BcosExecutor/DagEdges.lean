import BcosExecutor.Dag
import Mathlib.Data.List.Count
import Mathlib.Data.List.Induction
import Mathlib.Logic.Relation

namespace BcosExecutor

/-- The relation of one edge of a list of edges. -/
def Linked (edges : List (Nat × Nat)) (u v : Nat) : Prop :=
  (u, v) ∈ edges

namespace DAG

theorem addEdge_vtxs {dag : DAG} {f t : Nat} (hf : f < dag.vtxs.length) :
    (dag.addEdge f t).vtxs =
      (dag.vtxs.modify f fun vtx => { vtx with outEdge := vtx.outEdge ++ [t] }).modify t
        fun vtx => { vtx with inDegree := vtx.inDegree + 1 } := by
  rw [addEdge, if_neg (by omega)]

theorem addEdge_length (dag : DAG) (f t : Nat) :
    (dag.addEdge f t).vtxs.length = dag.vtxs.length := by
  unfold addEdge
  split <;> simp

theorem addEdge_frame (dag : DAG) (f t : Nat) :
    (dag.addEdge f t).topLevel = dag.topLevel ∧ (dag.addEdge f t).totalVtxs = dag.totalVtxs ∧
      (dag.addEdge f t).totalConsume = dag.totalConsume := by
  unfold addEdge
  split <;> simp

theorem addEdge_outEdge {dag : DAG} {f t : Nat} (hf : f < dag.vtxs.length) (u : Nat) :
    (dag.addEdge f t).outEdge u = dag.outEdge u ++ if u = f then [t] else [] := by
  simp only [outEdge, addEdge_vtxs hf, List.getElem?_modify]
  by_cases hu : u = f
  · subst u
    have he : dag.vtxs[f]? = some dag.vtxs[f] := by simp [hf]
    by_cases ht : t = f <;> simp [ht, he]
  · cases hv : dag.vtxs[u]? with
    | none => simp [hu]
    | some vtx => by_cases ht : t = u <;> simp [hu, ht, Ne.symm hu]

theorem addEdge_inDegree {dag : DAG} {f t : Nat} (hf : f < dag.vtxs.length)
    (ht : t < dag.vtxs.length) (v : Nat) :
    (dag.addEdge f t).inDegree v = dag.inDegree v + if v = t then 1 else 0 := by
  simp only [inDegree, addEdge_vtxs hf, List.getElem?_modify]
  by_cases hv : v = t
  · subst v
    have he : dag.vtxs[t]? = some dag.vtxs[t] := by simp [ht]
    by_cases hft : f = t <;> simp [hft, he]
  · cases hx : dag.vtxs[v]? with
    | none => simp [hv]
    | some vtx => by_cases hfv : f = v <;> simp [hv, hfv, Ne.symm hv]

theorem decrement_inDegree (dag : DAG) (id v : Nat) :
    (dag.decrement id).inDegree v = dag.inDegree v - if v = id then 1 else 0 := by
  simp only [inDegree, decrement, List.getElem?_modify]
  cases hx : dag.vtxs[v]? with
  | none => simp
  | some vtx =>
    by_cases hv : v = id
    · simp [hv]
    · simp [hv, Ne.symm hv]

theorem decrement_outEdge (dag : DAG) (id u : Nat) :
    (dag.decrement id).outEdge u = dag.outEdge u := by
  simp only [outEdge, decrement, List.getElem?_modify]
  cases hx : dag.vtxs[u]? with
  | none => simp
  | some vtx => by_cases hv : id = u <;> simp [hv]

end DAG

/-- The DAG has exactly the listed edges. -/
structure HasEdges (n : Nat) (dag : DAG) (edges : List (Nat × Nat)) : Prop where
  length : dag.vtxs.length = n
  outEdge : ∀ u, dag.outEdge u = (edges.filter (·.1 = u)).map Prod.snd
  inDegree : ∀ v, dag.inDegree v = (edges.map Prod.snd).count v
  idle : dag.topLevel = [] ∧ dag.totalVtxs = n ∧ dag.totalConsume = 0

theorem hasEdges_init (n : Nat) : HasEdges n (DAG.init n) [] := by
  refine ⟨by simp [DAG.init], fun u => ?_, fun v => ?_, rfl, rfl, rfl⟩
  · by_cases h : u < n <;> simp [DAG.outEdge, DAG.init, h]
  · by_cases h : v < n <;> simp [DAG.inDegree, DAG.init, h]

theorem HasEdges.addEdge {n : Nat} {dag : DAG} {edges : List (Nat × Nat)}
    (h : HasEdges n dag edges) {f t : Nat} (hf : f < n) (ht : t < n) :
    HasEdges n (dag.addEdge f t) (edges ++ [(f, t)]) := by
  have hf' : f < dag.vtxs.length := h.length ▸ hf
  have ht' : t < dag.vtxs.length := h.length ▸ ht
  obtain ⟨htop, htotal, hconsume⟩ := DAG.addEdge_frame dag f t
  refine ⟨(DAG.addEdge_length dag f t).trans h.length, fun u => ?_, fun v => ?_, ?_⟩
  · rw [DAG.addEdge_outEdge hf', h.outEdge]
    by_cases hu : u = f
    · simp [hu]
    · simp [hu, Ne.symm hu]
  · rw [DAG.addEdge_inDegree hf' ht', h.inDegree]
    by_cases hv : v = t
    · simp [hv]
    · simp [hv, Ne.symm hv]
  · rw [htop, htotal, hconsume]; exact h.idle

variable {K : Type*}

theorem hasEdges_addCriticals {n : Nat} {field : CriticalField K} {id : Nat} (hid : id < n)
    (hfield : ∀ c p, field.get c = some p → p < id) (criticals : List K)
    {dag : DAG} {edges : List (Nat × Nat)} (h : HasEdges n dag edges) :
    HasEdges n
      (criticals.foldl (fun dag c =>
        match field.get c with
        | some pId => dag.addEdge pId id
        | none => dag) dag)
      (edges ++ criticals.filterMap fun c => (field.get c).map fun p => (p, id)) := by
  induction criticals generalizing dag edges with
  | nil => simpa using h
  | cons c cs ih =>
    simp only [List.foldl_cons]
    cases hc : field.get c with
    | none => simpa [List.filterMap_cons, hc] using ih h
    | some p =>
      have := hfield c p hc
      simpa [List.filterMap_cons, hc] using ih (h.addEdge (by omega : p < n) hid)

variable [DecidableEq K]

theorem CriticalField.get_updates (criticals : List K) (field : CriticalField K) (id : Nat) (c : K) :
    (criticals.foldl (fun field c => field.update c id) field).get c =
      if c ∈ criticals then some id else field.get c := by
  induction criticals generalizing field with
  | nil => simp
  | cons d ds ih =>
    rw [List.foldl_cons, ih]
    by_cases hd : c = d
    · subst d; simp [CriticalField.get, CriticalField.update]
    · simp [hd, CriticalField.get, CriticalField.update]

def Shares (txs : List (List K)) (i j : Nat) : Prop :=
  ∃ c ∈ txs.getD i [], c ∈ txs.getD j []

/-- The loop of `TxDAG::init` after the transactions `txs`: the latest user of a critical is
reached from all of its users, so the edges order all users of one critical. -/
structure LinkInv (n : Nat) (txs : List (List K)) (st : DAG × CriticalField K)
    (edges : List (Nat × Nat)) : Prop where
  hasEdges : HasEdges n st.1 edges
  forward : ∀ e ∈ edges, e.1 < e.2 ∧ e.2 < txs.length
  latest_lt : ∀ c p, st.2.get c = some p → p < txs.length
  latest : ∀ c i, c ∈ txs.getD i [] →
    ∃ p, st.2.get c = some p ∧ Relation.ReflTransGen (Linked edges) i p
  ordered : ∀ i j, i < j → Shares txs i j → Relation.TransGen (Linked edges) i j

omit [DecidableEq K] in
theorem linkInv_init (n : Nat) : LinkInv (K := K) n [] (DAG.init n, .empty) [] := by
  refine ⟨hasEdges_init n, by simp, by simp [CriticalField.get, CriticalField.empty], ?_, ?_⟩
  · intro c i hc; simp at hc
  · rintro i j _ ⟨c, hc, _⟩; simp at hc

/-- The edges one round of the loop adds. -/
def newEdges (field : CriticalField K) (id : Nat) (criticals : List K) : List (Nat × Nat) :=
  criticals.filterMap fun c => (field.get c).map fun p => (p, id)

omit [DecidableEq K] in
theorem mem_newEdges {field : CriticalField K} {id : Nat} {criticals : List K} {e : Nat × Nat} :
    e ∈ newEdges field id criticals ↔ e.2 = id ∧ ∃ c ∈ criticals, field.get c = some e.1 := by
  simp only [newEdges, List.mem_filterMap, Option.map_eq_some_iff]
  constructor
  · rintro ⟨c, hc, p, hp, rfl⟩
    exact ⟨rfl, c, hc, hp⟩
  · rintro ⟨rfl, c, hc, hp⟩
    exact ⟨c, hc, e.1, hp, rfl⟩

theorem link_eq {n id : Nat} {st : DAG × CriticalField K} {edges : List (Nat × Nat)}
    (hid : id < n) (hfield : ∀ c p, st.2.get c = some p → p < id) (h : HasEdges n st.1 edges)
    (criticals : List K) :
    HasEdges n (TxDAG.link st (criticals, id)).1 (edges ++ newEdges st.2 id criticals) ∧
      ∀ c, (TxDAG.link st (criticals, id)).2.get c =
        if c ∈ criticals then some id else st.2.get c := by
  cases criticals with
  | nil => exact ⟨by simpa [TxDAG.link, newEdges] using h, by simp [TxDAG.link]⟩
  | cons c cs =>
    simp only [TxDAG.link, List.isEmpty_cons, Bool.false_eq_true, if_false]
    exact ⟨hasEdges_addCriticals hid hfield (c :: cs) h,
      CriticalField.get_updates (c :: cs) st.2 id⟩

omit [DecidableEq K] in
theorem getD_append_cases {txs : List (List K)} {x : List K} {i : Nat} {c : K}
    (h : c ∈ (txs ++ [x]).getD i []) :
    (i < txs.length ∧ c ∈ txs.getD i []) ∨ (i = txs.length ∧ c ∈ x) := by
  rcases Nat.lt_trichotomy i txs.length with hi | rfl | hi
  · exact Or.inl ⟨hi, by simpa [List.getD_eq_getElem?_getD, List.getElem?_append_left hi] using h⟩
  · exact Or.inr ⟨rfl, by simpa [List.getD_eq_getElem?_getD] using h⟩
  · have hn : (txs ++ [x])[i]? = none := List.getElem?_eq_none (by simp; omega)
    simp [List.getD_eq_getElem?_getD, hn] at h

theorem linked_mono {edges new : List (Nat × Nat)} {u v : Nat} (h : Linked edges u v) :
    Linked (edges ++ new) u v :=
  List.mem_append_left new h

theorem linkInv_step {n : Nat} {txs : List (List K)} {st : DAG × CriticalField K}
    {edges : List (Nat × Nat)} (h : LinkInv n txs st edges) (hn : txs.length < n) (x : List K) :
    LinkInv n (txs ++ [x]) (TxDAG.link st (x, txs.length))
      (edges ++ newEdges st.2 txs.length x) := by
  obtain ⟨hedges, hget⟩ := link_eq hn h.latest_lt h.hasEdges x
  have mono {i p : Nat} : Relation.ReflTransGen (Linked edges) i p →
      Relation.ReflTransGen (Linked (edges ++ newEdges st.2 txs.length x)) i p :=
    Relation.ReflTransGen.mono (fun _ _ => linked_mono) i p
  have last {c : K} {i : Nat} (hc : c ∈ txs.getD i []) (hx : c ∈ x) :
      Relation.TransGen (Linked (edges ++ newEdges st.2 txs.length x)) i txs.length := by
    obtain ⟨p, hp, hpath⟩ := h.latest c i hc
    refine Relation.TransGen.tail' (mono hpath) ?_
    exact List.mem_append_right edges (mem_newEdges.mpr ⟨rfl, c, hx, hp⟩)
  refine ⟨hedges, ?_, ?_, ?_, ?_⟩
  · intro e he
    rw [List.length_append, List.length_singleton]
    rcases List.mem_append.mp he with he | he
    · have := h.forward e he; omega
    · obtain ⟨heq, c, _, hc⟩ := mem_newEdges.mp he
      have := h.latest_lt c e.1 hc
      omega
  · intro c p hp
    rw [List.length_append, List.length_singleton]
    rw [hget] at hp
    split at hp
    next => cases hp; omega
    next => have := h.latest_lt c p hp; omega
  · intro c i hc
    rw [hget]
    by_cases hx : c ∈ x
    · refine ⟨txs.length, if_pos hx, ?_⟩
      rcases getD_append_cases hc with ⟨_, hc⟩ | ⟨rfl, _⟩
      · exact (last hc hx).to_reflTransGen
      · exact .refl
    · rw [if_neg hx]
      obtain ⟨_, hc⟩ := (getD_append_cases hc).resolve_right fun hr => hx hr.2
      obtain ⟨p, hp, hpath⟩ := h.latest c i hc
      exact ⟨p, hp, mono hpath⟩
  · rintro i j hij ⟨c, hci, hcj⟩
    rcases getD_append_cases hcj with ⟨hj, hcj⟩ | ⟨rfl, hx⟩
    · obtain ⟨_, hci⟩ := (getD_append_cases hci).resolve_right (by omega)
      exact Relation.TransGen.mono (fun _ _ => linked_mono) i j (h.ordered i j hij ⟨c, hci, hcj⟩)
    · obtain ⟨_, hci⟩ := (getD_append_cases hci).resolve_right (by omega)
      exact last hci hx

theorem linkInv_loop (n : Nat) (txs : List (List K)) (hn : txs.length ≤ n) :
    ∃ edges, LinkInv n txs (txs.zipIdx.foldl TxDAG.link (DAG.init n, .empty)) edges := by
  induction txs using List.reverseRecOn with
  | nil => exact ⟨[], linkInv_init n⟩
  | append_singleton txs x ih =>
    rw [List.length_append, List.length_singleton] at hn
    obtain ⟨edges, h⟩ := ih (by omega)
    have hstep := linkInv_step h (by omega) x
    exact ⟨_, by simpa [List.zipIdx_append, List.foldl_append] using hstep⟩

/-- What `TxDAG::init` builds: a forward DAG with the vertices of in-degree zero queued, in
which every two transactions that share a critical are connected. -/
theorem init_spec (txs : List (List K)) :
    ∃ edges : List (Nat × Nat),
      (∀ e ∈ edges, e.1 < e.2 ∧ e.2 < txs.length) ∧
      (∀ i j, i < j → Shares txs i j → Relation.TransGen (Linked edges) i j) ∧
      (∀ u, (TxDAG.init txs).outEdge u = (edges.filter (·.1 = u)).map Prod.snd) ∧
      (∀ v, (TxDAG.init txs).inDegree v = (edges.map Prod.snd).count v) ∧
      (TxDAG.init txs).topLevel =
        (List.range txs.length).filter (fun v => (edges.map Prod.snd).count v = 0) ∧
      (TxDAG.init txs).totalVtxs = txs.length ∧ (TxDAG.init txs).totalConsume = 0 := by
  obtain ⟨edges, h⟩ := linkInv_loop txs.length txs (Nat.le_refl _)
  obtain ⟨htop, htotal, hconsume⟩ := h.hasEdges.idle
  refine ⟨edges, h.forward, h.ordered, h.hasEdges.outEdge, h.hasEdges.inDegree, ?_, htotal,
    hconsume⟩
  simp only [TxDAG.init, DAG.generate, htop, h.hasEdges.length, h.hasEdges.inDegree,
    List.nil_append]

end BcosExecutor
