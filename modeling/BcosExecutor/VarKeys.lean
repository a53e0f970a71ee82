import BcosExecutor.ConflictKeys
import BcosExecutor.ScaleExact

namespace BcosExecutor

theorem paramAbis_eq_map (ts : List Scale.Ty) : paramAbis ts = ts.map paramAbi := by
  induction ts with
  | nil => rfl
  | cons t ts ih =>
    rw [paramAbis, ih]
    rfl

theorem paramAbis_getElem {ts : List Scale.Ty} {i : Nat} {t : Scale.Ty} (h : ts[i]? = some t) :
    (paramAbis ts)[i]? = some (paramAbi t) := by
  rw [paramAbis_eq_map, List.getElem?_map, h]
  rfl

theorem allSized_take {ts : List Scale.Ty} {vs : List Scale.Val} (h : AllSized ts vs) (i : Nat) :
    AllSized (ts.take i) (vs.take i) := by
  induction ts generalizing vs i with
  | nil => unfold AllSized; simp
  | cons t ts ih =>
    cases i with
    | zero => unfold AllSized; simp
    | succ i =>
      cases vs with
      | nil => unfold AllSized; simp
      | cons v vs =>
        unfold AllSized at h
        rw [List.take_succ_cons, List.take_succ_cons]
        unfold AllSized
        exact ⟨h.1, ih h.2 i⟩

theorem sized_getElem {ts : List Scale.Ty} {vs : List Scale.Val} (h : AllSized ts vs) {i : Nat}
    {t : Scale.Ty} {v : Scale.Val} (ht : ts[i]? = some t) (hv : vs[i]? = some v) : Sized t v := by
  induction ts generalizing vs i with
  | nil => cases ht
  | cons t' ts ih =>
    cases vs with
    | nil => cases hv
    | cons v' vs =>
      unfold AllSized at h
      cases i with
      | zero =>
        cases ht
        cases hv
        exact h.1
      | succ i => exact ih h.2 ht hv

/-- A path goes down through tuples to a component, whose bytes begin at a position. What stands
before them can be measured. -/
inductive Located : Nat → List Nat → List Scale.Ty → List Scale.Val → Nat → Scale.Ty →
    Scale.Val → Prop
  | here {segment ts vs t v} : ts[segment]? = some t → vs[segment]? = some v →
      AllSized (ts.take segment) (vs.take segment) →
      Located segment [] ts vs (Scale.encodeAll (vs.take segment)).length t v
  | inside {segment next path ts vs components elements pos t v} :
      ts[segment]? = some (.tuple components) → vs[segment]? = some (.sequence elements) →
      AllSized (ts.take segment) (vs.take segment) →
      Located next path components elements pos t v →
      Located segment (next :: path) ts vs ((Scale.encodeAll (vs.take segment)).length + pos) t v

theorem encodeAll_take_le {vs : List Scale.Val} {i : Nat} {v : Scale.Val} (h : vs[i]? = some v) :
    (Scale.encodeAll (vs.take i)).length + (Scale.encode v).length ≤
      (Scale.encodeAll vs).length := by
  rw [Scale.encodeAll_split h]
  simp only [List.length_append]
  omega

/-- The selected component is found where everything can be measured. -/
theorem located_of_select {path : List Nat} {segment : Nat} {ts : List Scale.Ty}
    {vs : List Scale.Val} (hc : AllSized ts vs) {t : Scale.Ty} {v : Scale.Val}
    (hsel : Scale.select segment path ts vs = some (t, v)) :
    ∃ pos, Located segment path ts vs pos t v ∧ Sized t v ∧
      pos + (Scale.encode v).length ≤ (Scale.encodeAll vs).length := by
  induction path generalizing segment ts vs with
  | nil =>
    obtain ⟨t', ht, hsel⟩ := Option.bind_eq_some_iff.mp hsel
    obtain ⟨v', hv, hsel⟩ := Option.map_eq_some_iff.mp hsel
    cases hsel
    exact ⟨_, .here ht hv (allSized_take hc segment), sized_getElem hc ht hv, encodeAll_take_le hv⟩
  | cons next path ih =>
    unfold Scale.select at hsel
    split at hsel
    next components elements ht hv =>
      have hsized := sized_getElem hc ht hv
      unfold Sized at hsized
      obtain ⟨pos, hlocated, hcomponent, hle⟩ := ih hsized hsel
      have houter := encodeAll_take_le hv
      rw [Scale.encode] at houter
      exact ⟨_, .inside ht hv (allSized_take hc segment) hlocated, hcomponent, by omega⟩
    next => cases hsel

namespace KeyContext

variable {x : KeyContext}

theorem skip_exact (hcompact : CompactLen x.compactLen) {ts : List Scale.Ty}
    {vs : List Scale.Val} (h : Scale.HaveTypes ts vs) (hc : AllSized ts vs)
    {data pre post : Bytes} (hdata : data.length < 2 ^ 64)
    (heq : data = pre ++ (Scale.encodeAll vs ++ post))
    (hend : pre.length + (Scale.encodeAll vs).length < 2 ^ 32) :
    x.skip data (paramAbis ts) pre.length = .ok (some (pre ++ Scale.encodeAll vs).length) := by
  induction ts generalizing vs pre with
  | nil =>
    cases vs with
    | nil => simp [paramAbis, skip, Scale.encodeAll]
    | cons v vs => unfold Scale.HaveTypes at h; exact h.elim
  | cons t ts ih =>
    cases vs with
    | nil => unfold Scale.HaveTypes at h; exact h.elim
    | cons v vs =>
      unfold Scale.HaveTypes at h
      unfold AllSized at hc
      have hv : data = pre ++ (Scale.encode v ++ (Scale.encodeAll vs ++ post)) := by
        rw [heq, Scale.encodeAll, List.append_assoc]
      have hvs : data = (pre ++ Scale.encode v) ++ (Scale.encodeAll vs ++ post) := by
        rw [hv, List.append_assoc]
      rw [Scale.encodeAll, List.length_append] at hend
      have hfirst := scaleEncodingLength_of_exact (exact hcompact _) ⟨h.1, hc.1, by omega⟩ pre
        (Scale.encodeAll vs ++ post) (by rw [← hv]; exact hdata)
      rw [← hv] at hfirst
      have hrest := ih h.2 hc.2 hvs (by rw [List.length_append]; omega)
      rw [paramAbis, ← paramAbi, skip, hfirst]
      simp only [bind, Except.bind, ifPresent]
      rw [Nat.mod_eq_of_lt (by omega), ← List.length_append, hrest, Scale.encodeAll,
        List.append_assoc]

theorem skip_to_component (hcompact : CompactLen x.compactLen) {ts : List Scale.Ty}
    {vs : List Scale.Val} (h : Scale.HaveTypes ts vs) {i : Nat}
    (hc : AllSized (ts.take i) (vs.take i)) {data pre post : Bytes} (hdata : data.length < 2 ^ 64)
    (heq : data = pre ++ (Scale.encodeAll vs ++ post)) {v : Scale.Val} (hv : vs[i]? = some v)
    (hstart : pre.length + (Scale.encodeAll (vs.take i)).length < 2 ^ 32) :
    ∃ pre' post', data = pre' ++ (Scale.encode v ++ post') ∧
      pre'.length = pre.length + (Scale.encodeAll (vs.take i)).length ∧
      x.skip data ((paramAbis ts).take i) pre.length = .ok (some pre'.length) := by
  have hsplit : data = (pre ++ Scale.encodeAll (vs.take i)) ++
      (Scale.encode v ++ (Scale.encodeAll (vs.drop (i + 1)) ++ post)) := by
    rw [heq, Scale.encodeAll_split hv]
    simp only [List.append_assoc]
  have htake : (paramAbis ts).take i = paramAbis (ts.take i) := by
    rw [paramAbis_eq_map, paramAbis_eq_map, List.map_take]
  refine ⟨_, _, hsplit, List.length_append, ?_⟩
  rw [htake]
  exact skip_exact hcompact (Scale.haveTypes_take h i) hc hdata
    (hsplit.trans (List.append_assoc ..)) hstart

/-- The walk ends where the component begins. -/
theorem walkPath_exact (hcompact : CompactLen x.compactLen) {data : Bytes}
    (hdata : data.length < 2 ^ 64) {path : List Nat} {segment pos : Nat} {ts : List Scale.Ty}
    {vs : List Scale.Val} {t : Scale.Ty} {v : Scale.Val}
    (hlocated : Located segment path ts vs pos t v) (h : Scale.HaveTypes ts vs) {pre post : Bytes}
    (heq : data = pre ++ (Scale.encodeAll vs ++ post)) (hstart : pre.length + pos < 2 ^ 32) :
    ∃ pre' post', data = pre' ++ (Scale.encode v ++ post') ∧ Scale.HasType t v ∧
      x.walkPath data segment path (paramAbis ts) pre.length =
        .ok (some (paramAbi t, pre'.length)) := by
  induction hlocated generalizing pre post with
  | here ht hv hc =>
    obtain ⟨pre', post', hdata', -, hskip⟩ :=
      skip_to_component hcompact h hc hdata heq hv hstart
    refine ⟨pre', post', hdata', Scale.haveTypes_getElem h ht hv, ?_⟩
    unfold walkPath
    rw [paramAbis_getElem ht]
    dsimp only
    rw [hskip]
    rfl
  | inside ht hv hc _ ih =>
    obtain ⟨pre', post', hdata', hlength, hskip⟩ :=
      skip_to_component hcompact h hc hdata heq hv (by omega)
    have htyped := Scale.haveTypes_getElem h ht hv
    unfold Scale.HasType at htyped
    obtain ⟨pre'', post'', hdata'', hv', hwalk⟩ := ih htyped hdata' (by omega)
    refine ⟨pre'', post'', hdata'', hv', ?_⟩
    unfold walkPath
    rw [paramAbis_getElem ht]
    dsimp only
    rw [hskip]
    exact hwalk

/-- What a `Var` field adds to the key are the bytes of the component. -/
theorem varValue_exact (hcompact : CompactLen x.compactLen) {ts : List Scale.Ty}
    {vs : List Scale.Val} (h : Scale.HaveTypes ts vs) (hlen : (Scale.encodeAll vs).length < 2 ^ 64)
    {segment pos : Nat} {path : List Nat} {t : Scale.Ty} {v : Scale.Val}
    (hlocated : Located segment path ts vs pos t v) (hstart : pos < 2 ^ 32) (hsized : Sized t v)
    (hshort : (Scale.encode v).length < 2 ^ 32) :
    x.varValue (paramAbis ts) (Scale.encodeAll vs) segment path = .ok (some (Scale.encode v)) := by
  have hwhole : Scale.encodeAll vs = [] ++ (Scale.encodeAll vs ++ []) := by simp
  obtain ⟨pre, post, hdata, htyped, hwalk⟩ :=
    walkPath_exact hcompact hlen hlocated h hwhole (by simpa using hstart)
  have hlength := scaleEncodingLength_of_exact (exact hcompact _) ⟨htyped, hsized, hshort⟩ pre post
    (by rw [← hdata]; exact hlen)
  rw [← hdata] at hlength
  have hbound := congrArg List.length hdata
  simp only [List.length_append] at hbound
  have hslice : ((Scale.encodeAll vs).drop pre.length).take (Scale.encode v).length =
      Scale.encode v := by
    rw [hdata, List.drop_left, List.take_left]
  unfold varValue
  replace hwalk : x.walkPath (Scale.encodeAll vs) segment path (paramAbis ts) 0 =
    .ok (some (paramAbi t, pre.length)) := hwalk
  rw [hwalk]
  simp only [bind, Except.bind, ifPresent, hlength]
  have hinside : decide (pre.length + (Scale.encode v).length ≤ (Scale.encodeAll vs).length) =
      true := by
    simp only [decide_eq_true_eq]
    omega
  rw [hinside, hslice]
  rfl

end KeyContext

end BcosExecutor
