import BcosExecutor.WasmModule
import Mathlib.Data.List.Induction
import Mathlib.Data.List.Nodup
import Mathlib.Data.List.Count

namespace BcosExecutor

/-- What an index denotes: the import at a position of `module.imports`, or a definition. -/
inductive Entity
  | imported (position : Nat)
  | defined (n : Nat)
  deriving DecidableEq

/-- The positions of the imports of one kind. -/
def positions (kind : ExternalKind) (imports : List Import) : List Nat :=
  (imports.zipIdx.filter fun e => e.1.desc.kind = kind).map Prod.snd

/-- An index space: the imports, then the definitions. -/
def entity (imported : List Nat) (definitions i : Nat) : Option Entity :=
  match imported[i]? with
  | some n => some (.imported n)
  | none =>
    if i - imported.length < definitions then some (.defined (i - imported.length)) else none

theorem positions_concat (kind : ExternalKind) (imports : List Import) (x : Import) :
    positions kind (imports ++ [x]) =
      positions kind imports ++ if x.desc.kind = kind then [imports.length] else [] := by
  by_cases hx : x.desc.kind = kind <;> simp [positions, List.zipIdx_append, hx]

theorem positions_lt {kind : ExternalKind} {imports : List Import} {n : Nat}
    (h : n ∈ positions kind imports) : n < imports.length := by
  obtain ⟨⟨x, i⟩, he, rfl⟩ := List.mem_map.mp h
  exact List.snd_lt_of_mem_zipIdx (List.mem_filter.mp he).1

theorem positions_length (kind : ExternalKind) (imports : List Import) :
    (positions kind imports).length = imports.countP (·.desc.kind = kind) := by
  induction imports using List.reverseRecOn with
  | nil => rfl
  | append_singleton imports x ih =>
    rw [positions_concat, List.length_append, ih, List.countP_append]
    by_cases hx : x.desc.kind = kind <;> simp [hx]

/-- The position of the import with index `j` is the one with `j` imports of its kind before. -/
theorem getElem?_positions {kind : ExternalKind} {imports : List Import} {j n : Nat} :
    (positions kind imports)[j]? = some n ↔ (∃ x, imports[n]? = some x ∧ x.desc.kind = kind) ∧
      (imports.take n).countP (·.desc.kind = kind) = j := by
  induction imports using List.reverseRecOn with
  | nil => simp [positions]
  | append_singleton imports x ih =>
    have hlen := positions_length kind imports
    have hpos : (positions kind (imports ++ [x]))[j]? = some n ↔
        (positions kind imports)[j]? = some n ∨
          x.desc.kind = kind ∧ j = (positions kind imports).length ∧ n = imports.length := by
      rw [positions_concat, List.getElem?_append]
      split
      next hj => simp [Nat.ne_of_lt hj]
      next hj =>
        have hnone : (positions kind imports)[j]? = none := List.getElem?_eq_none (by omega)
        rw [hnone]
        by_cases hx : x.desc.kind = kind
        · simp only [hx, if_true, List.getElem?_singleton, reduceCtorEq, false_or, true_and]
          by_cases hlast : j = (positions kind imports).length
          · simp [hlast, eq_comm]
          · have hne : j - (positions kind imports).length ≠ 0 := by omega
            simp [hlast, hne]
        · simp [hx]
    rw [hpos]
    rcases Nat.lt_trichotomy n imports.length with hn | rfl | hn
    · rw [List.getElem?_append_left hn, List.take_append_of_le_length (Nat.le_of_lt hn), ← ih]
      simp [Nat.ne_of_lt hn]
    · have hnot : (positions kind imports)[j]? ≠ some imports.length := fun he =>
        Nat.lt_irrefl _ (positions_lt (List.mem_of_getElem? he))
      simp [hnot, hlen, eq_comm]
    · have hnot : (positions kind imports)[j]? ≠ some n := fun he => by
        have := positions_lt (List.mem_of_getElem? he)
        omega
      have hnone : (imports ++ [x])[n]? = none := List.getElem?_eq_none (by simp; omega)
      simp [hnot, hnone, Nat.ne_of_gt hn]

theorem entity_lt {ps : List Nat} {defs i : Nat} (h : i < ps.length) :
    entity ps defs i = some (.imported ps[i]) := by
  rw [entity, List.getElem?_eq_getElem h]

theorem entity_ge {ps : List Nat} {defs i : Nat} (h : ps.length ≤ i) :
    entity ps defs i =
      if i - ps.length < defs then some (.defined (i - ps.length)) else none := by
  rw [entity, List.getElem?_eq_none h]

/-- With one more import an index keeps its meaning only if it is the index of an import. -/
theorem entity_same_iff {ps : List Nat} {n defs i : Nat} :
    (∀ e, entity ps defs i = some e → entity (ps ++ [n]) defs i = some e) ↔
      (i < ps.length + defs → i < ps.length) := by
  by_cases hi : i < ps.length
  · have hi' : i < (ps ++ [n]).length := by simp; omega
    simp only [entity_lt hi, entity_lt hi', List.getElem_append_left hi, imp_self, implies_true, hi]
  · rw [entity_ge (by omega)]
    by_cases hd : i < ps.length + defs
    · have hlt : i - ps.length < defs := by omega
      simp only [hlt, if_true, Option.some.injEq, forall_eq', hd, hi, forall_const, iff_false]
      by_cases heq : i = ps.length
      · subst i
        rw [entity_lt (by simp)]
        simp
      · rw [entity_ge (by simp; omega)]
        simp only [List.length_append, List.length_singleton]
        split
        · simp; omega
        · simp
    · have hlt : ¬ i - ps.length < defs := by omega
      simp [hlt, hd]

/-- The next index has the meaning only if it is the index of a definition. -/
theorem entity_succ_iff {ps : List Nat} {n defs i : Nat} (hn : n ∉ ps) (hnodup : ps.Nodup) :
    (∀ e, entity ps defs i = some e → entity (ps ++ [n]) defs (i + 1) = some e) ↔
      (i < ps.length + defs → ps.length ≤ i) := by
  by_cases hi : i < ps.length
  · have hi' : i + 1 < (ps ++ [n]).length := by simp; omega
    have hge : ¬ ps.length ≤ i := by omega
    have hd : i < ps.length + defs := by omega
    simp only [entity_lt hi, entity_lt hi', Option.some.injEq, forall_eq', hd, hge, forall_const,
      iff_false, Entity.imported.injEq]
    intro heq
    have hnodup' : (ps ++ [n]).Nodup := List.nodup_append.mpr ⟨hnodup, by simp, by
      intro a ha b hb; rw [List.mem_singleton.mp hb]; exact fun h => hn (h ▸ ha)⟩
    have hlt : i < (ps ++ [n]).length := by rw [List.length_append]; omega
    have hself : (ps ++ [n])[i] = ps[i] := List.getElem_append_left hi
    have := (hnodup'.getElem_inj_iff).mp (heq.trans hself.symm)
    omega
  · have hlen : (ps ++ [n]).length = ps.length + 1 := by simp
    have hsub : i + 1 - (ps.length + 1) = i - ps.length := by omega
    rw [entity_ge (by omega), entity_ge (by omega), hlen, hsub]
    simp only [imp_self, implies_true, true_iff]
    omega

theorem positions_nodup (kind : ExternalKind) (imports : List Import) :
    (positions kind imports).Nodup := by
  induction imports using List.reverseRecOn with
  | nil => exact List.nodup_nil
  | append_singleton imports x ih =>
    rw [positions_concat]
    split
    · refine List.nodup_append.mpr ⟨ih, by simp, ?_⟩
      intro a ha b hb
      have := positions_lt ha
      rw [List.mem_singleton.mp hb]
      omega
    · simpa using ih

end BcosExecutor
