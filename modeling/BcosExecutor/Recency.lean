import Mathlib.Data.List.Dedup

namespace Recency

variable {α : Type*}

/-- The second item is touched after the last touch of the first. -/
def TouchedBefore (touches : List α) (a b : α) : Prop :=
  ∃ earlier later, touches = earlier ++ b :: later ∧ a ∈ earlier ∧ a ∉ b :: later

theorem TouchedBefore.cons {touches : List α} {a b : α} (h : TouchedBefore touches a b) (c : α) :
    TouchedBefore (c :: touches) a b := by
  obtain ⟨earlier, later, rfl, hmem, hlast⟩ := h
  exact ⟨c :: earlier, later, rfl, List.mem_cons_of_mem c hmem, hlast⟩

theorem touchedBefore_of_notMem {touches : List α} {a b : α} (ha : a ∉ touches)
    (hb : b ∈ touches) : TouchedBefore (a :: touches) a b := by
  obtain ⟨earlier, later, rfl⟩ := List.append_of_mem hb
  exact ⟨a :: earlier, later, rfl, List.mem_cons_self, fun h => ha (List.mem_append_right _ h)⟩

theorem nodup_concat {l : List α} {a : α} (hl : l.Nodup) (ha : a ∉ l) : (l ++ [a]).Nodup := by
  rw [← List.concat_eq_append]
  exact List.Nodup.concat ha hl

/-- A list that holds nothing twice. -/
structure UniqueList (α : Type*) where
  items : List α
  nodup : items.Nodup

namespace UniqueList

def empty : UniqueList α :=
  ⟨[], List.nodup_nil⟩

def popFront (l : UniqueList α) : UniqueList α :=
  ⟨l.items.tail, l.nodup.tail⟩

variable [DecidableEq α]

/-- An item that is there already is not put in. -/
def emplaceBack (l : UniqueList α) (a : α) : UniqueList α × Bool :=
  if h : a ∈ l.items then (l, false)
  else (⟨l.items ++ [a], nodup_concat l.nodup h⟩, true)

def relocateBack (l : UniqueList α) (a : α) : UniqueList α :=
  ⟨l.items.erase a ++ [a], nodup_concat (l.nodup.erase a) l.nodup.not_mem_erase⟩

end UniqueList

section

variable [DecidableEq α]

/-- Without its repetitions, a history is in the order of the last touches. -/
theorem pairwise_dedup (touches : List α) : touches.dedup.Pairwise (TouchedBefore touches) := by
  induction touches with
  | nil => exact List.Pairwise.nil
  | cons a touches ih =>
    have hrest := ih.imp fun h => TouchedBefore.cons h a
    by_cases ha : a ∈ touches
    · rw [List.dedup_cons_of_mem ha]
      exact hrest
    · rw [List.dedup_cons_of_notMem ha]
      refine List.pairwise_cons.mpr ⟨fun b hb => ?_, hrest⟩
      exact touchedBefore_of_notMem ha (List.mem_dedup.mp hb)

/-- A touch puts its item behind all others. -/
theorem dedup_concat (touches : List α) (a : α) :
    (touches ++ [a]).dedup = touches.dedup.erase a ++ [a] := by
  induction touches with
  | nil => rfl
  | cons b touches ih =>
    rw [List.cons_append]
    by_cases hb : b ∈ touches
    · rw [List.dedup_cons_of_mem (List.mem_append_left [a] hb), List.dedup_cons_of_mem hb, ih]
    · rw [List.dedup_cons_of_notMem hb]
      by_cases hab : b = a
      · subst hab
        have herase : touches.dedup.erase b = touches.dedup :=
          List.erase_of_not_mem (mt List.mem_dedup.mp hb)
        rw [List.dedup_cons_of_mem (List.mem_append_right _ List.mem_cons_self), ih, herase,
          List.erase_cons_head]
      · have hnew : b ∉ touches ++ [a] := by
          rw [List.mem_append, List.mem_singleton]
          exact not_or.mpr ⟨hb, hab⟩
        rw [List.dedup_cons_of_notMem hnew, ih, List.erase_cons_tail (by simpa using hab)]
        rfl

/-- The order of what is left after some items have gone from its front. -/
theorem order_touch {touches gone items : List α} (h : touches.dedup = gone ++ items) (a : α) :
    (touches ++ [a]).dedup = gone.erase a ++ (items.erase a ++ [a]) := by
  have hnodup := List.nodup_dedup touches
  rw [h] at hnodup
  rw [dedup_concat, h, ← List.append_assoc]
  congr 1
  by_cases ha : a ∈ gone
  · have hout : a ∉ items := fun hin => (List.nodup_append'.mp hnodup).2.2 ha hin
    rw [List.erase_append_left _ ha, List.erase_of_not_mem hout]
  · rw [List.erase_append_right _ ha, List.erase_of_not_mem ha]

/-- What is left is in the order of the last touches too. -/
theorem pairwise_left {touches gone items : List α} (h : touches.dedup = gone ++ items) :
    items.Pairwise (TouchedBefore touches) :=
  (List.pairwise_append.mp (h ▸ pairwise_dedup touches)).2.1

end

end Recency
