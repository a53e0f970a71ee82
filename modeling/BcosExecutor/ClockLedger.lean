import BcosExecutor.ClockEviction
import Mathlib.Data.List.Induction
import Mathlib.Data.List.Perm.Lattice

namespace BcosExecutor

namespace ClockCache

variable {V : Type}

def unused (flags : UInt32) : Prop :=
  inCache flags = false ∧ refCounts flags = 0

theorem not_unused_iff {flags : UInt32} :
    ¬unused flags ↔ inCache flags = true ∨ 0 < refCounts flags := by
  unfold unused
  rw [not_and_or, Bool.not_eq_false, UInt32.pos_iff_ne_zero]

namespace CacheShard

/-- The slots that are in use. -/
def slots (s : CacheShard V) : List Nat :=
  (List.range s.list.length).filter (· ∉ s.recycle)

def valueAt (s : CacheShard V) (i : Nat) : Option V :=
  (s.list[i]?).map CacheItem.value

/-- The invariant where one item is in the cache that has lost its place in the table. -/
structure InvBut (s : CacheShard V) (lost : Option Nat) : Prop where
  head_in : s.head = 0 ∨ s.head < s.list.length
  recycle_nodup : s.recycle.Nodup
  recycle_lt : ∀ i ∈ s.recycle, i < s.list.length
  free : ∀ i item, s.list[i]? = some item → (i ∈ s.recycle ↔ unused item.flags)
  usage : s.usage + s.recycle.length = s.list.length
  table : ∀ h i, s.table h = some i ↔ ∃ item, s.list[i]? = some item ∧
    inCache item.flags = true ∧ item.hash.toUInt32 = h ∧ lost ≠ some i

variable {s t : CacheShard V} {lost : Option Nat} {i j : Nat} {item : CacheItem V}

theorem Inv.but (h : s.Inv) : s.InvBut none where
  head_in := h.head_in
  recycle_nodup := h.recycle_nodup
  recycle_lt := h.recycle_lt
  free := h.free
  usage := h.usage
  table key i := by
    rw [h.table]
    refine exists_congr fun item => and_congr_right fun _ => and_congr_right fun _ => ?_
    exact (and_iff_left (Option.some_ne_none i).symm).symm

theorem InvBut.inv (h : s.InvBut none) : s.Inv where
  head_in := h.head_in
  recycle_nodup := h.recycle_nodup
  recycle_lt := h.recycle_lt
  free := h.free
  usage := h.usage
  table key i := by
    rw [h.table]
    refine exists_congr fun item => and_congr_right fun _ => and_congr_right fun _ => ?_
    exact and_iff_left (Option.some_ne_none i).symm

theorem mem_slots : i ∈ s.slots ↔ i < s.list.length ∧ i ∉ s.recycle := by
  unfold slots
  rw [List.mem_filter, List.mem_range, decide_eq_true_iff]

theorem slots_nodup (s : CacheShard V) : s.slots.Nodup :=
  List.nodup_range.filter _

theorem InvBut.mem_slots_iff (h : s.InvBut lost) (hi : s.list[i]? = some item) :
    i ∈ s.slots ↔ ¬unused item.flags := by
  rw [mem_slots, and_iff_right (List.getElem?_eq_some_iff.mp hi).1, h.free i item hi]

/-- The usage is the number of the slots that are in use. -/
theorem InvBut.usage_eq (h : s.InvBut lost) : s.usage = s.slots.length := by
  have hperm : (s.recycle ++ s.slots).Perm (List.range s.list.length) := by
    refine (List.perm_ext_iff_of_nodup ?_ List.nodup_range).mpr fun i => ?_
    · refine List.nodup_append'.mpr ⟨h.recycle_nodup, s.slots_nodup, fun i hfree hi => ?_⟩
      exact (mem_slots.mp hi).2 hfree
    · rw [List.mem_append, mem_slots, List.mem_range]
      constructor
      · exact fun hi => hi.elim (h.recycle_lt i) And.left
      · exact fun hi => or_iff_not_imp_left.mpr fun hfree => ⟨hi, hfree⟩
  have hlength := hperm.length_eq
  have husage := h.usage
  rw [List.length_append, List.length_range] at hlength
  omega

/-- A list that is filtered by its places. -/
theorem filterMap_range_filter {α β : Type} (p : Nat → Bool) (q : α → Bool) (f : α → β)
    (l : List α) (h : ∀ i a, l[i]? = some a → p i = q a) :
    ((List.range l.length).filter p).filterMap (fun i => (l[i]?).map f) = (l.filter q).map f := by
  induction l using List.reverseRecOn with
  | nil => rfl
  | append_singleton l a ih =>
    have hbefore : ∀ i ∈ (List.range l.length).filter p, (l ++ [a])[i]? = l[i]? := by
      intro i hi
      exact List.getElem?_append_left (List.mem_range.mp (List.mem_filter.mp hi).1)
    have hlast : (l ++ [a])[l.length]? = some a := List.getElem?_concat_length
    have hih := ih fun i b hi => h i b (by
      rw [List.getElem?_append_left (List.getElem?_eq_some_iff.mp hi).1]
      exact hi)
    rw [List.length_append, List.length_singleton, List.range_succ, List.filter_append,
      List.filterMap_append, List.filter_append, List.map_append, ← hih]
    congr 1
    · exact List.filterMap_congr fun i hi => by rw [hbefore i hi]
    · rw [List.filter_singleton, List.filter_singleton, h _ a hlast]
      cases q a with
      | true => simp
      | false => rfl

/-- What is deleted with the shard is what is in use. -/
theorem InvBut.destroy_eq (h : s.InvBut lost) :
    s.destroy = s.deleted ++ s.slots.filterMap s.valueAt := by
  unfold destroy slots
  congr 1
  refine (filterMap_range_filter _ _ _ _ fun i item hi => ?_).symm
  rw [Bool.eq_iff_iff, decide_eq_true_iff, h.free i item hi, not_unused_iff, Bool.or_eq_true,
    decide_eq_true_iff]

/-- The ledger: slots that are recycled take their values from what is in use to what is deleted. -/
theorem destroy_recycled (hs : s.InvBut lost) {lost' : Option Nat} (ht : t.InvBut lost')
    (hlength : t.list.length = s.list.length) (hvalue : ∀ i, t.valueAt i = s.valueAt i)
    {victims : List Nat} (hnodup : victims.Nodup) (hvictims : ∀ i ∈ victims, i ∈ s.slots)
    (hrecycle : t.recycle = s.recycle ++ victims)
    (hdeleted : t.deleted = s.deleted ++ victims.filterMap s.valueAt) :
    t.destroy.Perm s.destroy := by
  have hslots : t.slots = s.slots.filter (· ∉ victims) := by
    unfold slots
    rw [hlength, hrecycle, List.filter_filter]
    refine List.filter_congr fun i _ => ?_
    rw [Bool.eq_iff_iff, Bool.and_eq_true, decide_eq_true_iff, decide_eq_true_iff,
      decide_eq_true_iff, List.mem_append, not_or]
    exact and_comm
  have hin : (s.slots.filter (· ∈ victims)).Perm victims := by
    refine (List.perm_ext_iff_of_nodup (s.slots_nodup.filter _) hnodup).mpr fun i => ?_
    rw [List.mem_filter, decide_eq_true_iff]
    exact and_iff_right_of_imp (hvictims i)
  have hall : (victims ++ t.slots).Perm s.slots := by
    rw [hslots]
    refine (hin.symm.append_right _).trans ?_
    simpa using List.filter_append_perm (fun i => decide (i ∈ victims)) s.slots
  rw [hs.destroy_eq, ht.destroy_eq, hdeleted, List.append_assoc]
  refine List.Perm.append_left _ ?_
  rw [show t.valueAt = s.valueAt from funext hvalue, ← List.filterMap_append]
  exact hall.filterMap _

theorem setFlags_getElem?_eq_some (hi : s.list[i]? = some item) {flags : UInt32} {new : CacheItem V} :
    (s.setFlags i flags).list[j]? = some new ↔
      j = i ∧ { item with flags } = new ∨ j ≠ i ∧ s.list[j]? = some new := by
  by_cases hij : j = i
  · subst j
    rw [setFlags_getElem?_self hi, Option.some_inj]
    simp
  · rw [setFlags_getElem?_ne (Ne.symm hij)]
    simp [hij]

theorem valueAt_setFlags (i : Nat) (flags : UInt32) (j : Nat) :
    (s.setFlags i flags).valueAt j = s.valueAt j := by
  unfold valueAt setFlags
  by_cases hij : i = j
  · subst j
    cases hs : s.list[i]? <;> simp [hs]
  · simp [hij]

/-- New flags for an item in use, which leaves the cache with them if it is the lost one. -/
structure Relabels (s : CacheShard V) (lost : Option Nat) (i : Nat) (item : CacheItem V)
    (flags : UInt32) : Prop where
  inv : s.InvBut lost
  lost_eq : ∀ j, lost = some j → j = i
  slot : s.list[i]? = some item
  was : ¬unused item.flags
  cache : inCache flags = true ↔ inCache item.flags = true ∧ lost ≠ some i

namespace Relabels

variable {flags : UInt32}

theorem table (h : Relabels s lost i item flags) (key : UInt32) (j : Nat) :
    s.table key = some j ↔ ∃ new, (s.setFlags i flags).list[j]? = some new ∧
      inCache new.flags = true ∧ new.hash.toUInt32 = key := by
  have hi := h.slot
  rw [h.inv.table]
  simp only [setFlags_getElem?_eq_some hi]
  constructor
  · rintro ⟨old, hj, hin, hkey, hnot⟩
    by_cases hij : j = i
    · subst j
      obtain rfl := Option.some.inj (hi.symm.trans hj)
      exact ⟨_, Or.inl ⟨rfl, rfl⟩, h.cache.mpr ⟨hin, hnot⟩, hkey⟩
    · exact ⟨old, Or.inr ⟨hij, hj⟩, hin, hkey⟩
  · rintro ⟨new, ⟨rfl, rfl⟩ | ⟨hij, hj⟩, hin, hkey⟩
    · obtain ⟨hin, hnot⟩ := h.cache.mp hin
      exact ⟨item, hi, hin, hkey, hnot⟩
    · exact ⟨new, hj, hin, hkey, fun heq => hij (h.lost_eq j heq)⟩

/-- An item that stays in use. -/
theorem live (h : Relabels s lost i item flags) (hlive : ¬unused flags) :
    (s.setFlags i flags).Inv where
  head_in := by
    rw [setFlags_length]
    exact h.inv.head_in
  recycle_nodup := h.inv.recycle_nodup
  recycle_lt j hj := by
    rw [setFlags_length]
    exact h.inv.recycle_lt j hj
  free j new hj := by
    obtain ⟨rfl, rfl⟩ | ⟨hij, hj⟩ := (setFlags_getElem?_eq_some h.slot).mp hj
    · exact iff_of_false (mt (h.inv.free _ item h.slot).mp h.was) hlive
    · exact h.inv.free j new hj
  usage := by
    rw [setFlags_length]
    exact h.inv.usage
  table := h.table

/-- An item that is not in use any more. -/
theorem dead (h : Relabels s lost i item flags) (hdead : unused flags) :
    ((s.setFlags i flags).recycleItem i item).Inv where
  head_in := by
    show _ ∨ s.head < (s.setFlags i flags).list.length
    rw [setFlags_length]
    exact h.inv.head_in
  recycle_nodup := by
    refine h.inv.recycle_nodup.append (List.nodup_singleton i) ?_
    rw [List.disjoint_singleton]
    exact mt (h.inv.free i item h.slot).mp h.was
  recycle_lt j hj := by
    show j < (s.setFlags i flags).list.length
    rw [setFlags_length]
    obtain hj | hj := List.mem_append.mp hj
    · exact h.inv.recycle_lt j hj
    · rw [List.mem_singleton.mp hj]
      exact (List.getElem?_eq_some_iff.mp h.slot).1
  free j new hj := by
    show j ∈ s.recycle ++ [i] ↔ _
    rw [List.mem_append, List.mem_singleton]
    obtain ⟨rfl, rfl⟩ | ⟨hij, hj⟩ := (setFlags_getElem?_eq_some h.slot).mp hj
    · exact iff_of_true (Or.inr rfl) hdead
    · rw [or_iff_left hij]
      exact h.inv.free j new hj
  usage := by
    show s.usage - 1 + (s.recycle ++ [i]).length = (s.setFlags i flags).list.length
    have hused : 0 < s.usage := by
      rw [h.inv.usage_eq]
      exact List.length_pos_of_mem ((h.inv.mem_slots_iff h.slot).mpr h.was)
    have husage := h.inv.usage
    rw [setFlags_length, List.length_append, List.length_singleton]
    omega
  table := h.table

theorem destroy_live (h : Relabels s lost i item flags) (hlive : ¬unused flags) :
    (s.setFlags i flags).destroy.Perm s.destroy :=
  destroy_recycled h.inv (h.live hlive).but (setFlags_length i flags)
    (valueAt_setFlags i flags) List.nodup_nil (fun _ hj => absurd hj List.not_mem_nil)
    (List.append_nil _).symm (List.append_nil _).symm

theorem destroy_dead (h : Relabels s lost i item flags) (hdead : unused flags) :
    ((s.setFlags i flags).recycleItem i item).destroy.Perm s.destroy := by
  refine destroy_recycled h.inv (h.dead hdead).but (setFlags_length i flags)
    (valueAt_setFlags i flags) (List.nodup_singleton i) (fun j hj => ?_) rfl ?_
  · rw [List.mem_singleton.mp hj]
    exact (h.inv.mem_slots_iff h.slot).mpr h.was
  · show s.deleted ++ [item.value] = s.deleted ++ [i].filterMap s.valueAt
    simp [valueAt, h.slot]

end Relabels

/-- A free slot has taken the item, which is not in the table yet. -/
structure Placed (s t : CacheShard V) (i : Nat) (item : CacheItem V) : Prop where
  same : t = { s with list := t.list, recycle := t.recycle }
  get : ∀ j, t.list[j]? = if j = i then some item else s.list[j]?
  free : i ∉ s.slots
  nodup : t.recycle.Nodup
  recycle : ∀ j, j ∈ t.recycle ↔ j ∈ s.recycle ∧ j ≠ i
  length_le : s.list.length ≤ t.list.length
  length : t.recycle.length + s.list.length + 1 = s.recycle.length + t.list.length

theorem Inv.placeItem (inv : s.Inv) (item : CacheItem V) :
    Placed s (s.placeItem item).1 (s.placeItem item).2 item := by
  unfold CacheShard.placeItem
  cases hlast : s.recycle.getLast? with
  | some i =>
    have hrecycle : s.recycle = s.recycle.dropLast ++ [i] := (List.dropLast_append_getLast? i hlast).symm
    have hmem : i ∈ s.recycle := List.mem_of_getLast? hlast
    have hnodup := inv.recycle_nodup
    rw [hrecycle, List.nodup_append'] at hnodup
    refine ⟨rfl, fun j => ?_, fun hi => (mem_slots.mp hi).2 hmem, hnodup.1, fun j => ?_, ?_, ?_⟩
    · rw [List.getElem?_set]
      by_cases hij : j = i
      · rw [if_pos hij.symm, if_pos hij, if_pos (hij ▸ inv.recycle_lt i hmem)]
      · rw [if_neg (Ne.symm hij), if_neg hij]
    · constructor
      · intro hj
        refine ⟨List.dropLast_subset _ hj, ?_⟩
        rintro rfl
        exact hnodup.2.2 hj List.mem_cons_self
      · rintro ⟨hj, hij⟩
        rw [hrecycle] at hj
        exact (List.mem_append.mp hj).resolve_right fun hi => hij (List.mem_singleton.mp hi)
    · exact (List.length_set ..).ge
    · have hlength := congrArg List.length hrecycle
      rw [List.length_append, List.length_singleton] at hlength
      show s.recycle.dropLast.length + s.list.length + 1 = _ + (s.list.set i item).length
      rw [List.length_set]
      omega
  | none =>
    have hnil : s.recycle = [] := List.getLast?_eq_none_iff.mp hlast
    refine ⟨rfl, fun j => ?_, fun hi => ?_, inv.recycle_nodup, fun j => ?_, ?_, ?_⟩
    · by_cases hij : j = s.list.length
      · rw [if_pos hij, hij]
        exact List.getElem?_concat_length
      · rw [if_neg hij]
        obtain hlt | hlt := Nat.lt_or_gt_of_ne hij
        · exact List.getElem?_append_left hlt
        · rw [List.getElem?_eq_none (by rw [List.length_append]; exact hlt),
            List.getElem?_eq_none hlt.le]
    · exact absurd (mem_slots.mp hi).1 (Nat.lt_irrefl _)
    · show j ∈ s.recycle ↔ _
      rw [hnil]
      exact iff_of_false List.not_mem_nil fun hj => absurd hj.1 List.not_mem_nil
    · exact (List.length_append ▸ Nat.le_add_right _ _)
    · show s.recycle.length + s.list.length + 1 = s.recycle.length + (s.list ++ [item]).length
      rw [List.length_append]
      rfl

/-- The entry of an item that is in its slot. -/
def enter (s : CacheShard V) (key : UInt32) (i : Nat) : CacheShard V :=
  { s with table := Function.update s.table key (some i), usage := s.usage + 1 }

namespace Placed

theorem same_table (h : Placed s t i item) : t.table = s.table := by rw [h.same]

theorem same_usage (h : Placed s t i item) : t.usage = s.usage := by rw [h.same]

theorem free_of_table (inv : s.Inv) (h : Placed s t i item) (key : UInt32) :
    s.table key ≠ some i := by
  intro htable
  obtain ⟨old, hi, hin, -⟩ := (inv.table key i).mp htable
  exact h.free ((inv.but.mem_slots_iff hi).mpr (not_unused_iff.mpr (Or.inl hin)))

theorem get_self (h : Placed s t i item) : t.list[i]? = some item := by
  rw [h.get, if_pos rfl]

theorem get_other (h : Placed s t i item) (hij : j ≠ i) : t.list[j]? = s.list[j]? := by
  rw [h.get, if_neg hij]

theorem table (inv : s.Inv) (h : Placed s t i item) (hin : inCache item.flags = true)
    (key : UInt32) (j : Nat) : Function.update s.table item.hash.toUInt32 (some i) key = some j ↔
      ∃ new, t.list[j]? = some new ∧ inCache new.flags = true ∧ new.hash.toUInt32 = key ∧
        s.table item.hash.toUInt32 ≠ some j := by
  by_cases hkey : key = item.hash.toUInt32
  · subst key
    rw [Function.update_self, Option.some_inj]
    constructor
    · rintro rfl
      exact ⟨item, h.get_self, hin, rfl, h.free_of_table inv _⟩
    · rintro ⟨new, hj, hnew, hhash, hnot⟩
      by_contra hij
      rw [h.get_other (Ne.symm hij)] at hj
      exact hnot ((inv.table _ j).mpr ⟨new, hj, hnew, hhash⟩)
  · rw [Function.update_of_ne hkey]
    constructor
    · intro htable
      have hij : j ≠ i := fun hij => h.free_of_table inv key (hij ▸ htable)
      obtain ⟨old, hj, hold, hhash⟩ := (inv.table key j).mp htable
      refine ⟨old, (h.get_other hij).trans hj, hold, hhash, fun hlost => hkey ?_⟩
      obtain ⟨old', hj', -, hhash'⟩ := (inv.table _ j).mp hlost
      obtain rfl := Option.some.inj (hj.symm.trans hj')
      exact hhash.symm.trans hhash'
    · rintro ⟨new, hj, hnew, hhash, -⟩
      have hij : j ≠ i := by
        rintro rfl
        obtain rfl := Option.some.inj (h.get_self.symm.trans hj)
        exact hkey hhash.symm
      rw [h.get_other hij] at hj
      exact (inv.table key j).mpr ⟨new, hj, hnew, hhash⟩

/-- The item is entered in the table, whatever stands there. -/
theorem invBut (inv : s.Inv) (h : Placed s t i item) (hin : inCache item.flags = true) :
    (t.enter item.hash.toUInt32 i).InvBut (s.table item.hash.toUInt32) where
  head_in := by
    rw [enter, h.same]
    exact inv.head_in.imp_right fun hlt => hlt.trans_le h.length_le
  recycle_nodup := h.nodup
  recycle_lt j hj := (inv.recycle_lt j ((h.recycle j).mp hj).1).trans_le h.length_le
  free j new hj := by
    show j ∈ t.recycle ↔ _
    rw [h.recycle]
    rw [show (t.enter item.hash.toUInt32 i).list[j]? = _ from h.get j] at hj
    split at hj
    next heq =>
      obtain rfl := Option.some.inj hj
      exact iff_of_false (fun hj => hj.2 heq) (not_unused_iff.mpr (Or.inl hin))
    next hne =>
      rw [and_iff_left hne]
      exact inv.free j new hj
  usage := by
    have husage := inv.usage
    have hlength := h.length
    show t.usage + 1 + t.recycle.length = t.list.length
    rw [h.same_usage]
    omega
  table key j := by
    have htable := h.table inv hin key j
    rw [← h.same_table] at htable
    rw [← h.same_table]
    exact htable

theorem slots_perm (h : Placed s t i item) : t.slots.Perm (i :: s.slots) := by
  refine (List.perm_ext_iff_of_nodup t.slots_nodup
    (List.nodup_cons.mpr ⟨h.free, s.slots_nodup⟩)).mpr fun j => ?_
  rw [List.mem_cons, mem_slots, mem_slots, h.recycle]
  by_cases hij : j = i
  · subst j
    refine iff_of_true ⟨?_, fun hi => hi.2 rfl⟩ (Or.inl rfl)
    exact (List.getElem?_eq_some_iff.mp h.get_self).1
  · have hlt : j < t.list.length ↔ j < s.list.length := by
      rw [← not_iff_not, Nat.not_lt, Nat.not_lt, ← List.getElem?_eq_none_iff,
        ← List.getElem?_eq_none_iff, h.get_other hij]
    rw [hlt, and_iff_left hij, or_iff_right hij]

theorem destroy_perm (inv : s.Inv) (h : Placed s t i item) (hin : inCache item.flags = true) :
    (t.enter item.hash.toUInt32 i).destroy.Perm (s.destroy ++ [item.value]) := by
  rw [(h.invBut inv hin).destroy_eq, inv.but.destroy_eq]
  have hdeleted : t.deleted = s.deleted := by rw [h.same]
  show (t.deleted ++ t.slots.filterMap t.valueAt).Perm _
  rw [hdeleted, List.append_assoc]
  refine List.Perm.append_left _ ((h.slots_perm.filterMap _).trans ?_)
  have hitem : t.valueAt i = some item.value := by
    unfold valueAt
    rw [h.get_self]
    rfl
  have hothers : s.slots.filterMap t.valueAt = s.slots.filterMap s.valueAt := by
    refine List.filterMap_congr fun j hj => ?_
    unfold valueAt
    rw [h.get_other fun hij => h.free (hij ▸ hj)]
  rw [List.filterMap_cons_some hitem, hothers]
  exact (List.perm_append_singleton _ _).symm

end Placed

/-- The item has a slot of its own, and another one with the same key has left the cache. -/
structure Accepted (s t : CacheShard V) (i : Nat) (item : CacheItem V) : Prop where
  inv : t.Inv
  capacity : t.capacity = s.capacity
  usage : t.usage ≤ s.usage + 1
  free : i ∉ s.slots
  get : t.list[i]? = some item
  others : ∀ j old, j ≠ i → s.list[j]? = some old → ∃ flags, t.list[j]? = some { old with flags } ∧
    refCounts flags = refCounts old.flags ∧
    (inCache flags = true → inCache old.flags = true ∧ old.hash.toUInt32 ≠ item.hash.toUInt32)
  length : ∀ j, j ≠ i → j < t.list.length → j < s.list.length
  ledger : t.destroy.Perm (s.destroy ++ [item.value])

/-- What the other items were before. -/
theorem Accepted.other {new : CacheItem V} (h : Accepted s t i item) (hij : j ≠ i)
    (hj : t.list[j]? = some new) : ∃ old, s.list[j]? = some old ∧
      refCounts new.flags = refCounts old.flags ∧ new.hash = old.hash ∧ new.value = old.value ∧
      (inCache new.flags = true →
        inCache old.flags = true ∧ old.hash.toUInt32 ≠ item.hash.toUInt32) := by
  have hlt := h.length j hij (List.getElem?_eq_some_iff.mp hj).1
  obtain ⟨flags, hnew, hrefs, hcache⟩ := h.others j _ hij (List.getElem?_eq_getElem hlt)
  obtain rfl := Option.some.inj (hnew.symm.trans hj)
  exact ⟨_, List.getElem?_eq_getElem hlt, hrefs, rfl, rfl, hcache⟩

theorem accept_of_free (hplace : s.placeItem item = (t, i))
    (htable : t.table item.hash.toUInt32 = none) :
    s.accept item = some (i, t.enter item.hash.toUInt32 i) := by
  unfold accept
  simp only [hplace, htable]
  rfl

theorem accept_of_taken (hplace : s.placeItem item = (t, i)) {old : CacheItem V}
    (htable : t.table item.hash.toUInt32 = some j) (hj : t.list[j]? = some old)
    (hused : 0 < t.usage) : s.accept item = some
      (i, (t.enter item.hash.toUInt32 i).unsetInCache j old) := by
  unfold accept enter
  simp only [hplace, htable, hj]
  show some _ = some _
  congr 2
  unfold unsetInCache
  by_cases hlast : (inCache old.flags && decide (refCounts old.flags = 0)) = true
  · simp only [if_pos hlast, setFlags, recycleItem, Function.update_idem, Nat.sub_add_cancel hused,
      Nat.add_sub_cancel]
  · simp only [if_neg hlast, setFlags, Function.update_idem]

theorem unsetInCache_eq (s : CacheShard V) (i : Nat) (item : CacheItem V) :
    s.unsetInCache i item =
      if inCache item.flags && refCounts item.flags = 0 then
        (s.setFlags i (item.flags &&& ~~~inCacheBit)).recycleItem i item
      else s.setFlags i (item.flags &&& ~~~inCacheBit) :=
  rfl

theorem unsetInCache_list (s : CacheShard V) (i : Nat) (item : CacheItem V) :
    (s.unsetInCache i item).list = (s.setFlags i (item.flags &&& ~~~inCacheBit)).list := by
  rw [unsetInCache_eq]
  split
  next => rfl
  next => rfl

theorem unsetInCache_usage (s : CacheShard V) (i : Nat) (item : CacheItem V) :
    (s.unsetInCache i item).usage ≤ s.usage := by
  rw [unsetInCache_eq]
  split
  next => exact Nat.sub_le _ _
  next => exact le_rfl

theorem unsetInCache_capacity (s : CacheShard V) (i : Nat) (item : CacheItem V) :
    (s.unsetInCache i item).capacity = s.capacity := by
  rw [unsetInCache_eq]
  split
  next => rfl
  next => rfl

/-- The lost item leaves the cache. -/
theorem InvBut.unset (h : s.InvBut (some i)) (hi : s.list[i]? = some item)
    (hin : inCache item.flags = true) :
    (s.unsetInCache i item).Inv ∧ (s.unsetInCache i item).destroy.Perm s.destroy := by
  have hrelabels : Relabels s (some i) i item (item.flags &&& ~~~inCacheBit) := by
    refine ⟨h, fun j hj => (Option.some.inj hj).symm, hi, not_unused_iff.mpr (Or.inl hin), ?_⟩
    rw [inCache_unset]
    exact iff_of_false Bool.false_ne_true fun hboth => hboth.2 rfl
  have hunused : unused (item.flags &&& ~~~inCacheBit) ↔ refCounts item.flags = 0 := by
    unfold unused
    rw [inCache_unset, refCounts_unset, and_iff_right rfl]
  rw [unsetInCache_eq, hin, Bool.true_and]
  by_cases hlast : refCounts item.flags = 0
  · rw [if_pos (decide_eq_true hlast)]
    exact ⟨hrelabels.dead (hunused.mpr hlast), hrelabels.destroy_dead (hunused.mpr hlast)⟩
  · rw [if_neg (by rw [decide_eq_true_iff]; exact hlast)]
    exact ⟨hrelabels.live (mt hunused.mp hlast), hrelabels.destroy_live (mt hunused.mp hlast)⟩

namespace Placed

theorem others_length (h : Placed s t i item) (hij : j ≠ i) (hlt : j < t.list.length) :
    j < s.list.length := by
  have hj := h.get_other hij
  rw [List.getElem?_eq_getElem hlt] at hj
  exact (List.getElem?_eq_some_iff.mp hj.symm).1

theorem accepted_of_free (inv : s.Inv) (h : Placed s t i item) (hin : inCache item.flags = true)
    (htable : s.table item.hash.toUInt32 = none) :
    Accepted s (t.enter item.hash.toUInt32 i) i item where
  inv := by
    have hbut := h.invBut inv hin
    rw [htable] at hbut
    exact hbut.inv
  capacity := by rw [enter, h.same]
  usage := by
    show t.usage + 1 ≤ s.usage + 1
    rw [h.same_usage]
  free := h.free
  get := h.get_self
  others j old hij hj := by
    refine ⟨old.flags, (h.get_other hij).trans hj, rfl, fun hold => ⟨hold, fun hkey => ?_⟩⟩
    rw [(inv.table _ j).mpr ⟨old, hj, hold, hkey⟩] at htable
    cases htable
  length j := h.others_length
  ledger := h.destroy_perm inv hin

theorem accepted_of_taken (inv : s.Inv) (h : Placed s t i item) (hin : inCache item.flags = true)
    {old : CacheItem V} (htable : s.table item.hash.toUInt32 = some j)
    (hj : s.list[j]? = some old) (hold : inCache old.flags = true) :
    Accepted s ((t.enter item.hash.toUInt32 i).unsetInCache j old) i item := by
  have hij : j ≠ i := fun hij => h.free_of_table inv _ (hij ▸ htable)
  have hj' : (t.enter item.hash.toUInt32 i).list[j]? = some old := (h.get_other hij).trans hj
  have hbut := h.invBut inv hin
  rw [htable] at hbut
  obtain ⟨hinv, hperm⟩ := hbut.unset hj' hold
  refine ⟨hinv, ?_, ?_, h.free, ?_, ?_, ?_, hperm.trans (h.destroy_perm inv hin)⟩
  · rw [unsetInCache_capacity, enter, h.same]
  · refine (unsetInCache_usage _ _ _).trans ?_
    show t.usage + 1 ≤ s.usage + 1
    rw [h.same_usage]
  · rw [unsetInCache_list, setFlags_getElem?_ne hij]
    exact h.get_self
  · intro k other hik hk
    have hk' : (t.enter item.hash.toUInt32 i).list[k]? = some other := (h.get_other hik).trans hk
    rw [unsetInCache_list]
    by_cases hjk : j = k
    · subst k
      obtain rfl := Option.some.inj (hj.symm.trans hk)
      refine ⟨_, setFlags_getElem?_self hj' _, refCounts_unset _, fun hfalse => ?_⟩
      rw [inCache_unset] at hfalse
      exact absurd hfalse Bool.false_ne_true
    · refine ⟨other.flags, (setFlags_getElem?_ne hjk _).trans hk', rfl, fun hother => ⟨hother, ?_⟩⟩
      intro hkey
      have htable' := (inv.table _ k).mpr ⟨other, hk, hother, hkey⟩
      exact hjk (Option.some.inj (htable.symm.trans htable'))
  · intro k hik hlt
    rw [unsetInCache_list, setFlags_length] at hlt
    exact h.others_length hik hlt

end Placed

theorem accept_spec (inv : s.Inv) (item : CacheItem V) (hin : inCache item.flags = true) :
    ∃ i t, s.accept item = some (i, t) ∧ Accepted s t i item := by
  obtain ⟨t, i, hplace⟩ : ∃ t i, s.placeItem item = (t, i) := ⟨_, _, rfl⟩
  have hplaced : Placed s t i item := by
    have h := inv.placeItem item
    rw [hplace] at h
    exact h
  cases htable : s.table item.hash.toUInt32 with
  | none =>
    have hfree : t.table item.hash.toUInt32 = none := by rw [hplaced.same_table, htable]
    exact ⟨i, _, accept_of_free hplace hfree, hplaced.accepted_of_free inv hin htable⟩
  | some j =>
    obtain ⟨old, hj, hold, -⟩ := (inv.table _ j).mp htable
    have hij : j ≠ i := fun hij => hplaced.free_of_table inv _ (hij ▸ htable)
    have htaken : t.table item.hash.toUInt32 = some j := by rw [hplaced.same_table, htable]
    have hused : 0 < t.usage := by
      rw [hplaced.same_usage, inv.but.usage_eq]
      refine List.length_pos_of_mem ((inv.but.mem_slots_iff hj).mpr ?_)
      exact not_unused_iff.mpr (Or.inl hold)
    refine ⟨i, _, accept_of_taken hplace htaken ((hplaced.get_other hij).trans hj) hused, ?_⟩
    exact hplaced.accepted_of_taken inv hin htable hj hold

/-- The item has another number of references and is the same otherwise. -/
structure Referred (s t : CacheShard V) (i : Nat) (item : CacheItem V) (count : Nat) : Prop where
  inv : t.Inv
  capacity : t.capacity = s.capacity
  usage : t.usage ≤ s.usage
  get : ∃ flags, t.list[i]? = some { item with flags } ∧ inCache flags = inCache item.flags ∧
    (refCounts flags).toNat = count
  others : ∀ j, j ≠ i → t.list[j]? = s.list[j]?
  ledger : t.destroy.Perm s.destroy

/-- Another reference, while there is room for it. -/
theorem ref_spec (inv : s.Inv) (hi : s.list[i]? = some item) (hin : inCache item.flags = true)
    (hroom : (refCounts item.flags).toNat + 1 < 2 ^ 30) :
    Referred s (s.setFlags i (item.flags + oneRef)) i item
      ((refCounts item.flags).toNat + 1) := by
  have hrelabels : Relabels s none i item (item.flags + oneRef) := by
    refine ⟨inv.but, fun j hj => (Option.some_ne_none j hj.symm).elim, hi,
      not_unused_iff.mpr (Or.inl hin), ?_⟩
    rw [inCache_addRef]
    exact (and_iff_left (Option.some_ne_none i).symm).symm
  have hlive : ¬unused (item.flags + oneRef) :=
    not_unused_iff.mpr (Or.inl (by rw [inCache_addRef]; exact hin))
  refine ⟨hrelabels.live hlive, rfl, le_rfl, ⟨_, setFlags_getElem?_self hi _, inCache_addRef _, ?_⟩,
    fun j hij => setFlags_getElem?_ne hij.symm _, hrelabels.destroy_live hlive⟩
  rw [refCounts_addRef, Nat.mod_eq_of_lt hroom]

theorem unref_eq (s : CacheShard V) (i : Nat) (item : CacheItem V) (setUsage : Bool) :
    (s.unref i item setUsage).2 =
      if refCounts item.flags = 1 && !inCache item.flags then
        (s.setFlags i ((if setUsage then item.flags ||| usageBit else item.flags) - oneRef)).recycleItem
          i item
      else s.setFlags i ((if setUsage then item.flags ||| usageBit else item.flags) - oneRef) := by
  have hrefs : refCounts (if setUsage then item.flags ||| usageBit else item.flags) =
      refCounts item.flags := by
    cases setUsage with
    | true => exact refCounts_setUsage _
    | false => rfl
  have hin : inCache (if setUsage then item.flags ||| usageBit else item.flags) =
      inCache item.flags := by
    cases setUsage with
    | true => exact inCache_setUsage _
    | false => rfl
  unfold unref
  simp only [hrefs, hin]
  split
  next => rfl
  next => rfl

theorem unref_spec (inv : s.Inv) (hi : s.list[i]? = some item)
    (hrefs : 0 < (refCounts item.flags).toNat) (setUsage : Bool) :
    Referred s (s.unref i item setUsage).2 i item ((refCounts item.flags).toNat - 1) := by
  have hnew : ∃ flags, (if setUsage then item.flags ||| usageBit else item.flags) = flags ∧
      inCache flags = inCache item.flags ∧ refCounts flags = refCounts item.flags := by
    cases setUsage with
    | true => exact ⟨_, rfl, inCache_setUsage _, refCounts_setUsage _⟩
    | false => exact ⟨_, rfl, rfl, rfl⟩
  obtain ⟨flags, heq, hin, hcount⟩ := hnew
  have hcache : inCache (flags - oneRef) = inCache item.flags := (inCache_subRef _).trans hin
  have hless : (refCounts (flags - oneRef)).toNat = (refCounts item.flags).toNat - 1 := by
    rw [refCounts_subRef _ (by rw [hcount]; exact hrefs), hcount]
  have hrelabels : Relabels s none i item (flags - oneRef) := by
    refine ⟨inv.but, fun j hj => (Option.some_ne_none j hj.symm).elim, hi,
      not_unused_iff.mpr (Or.inr hrefs), ?_⟩
    rw [hcache]
    exact (and_iff_left (Option.some_ne_none i).symm).symm
  have hunused : unused (flags - oneRef) ↔
      (refCounts item.flags = 1 && !inCache item.flags) = true := by
    rw [Bool.and_eq_true, decide_eq_true_iff, Bool.not_eq_true', unused, hcache,
      ← UInt32.toNat_inj, ← UInt32.toNat_inj, hless]
    show _ ∧ (refCounts item.flags).toNat - 1 = 0 ↔ (refCounts item.flags).toNat = 1 ∧ _
    rw [and_comm]
    exact and_congr_left fun _ => by omega
  rw [unref_eq, heq]
  split
  next hlast =>
    have hdead := hunused.mpr hlast
    exact ⟨hrelabels.dead hdead, rfl, Nat.sub_le _ _,
      ⟨_, setFlags_getElem?_self hi _, hcache, hless⟩,
      fun j hij => setFlags_getElem?_ne hij.symm _, hrelabels.destroy_dead hdead⟩
  next hlast =>
    have hlive := mt hunused.mp hlast
    exact ⟨hrelabels.live hlive, rfl, le_rfl, ⟨_, setFlags_getElem?_self hi _, hcache, hless⟩,
      fun j hij => setFlags_getElem?_ne hij.symm _, hrelabels.destroy_live hlive⟩

theorem setFlags_setFlags (hi : s.list[i]? = some item) (flags : UInt32) :
    (s.setFlags i flags).setFlags i item.flags = s := by
  have hlist : ((s.setFlags i flags).setFlags i item.flags).list = s.list := by
    refine List.ext_getElem? fun j => ?_
    by_cases hij : i = j
    · subst j
      rw [setFlags_getElem?_self (setFlags_getElem?_self hi flags), hi]
    · rw [setFlags_getElem?_ne hij, setFlags_getElem?_ne hij]
  show { s with list := _ } = s
  rw [show ((s.setFlags i flags).list.modify i fun item' => { item' with flags := item.flags }) =
    s.list from hlist]

/-- What a look into the table gives; an item of another key is left as it was. -/
theorem lookup_spec (inv : s.Inv) (hash : UInt64) :
    s.lookup hash = some (none, s) ∨ ∃ i item, s.list[i]? = some item ∧
      inCache item.flags = true ∧ item.hash = hash ∧
      s.lookup hash = some (some i, s.setFlags i (item.flags + oneRef)) := by
  unfold lookup
  cases htable : s.table hash.toUInt32 with
  | none => exact Or.inl rfl
  | some i =>
    obtain ⟨item, hi, hin, -⟩ := (inv.table _ i).mp htable
    simp only [hi, Option.bind_eq_bind, Option.bind_some, hin, if_true]
    by_cases hhash : item.hash = hash
    · rw [if_pos hhash]
      exact Or.inr ⟨i, item, hi, hin, hhash, rfl⟩
    · rw [if_neg hhash, unref_eq]
      refine Or.inl ?_
      have hcache : (refCounts (item.flags + oneRef) = 1 && !inCache (item.flags + oneRef)) =
          false := by
        rw [inCache_addRef, hin]
        exact Bool.and_false _
      simp only [hcache, Bool.false_eq_true, if_false, addRef_subRef]
      rw [setFlags_setFlags hi]

end CacheShard

/-- The values of the victims go from what is in use to what is deleted. -/
theorem Evicted.destroy_perm {s t : CacheShard V} {victims : List Nat} (inv : s.Inv)
    (h : Evicted s t victims) (inv' : t.Inv) : t.destroy.Perm s.destroy := by
  refine CacheShard.destroy_recycled inv.but inv'.but h.length (fun i => ?_) h.nodup
    (fun i hi => ?_) h.recycle h.deleted
  · unfold CacheShard.valueAt
    cases hi : s.list[i]? with
    | none =>
      rw [List.getElem?_eq_none (h.length ▸ List.getElem?_eq_none_iff.mp hi)]
    | some item =>
      obtain ⟨flags, hi', -⟩ := h.items i item hi
      rw [hi']
      rfl
  · obtain ⟨item, hitem, hin, -⟩ := h.evictable i hi
    exact (inv.but.mem_slots_iff hitem).mpr (not_unused_iff.mpr (Or.inl hin))

end ClockCache

end BcosExecutor
