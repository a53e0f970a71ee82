import BcosExecutor.ClockCache
import BcosExecutor.RingPositions
import Mathlib.Data.List.Nodup

namespace BcosExecutor

namespace ClockCache

open RingPositions

variable {V : Type}

namespace CacheShard

/-- What links the flags, the table, the recycle list and the usage to each other. -/
structure Inv (s : CacheShard V) : Prop where
  head_in : s.head = 0 ∨ s.head < s.list.length
  recycle_nodup : s.recycle.Nodup
  recycle_lt : ∀ i ∈ s.recycle, i < s.list.length
  free : ∀ i item, s.list[i]? = some item →
    (i ∈ s.recycle ↔ inCache item.flags = false ∧ refCounts item.flags = 0)
  usage : s.usage + s.recycle.length = s.list.length
  table : ∀ h i, s.table h = some i ↔
    ∃ item, s.list[i]? = some item ∧ inCache item.flags = true ∧ item.hash.toUInt32 = h

def Evictable (s : CacheShard V) (i : Nat) : Prop :=
  ∃ item, s.list[i]? = some item ∧ inCache item.flags = true ∧ refCounts item.flags = 0

/-- Some of the items that may be evicted are enough to bring the usage below the capacity. -/
def CanMakeRoom (s : CacheShard V) : Prop :=
  ∃ victims : List Nat, victims.Nodup ∧ (∀ i ∈ victims, s.Evictable i) ∧
    s.usage < s.capacity + victims.length

theorem inv_empty (capacity : Nat) (hpos : 0 < capacity) :
    (empty capacity hpos : CacheShard V).Inv where
  head_in := Or.inl rfl
  recycle_nodup := List.nodup_nil
  recycle_lt i h := absurd h List.not_mem_nil
  free i item h := by simp [empty] at h
  usage := rfl
  table h i := by simp [empty]

variable {s : CacheShard V} {i j : Nat} {item : CacheItem V}

theorem Inv.head_lt (inv : s.Inv) (hpos : 0 < s.list.length) : s.head < s.list.length := by
  obtain hzero | hlt := inv.head_in
  · exact hzero ▸ hpos
  · exact hlt

theorem setFlags_getElem?_self (h : s.list[i]? = some item) (flags : UInt32) :
    (s.setFlags i flags).list[i]? = some { item with flags } := by
  simp [setFlags, h]

theorem setFlags_getElem?_ne (h : i ≠ j) (flags : UInt32) :
    (s.setFlags i flags).list[j]? = s.list[j]? := by
  simp [setFlags, h]

@[simp] theorem setFlags_length (i : Nat) (flags : UInt32) :
    (s.setFlags i flags).list.length = s.list.length := by
  simp [setFlags]

theorem Evictable.lt (h : s.Evictable i) : i < s.list.length := by
  obtain ⟨item, hi, -⟩ := h
  exact (List.getElem?_eq_some_iff.mp hi).1

theorem Evictable.not_recycled (inv : s.Inv) (h : s.Evictable i) : i ∉ s.recycle := by
  obtain ⟨item, hi, hin, -⟩ := h
  intro hmem
  have hout := ((inv.free i item hi).mp hmem).1
  rw [hin] at hout
  exact absurd hout (by decide)

/-- The free slots and evictable items are slots of their own. -/
theorem Evictable.append_nodup (inv : s.Inv) {victims : List Nat} (hnodup : victims.Nodup)
    (h : ∀ i ∈ victims, s.Evictable i) : (s.recycle ++ victims).Nodup :=
  List.nodup_append'.mpr ⟨inv.recycle_nodup, hnodup,
    fun i hfree hv => (h i hv).not_recycled inv hfree⟩

theorem Evictable.length_le (inv : s.Inv) {victims : List Nat} (hnodup : victims.Nodup)
    (h : ∀ i ∈ victims, s.Evictable i) : victims.length ≤ s.usage := by
  have hsub : s.recycle ++ victims ⊆ List.range s.list.length := by
    intro i hi
    rw [List.mem_range]
    obtain hfree | hv := List.mem_append.mp hi
    · exact inv.recycle_lt i hfree
    · exact (h i hv).lt
  have hle := (Evictable.append_nodup inv hnodup h).length_le_of_subset hsub
  have husage := inv.usage
  rw [List.length_append, List.length_range] at hle
  omega

theorem tryEvict_fst : (s.tryEvict i item).1 = true ↔ item.flags = inCacheBit := by
  unfold tryEvict
  split
  next h => exact iff_of_true rfl h
  next h => exact iff_of_false Bool.false_ne_true h

theorem tryEvict_list : (s.tryEvict i item).2.list = (s.setFlags i
    (if item.flags = inCacheBit then 0 else item.flags &&& ~~~usageBit)).list := by
  unfold tryEvict
  split
  next h => rfl
  next h => rfl

theorem tryEvict_head : (s.tryEvict i item).2.head = s.head := by
  unfold tryEvict
  split
  next h => rfl
  next h => rfl

end CacheShard

/-- The items that have been evicted are recycled. Of the others nothing but the usage bit has
changed. -/
structure Evicted (s t : CacheShard V) (victims : List Nat) : Prop where
  nodup : victims.Nodup
  evictable : ∀ i ∈ victims, s.Evictable i
  capacity : t.capacity = s.capacity
  length : t.list.length = s.list.length
  items : ∀ i item, s.list[i]? = some item → ∃ flags, t.list[i]? = some { item with flags } ∧
    (i ∈ victims → flags = 0) ∧
    (i ∉ victims → flags = item.flags ∨ flags = item.flags &&& ~~~usageBit)
  recycle : t.recycle = s.recycle ++ victims
  usage : t.usage + victims.length = s.usage
  table : ∀ h, t.table h = (s.table h).filter (· ∉ victims)
  deleted : t.deleted = s.deleted ++ victims.filterMap fun i => (s.list[i]?).map CacheItem.value

namespace Evicted

variable {s t : CacheShard V} {victims : List Nat} {i : Nat} {item item' : CacheItem V}

theorem refl (s : CacheShard V) : Evicted s s [] where
  nodup := List.nodup_nil
  evictable i h := absurd h List.not_mem_nil
  capacity := rfl
  length := rfl
  items i item h := ⟨item.flags, h, fun hi => absurd hi List.not_mem_nil, fun _ => Or.inl rfl⟩
  recycle := (List.append_nil _).symm
  usage := rfl
  table h := by cases s.table h <;> simp [Option.filter]
  deleted := (List.append_nil _).symm

theorem exists_item (h : Evicted s t victims) (hi : t.list[i]? = some item') :
    ∃ item, s.list[i]? = some item := by
  have hlt : i < t.list.length := (List.getElem?_eq_some_iff.mp hi).1
  exact ⟨_, List.getElem?_eq_getElem (h.length ▸ hlt)⟩

/-- What an item keeps that has not been evicted. -/
theorem kept (h : Evicted s t victims) (hi : s.list[i]? = some item)
    (hi' : t.list[i]? = some item') (hv : i ∉ victims) :
    item'.hash = item.hash ∧ item'.value = item.value ∧ inCache item'.flags = inCache item.flags ∧
      refCounts item'.flags = refCounts item.flags := by
  obtain ⟨flags, hflags, -, hkept⟩ := h.items i item hi
  obtain rfl : { item with flags } = item' := Option.some.inj (hflags.symm.trans hi')
  obtain rfl | rfl := hkept hv
  · exact ⟨rfl, rfl, rfl, rfl⟩
  · exact ⟨rfl, rfl, inCache_clearUsage _, refCounts_clearUsage _⟩

theorem victim_flags (h : Evicted s t victims) (hi' : t.list[i]? = some item')
    (hv : i ∈ victims) : item'.flags = 0 := by
  obtain ⟨item, hi⟩ := h.exists_item hi'
  obtain ⟨flags, hflags, hzero, -⟩ := h.items i item hi
  obtain rfl : { item with flags } = item' := Option.some.inj (hflags.symm.trans hi')
  exact hzero hv

/-- An item that has only the bit of the cache was evictable from the start. -/
theorem evictable_of_flags (h : Evicted s t victims) (hi' : t.list[i]? = some item')
    (hflags : item'.flags = inCacheBit) : s.Evictable i ∧ i ∉ victims := by
  have hv : i ∉ victims := by
    intro hv
    have hzero := h.victim_flags hi' hv
    rw [hflags] at hzero
    exact absurd hzero (by decide)
  obtain ⟨item, hi⟩ := h.exists_item hi'
  obtain ⟨-, -, hcache, hrefs⟩ := h.kept hi hi' hv
  obtain ⟨hin, -, hzero⟩ := (eq_inCacheBit_iff _).mp hflags
  exact ⟨⟨item, hi, hcache ▸ hin, hrefs ▸ hzero⟩, hv⟩

/-- An item that keeps its place in the cache loses at most its usage bit. -/
theorem pass (h : Evicted s t victims) (hi : t.list[i]? = some item')
    (hflags : item'.flags ≠ inCacheBit) : Evicted s (t.tryEvict i item').2 victims := by
  have hstep : (t.tryEvict i item').2 = t.setFlags i (item'.flags &&& ~~~usageBit) := by
    unfold CacheShard.tryEvict
    rw [if_neg hflags]
  rw [hstep]
  refine ⟨h.nodup, h.evictable, h.capacity, ?_, ?_, h.recycle, h.usage, h.table, h.deleted⟩
  · rw [CacheShard.setFlags_length]
    exact h.length
  intro j item hj
  obtain ⟨flags, hlist, hzero, hkept⟩ := h.items j item hj
  by_cases hij : i = j
  · subst j
    obtain rfl : { item with flags } = item' := Option.some.inj (hlist.symm.trans hi)
    refine ⟨flags &&& ~~~usageBit, CacheShard.setFlags_getElem?_self hi _, ?_, ?_⟩
    · intro hv
      rw [hzero hv]
      exact UInt32.zero_and
    · intro hv
      obtain rfl | rfl := hkept hv
      · exact Or.inr rfl
      · refine Or.inr ?_
        rw [UInt32.and_assoc, UInt32.and_self]
  · refine ⟨flags, ?_, hzero, hkept⟩
    rw [CacheShard.setFlags_getElem?_ne hij]
    exact hlist

theorem evict (inv : s.Inv) (h : Evicted s t victims) (hi : t.list[i]? = some item')
    (hflags : item'.flags = inCacheBit) :
    Evicted s (t.tryEvict i item').2 (victims ++ [i]) := by
  obtain ⟨hevictable, hv⟩ := h.evictable_of_flags hi hflags
  obtain ⟨item, his, hin, hrefs⟩ := id hevictable
  obtain ⟨hhash, hvalue, -, -⟩ := h.kept his hi hv
  have hstep : (t.tryEvict i item').2 = { t with
      list := (t.setFlags i 0).list
      table := Function.update t.table item'.hash.toUInt32 none
      deleted := t.deleted ++ [item'.value]
      recycle := t.recycle ++ [i]
      usage := t.usage - 1 } := by
    unfold CacheShard.tryEvict
    rw [if_pos hflags]
    rfl
  have hnodup : (victims ++ [i]).Nodup :=
    h.nodup.append (List.nodup_singleton i) (by simpa using hv)
  have hall : ∀ j ∈ victims ++ [i], s.Evictable j := by
    intro j hj
    obtain hj | hj := List.mem_append.mp hj
    · exact h.evictable j hj
    · exact List.mem_singleton.mp hj ▸ hevictable
  rw [hstep]
  refine ⟨hnodup, hall, h.capacity, ?_, ?_, ?_, ?_, ?_, ?_⟩
  · exact (CacheShard.setFlags_length i 0).trans h.length
  · intro j itemj hj
    obtain ⟨flags, hlist, hzero, hkept⟩ := h.items j itemj hj
    by_cases hij : i = j
    · subst j
      obtain rfl : { itemj with flags } = item' := Option.some.inj (hlist.symm.trans hi)
      refine ⟨0, CacheShard.setFlags_getElem?_self hi 0, fun _ => rfl, fun hnot => ?_⟩
      exact absurd (List.mem_append_right _ List.mem_cons_self) hnot
    · refine ⟨flags, (CacheShard.setFlags_getElem?_ne hij 0).trans hlist, ?_, ?_⟩
      · intro hmem
        refine hzero ((List.mem_append.mp hmem).resolve_right ?_)
        exact fun hj => hij (List.mem_singleton.mp hj).symm
      · exact fun hnot => hkept fun hmem => hnot (List.mem_append_left _ hmem)
  · show t.recycle ++ [i] = _
    rw [h.recycle, List.append_assoc]
  · have hs := h.usage
    have hle := CacheShard.Evictable.length_le inv hnodup hall
    rw [List.length_append, List.length_singleton] at hle ⊢
    show t.usage - 1 + (victims.length + 1) = s.usage
    omega
  · intro key
    show Function.update t.table item'.hash.toUInt32 none key = _
    by_cases hkey : key = item'.hash.toUInt32
    · have hs : s.table key = some i := (inv.table key i).mpr
        ⟨item, his, hin, by rw [hkey, hhash]⟩
      rw [hkey, Function.update_self, ← hkey, hs]
      simp [Option.filter]
    · rw [Function.update_of_ne hkey, h.table]
      cases hs : s.table key with
      | none => rfl
      | some j =>
        have hij : j ≠ i := by
          rintro rfl
          obtain ⟨itemj, hlist, -, hh⟩ := (inv.table key j).mp hs
          obtain rfl := Option.some.inj (his.symm.trans hlist)
          exact hkey (by rw [hhash, hh])
        simp [Option.filter, hij]
  · show t.deleted ++ [item'.value] = _
    rw [h.deleted, List.filterMap_append, List.append_assoc, hvalue]
    simp [his]

theorem inv (inv : s.Inv) (h : Evicted s t victims)
    (hhead : t.head = 0 ∨ t.head < t.list.length) : t.Inv where
  head_in := hhead
  recycle_nodup := by
    rw [h.recycle]
    exact CacheShard.Evictable.append_nodup inv h.nodup h.evictable
  recycle_lt i hi := by
    rw [h.recycle] at hi
    rw [h.length]
    obtain hfree | hv := List.mem_append.mp hi
    · exact inv.recycle_lt i hfree
    · exact (h.evictable i hv).lt
  free i item' hi' := by
    obtain ⟨item, hi⟩ := h.exists_item hi'
    rw [h.recycle, List.mem_append]
    by_cases hv : i ∈ victims
    · rw [h.victim_flags hi' hv]
      exact iff_of_true (Or.inr hv) (by decide)
    · obtain ⟨-, -, hcache, hrefs⟩ := h.kept hi hi' hv
      rw [hcache, hrefs, ← inv.free i item hi]
      exact or_iff_left hv
  usage := by
    have hs := inv.usage
    have ht := h.usage
    rw [h.recycle, List.length_append, h.length]
    omega
  table key i := by
    rw [h.table, Option.filter_eq_some_iff, inv.table]
    constructor
    · rintro ⟨⟨item, hi, hin, hkey⟩, hv⟩
      have hnot : i ∉ victims := by simpa using hv
      obtain ⟨flags, hi', -, -⟩ := h.items i item hi
      obtain ⟨hhash, -, hcache, -⟩ := h.kept hi hi' hnot
      exact ⟨_, hi', hcache ▸ hin, hhash ▸ hkey⟩
    · rintro ⟨item', hi', hin, hkey⟩
      have hnot : i ∉ victims := by
        intro hv
        rw [h.victim_flags hi' hv] at hin
        exact absurd hin (by decide)
      obtain ⟨item, hi⟩ := h.exists_item hi'
      obtain ⟨hhash, -, hcache, -⟩ := h.kept hi hi' hnot
      exact ⟨⟨item, hi, hcache ▸ hin, hhash ▸ hkey⟩, by simpa using hnot⟩

end Evicted

namespace CacheShard

/-- The items that the scan has evicted, in their order. -/
def Scan.victims (x : Scan V) : List Nat :=
  (x.examined.filter Prod.snd).map Prod.fst

theorem Scan.mem_victims {x : Scan V} {i : Nat} : i ∈ x.victims ↔ (i, true) ∈ x.examined := by
  unfold Scan.victims
  rw [List.mem_map]
  constructor
  · rintro ⟨⟨j, b⟩, hmem, rfl⟩
    obtain ⟨hmem, hb⟩ := List.mem_filter.mp hmem
    obtain rfl : b = true := hb
    exact hmem
  · exact fun h => ⟨(i, true), List.mem_filter.mpr ⟨h, rfl⟩, rfl⟩

/-- What a scan keeps to that began at the head of `s`. -/
structure Scanning (s : CacheShard V) (x : Scan V) : Prop where
  head : x.shard.head = s.head
  evicted : Evicted s x.shard x.victims
  newHead : x.newHead = place s.list.length s.head x.examined.length
  visited : ∀ m < x.examined.length, ∃ b, (place s.list.length s.head m, b) ∈ x.examined
  untouched : ∀ i, (i, false) ∉ x.examined → i ∉ x.victims → x.shard.list[i]? = s.list[i]?
  passed : ∀ i item, (i, false) ∈ x.examined → i ∉ x.victims → x.shard.list[i]? = some item →
    hasUsage item.flags = false
  /-- What may be evicted is gone when the scan comes by a second time. -/
  gone : ∀ m, m + s.list.length < x.examined.length →
    s.Evictable (place s.list.length s.head m) → place s.list.length s.head m ∈ x.victims
  fair : ∀ i item pre post, s.list[i]? = some item → hasUsage item.flags = true →
    x.examined = pre ++ (i, true) :: post → (i, false) ∈ pre

namespace Scanning

variable {s : CacheShard V} {x : Scan V} {item : CacheItem V}

theorem start (inv : s.Inv) (hused : s.usage ≠ 0) : Scanning s s.startScan where
  head := rfl
  evicted := Evicted.refl s
  newHead := by
    have husage := inv.usage
    exact (place_zero (inv.head_lt (by omega))).symm
  visited m h := absurd h (Nat.not_lt_zero m)
  untouched i h hv := rfl
  passed i item h := absurd h List.not_mem_nil
  gone m h := absurd h (Nat.not_lt_zero _)
  fair i item pre post h husage heq := by
    have hlength := congrArg List.length heq
    rw [List.length_append, List.length_cons] at hlength
    exact absurd hlength (Nat.succ_ne_zero _).symm

theorem examine_examined : (x.examine item).2.examined =
    x.examined ++ [(x.newHead, (x.shard.tryEvict x.newHead item).1)] :=
  rfl

theorem length_examine : (x.examine item).2.examined.length = x.examined.length + 1 := by
  rw [examine_examined, List.length_append, List.length_singleton]

theorem victims_examine : (x.examine item).2.victims =
    x.victims ++ if item.flags = inCacheBit then [x.newHead] else [] := by
  unfold Scan.examine Scan.victims
  rw [List.filter_append, List.map_append]
  by_cases hflags : item.flags = inCacheBit
  · rw [tryEvict_fst.mpr hflags, if_pos hflags]
    rfl
  · rw [Bool.eq_false_iff.mpr (mt tryEvict_fst.mp hflags), if_neg hflags]
    rfl

theorem examine_other {i : Nat} (h : i ≠ x.newHead) :
    (x.examine item).2.shard.list[i]? = x.shard.list[i]? := by
  show (x.shard.tryEvict x.newHead item).2.list[i]? = _
  rw [tryEvict_list, setFlags_getElem?_ne h.symm]

theorem evicted_examine (inv : s.Inv) (h : Scanning s x)
    (hi : x.shard.list[x.newHead]? = some item) :
    Evicted s (x.examine item).2.shard (x.examine item).2.victims := by
  rw [victims_examine]
  by_cases hflags : item.flags = inCacheBit
  · rw [if_pos hflags]
    exact h.evicted.evict inv hi hflags
  · rw [if_neg hflags, List.append_nil]
    exact h.evicted.pass hi hflags

theorem visited_examine (h : Scanning s x) :
    ∀ m < (x.examine item).2.examined.length,
      ∃ b, (place s.list.length s.head m, b) ∈ (x.examine item).2.examined := by
  intro m hm
  rw [length_examine] at hm
  rw [examine_examined]
  obtain hm | rfl := Nat.lt_succ_iff_lt_or_eq.mp hm
  · obtain ⟨b, hb⟩ := h.visited m hm
    exact ⟨b, List.mem_append_left _ hb⟩
  · rw [← h.newHead]
    exact ⟨_, List.mem_append_right _ List.mem_cons_self⟩

theorem untouched_examine (h : Scanning s x) :
    ∀ i, (i, false) ∉ (x.examine item).2.examined → i ∉ (x.examine item).2.victims →
      (x.examine item).2.shard.list[i]? = s.list[i]? := by
  intro i hnot hv
  rw [Scan.mem_victims, examine_examined] at hv
  rw [examine_examined] at hnot
  have hi' : i ≠ x.newHead := by
    rintro rfl
    cases hb : (x.shard.tryEvict x.newHead item).1 with
    | true => exact hv (by rw [hb]; exact List.mem_append_right _ List.mem_cons_self)
    | false => exact hnot (by rw [hb]; exact List.mem_append_right _ List.mem_cons_self)
  rw [examine_other hi']
  refine h.untouched i (fun hmem => hnot (List.mem_append_left _ hmem)) (fun hmem => hv ?_)
  exact List.mem_append_left _ (Scan.mem_victims.mp hmem)

theorem passed_examine (h : Scanning s x) (hi : x.shard.list[x.newHead]? = some item) :
    ∀ i item', (i, false) ∈ (x.examine item).2.examined → i ∉ (x.examine item).2.victims →
      (x.examine item).2.shard.list[i]? = some item' → hasUsage item'.flags = false := by
  intro i item' hmem hv hi'
  rw [Scan.mem_victims, examine_examined] at hv
  by_cases hij : i = x.newHead
  · subst i
    have hflags : item.flags ≠ inCacheBit := by
      intro hflags
      refine hv ?_
      rw [tryEvict_fst.mpr hflags]
      exact List.mem_append_right _ List.mem_cons_self
    have hnew : (x.examine item).2.shard.list[x.newHead]? =
        some { item with flags := item.flags &&& ~~~usageBit } := by
      show (x.shard.tryEvict x.newHead item).2.list[x.newHead]? = _
      rw [tryEvict_list, if_neg hflags]
      exact setFlags_getElem?_self hi _
    obtain rfl := Option.some.inj (hnew.symm.trans hi')
    exact hasUsage_clearUsage _
  · rw [examine_other hij] at hi'
    rw [examine_examined] at hmem
    refine h.passed i item' ?_ (fun hmem => hv ?_) hi'
    · refine (List.mem_append.mp hmem).resolve_right fun hlast => hij ?_
      exact (Prod.mk.inj (List.mem_singleton.mp hlast)).1
    · exact List.mem_append_left _ (Scan.mem_victims.mp hmem)

theorem gone_examine (h : Scanning s x) (hi : x.shard.list[x.newHead]? = some item) :
    ∀ m, m + s.list.length < (x.examine item).2.examined.length →
      s.Evictable (place s.list.length s.head m) →
      place s.list.length s.head m ∈ (x.examine item).2.victims := by
  intro m hm hevictable
  rw [length_examine] at hm
  rw [victims_examine, List.mem_append]
  obtain hm | hm := Nat.lt_succ_iff_lt_or_eq.mp hm
  · exact Or.inl (h.gone m hm hevictable)
  have hplace : place s.list.length s.head m = x.newHead := by
    rw [h.newHead, ← hm, place_add_round]
  rw [hplace] at hevictable ⊢
  by_cases hv : x.newHead ∈ x.victims
  · exact Or.inl hv
  -- It was passed one round ago, and so it has no usage bit any more.
  have hpassed : (x.newHead, false) ∈ x.examined := by
    have hlt : 0 < s.list.length := Nat.zero_lt_of_lt hevictable.lt
    obtain ⟨b, hb⟩ := h.visited m (by omega)
    rw [hplace] at hb
    cases b with
    | false => exact hb
    | true => exact absurd (Scan.mem_victims.mpr hb) hv
  obtain ⟨item', hs, hin, hrefs⟩ := hevictable
  obtain ⟨-, -, hcache, hcount⟩ := h.evicted.kept hs hi hv
  have hflags : item.flags = inCacheBit := (eq_inCacheBit_iff _).mpr
    ⟨hcache ▸ hin, h.passed _ item hpassed hv hi, hcount ▸ hrefs⟩
  rw [if_pos hflags]
  exact Or.inr List.mem_cons_self

theorem fair_examine (h : Scanning s x) (hi : x.shard.list[x.newHead]? = some item) :
    ∀ i item' pre post, s.list[i]? = some item' → hasUsage item'.flags = true →
      (x.examine item).2.examined = pre ++ (i, true) :: post → (i, false) ∈ pre := by
  intro i item' pre post hs husage heq
  rw [examine_examined] at heq
  obtain rfl | ⟨post, last, rfl⟩ := post.eq_nil_or_concat
  · obtain ⟨rfl, hlast⟩ := List.append_inj' heq rfl
    obtain ⟨rfl, hb⟩ := Prod.mk.inj (List.singleton_inj.mp hlast)
    have hflags := tryEvict_fst.mp hb
    by_contra hnot
    obtain ⟨-, hv⟩ := h.evicted.evictable_of_flags hi hflags
    have hsame := h.untouched _ hnot hv
    rw [hi, hs] at hsame
    obtain rfl := Option.some.inj hsame
    have hclear := ((eq_inCacheBit_iff _).mp hflags).2.1
    rw [husage] at hclear
    exact absurd hclear (by decide)
  · rw [List.concat_eq_append, ← List.cons_append, ← List.append_assoc] at heq
    obtain ⟨heq, -⟩ := List.append_inj' heq rfl
    exact h.fair i item' pre post hs husage heq

theorem examine (inv : s.Inv) (hpos : 0 < s.list.length) (h : Scanning s x)
    (hi : x.shard.list[x.newHead]? = some item) : Scanning s (x.examine item).2 where
  head := (tryEvict_head (s := x.shard)).trans h.head
  evicted := evicted_examine inv h hi
  newHead := by
    rw [length_examine, place_succ hpos, ← h.newHead, ← (evicted_examine inv h hi).length]
    rfl
  visited := visited_examine h
  untouched := untouched_examine h
  passed := passed_examine h hi
  gone := gone_examine h hi
  fair := fair_examine h hi

end Scanning

/-- How `evictFromCache` ends. -/
structure EvictsRight (s : CacheShard V) (success : Bool) (x : Scan V) : Prop where
  enough : success = true ↔ s.CanMakeRoom
  inv : x.shard.Inv
  evicted : Evicted s x.shard x.victims
  fair : ∀ i item pre post, s.list[i]? = some item → hasUsage item.flags = true →
    x.examined = pre ++ (i, true) :: post → (i, false) ∈ pre
  room : success = true → x.shard.usage < s.capacity
  head : success = false → x.shard.head = s.head

/-- A scan that has not ended. -/
structure Going (s : CacheShard V) (x : Scan V) : Prop extends Scanning s x where
  second : x.is2ndIteration = true → s.list.length ≤ x.examined.length
  /-- A round is counted unless its last item was evicted, which happens once. -/
  rounds : x.examined.length / s.list.length ≤ (if x.is2ndIteration then 1 else 0) +
    if place s.list.length s.head (s.list.length - 1) ∈ x.victims then 1 else 0

namespace Scanning

variable {s : CacheShard V} {x : Scan V} {item : CacheItem V}

theorem succeeds (inv : s.Inv) (hpos : 0 < s.list.length) (h : Scanning s x)
    (hroom : x.shard.usage < x.shard.capacity) :
    EvictsRight s true { x with shard := { x.shard with head := x.newHead } } := by
  have hevicted : Evicted s { x.shard with head := x.newHead } x.victims :=
    ⟨h.evicted.nodup, h.evicted.evictable, h.evicted.capacity, h.evicted.length, h.evicted.items,
      h.evicted.recycle, h.evicted.usage, h.evicted.table, h.evicted.deleted⟩
  have hhead : x.newHead < s.list.length := h.newHead ▸ place_lt hpos _ _
  have husage := h.evicted.usage
  rw [h.evicted.capacity] at hroom
  refine ⟨iff_of_true rfl ⟨x.victims, h.evicted.nodup, h.evicted.evictable, ?_⟩, ?_, hevicted,
    h.fair, fun _ => hroom, fun h => absurd h.symm Bool.false_ne_true⟩
  · omega
  · exact hevicted.inv inv (Or.inr (h.evicted.length ▸ hhead))

/-- After two rounds everything that may be evicted is gone. -/
theorem fails (inv : s.Inv) (h : Scanning s x) (hfull : x.shard.capacity ≤ x.shard.usage)
    (hrounds : 2 * s.list.length ≤ x.examined.length) : EvictsRight s false x := by
  have hall : ∀ i, s.Evictable i → i ∈ x.victims := by
    intro i hi
    have hhead : s.head < s.list.length :=
      inv.head_lt (Nat.zero_lt_of_lt hi.lt)
    obtain ⟨m, hm, rfl⟩ := exists_place hhead hi.lt
    exact h.gone m (by omega) hi
  have husage := h.evicted.usage
  rw [h.evicted.capacity] at hfull
  refine ⟨iff_of_false Bool.false_ne_true ?_, ?_, h.evicted, h.fair,
    fun h => absurd h Bool.false_ne_true, fun _ => h.head⟩
  · rintro ⟨victims, hnodup, hevictable, hroom⟩
    have hle := hnodup.length_le_of_subset fun i hi => hall i (hevictable i hi)
    omega
  · refine h.evicted.inv inv ?_
    rw [h.head, h.evicted.length]
    exact inv.head_in

end Scanning

namespace Going

variable {s : CacheShard V} {x : Scan V} {item : CacheItem V}

theorem start (inv : s.Inv) (hused : s.usage ≠ 0) : Going s s.startScan where
  toScanning := Scanning.start inv hused
  second h := absurd h Bool.false_ne_true
  rounds := by
    show 0 / s.list.length ≤ _
    rw [Nat.zero_div]
    exact Nat.zero_le _

theorem examined_lt (hpos : 0 < s.list.length) (h : Going s x) :
    x.examined.length < 3 * s.list.length := by
  rw [← Nat.div_lt_iff_lt_mul hpos]
  refine Nat.lt_of_le_of_lt h.rounds ?_
  split <;> split <;> decide

theorem rounds_succ (k n : Nat) : (k + 1) / n = k / n + if (k + 1) % n = 0 then 1 else 0 := by
  rw [Nat.succ_div]
  congr 1
  exact if_congr Nat.dvd_iff_mod_eq_zero rfl rfl

/-- An item was evicted, and it is the first time if it is the last of its round. -/
theorem afterEvicting (inv : s.Inv) (hpos : 0 < s.list.length) (h : Going s x)
    (hi : x.shard.list[x.newHead]? = some item) (hflags : item.flags = inCacheBit) :
    Going s (x.examine item).2 where
  toScanning := h.toScanning.examine inv hpos hi
  second hsecond := by
    rw [Scanning.length_examine]
    exact Nat.le_succ_of_le (h.second hsecond)
  rounds := by
    obtain ⟨-, hv⟩ := h.evicted.evictable_of_flags hi hflags
    have hrounds := h.rounds
    rw [Scanning.length_examine, rounds_succ, Scanning.victims_examine, if_pos hflags]
    show _ ≤ (if x.is2ndIteration then 1 else 0) + _
    by_cases hround : (x.examined.length + 1) % s.list.length = 0
    · have hlast : place s.list.length s.head (s.list.length - 1) = x.newHead := by
        rw [h.newHead, place_last hpos hround]
      rw [hlast, if_neg hv] at hrounds
      rw [if_pos hround, hlast, if_pos (List.mem_append_right _ List.mem_cons_self)]
      omega
    · rw [if_neg hround]
      refine hrounds.trans (Nat.add_le_add_left ?_ _)
      split
      next hmem => rw [if_pos (List.mem_append_left _ hmem)]
      next => exact Nat.zero_le _

theorem afterPassing (inv : s.Inv) (hpos : 0 < s.list.length) (h : Going s x)
    (hi : x.shard.list[x.newHead]? = some item) (hflags : item.flags ≠ inCacheBit)
    (hround : (x.examined.length + 1) % s.list.length ≠ 0) : Going s (x.examine item).2 where
  toScanning := h.toScanning.examine inv hpos hi
  second hsecond := by
    rw [Scanning.length_examine]
    exact Nat.le_succ_of_le (h.second hsecond)
  rounds := by
    rw [Scanning.length_examine, rounds_succ, Scanning.victims_examine, if_neg hflags,
      if_neg hround, List.append_nil]
    exact h.rounds

theorem afterRound (inv : s.Inv) (hpos : 0 < s.list.length) (h : Going s x)
    (hi : x.shard.list[x.newHead]? = some item) (hflags : item.flags ≠ inCacheBit)
    (hround : (x.examined.length + 1) % s.list.length = 0) (hfirst : x.is2ndIteration = false) :
    Going s { (x.examine item).2 with is2ndIteration := true } where
  toScanning :=
    have hscan := h.toScanning.examine inv hpos hi
    ⟨hscan.head, hscan.evicted, hscan.newHead, hscan.visited, hscan.untouched, hscan.passed,
      hscan.gone, hscan.fair⟩
  second _ := by
    show _ ≤ (x.examine item).2.examined.length
    rw [Scanning.length_examine]
    exact Nat.le_of_dvd (Nat.succ_pos _) (Nat.dvd_of_mod_eq_zero hround)
  rounds := by
    have hrounds := h.rounds
    rw [hfirst] at hrounds
    show (x.examine item).2.examined.length / _ ≤ 1 + if _ ∈ (x.examine item).2.victims then 1 else 0
    rw [Scanning.length_examine, rounds_succ, Scanning.victims_examine, if_neg hflags,
      if_pos hround, List.append_nil]
    simp only [Bool.false_eq_true, if_false] at hrounds
    omega

end Going

section

variable {x : Scan V} {item : CacheItem V}

theorem evictLoop_evicts (hfull : x.shard.capacity ≤ x.shard.usage)
    (hi : x.shard.list[x.newHead]? = some item) (hflags : item.flags = inCacheBit) (fuel : Nat) :
    evictLoop (fuel + 1) x = evictLoop fuel (x.examine item).2 := by
  rw [evictLoop, if_pos hfull, hi]
  exact if_pos (tryEvict_fst.mpr hflags)

theorem evictLoop_passes (hfull : x.shard.capacity ≤ x.shard.usage)
    (hi : x.shard.list[x.newHead]? = some item) (hflags : item.flags ≠ inCacheBit) (fuel : Nat) :
    evictLoop (fuel + 1) x =
      if (x.examine item).2.newHead = (x.examine item).2.shard.head then
        if x.is2ndIteration then some (false, (x.examine item).2)
        else evictLoop fuel { (x.examine item).2 with is2ndIteration := true }
      else evictLoop fuel (x.examine item).2 := by
  rw [evictLoop, if_pos hfull, hi]
  exact if_neg (mt tryEvict_fst.mp hflags)

theorem full_examine (hflags : item.flags ≠ inCacheBit)
    (hfull : x.shard.capacity ≤ x.shard.usage) :
    (x.examine item).2.shard.capacity ≤ (x.examine item).2.shard.usage := by
  unfold Scan.examine tryEvict
  rw [if_neg hflags]
  exact hfull

theorem two_rounds {n k : Nat} (hk : n ≤ k) (hround : (k + 1) % n = 0) :
    2 * n ≤ k + 1 := by
  obtain ⟨c, hc⟩ := Nat.dvd_of_mod_eq_zero hround
  have htwo : 2 ≤ c := by
    by_contra hlt
    have hle := Nat.mul_le_mul_left n (Nat.le_of_lt_succ (Nat.lt_of_not_le hlt))
    omega
  rw [hc, Nat.mul_comm]
  exact Nat.mul_le_mul_left n htwo

end

/-- The induction is on the fuel, which is more than what is left of three rounds. -/
theorem evictLoop_right {s : CacheShard V} (inv : s.Inv) (hpos : 0 < s.list.length) :
    ∀ fuel x, Going s x → 3 * s.list.length ≤ x.examined.length + fuel →
      ∃ success x', (∀ more, evictLoop (fuel + more) x = some (success, x')) ∧
        EvictsRight s success x' := by
  intro fuel
  induction fuel with
  | zero =>
    intro x h hfuel
    have hlt := h.examined_lt hpos
    omega
  | succ fuel ih =>
    intro x h hfuel
    simp only [Nat.add_right_comm fuel 1]
    by_cases hfull : x.shard.capacity ≤ x.shard.usage
    · have hlt : x.newHead < x.shard.list.length := by
        rw [h.newHead, h.evicted.length]
        exact place_lt hpos _ _
      obtain ⟨item, hi⟩ : ∃ item, x.shard.list[x.newHead]? = some item :=
        ⟨_, List.getElem?_eq_getElem hlt⟩
      have hfuel' : 3 * s.list.length ≤ (x.examine item).2.examined.length + fuel := by
        rw [Scanning.length_examine]
        omega
      have hscan := h.toScanning.examine inv hpos hi
      by_cases hflags : item.flags = inCacheBit
      · simp only [evictLoop_evicts hfull hi hflags]
        exact ih _ (h.afterEvicting inv hpos hi hflags) hfuel'
      have hhead : (x.examine item).2.newHead = (x.examine item).2.shard.head ↔
          (x.examined.length + 1) % s.list.length = 0 := by
        rw [hscan.newHead, hscan.head, Scanning.length_examine]
        exact place_eq_head (inv.head_lt hpos)
      by_cases hround : (x.examined.length + 1) % s.list.length = 0
      · simp only [evictLoop_passes hfull hi hflags, if_pos (hhead.mpr hround)]
        cases hsecond : x.is2ndIteration with
        | true =>
          refine ⟨false, _, fun _ => rfl, hscan.fails inv (full_examine hflags hfull) ?_⟩
          rw [Scanning.length_examine]
          exact two_rounds (h.second hsecond) hround
        | false => exact ih _ (h.afterRound inv hpos hi hflags hround hsecond) hfuel'
      · simp only [evictLoop_passes hfull hi hflags, if_neg (mt hhead.mp hround)]
        exact ih _ (h.afterPassing inv hpos hi hflags hround) hfuel'
    · refine ⟨true, _, fun more => ?_, h.toScanning.succeeds inv hpos (Nat.lt_of_not_le hfull)⟩
      unfold evictLoop
      rw [if_neg hfull]

theorem evictWith_right {s : CacheShard V} (inv : s.Inv) :
    ∃ success x, (∀ fuel, s.scanFuel ≤ fuel → evictWith fuel s = some (success, x)) ∧
      s.EvictsRight success x := by
  by_cases hused : s.usage = 0
  · have hroom : s.usage < s.capacity := hused ▸ s.capacity_pos
    refine ⟨true, s.startScan, fun fuel _ => if_pos hused, ?_⟩
    exact {
      enough := iff_of_true rfl ⟨[], List.nodup_nil, fun i h => absurd h List.not_mem_nil, hroom⟩
      inv := inv
      evicted := Evicted.refl s
      fair := fun i item pre post _ _ heq => by
        have hlength := congrArg List.length heq
        rw [List.length_append, List.length_cons] at hlength
        exact absurd hlength (Nat.succ_ne_zero _).symm
      room := fun _ => hroom
      head := fun h => absurd h.symm Bool.false_ne_true }
  have hpos : 0 < s.list.length := by
    have husage := inv.usage
    omega
  obtain ⟨success, x, hloop, hright⟩ := evictLoop_right inv hpos s.scanFuel s.startScan
    (Going.start inv hused) (by
      show 3 * s.list.length ≤ 0 + (3 * s.list.length + 1)
      omega)
  refine ⟨success, x, fun fuel hfuel => ?_, hright⟩
  rw [evictWith, if_neg hused, ← hloop (fuel - s.scanFuel), Nat.add_sub_cancel' hfuel]

theorem evictFromCache_spec {s : CacheShard V} (inv : s.Inv) :
    ∃ success t victims, s.evictFromCache = some (success, t) ∧ t.Inv ∧ Evicted s t victims ∧
      (success = true → t.usage < s.capacity) := by
  obtain ⟨success, x, hloop, hright⟩ := evictWith_right inv
  refine ⟨success, x.shard, x.victims, ?_, hright.inv, hright.evicted, hright.room⟩
  rw [evictFromCache, hloop s.scanFuel le_rfl]
  rfl

/-- One item, which has been used. -/
def usedShard : CacheShard Nat where
  list := [⟨7, 0, inCacheBit ||| usageBit⟩]
  head := 0
  recycle := []
  capacity := 1
  capacity_pos := Nat.one_pos
  usage := 1
  table h := if h = 7 then some 0 else none
  deleted := []

theorem used_item {i : Nat} {item : CacheItem Nat} (h : usedShard.list[i]? = some item) :
    i = 0 ∧ (⟨7, 0, inCacheBit ||| usageBit⟩ : CacheItem Nat) = item := by
  unfold usedShard at h
  rw [List.getElem?_singleton] at h
  split at h
  next hi => exact ⟨hi, Option.some.inj h⟩
  next => exact absurd h (Option.some_ne_none _).symm

theorem usedShard_inv : usedShard.Inv where
  head_in := Or.inl rfl
  recycle_nodup := List.nodup_nil
  recycle_lt i h := absurd h List.not_mem_nil
  free i item h := by
    obtain ⟨-, rfl⟩ := used_item h
    exact iff_of_false List.not_mem_nil (by decide)
  usage := rfl
  table h i := by
    constructor
    · intro htable
      simp only [usedShard] at htable
      split at htable
      next hkey =>
        obtain rfl := Option.some.inj htable
        exact ⟨⟨7, 0, inCacheBit ||| usageBit⟩, rfl, by decide, hkey.symm⟩
      next => exact absurd htable (Option.some_ne_none _).symm
    · rintro ⟨item, hitem, -, hkey⟩
      obtain ⟨rfl, rfl⟩ := used_item hitem
      exact if_pos hkey.symm

/-- The scan ends, it stays inside of the list, and it fails only where there is no room to make. -/
theorem evictFromCache_right {s : CacheShard V} (inv : s.Inv) :
    ∃ success x, s.evictFromCache = some (success, x.shard) ∧
      (∀ fuel, s.scanFuel ≤ fuel → evictWith fuel s = some (success, x)) ∧
      s.EvictsRight success x := by
  obtain ⟨success, x, hloop, hright⟩ := evictWith_right inv
  refine ⟨success, x, ?_, hloop, hright⟩
  rw [evictFromCache, hloop s.scanFuel le_rfl]
  rfl

theorem evictFromCache_right_used : ∃ success x,
    usedShard.evictFromCache = some (success, x.shard) ∧
    (∀ fuel, usedShard.scanFuel ≤ fuel → evictWith fuel usedShard = some (success, x)) ∧
    usedShard.EvictsRight success x :=
  evictFromCache_right usedShard_inv

end CacheShard

end ClockCache

end BcosExecutor
