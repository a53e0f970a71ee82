import BcosExecutor.ClockLedger
import Mathlib.Data.List.Perm.Basic

namespace BcosExecutor

/-- The item of a shard, and the value that it had when the handle was made. -/
structure CacheHandle where
  item : Nat
  value : Nat

/-- A shard with the handles to its items, and what it has accepted for which key. The values are
the numbers of the objects that have been made for the cache. -/
structure TrackedShard (K : Type) where
  shard : ClockCache.CacheShard Nat
  handles : List CacheHandle
  accepted : List (K × Nat)

structure ClockCache (K : Type) where
  shards : UInt64 → TrackedShard K
  shardMask : UInt64
  allocated : Nat

namespace TrackedShard

open ClockCache

variable {K : Type} (hash : K → UInt64) (r : TrackedShard K)

def insert (key : K) (value : Nat) (outHandle : Bool) : Option (TrackedShard K) := do
  let (item, shard) ← r.shard.insert (hash key) value outHandle
  match item with
  | none => some { r with shard }
  | some item => some {
      shard
      handles := if outHandle then r.handles ++ [⟨item, value⟩] else r.handles
      accepted := r.accepted ++ [(key, value)] }

def lookup (key : K) : Option (Option Nat × TrackedShard K) := do
  let (item, shard) ← r.shard.lookup (hash key)
  match item with
  | none => some (none, { r with shard })
  | some item =>
    let found ← shard.list[item]?
    some (some found.value, { r with shard, handles := r.handles ++ [⟨item, found.value⟩] })

def release (n : Nat) : Option (TrackedShard K) :=
  match r.handles[n]? with
  | none => some r
  | some handle => do
    let item ← r.shard.list[handle.item]?
    some { r with
      shard := (r.shard.unref handle.item item true).2
      handles := r.handles.eraseIdx n }

/-- What the latest insertion of the key that was accepted has put in. -/
def latest [DecidableEq K] (key : K) : Option Nat :=
  ((r.accepted.filter (·.1 = key)).getLast?).map Prod.snd

def references (item : Nat) : Nat :=
  r.handles.countP (·.item = item)

variable {r}

theorem references_pos {handle : CacheHandle} (h : handle ∈ r.handles) :
    0 < r.references handle.item :=
  List.countP_pos_iff.mpr ⟨handle, h, decide_eq_true rfl⟩

/-- The handle that is made for an item. -/
theorem references_append {item i : Nat} {value : Nat} {t : CacheShard Nat}
    {accepted : List (K × Nat)} :
    (⟨t, r.handles ++ [⟨item, value⟩], accepted⟩ : TrackedShard K).references i =
      r.references i + if item = i then 1 else 0 := by
  unfold references
  rw [List.countP_append, List.countP_singleton]
  simp only [decide_eq_true_iff]

end TrackedShard

namespace ClockCache

variable {K : Type}

inductive Event (K : Type)
  | insert (key : K) (outHandle : Bool)
  | lookup (key : K)
  | release (shardId : UInt64) (n : Nat)

def init (capacity : Nat) (capacity_pos : 0 < capacity) (shardMask : UInt64) : ClockCache K where
  shards _ := ⟨CacheShard.empty capacity capacity_pos, [], []⟩
  shardMask := shardMask
  allocated := 0

def getShard (c : ClockCache K) (hash : UInt64) : UInt64 :=
  hash &&& c.shardMask

def withShard (c : ClockCache K) (shardId : UInt64) (r : TrackedShard K) : ClockCache K :=
  { c with shards := Function.update c.shards shardId r }

/-- What is inserted is a new object. -/
def insert (hash : K → UInt64) (key : K) (outHandle : Bool) (c : ClockCache K) :
    Option (ClockCache K) := do
  let shardId := c.getShard (hash key)
  let r ← (c.shards shardId).insert hash key c.allocated outHandle
  some { c.withShard shardId r with allocated := c.allocated + 1 }

def lookup (hash : K → UInt64) (key : K) (c : ClockCache K) :
    Option (Option Nat × ClockCache K) := do
  let shardId := c.getShard (hash key)
  let (found, r) ← (c.shards shardId).lookup hash key
  some (found, c.withShard shardId r)

def step (hash : K → UInt64) (c : ClockCache K) : Event K → Option (ClockCache K)
  | .insert key outHandle => c.insert hash key outHandle
  | .lookup key => (c.lookup hash key).map Prod.snd
  | .release shardId n => ((c.shards shardId).release n).map (c.withShard shardId)

def run (hash : K → UInt64) (c : ClockCache K) (events : List (Event K)) : Option (ClockCache K) :=
  events.foldlM (step hash) c

/-- No item has more references than there are bits for. -/
def Few (c : ClockCache K) : Prop :=
  ∀ shardId item, (c.shards shardId).references item < 2 ^ 30

end ClockCache

namespace TrackedShard

open ClockCache

variable {K : Type} [DecidableEq K]

/-- What is promised of a shard and its handles. -/
structure Correct (hash : K → UInt64) (capacity : Nat) (r : TrackedShard K) : Prop where
  lookup : ∀ key, ∃ found r', r.lookup hash key = some (found, r') ∧
    ∀ value, found = some value → r.latest key = some value
  held : ∀ handle ∈ r.handles, handle.value ∉ r.shard.deleted ∧
    ∃ item, r.shard.list[handle.item]? = some item ∧ item.value = handle.value
  destroyed : ∀ value, r.shard.destroy.count value =
    if value ∈ r.accepted.map Prod.snd then 1 else 0
  usage : r.shard.usage =
    ((List.range r.shard.list.length).filter (· ∉ r.shard.recycle)).length
  full : r.shard.usage ≤ capacity ∧ r.shard.capacity = capacity
  table : ∀ h i, r.shard.table h = some i ↔ ∃ item, r.shard.list[i]? = some item ∧
    inCache item.flags = true ∧ item.hash.toUInt32 = h

/-- The invariant of the runs. -/
structure Sound (hash : K → UInt64) (capacity allocated : Nat) (r : TrackedShard K) : Prop where
  inv : r.shard.Inv
  fixed : r.shard.capacity = capacity
  usage : r.shard.usage ≤ capacity
  references : ∀ i item, r.shard.list[i]? = some item →
    (refCounts item.flags).toNat = r.references i
  held : ∀ handle ∈ r.handles, ∃ item, r.shard.list[handle.item]? = some item ∧
    item.value = handle.value
  latest : ∀ (i : Nat) (item : ClockCache.CacheItem Nat), r.shard.list[i]? = some item →
    inCache item.flags = true → ∃ key, item.hash = hash key ∧ r.latest key = some item.value
  ledger : r.shard.destroy.Perm (r.accepted.map Prod.snd)
  fresh : (r.accepted.map Prod.snd).Nodup
  below : ∀ value ∈ r.accepted.map Prod.snd, value < allocated

variable {hash : K → UInt64} {capacity allocated : Nat} {r : TrackedShard K}

theorem sound_empty (capacity_pos : 0 < capacity) :
    (⟨CacheShard.empty capacity capacity_pos, [], []⟩ : TrackedShard K).Sound hash capacity
      allocated where
  inv := CacheShard.inv_empty capacity capacity_pos
  fixed := rfl
  usage := Nat.zero_le _
  references i item h := absurd h (by simp [CacheShard.empty])
  held handle h := absurd h List.not_mem_nil
  latest i item h := absurd h (by simp [CacheShard.empty])
  ledger := List.Perm.refl _
  fresh := List.nodup_nil
  below value h := absurd h List.not_mem_nil

namespace Sound

theorem mono (h : Sound hash capacity allocated r) {more : Nat} (hle : allocated ≤ more) :
    Sound hash capacity more r :=
  { h with below := fun value hvalue => (h.below value hvalue).trans_le hle }

theorem handle_slot (h : Sound hash capacity allocated r) {handle : CacheHandle}
    (hmem : handle ∈ r.handles) : handle.item ∈ r.shard.slots := by
  obtain ⟨item, hi, -⟩ := h.held handle hmem
  refine (h.inv.but.mem_slots_iff hi).mpr (not_unused_iff.mpr (Or.inr ?_))
  rw [UInt32.lt_iff_toNat_lt, h.references _ item hi]
  exact references_pos hmem

theorem references_free (h : Sound hash capacity allocated r) {i : Nat}
    (hfree : i ∉ r.shard.slots) : r.references i = 0 := by
  refine Nat.eq_zero_of_not_pos fun hpos => hfree ?_
  obtain ⟨handle, hmem, hitem⟩ := List.countP_pos_iff.mp hpos
  exact of_decide_eq_true hitem ▸ h.handle_slot hmem

theorem correct (hinj : Function.Injective hash) (h : Sound hash capacity allocated r) :
    r.Correct hash capacity := by
  have hnodup : r.shard.destroy.Nodup := h.ledger.nodup_iff.mpr h.fresh
  refine ⟨fun key => ?_, fun handle hmem => ⟨fun hdeleted => ?_, h.held handle hmem⟩,
    fun value => ?_, h.inv.but.usage_eq, ⟨h.usage, h.fixed⟩, h.inv.table⟩
  · unfold lookup
    obtain hnone | ⟨i, item, hi, hin, hhash, hsome⟩ := CacheShard.lookup_spec h.inv (hash key)
    · rw [hnone]
      exact ⟨none, _, rfl, fun value hvalue => absurd hvalue.symm (Option.some_ne_none value)⟩
    · rw [hsome]
      have hi' := CacheShard.setFlags_getElem?_self hi (item.flags + oneRef)
      simp only [Option.bind_eq_bind, Option.bind_some, hi']
      refine ⟨_, _, rfl, fun value hvalue => ?_⟩
      obtain rfl := Option.some.inj hvalue
      obtain ⟨key', hkey, hlatest⟩ := h.latest i item hi hin
      rw [hinj (hhash.symm.trans hkey)]
      exact hlatest
  · obtain ⟨item, hi, hvalue⟩ := h.held handle hmem
    rw [h.inv.but.destroy_eq] at hnodup
    refine (List.nodup_append'.mp hnodup).2.2 hdeleted ?_
    refine List.mem_filterMap.mpr ⟨handle.item, h.handle_slot hmem, ?_⟩
    unfold CacheShard.valueAt
    rw [hi, ← hvalue]
    rfl
  · rw [h.ledger.count_eq]
    split
    next hmem => exact List.count_eq_one_of_mem h.fresh hmem
    next hnot => exact List.count_eq_zero_of_not_mem hnot

theorem evict (h : Sound hash capacity allocated r) {t : CacheShard Nat} {victims : List Nat}
    (inv : t.Inv) (hevicted : Evicted r.shard t victims) :
    Sound hash capacity allocated { r with shard := t } where
  inv := inv
  fixed := hevicted.capacity.trans h.fixed
  usage := by
    have husage := hevicted.usage
    have hle := h.usage
    show t.usage ≤ capacity
    omega
  references i item' hi' := by
    obtain ⟨item, hi⟩ := hevicted.exists_item hi'
    show (refCounts item'.flags).toNat = r.references i
    rw [← h.references i item hi]
    by_cases hv : i ∈ victims
    · obtain ⟨item₀, hi₀, -, hrefs⟩ := hevicted.evictable i hv
      obtain rfl := Option.some.inj (hi.symm.trans hi₀)
      rw [hevicted.victim_flags hi' hv, hrefs]
      rfl
    · rw [(hevicted.kept hi hi' hv).2.2.2]
  held handle hmem := by
    obtain ⟨item, hi, hvalue⟩ := h.held handle hmem
    obtain ⟨flags, hi', -⟩ := hevicted.items _ item hi
    exact ⟨_, hi', hvalue⟩
  latest i item' hi' hin := by
    obtain ⟨item, hi⟩ := hevicted.exists_item hi'
    have hv : i ∉ victims := by
      intro hv
      rw [hevicted.victim_flags hi' hv] at hin
      exact absurd hin (by decide)
    obtain ⟨hhash, hvalue, hcache, -⟩ := hevicted.kept hi hi' hv
    rw [hhash, hvalue]
    exact h.latest i item hi (hcache ▸ hin)
  ledger := (hevicted.destroy_perm h.inv inv).trans h.ledger
  fresh := h.fresh
  below := h.below

theorem latest_append {key key' : K} {value : Nat} {handles : List CacheHandle}
    {t : CacheShard Nat} :
    (⟨t, handles, r.accepted ++ [(key, value)]⟩ : TrackedShard K).latest key' =
      if key = key' then some value else r.latest key' := by
  unfold TrackedShard.latest
  rw [List.filter_append]
  by_cases hkey : key = key'
  · simp [hkey]
  · simp [hkey]

theorem accept (h : Sound hash capacity allocated r) {t : CacheShard Nat} {i : Nat} {key : K}
    {flags : UInt32} {outHandle : Bool} (hroom : r.shard.usage < capacity)
    (hrefs : (refCounts flags).toNat = if outHandle then 1 else 0)
    (haccepted : CacheShard.Accepted r.shard t i ⟨hash key, allocated, flags⟩) :
    Sound hash capacity (allocated + 1)
      ⟨t, if outHandle then r.handles ++ [⟨i, allocated⟩] else r.handles,
        r.accepted ++ [(key, allocated)]⟩ where
  inv := haccepted.inv
  fixed := haccepted.capacity.trans h.fixed
  usage := by
    have husage := haccepted.usage
    show t.usage ≤ capacity
    omega
  references j new hj := by
    by_cases hij : j = i
    · subst j
      obtain rfl := Option.some.inj (haccepted.get.symm.trans hj)
      have hzero := h.references_free haccepted.free
      cases outHandle with
      | true =>
        rw [hrefs, if_pos rfl, if_pos rfl, references_append, if_pos rfl, hzero]
      | false => exact hrefs.trans hzero.symm
    · obtain ⟨old, hold, hrefs', -⟩ := haccepted.other hij hj
      rw [hrefs', h.references j old hold]
      cases outHandle with
      | true => rw [if_pos rfl, references_append, if_neg (Ne.symm hij), Nat.add_zero]
      | false => rfl
  held handle hmem := by
    have hcases : handle ∈ r.handles ∨ handle = ⟨i, allocated⟩ := by
      cases outHandle with
      | true => exact (List.mem_append.mp hmem).imp_right List.mem_singleton.mp
      | false => exact Or.inl hmem
    obtain hmem | rfl := hcases
    · have hij : handle.item ≠ i := fun hij => haccepted.free (hij ▸ h.handle_slot hmem)
      obtain ⟨old, hold, hvalue⟩ := h.held handle hmem
      obtain ⟨flags', hnew, -⟩ := haccepted.others _ old hij hold
      exact ⟨_, hnew, hvalue⟩
    · exact ⟨_, haccepted.get, rfl⟩
  latest j new hj hnew := by
    by_cases hij : j = i
    · subst j
      obtain rfl := Option.some.inj (haccepted.get.symm.trans hj)
      refine ⟨key, rfl, ?_⟩
      rw [latest_append, if_pos rfl]
    · obtain ⟨old, hold, -, hhash, hvalue, hcache⟩ := haccepted.other hij hj
      obtain ⟨hin', hlow⟩ := hcache hnew
      obtain ⟨key', hkey', hlatest⟩ := h.latest j old hold hin'
      have hne : key ≠ key' := by
        rintro rfl
        exact hlow (congrArg UInt64.toUInt32 hkey')
      refine ⟨key', hhash.trans hkey', ?_⟩
      rw [latest_append, if_neg hne, hvalue]
      exact hlatest
  ledger := by
    rw [List.map_append]
    exact haccepted.ledger.trans (h.ledger.append_right _)
  fresh := by
    rw [List.map_append]
    refine h.fresh.append (List.nodup_singleton allocated) ?_
    rw [List.map_singleton, List.disjoint_singleton]
    exact fun hmem => Nat.lt_irrefl _ (h.below _ hmem)
  below value hvalue := by
    rw [List.map_append] at hvalue
    obtain hvalue | hvalue := List.mem_append.mp hvalue
    · exact Nat.lt_succ_of_lt (h.below value hvalue)
    · rw [List.mem_singleton.mp hvalue]
      exact Nat.lt_succ_self _

theorem insert (h : Sound hash capacity allocated r) (key : K) (outHandle : Bool) :
    ∃ r', r.insert hash key allocated outHandle = some r' ∧
      Sound hash capacity (allocated + 1) r' := by
  obtain ⟨success, s, victims, hevict, inv, hevicted, hroom⟩ :=
    CacheShard.evictFromCache_spec h.inv
  have hsound := h.evict inv hevicted
  unfold TrackedShard.insert CacheShard.insert
  simp only [hevict, Option.bind_eq_bind, Option.bind_some]
  cases success with
  | false => exact ⟨_, rfl, hsound.mono (Nat.le_succ _)⟩
  | true =>
    have hflags : ∃ flags, (if outHandle then inCacheBit + oneRef else inCacheBit) = flags ∧
        inCache flags = true ∧ (refCounts flags).toNat = if outHandle then 1 else 0 := by
      cases outHandle with
      | true => exact ⟨_, rfl, by decide, by decide⟩
      | false => exact ⟨_, rfl, by decide, by decide⟩
    obtain ⟨flags, heq, hin, hrefs⟩ := hflags
    obtain ⟨i, t, haccept, haccepted⟩ :=
      CacheShard.accept_spec inv ⟨hash key, allocated, flags⟩ hin
    simp only [if_true, heq, haccept, Option.bind_some]
    exact ⟨_, rfl, hsound.accept (h.fixed ▸ hroom rfl) hrefs haccepted⟩

/-- A reference that is added or taken away along with a handle. -/
theorem refer (h : Sound hash capacity allocated r) {t : CacheShard Nat} {i count : Nat}
    {item : ClockCache.CacheItem Nat} (hi : r.shard.list[i]? = some item)
    (hreferred : CacheShard.Referred r.shard t i item count) {handles : List CacheHandle}
    (hcount : count = (⟨t, handles, r.accepted⟩ : TrackedShard K).references i)
    (hothers : ∀ j, j ≠ i →
      (⟨t, handles, r.accepted⟩ : TrackedShard K).references j = r.references j)
    (hhandles : ∀ handle ∈ handles, handle ∈ r.handles ∨ handle = ⟨i, item.value⟩) :
    Sound hash capacity allocated ⟨t, handles, r.accepted⟩ where
  inv := hreferred.inv
  fixed := hreferred.capacity.trans h.fixed
  usage := hreferred.usage.trans h.usage
  references j new hj := by
    by_cases hij : j = i
    · subst j
      obtain ⟨flags, hnew, -, hrefs⟩ := hreferred.get
      obtain rfl := Option.some.inj (hnew.symm.trans hj)
      exact hrefs.trans hcount
    · rw [hothers j hij]
      exact h.references j new ((hreferred.others j hij).symm.trans hj)
  held handle hmem := by
    obtain ⟨flags, hnew, -⟩ := hreferred.get
    obtain hmem | rfl := hhandles handle hmem
    · obtain ⟨old, hold, hvalue⟩ := h.held handle hmem
      by_cases hij : handle.item = i
      · rw [hij] at hold ⊢
        obtain rfl := Option.some.inj (hi.symm.trans hold)
        exact ⟨_, hnew, hvalue⟩
      · exact ⟨old, (hreferred.others _ hij).trans hold, hvalue⟩
    · exact ⟨_, hnew, rfl⟩
  latest j new hj hin := by
    by_cases hij : j = i
    · subst j
      obtain ⟨flags, hnew, hcache, -⟩ := hreferred.get
      obtain rfl := Option.some.inj (hnew.symm.trans hj)
      exact h.latest i item hi (hcache ▸ hin)
    · exact h.latest j new ((hreferred.others j hij).symm.trans hj) hin
  ledger := hreferred.ledger.trans h.ledger
  fresh := h.fresh
  below := h.below

theorem lookup (h : Sound hash capacity allocated r) (key : K) :
    ∃ found r', r.lookup hash key = some (found, r') ∧
      ((∀ i, r'.references i < 2 ^ 30) → Sound hash capacity allocated r') := by
  unfold TrackedShard.lookup
  obtain hnone | ⟨i, item, hi, hin, -, hsome⟩ := CacheShard.lookup_spec h.inv (hash key)
  · rw [hnone]
    exact ⟨none, r, rfl, fun _ => h⟩
  · rw [hsome]
    have hi' := CacheShard.setFlags_getElem?_self hi (item.flags + oneRef)
    simp only [Option.bind_eq_bind, Option.bind_some, hi']
    refine ⟨_, _, rfl, fun hfew => ?_⟩
    have hrefs := h.references i item hi
    have hroom := hfew i
    rw [references_append, if_pos rfl] at hroom
    rw [← hrefs] at hroom
    refine h.refer hi (CacheShard.ref_spec h.inv hi hin hroom) ?_ (fun j hij => ?_)
      fun handle hmem => (List.mem_append.mp hmem).imp_right List.mem_singleton.mp
    · rw [references_append, if_pos rfl, hrefs]
    · rw [references_append, if_neg hij.symm, Nat.add_zero]

theorem release (h : Sound hash capacity allocated r) (n : Nat) :
    ∃ r', r.release n = some r' ∧ Sound hash capacity allocated r' := by
  unfold TrackedShard.release
  cases hn : r.handles[n]? with
  | none => exact ⟨r, rfl, h⟩
  | some handle =>
    obtain ⟨hlt, hget⟩ := List.getElem?_eq_some_iff.mp hn
    have hmem : handle ∈ r.handles := List.mem_of_getElem? hn
    obtain ⟨item, hi, hvalue⟩ := h.held handle hmem
    have hrefs := h.references _ item hi
    have hpos := references_pos hmem
    have hperm : (handle :: r.handles.eraseIdx n).Perm r.handles := by
      rw [← hget]
      exact List.getElem_cons_eraseIdx_perm hlt
    have hcount (j : Nat) : r.references j = (r.handles.eraseIdx n).countP (·.item = j) +
        if handle.item = j then 1 else 0 := by
      unfold TrackedShard.references
      rw [← hperm.countP_eq, List.countP_cons]
      simp only [decide_eq_true_iff]
    simp only [hi, Option.bind_eq_bind, Option.bind_some]
    refine ⟨_, rfl, h.refer hi (CacheShard.unref_spec h.inv hi (hrefs ▸ hpos) true) ?_
      (fun j hij => ?_) fun other hother => Or.inl (List.mem_of_mem_eraseIdx hother)⟩
    · rw [hrefs, hcount, if_pos rfl]
      exact Nat.add_sub_cancel _ _
    · rw [hcount, if_neg hij.symm]
      rfl

end Sound

end TrackedShard

namespace ClockCache

variable {K : Type} {hash : K → UInt64} {capacity : Nat} {c : ClockCache K}

theorem withShard_self (shardId : UInt64) (r : TrackedShard K) :
    (c.withShard shardId r).shards shardId = r :=
  Function.update_self ..

theorem run_append (events : List (Event K)) (e : Event K) :
    c.run hash (events ++ [e]) = (c.run hash events).bind fun c => c.step hash e := by
  unfold run
  rw [List.foldlM_append]
  refine congrArg _ (funext fun c => ?_)
  exact bind_pure _

section

variable [DecidableEq K]

def Sound (hash : K → UInt64) (capacity : Nat) (c : ClockCache K) : Prop :=
  ∀ shardId, (c.shards shardId).Sound hash capacity c.allocated

theorem Sound.withShard (h : c.Sound hash capacity) {shardId : UInt64} {r : TrackedShard K}
    {allocated : Nat} (hle : c.allocated ≤ allocated) (hr : r.Sound hash capacity allocated) :
    Sound hash capacity { c.withShard shardId r with allocated } := by
  intro i
  show (Function.update c.shards shardId r i).Sound hash capacity allocated
  by_cases hi : i = shardId
  · rw [hi, Function.update_self]
    exact hr
  · rw [Function.update_of_ne hi]
    exact (h i).mono hle

/-- No event gets stuck. -/
theorem sound_step (h : c.Sound hash capacity) (e : Event K) :
    ∃ c', c.step hash e = some c' ∧ (c'.Few → c'.Sound hash capacity) := by
  cases e with
  | insert key outHandle =>
    obtain ⟨r, hr, hsound⟩ := (h (c.getShard (hash key))).insert key outHandle
    unfold step insert
    simp only [hr, Option.bind_eq_bind, Option.bind_some]
    exact ⟨_, rfl, fun _ => h.withShard (Nat.le_succ _) hsound⟩
  | lookup key =>
    obtain ⟨found, r, hr, hsound⟩ := (h (c.getShard (hash key))).lookup key
    unfold step lookup
    simp only [hr, Option.bind_eq_bind, Option.bind_some]
    refine ⟨_, rfl, fun hfew => h.withShard le_rfl (hsound fun i => ?_)⟩
    have hshard : ((c.withShard _ r).shards (c.getShard (hash key))).references i < 2 ^ 30 :=
      hfew _ i
    rw [withShard_self] at hshard
    exact hshard
  | release shardId n =>
    obtain ⟨r, hr, hsound⟩ := (h shardId).release n
    unfold step
    simp only [hr, Option.map_some]
    exact ⟨_, rfl, fun _ => h.withShard le_rfl hsound⟩

theorem sound_run (h : c.Sound hash capacity) (events : List (Event K))
    (hfew : ∀ before c', before <+: events → c.run hash before = some c' → c'.Few) :
    ∃ c', c.run hash events = some c' ∧ c'.Sound hash capacity := by
  induction events using List.reverseRecOn with
  | nil => exact ⟨c, rfl, h⟩
  | append_singleton events e ih =>
    obtain ⟨c₁, hrun, hsound⟩ := ih fun before c' hbefore =>
      hfew before c' (hbefore.trans (List.prefix_append _ _))
    obtain ⟨c₂, hstep, hnext⟩ := sound_step hsound e
    have hrun₂ : c.run hash (events ++ [e]) = some c₂ := by
      rw [run_append, hrun]
      exact hstep
    exact ⟨c₂, hrun₂, hnext (hfew _ c₂ (List.prefix_refl _) hrun₂)⟩

end

theorem length_insert {r r' : TrackedShard K} {key : K} {value : Nat} {outHandle : Bool}
    (h : r.insert hash key value outHandle = some r') :
    r'.handles.length ≤ r.handles.length + 1 := by
  obtain ⟨⟨item, shard⟩, -, hr⟩ := Option.bind_eq_some_iff.mp h
  cases item with
  | none =>
    obtain rfl := Option.some.inj hr
    exact Nat.le_succ _
  | some item =>
    obtain rfl := Option.some.inj hr
    cases outHandle with
    | true => exact (List.length_append ..).le
    | false => exact Nat.le_succ _

theorem length_lookup {r r' : TrackedShard K} {key : K} {found : Option Nat}
    (h : r.lookup hash key = some (found, r')) : r'.handles.length ≤ r.handles.length + 1 := by
  obtain ⟨⟨item, shard⟩, -, hr⟩ := Option.bind_eq_some_iff.mp h
  cases item with
  | none =>
    obtain ⟨-, rfl⟩ := Prod.mk.inj (Option.some.inj hr)
    exact Nat.le_succ _
  | some item =>
    obtain ⟨item', -, hr⟩ := Option.bind_eq_some_iff.mp hr
    obtain ⟨-, rfl⟩ := Prod.mk.inj (Option.some.inj hr)
    exact (List.length_append ..).le

theorem length_release {r r' : TrackedShard K} {n : Nat} (h : r.release n = some r') :
    r'.handles.length ≤ r.handles.length + 1 := by
  unfold TrackedShard.release at h
  split at h
  next => exact Option.some.inj h ▸ Nat.le_succ _
  next =>
    obtain ⟨item, -, hr⟩ := Option.bind_eq_some_iff.mp h
    obtain rfl := Option.some.inj hr
    exact (List.length_eraseIdx_le ..).trans (Nat.le_succ _)

theorem length_step {c' : ClockCache K} {e : Event K} (h : c.step hash e = some c')
    (shardId : UInt64) :
    (c'.shards shardId).handles.length ≤ (c.shards shardId).handles.length + 1 := by
  have hupdate {i : UInt64} {r : TrackedShard K}
      (hr : r.handles.length ≤ (c.shards i).handles.length + 1) :
      (Function.update c.shards i r shardId).handles.length ≤
        (c.shards shardId).handles.length + 1 := by
    by_cases hi : shardId = i
    · subst i
      rw [Function.update_self]
      exact hr
    · rw [Function.update_of_ne hi]
      exact Nat.le_succ _
  cases e with
  | insert key outHandle =>
    obtain ⟨r, hr, hc⟩ := Option.bind_eq_some_iff.mp h
    obtain rfl := Option.some.inj hc
    exact hupdate (length_insert hr)
  | lookup key =>
    obtain ⟨⟨found, c''⟩, hlookup, rfl⟩ := Option.map_eq_some_iff.mp h
    obtain ⟨⟨found, r⟩, hr, hc⟩ := Option.bind_eq_some_iff.mp hlookup
    obtain ⟨-, rfl⟩ := Prod.mk.inj (Option.some.inj hc)
    exact hupdate (length_lookup hr)
  | release i n =>
    obtain ⟨r, hr, rfl⟩ := Option.map_eq_some_iff.mp h
    exact hupdate (length_release hr)

/-- A short run has few handles. -/
theorem few_of_length {capacity_pos : 0 < capacity} {shardMask : UInt64} {events : List (Event K)}
    (hshort : events.length < 2 ^ 30)
    (h : (init capacity capacity_pos shardMask).run hash events = some c) : c.Few := by
  have hlength (shardId : UInt64) : (c.shards shardId).handles.length ≤ events.length := by
    induction events using List.reverseRecOn generalizing c with
    | nil =>
      obtain rfl := Option.some.inj h
      exact le_rfl
    | append_singleton events e ih =>
      rw [run_append] at h
      obtain ⟨c₁, hrun, hstep⟩ := Option.bind_eq_some_iff.mp h
      rw [List.length_append] at hshort ⊢
      have hbefore := ih (by omega) hrun
      have hafter := length_step hstep shardId
      rw [List.length_singleton]
      omega
  intro shardId item
  exact (List.countP_le_length.trans (hlength shardId)).trans_lt hshort

/-- Where the hashes are apart and no item ever has more handles than the bits of its flags can
count, every run keeps what the cache promises. -/
theorem shard_run_correct [DecidableEq K] (hash : K → UInt64) (hinj : Function.Injective hash)
    (capacity : Nat) (capacity_pos : 0 < capacity) (shardMask : UInt64) (events : List (Event K))
    (hfew : ∀ before c, before <+: events →
      (init capacity capacity_pos shardMask).run hash before = some c → c.Few) :
    ∃ c, (init capacity capacity_pos shardMask).run hash events = some c ∧
      ∀ shardId, (c.shards shardId).Correct hash capacity := by
  have hinit : (init capacity capacity_pos shardMask : ClockCache K).Sound hash capacity :=
    fun shardId => TrackedShard.sound_empty capacity_pos
  obtain ⟨c, hrun, hsound⟩ := sound_run hinit events hfew
  exact ⟨c, hrun, fun shardId => (hsound shardId).correct hinj⟩

theorem shard_run_correct_short : ∃ c,
    (init 1 Nat.one_pos 15).run id [.insert (16 : UInt64) true, .lookup 16, .release 0 0] = some c ∧
      ∀ shardId, (c.shards shardId).Correct id 1 :=
  shard_run_correct id Function.injective_id 1 Nat.one_pos 15 _ fun _ _ hbefore hrun =>
    few_of_length (hbefore.length_le.trans_lt (by decide)) hrun

/-- The only item of a shard, which has some handles. -/
def heldShard (handles : Nat) : TrackedShard UInt64 where
  shard := {
    list := [⟨0, 0, UInt32.ofNat (1 + 4 * handles)⟩]
    head := 0
    recycle := []
    capacity := 1
    capacity_pos := Nat.one_pos
    usage := 1
    table := Function.update (fun _ => none) 0 (some 0)
    deleted := [] }
  handles := List.replicate handles ⟨0, 0⟩
  accepted := [(0, 0)]

theorem heldShard_lookup (n : Nat) :
    (heldShard n).lookup id 0 = some (some 0, heldShard (n + 1)) := by
  have hin : inCache (UInt32.ofNat (1 + 4 * n)) = true := by
    rw [inCache_eq, Nat.testBit_zero, UInt32.toNat_ofNat', decide_eq_true_iff]
    omega
  have hflags : UInt32.ofNat (1 + 4 * n) + oneRef = UInt32.ofNat (1 + 4 * (n + 1)) := by
    rw [← UInt32.toNat_inj, UInt32.toNat_add, UInt32.toNat_ofNat', UInt32.toNat_ofNat']
    show ((1 + 4 * n) % 2 ^ 32 + 4) % 2 ^ 32 = _
    omega
  have hlist : (heldShard n).shard.list[0]? = some ⟨0, 0, UInt32.ofNat (1 + 4 * n)⟩ := rfl
  have hfound : (heldShard n).shard.lookup 0 = some (some 0, (heldShard (n + 1)).shard) := by
    unfold CacheShard.lookup
    rw [show (heldShard n).shard.table (0 : UInt64).toUInt32 = some 0 from rfl]
    simp only [hlist, Option.bind_eq_bind, Option.bind_some, hin, if_true, hflags]
    rfl
  unfold TrackedShard.lookup
  rw [show id (0 : UInt64) = 0 from rfl, hfound]
  show some (some 0, _) = some (some 0, _)
  congr 2
  unfold heldShard
  rw [List.replicate_succ']

theorem run_lookups (n : Nat) {m : Nat} {c : ClockCache UInt64} (hheld : c.shards 0 = heldShard m)
    (hmask : c.shardMask = 15) : ∃ c', c.run id (List.replicate n (.lookup 0)) = some c' ∧
      c'.shards 0 = heldShard (m + n) ∧ c'.shardMask = 15 := by
  induction n generalizing m c with
  | zero => exact ⟨c, rfl, hheld, hmask⟩
  | succ n ih =>
    have hshard : c.getShard (id 0) = 0 := by
      unfold getShard
      rw [hmask]
      rfl
    have hstep : c.step id (.lookup 0) = some (c.withShard 0 (heldShard (m + 1))) := by
      unfold step lookup
      simp only [hshard, hheld, heldShard_lookup, Option.bind_eq_bind, Option.bind_some,
        Option.map_some]
    obtain ⟨c', hrun, hheld', hmask'⟩ := ih (c := c.withShard 0 (heldShard (m + 1)))
      (withShard_self 0 _) hmask
    refine ⟨c', ?_, ?_, hmask'⟩
    · rw [List.replicate_succ, run, List.foldlM_cons, hstep]
      exact hrun
    · rw [hheld', Nat.add_right_comm, Nat.add_assoc]

/-- After as many references as there are bits for, an item looks as if it had none. -/
theorem heldShard_insert (value : Nat) : ∃ r,
    (heldShard (2 ^ 30)).insert id 16 value false = some r ∧
    r.handles = List.replicate (2 ^ 30) ⟨0, 0⟩ ∧ r.shard.deleted = [0] := by
  have hflags : UInt32.ofNat (1 + 4 * 2 ^ 30) = 1 := by decide
  unfold heldShard
  rw [hflags]
  generalize List.replicate (2 ^ 30) (⟨0, 0⟩ : CacheHandle) = handles
  exact ⟨_, rfl, rfl, rfl⟩

theorem step_insert {c : ClockCache UInt64} {r : TrackedShard UInt64} (key : UInt64)
    (outHandle : Bool) (hshard : key &&& 15 = 0) (hmask : c.shardMask = 15)
    (h : (c.shards 0).insert id key c.allocated outHandle = some r) :
    ∃ c', c.step id (.insert key outHandle) = some c' ∧ c'.shards 0 = r ∧ c'.shardMask = 15 := by
  have hget : c.getShard (id key) = 0 := by
    unfold getShard
    rw [hmask]
    exact hshard
  unfold step insert
  simp only [hget, h, Option.bind_eq_bind, Option.bind_some]
  exact ⟨_, rfl, withShard_self (c := c) 0 r, hmask⟩

/-- The handles are to a value that has been deleted. -/
theorem run_not_correct : ¬∀ (hash : UInt64 → UInt64), Function.Injective hash →
    ∀ (capacity : Nat) (capacity_pos : 0 < capacity) (shardMask : UInt64)
      (events : List (Event UInt64)),
      ∃ c, (init capacity capacity_pos shardMask).run hash events = some c ∧
        ∀ shardId, (c.shards shardId).Correct hash capacity := by
  intro h
  obtain ⟨c, hrun, hcorrect⟩ := h id Function.injective_id 1 Nat.one_pos 15
    (.insert 0 true :: (List.replicate (2 ^ 30 - 1) (.lookup 0) ++ [.insert 16 false]))
  obtain ⟨c₁, hfirst, hheld, hmask⟩ :=
    step_insert (c := init 1 Nat.one_pos 15) (r := heldShard 1) 0 true rfl rfl rfl
  obtain ⟨c₂, hlookups, hheld, hmask⟩ := run_lookups (2 ^ 30 - 1) hheld hmask
  obtain ⟨r, hinsert, hhandles, hdeleted⟩ := heldShard_insert c₂.allocated
  rw [← Nat.add_sub_assoc (by decide), Nat.add_sub_cancel_left] at hheld
  rw [← hheld] at hinsert
  obtain ⟨c₃, hlast, hr, -⟩ := step_insert 16 false rfl hmask hinsert
  have hall : (init 1 Nat.one_pos 15).run id
      (.insert 0 true :: (List.replicate (2 ^ 30 - 1) (.lookup 0) ++ [.insert 16 false])) =
        some c₃ := by
    rw [run, List.foldlM_cons, hfirst]
    show c₁.run id _ = some c₃
    rw [run_append, hlookups]
    exact hlast
  obtain rfl := Option.some.inj (hall.symm.trans hrun)
  have hheld := (hcorrect 0).held
  rw [hr] at hheld
  have hmem : (⟨0, 0⟩ : CacheHandle) ∈ r.handles := by
    rw [hhandles]
    exact List.mem_replicate.mpr ⟨by decide, rfl⟩
  refine (hheld _ hmem).1 ?_
  rw [hdeleted]
  exact List.mem_singleton.mpr rfl

end ClockCache

end BcosExecutor
