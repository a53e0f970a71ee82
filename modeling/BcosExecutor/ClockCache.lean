import Mathlib.Data.List.Basic
import Mathlib.Data.Nat.Bitwise
import Mathlib.Logic.Function.Basic

namespace BcosExecutor

namespace ClockCache

/-- The lowest bit of the flags says that the item is in the cache, the second that it has been
used, and the rest of them counts its references. -/
structure CacheItem (V : Type) where
  hash : UInt64
  value : V
  flags : UInt32

def inCacheBit : UInt32 := 1

def usageBit : UInt32 := 2

def refCountOffset : UInt32 := 2

def oneRef : UInt32 := 1 <<< refCountOffset

def inCache (flags : UInt32) : Bool := flags &&& inCacheBit ≠ 0

def hasUsage (flags : UInt32) : Bool := flags &&& usageBit ≠ 0

def refCounts (flags : UInt32) : UInt32 := flags >>> refCountOffset

/-- An item is known by its place in the list, which never shrinks. The values that were given to
the deleter are kept in their order. -/
structure CacheShard (V : Type) where
  list : List (CacheItem V)
  head : Nat
  recycle : List Nat
  capacity : Nat
  capacity_pos : 0 < capacity
  usage : Nat
  table : UInt32 → Option Nat
  deleted : List V

namespace CacheShard

variable {V : Type}

def empty (capacity : Nat) (capacity_pos : 0 < capacity) : CacheShard V where
  list := []
  head := 0
  recycle := []
  capacity := capacity
  capacity_pos := capacity_pos
  usage := 0
  table _ := none
  deleted := []

def setFlags (s : CacheShard V) (i : Nat) (flags : UInt32) : CacheShard V :=
  { s with list := s.list.modify i fun item => { item with flags } }

def recycleItem (s : CacheShard V) (i : Nat) (item : CacheItem V) : CacheShard V :=
  { s with
    deleted := s.deleted ++ [item.value]
    recycle := s.recycle ++ [i]
    usage := s.usage - 1 }

def tryEvict (s : CacheShard V) (i : Nat) (item : CacheItem V) : Bool × CacheShard V :=
  if item.flags = inCacheBit then
    let s := s.setFlags i 0
    let s := { s with table := Function.update s.table item.hash.toUInt32 none }
    (true, s.recycleItem i item)
  else
    (false, s.setFlags i (item.flags &&& ~~~usageBit))

/-- The loop of `evictFromCache`. What it has examined, each time with whether the item was
evicted, is kept for the proofs. -/
structure Scan (V : Type) where
  shard : CacheShard V
  newHead : Nat
  is2ndIteration : Bool
  examined : List (Nat × Bool)

/-- Examines the item under the cursor and goes on to the next one. -/
def Scan.examine (x : Scan V) (item : CacheItem V) : Bool × Scan V :=
  let (evicted, shard) := x.shard.tryEvict x.newHead item
  (evicted, { x with
    shard
    newHead := if shard.list.length ≤ x.newHead + 1 then 0 else x.newHead + 1
    examined := x.examined ++ [(x.newHead, evicted)] })

/-- Nothing comes back when the fuel is used up, or when an item outside of the list is examined. -/
def evictLoop : Nat → Scan V → Option (Bool × Scan V)
  | 0, _ => none
  | fuel + 1, x =>
    if x.shard.capacity ≤ x.shard.usage then
      match x.shard.list[x.newHead]? with
      | none => none
      | some item =>
        let (evicted, x) := x.examine item
        if evicted then evictLoop fuel x
        else if x.newHead = x.shard.head then
          if x.is2ndIteration then some (false, x)
          else evictLoop fuel { x with is2ndIteration := true }
        else evictLoop fuel x
    else
      some (true, { x with shard := { x.shard with head := x.newHead } })

def startScan (s : CacheShard V) : Scan V :=
  ⟨s, s.head, false, []⟩

/-- With the fuel for its loop. -/
def evictWith (fuel : Nat) (s : CacheShard V) : Option (Bool × Scan V) :=
  if s.usage = 0 then some (true, s.startScan) else evictLoop fuel s.startScan

/-- Three rounds are enough. -/
def scanFuel (s : CacheShard V) : Nat :=
  3 * s.list.length + 1

def evictFromCache (s : CacheShard V) : Option (Bool × CacheShard V) :=
  (evictWith s.scanFuel s).map fun (success, x) => (success, x.shard)

def unsetInCache (s : CacheShard V) (i : Nat) (item : CacheItem V) : CacheShard V :=
  let s := s.setFlags i (item.flags &&& ~~~inCacheBit)
  if inCache item.flags && refCounts item.flags = 0 then s.recycleItem i item else s

/-- A slot that is free takes the item, or else a new one. -/
def placeItem (s : CacheShard V) (item : CacheItem V) : CacheShard V × Nat :=
  match s.recycle.getLast? with
  | some i => ({ s with recycle := s.recycle.dropLast, list := s.list.set i item }, i)
  | none => ({ s with list := s.list ++ [item] }, s.list.length)

/-- The slot of the item, which stands in for one that has its place in the table. -/
def accept (s : CacheShard V) (item : CacheItem V) : Option (Nat × CacheShard V) := do
  let key := item.hash.toUInt32
  let (s, i) := s.placeItem item
  let s ← match s.table key with
    | some j =>
      let s := { s with table := Function.update s.table key none }
      (s.list[j]?).map (s.unsetInCache j)
    | none => some s
  some (i, { s with table := Function.update s.table key (some i), usage := s.usage + 1 })

/-- No slot where there is no room. -/
def insert (s : CacheShard V) (hash : UInt64) (value : V) (holdReference : Bool) :
    Option (Option Nat × CacheShard V) := do
  let (success, s) ← s.evictFromCache
  if success then
    let flags := if holdReference then inCacheBit + oneRef else inCacheBit
    let (i, s) ← s.accept ⟨hash, value, flags⟩
    some (some i, s)
  else
    some (none, s)

/-- Whether a value was erased. -/
def unref (s : CacheShard V) (i : Nat) (item : CacheItem V) (setUsage : Bool) :
    Bool × CacheShard V :=
  let flags := if setUsage then item.flags ||| usageBit else item.flags
  let s := s.setFlags i (flags - oneRef)
  if refCounts flags = 1 && !inCache flags then (true, s.recycleItem i item) else (false, s)

/-- An item that stands for another key with the same lower half of its hash is let go again. -/
def lookup (s : CacheShard V) (hash : UInt64) : Option (Option Nat × CacheShard V) :=
  match s.table hash.toUInt32 with
  | none => some (none, s)
  | some i => do
    let item ← s.list[i]?
    if inCache item.flags then
      let flags := item.flags + oneRef
      let s := s.setFlags i flags
      if item.hash = hash then some (some i, s)
      else some (none, (s.unref i { item with flags } false).2)
    else
      some (none, s)

/-- Everything that is still in use is deleted with the shard. -/
def destroy (s : CacheShard V) : List V :=
  s.deleted ++ (s.list.filter fun item => inCache item.flags || 0 < refCounts item.flags).map
    CacheItem.value

end CacheShard

section

variable (flags : UInt32)

theorem inCache_eq : inCache flags = flags.toNat.testBit 0 := by
  unfold inCache inCacheBit
  rw [Bool.eq_iff_iff, decide_eq_true_iff, ne_eq, ← UInt32.toNat_inj, UInt32.toNat_and]
  show ¬flags.toNat &&& 2 ^ 0 = 0 ↔ _
  rw [Nat.and_two_pow]
  cases flags.toNat.testBit 0 <;> decide

theorem hasUsage_eq : hasUsage flags = flags.toNat.testBit 1 := by
  unfold hasUsage usageBit
  rw [Bool.eq_iff_iff, decide_eq_true_iff, ne_eq, ← UInt32.toNat_inj, UInt32.toNat_and]
  show ¬flags.toNat &&& 2 ^ 1 = 0 ↔ _
  rw [Nat.and_two_pow]
  cases flags.toNat.testBit 1 <;> decide

theorem refCounts_toNat : (refCounts flags).toNat = flags.toNat / 4 := by
  unfold refCounts refCountOffset
  rw [UInt32.toNat_shiftRight, Nat.shiftRight_eq_div_pow]
  rfl

theorem refCounts_eq_iff {flags flags' : UInt32} :
    refCounts flags = refCounts flags' ↔ flags.toNat / 4 = flags'.toNat / 4 := by
  rw [← UInt32.toNat_inj, refCounts_toNat, refCounts_toNat]

/-- In the cache, not used and not referred to. -/
theorem eq_inCacheBit_iff :
    flags = inCacheBit ↔ inCache flags = true ∧ hasUsage flags = false ∧ refCounts flags = 0 := by
  rw [inCache_eq, hasUsage_eq, Nat.testBit_zero, Nat.testBit_succ, Nat.testBit_zero,
    decide_eq_true_iff, decide_eq_false_iff_not, ← UInt32.toNat_inj, ← UInt32.toNat_inj,
    refCounts_toNat]
  show flags.toNat = 1 ↔ _ ∧ _ ∧ flags.toNat / 4 = 0
  omega

@[simp] theorem inCache_clearUsage : inCache (flags &&& ~~~usageBit) = inCache flags := by
  rw [inCache_eq, inCache_eq, UInt32.toNat_and, Nat.testBit_and,
    show (~~~usageBit).toNat.testBit 0 = true from by decide, Bool.and_true]

@[simp] theorem hasUsage_clearUsage : hasUsage (flags &&& ~~~usageBit) = false := by
  rw [hasUsage_eq, UInt32.toNat_and, Nat.testBit_and,
    show (~~~usageBit).toNat.testBit 1 = false from by decide, Bool.and_false]

theorem refCounts_and {mask : UInt32} (h : mask.toNat / 4 = 2 ^ 30 - 1) :
    refCounts (flags &&& mask) = refCounts flags := by
  have hlt : flags.toNat < 2 ^ 32 := flags.toNat_lt
  rw [refCounts_eq_iff, UInt32.toNat_and]
  show (flags.toNat &&& mask.toNat) / 2 ^ 2 = flags.toNat / 2 ^ 2
  rw [← Nat.shiftRight_eq_div_pow, Nat.shiftRight_and_distrib, Nat.shiftRight_eq_div_pow,
    Nat.shiftRight_eq_div_pow, show mask.toNat / 2 ^ 2 = 2 ^ 30 - 1 from h]
  exact Nat.and_two_pow_sub_one_of_lt_two_pow (by omega)

@[simp] theorem refCounts_clearUsage : refCounts (flags &&& ~~~usageBit) = refCounts flags :=
  refCounts_and flags (by decide)

@[simp] theorem inCache_setUsage : inCache (flags ||| usageBit) = inCache flags := by
  rw [inCache_eq, inCache_eq, UInt32.toNat_or, Nat.testBit_or,
    show usageBit.toNat.testBit 0 = false from by decide, Bool.or_false]

@[simp] theorem refCounts_setUsage : refCounts (flags ||| usageBit) = refCounts flags := by
  rw [refCounts_eq_iff, UInt32.toNat_or]
  show (flags.toNat ||| 2) / 2 ^ 2 = flags.toNat / 2 ^ 2
  rw [← Nat.shiftRight_eq_div_pow, Nat.shiftRight_or_distrib, Nat.shiftRight_eq_div_pow]
  exact Nat.or_zero _

@[simp] theorem inCache_unset : inCache (flags &&& ~~~inCacheBit) = false := by
  rw [inCache_eq, UInt32.toNat_and, Nat.testBit_and,
    show (~~~inCacheBit).toNat.testBit 0 = false from by decide, Bool.and_false]

@[simp] theorem refCounts_unset : refCounts (flags &&& ~~~inCacheBit) = refCounts flags :=
  refCounts_and flags (by decide)

@[simp] theorem inCache_addRef : inCache (flags + oneRef) = inCache flags := by
  rw [inCache_eq, inCache_eq, UInt32.toNat_add, Nat.testBit_zero, Nat.testBit_zero]
  show decide ((flags.toNat + 4) % 2 ^ 32 % 2 = 1) = _
  congr 2
  omega

@[simp] theorem inCache_subRef : inCache (flags - oneRef) = inCache flags := by
  rw [inCache_eq, inCache_eq, UInt32.toNat_sub, Nat.testBit_zero, Nat.testBit_zero]
  show decide ((2 ^ 32 - 4 + flags.toNat) % 2 ^ 32 % 2 = 1) = _
  congr 2
  omega

/-- There is room for thirty bits of references. -/
theorem refCounts_addRef :
    (refCounts (flags + oneRef)).toNat = ((refCounts flags).toNat + 1) % 2 ^ 30 := by
  rw [refCounts_toNat, refCounts_toNat, UInt32.toNat_add]
  show (flags.toNat + 4) % 2 ^ 32 / 4 = _
  omega

theorem refCounts_subRef (h : 0 < (refCounts flags).toNat) :
    (refCounts (flags - oneRef)).toNat = (refCounts flags).toNat - 1 := by
  rw [refCounts_toNat] at h
  rw [refCounts_toNat, refCounts_toNat, UInt32.toNat_sub]
  show (2 ^ 32 - 4 + flags.toNat) % 2 ^ 32 / 4 = _
  have hlt : flags.toNat < 2 ^ 32 := flags.toNat_lt
  omega

@[simp] theorem addRef_subRef : flags + oneRef - oneRef = flags :=
  UInt32.add_sub_cancel flags oneRef

end

end ClockCache

end BcosExecutor
