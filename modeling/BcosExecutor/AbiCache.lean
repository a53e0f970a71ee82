import BcosExecutor.CurrentReads
import BcosExecutor.Runs
import BcosExecutor.WasmAnalysis

namespace BcosExecutor

open Runs (Always)

/-- What the ABIs of a run are loaded with, and the hash of the keys of the cache. -/
structure AbiLoader extends KeyContext, AbiReader where
  hashOf : Bytes → UInt64

/-- The table of a shard is indexed by the low half of the hash, the item has all of it. -/
structure CacheItem where
  hash : UInt64
  value : FunctionAbi

structure AbiCaching (be : TransactionalStorage) where
  executor : TransactionExecutor be
  abiCache : UInt32 → Option CacheItem

/-- The cache gives up an item at any time; a transaction that is analysed finds room in it for
what it has loaded, or does not. -/
inductive CacheEvent
  | action (action : TransactionExecutor.Action)
  | use (params : CallParameters) (room : Bool)
  | evict (hash : UInt32)

namespace AbiLoader

variable {be : TransactionalStorage} (l : AbiLoader)

/-- The reader of a batch in the block that is being executed. -/
def reader (c : TransactionExecutor be) : WasmReader where
  toKeyContext := l.toKeyContext
  toAbiReader := l.toAbiReader
  getRow row := .ok (c.currentRow row)

def abiKey (params : CallParameters) : Bytes :=
  ascii params.receiveAddress ++ WasmReader.selector params

def abiRow (params : CallParameters) : StateRow :=
  ⟨WasmReader.abiTable params, ACCOUNT_ABI⟩

/-- The ABI that is stored now for the contract gives that function. -/
def Stored (c : TransactionExecutor be) (params : CallParameters) (functionAbi : FunctionAbi) :
    Prop :=
  ∃ abiStr, c.currentRow (abiRow params) = some abiStr ∧
    FunctionAbi.deserialize l.toAbiReader abiStr (WasmReader.selector params) =
      .ok (some functionAbi)

/-- Different keys of the calls have different hashes, and the addresses are strings of bytes. -/
structure Apart (calls : List CallParameters) : Prop where
  bytes : ∀ p ∈ calls, ∀ c ∈ p.receiveAddress.toList, c.toNat < 256
  apart : ∀ p ∈ calls, ∀ q ∈ calls, l.hashOf (abiKey p) = l.hashOf (abiKey q) →
    abiKey p = abiKey q

end AbiLoader

namespace AbiCaching

variable {be : TransactionalStorage} (l : AbiLoader)

def init (cached : Bool) (s : be.State) : AbiCaching be :=
  ⟨.init cached s, fun _ => none⟩

def lookup (x : AbiCaching be) (key : Bytes) : Option FunctionAbi :=
  (x.abiCache (l.hashOf key).toUInt32).bind fun item =>
    if item.hash = l.hashOf key then some item.value else none

/-- An item with the same low half of the hash has to go. -/
def insert (x : AbiCaching be) (key : Bytes) (value : FunctionAbi) : AbiCaching be :=
  { x with abiCache :=
      Function.update x.abiCache (l.hashOf key).toUInt32 (some ⟨l.hashOf key, value⟩) }

def loaded (x : AbiCaching be) (params : CallParameters) : Option FunctionAbi :=
  match (l.reader x.executor).loadAbi params with
  | .ok found => found
  | .error _ => none

/-- The ABI that a transaction is analysed with. -/
def used (x : AbiCaching be) (params : CallParameters) : Option FunctionAbi :=
  if params.create then none
  else (x.lookup l (AbiLoader.abiKey params)).or (x.loaded l params)

def use (x : AbiCaching be) (params : CallParameters) (room : Bool) : AbiCaching be :=
  match params.create, x.lookup l (AbiLoader.abiKey params), x.loaded l params, room with
  | false, none, some functionAbi, true => x.insert l (AbiLoader.abiKey params) functionAbi
  | _, _, _, _ => x

def evict (x : AbiCaching be) (hash : UInt32) : AbiCaching be :=
  { x with abiCache := Function.update x.abiCache hash none }

def step (x : AbiCaching be) : CacheEvent → AbiCaching be
  | .action action => { x with executor := (x.executor.step action).2 }
  | .use params room => x.use l params room
  | .evict hash => x.evict hash

/-- The calls of a run that have a selector. -/
def calls (events : List CacheEvent) : List CallParameters :=
  events.filterMap fun event =>
    match event with
    | .use params _ =>
      if params.create = false ∧ 4 ≤ params.data.length then some params else none
    | _ => none

/-- What a transaction is analysed with is what the stored ABI gives. -/
def Coherent (x : AbiCaching be) (params : CallParameters) : Prop :=
  ∀ functionAbi, x.used l params = some functionAbi →
    l.Stored x.executor params functionAbi

def AtUses (P : AbiCaching be → CallParameters → Prop) (x : AbiCaching be) : CacheEvent → Prop
  | .use params _ => P x params
  | _ => True

/-- Without a selector nothing is found; commits are of prepared blocks; and the block keeps the
ABI of every contract for which the cache has something. -/
def Kept (known : List CallParameters) (x : AbiCaching be) : CacheEvent → Prop
  | .use params _ => params.create = false → params.data.length < 4 →
      x.lookup l (AbiLoader.abiKey params) = none
  | .action action =>
    ((∃ number, action = .commit number) → (x.executor.step action).1 = none →
      x.executor.Prepared) ∧
    ∀ p ∈ known, x.lookup l (AbiLoader.abiKey p) ≠ none →
      x.executor.KeepsRow (AbiLoader.abiRow p) action
  | .evict _ => True

variable {l : AbiLoader} {x : AbiCaching be} {known : List CallParameters}

theorem ascii_injective {s t : String} (hs : ∀ c ∈ s.toList, c.toNat < 256)
    (ht : ∀ c ∈ t.toList, c.toNat < 256) (h : ascii s = ascii t) : s = t := by
  have hchar {c d : Char} (hc : c.toNat < 256) (hd : d.toNat < 256)
      (hcd : c.toNat.toUInt8 = d.toNat.toUInt8) : c = d := by
    have hmod : c.toNat % 256 = d.toNat % 256 := congrArg UInt8.toNat hcd
    rw [Nat.mod_eq_of_lt hc, Nat.mod_eq_of_lt hd] at hmod
    exact Char.toNat_inj.mp hmod
  refine String.toList_injective ?_
  unfold ascii at h
  generalize s.toList = l₁ at hs h
  generalize t.toList = l₂ at ht h
  induction l₁ generalizing l₂ with
  | nil => exact (List.map_eq_nil_iff.mp h.symm).symm
  | cons c l₁ ih =>
    cases l₂ with
    | nil => cases h
    | cons d l₂ =>
      obtain ⟨hcd, hrest⟩ := List.cons.inj h
      obtain ⟨hc, hs⟩ := List.forall_mem_cons.mp hs
      obtain ⟨hd, ht⟩ := List.forall_mem_cons.mp ht
      rw [hchar hc hd hcd, ih hs l₂ ht hrest]

/-- The contract and the selector can be told from the key, since a selector has four bytes. -/
theorem eq_of_abiKey_eq {p q : CallParameters} (hp : 4 ≤ p.data.length) (hq : 4 ≤ q.data.length)
    (h : AbiLoader.abiKey p = AbiLoader.abiKey q) :
    ascii p.receiveAddress = ascii q.receiveAddress ∧
      WasmReader.selector p = WasmReader.selector q := by
  refine List.append_inj' h ?_
  unfold WasmReader.selector
  rw [length_getCroppedData, length_getCroppedData, if_pos hp, if_pos hq]

/-- The wiring of the storages, and that every item has been loaded for a call of the run from
what is still stored. -/
structure Sound (l : AbiLoader) (known : List CallParameters) (x : AbiCaching be) : Prop where
  chained : x.executor.Chained
  ordered : x.executor.Ordered
  faithful : x.executor.Faithful
  current : x.executor.Current
  context : x.executor.ContextKnown
  held : ∀ hash item, x.abiCache hash = some item → ∃ p ∈ known,
    hash = item.hash.toUInt32 ∧ item.hash = l.hashOf (AbiLoader.abiKey p) ∧
      l.Stored x.executor p item.value

theorem sound_init (cached : Bool) (s : be.State) : Sound l known (init cached s) :=
  ⟨(TransactionExecutor.wired_init cached s).1, (TransactionExecutor.wired_init cached s).2,
    TransactionExecutor.faithful_init cached s, nofun, nofun, nofun⟩

theorem stored_of_loaded {params : CallParameters} {functionAbi : FunctionAbi}
    (h : x.loaded l params = some functionAbi) :
    l.Stored x.executor params functionAbi ∧ 4 ≤ params.data.length := by
  unfold loaded at h
  split at h
  next found hfound =>
    subst h
    obtain ⟨_, abiStr, habi, hread⟩ := WasmReader.loadAbi_iff.mp hfound
    have hselector := (FunctionAbi.deserialize_eq_ok.mp ⟨_, hread⟩).selector
    exact ⟨⟨abiStr, Except.ok.inj habi, hread⟩, WasmReader.le_length_of_selector hselector⟩
  next => cases h

theorem stored_step {p : CallParameters} {functionAbi : FunctionAbi} (hbe : be.Lawful)
    (hx : Sound l known x) (h : l.Stored x.executor p functionAbi)
    {action : TransactionExecutor.Action}
    (hprepared : (∃ number, action = .commit number) → (x.executor.step action).1 = none →
      x.executor.Prepared)
    (hkeep : x.executor.KeepsRow (AbiLoader.abiRow p) action) :
    l.Stored (x.executor.step action).2 p functionAbi := by
  obtain ⟨abiStr, hrow, hread⟩ := h
  have hblock : x.executor.blockContext ≠ none := by
    intro hnone
    unfold TransactionExecutor.currentRow at hrow
    rw [hnone] at hrow
    cases hrow
  refine ⟨abiStr, ?_, hread⟩
  rw [TransactionExecutor.currentRow_step hbe hx.chained hx.ordered hx.faithful hx.current
    hx.context hblock hprepared hkeep]
  exact hrow

/-- The analysis of a transaction takes the ABI that is used, from wherever it comes. -/
theorem analyseTx_of_used {params : CallParameters} {functionAbi : FunctionAbi}
    (h : x.used l params = some functionAbi) :
    (l.reader x.executor).analyseTx (x.lookup l (AbiLoader.abiKey params)) params =
      (l.reader x.executor).analyseWith functionAbi params := by
  unfold used at h
  unfold WasmReader.analyseTx
  split at h
  next => cases h
  next hcreate =>
    rw [if_neg hcreate]
    cases hlookup : x.lookup l (AbiLoader.abiKey params) with
    | some found =>
      rw [hlookup, Option.some_or] at h
      cases h
      rfl
    | none =>
      rw [hlookup, Option.none_or] at h
      unfold loaded at h
      split at h
      next found hfound =>
        subst h
        simp only [hfound]
        rfl
      next => cases h

theorem lookup_of_held {hash : UInt32} {item : CacheItem} {key : Bytes}
    (h : x.abiCache hash = some item) (hhash : hash = item.hash.toUInt32)
    (hkey : item.hash = l.hashOf key) : x.lookup l key = some item.value := by
  unfold lookup
  rw [← hkey, ← hhash, h]
  simp

theorem exists_held_of_lookup {key : Bytes} {value : FunctionAbi}
    (h : x.lookup l key = some value) : ∃ hash item, x.abiCache hash = some item ∧
      item.hash = l.hashOf key ∧ item.value = value := by
  unfold lookup at h
  obtain ⟨item, hitem, h⟩ := Option.bind_eq_some_iff.mp h
  split at h
  next hhash => exact ⟨_, item, hitem, hhash, Option.some.inj h⟩
  next => cases h

/-- The cached item of a key of the run is one that has been loaded for that very key. -/
theorem stored_of_lookup (hx : Sound l known x) (hapart : l.Apart known)
    {params : CallParameters} (hmem : params ∈ known) (hlong : ∀ p ∈ known, 4 ≤ p.data.length)
    {functionAbi : FunctionAbi}
    (h : x.lookup l (AbiLoader.abiKey params) = some functionAbi) :
    l.Stored x.executor params functionAbi := by
  obtain ⟨hash, item, hitem, hkey, rfl⟩ := exists_held_of_lookup h
  obtain ⟨p, hp, _, hitemKey, abiStr, hrow, hread⟩ := hx.held hash item hitem
  have hsame := hapart.apart p hp params hmem (hitemKey.symm.trans hkey)
  obtain ⟨haddress, hselector⟩ := eq_of_abiKey_eq (hlong p hp) (hlong params hmem) hsame
  have hto := ascii_injective (hapart.bytes p hp) (hapart.bytes params hmem) haddress
  have habiRow : AbiLoader.abiRow p = AbiLoader.abiRow params := by
    unfold AbiLoader.abiRow WasmReader.abiTable
    rw [hto]
  exact ⟨abiStr, habiRow ▸ hrow, hselector ▸ hread⟩

theorem sound_use (hx : Sound l known x) {params : CallParameters} {room : Bool}
    (hmem : params.create = false → 4 ≤ params.data.length → params ∈ known) :
    Sound l known (x.use l params room) := by
  unfold use
  split
  next functionAbi hcreate _ hloaded =>
    obtain ⟨hstored, hlong⟩ := stored_of_loaded hloaded
    refine ⟨hx.chained, hx.ordered, hx.faithful, hx.current, hx.context, fun hash item hitem => ?_⟩
    by_cases hhash : hash = (l.hashOf (AbiLoader.abiKey params)).toUInt32
    · subst hhash
      simp only [insert, Function.update_self, Option.some.injEq] at hitem
      subst hitem
      exact ⟨params, hmem hcreate hlong, rfl, rfl, hstored⟩
    · simp only [insert, Function.update_of_ne hhash] at hitem
      exact hx.held hash item hitem
  next => exact hx

theorem sound_evict (hx : Sound l known x) (evicted : UInt32) : Sound l known (x.evict evicted) := by
  refine ⟨hx.chained, hx.ordered, hx.faithful, hx.current, hx.context, fun hash item hitem => ?_⟩
  by_cases hhash : hash = evicted
  · subst hhash
    simp only [evict, Function.update_self] at hitem
    cases hitem
  · simp only [evict, Function.update_of_ne hhash] at hitem
    exact hx.held hash item hitem

theorem sound_step (hbe : be.Lawful) (hx : Sound l known x) {event : CacheEvent}
    (hmem : ∀ params room, event = .use params room → params.create = false →
      4 ≤ params.data.length → params ∈ known) (hkept : Kept l known x event) :
    Sound l known (x.step l event) := by
  cases event with
  | use params room => exact sound_use hx (hmem params room rfl)
  | evict hash => exact sound_evict hx hash
  | action action =>
    obtain ⟨hprepared, hrows⟩ := hkept
    obtain ⟨hchained, hordered⟩ := TransactionExecutor.wired_step hx.chained hx.ordered action
    refine ⟨hchained, hordered, TransactionExecutor.faithful_step hbe hx.chained hx.ordered
      hx.faithful hprepared, TransactionExecutor.current_step hx.current action,
      TransactionExecutor.contextKnown_step hx.context action, fun hash item hitem => ?_⟩
    obtain ⟨p, hp, hhash, hkey, hstored⟩ := hx.held hash item hitem
    have hlookup : x.lookup l (AbiLoader.abiKey p) = some item.value :=
      lookup_of_held (x := x) hitem hhash hkey
    have hheld : x.lookup l (AbiLoader.abiKey p) ≠ none := by
      rw [hlookup]
      exact Option.some_ne_none _
    exact ⟨p, hp, hhash, hkey, stored_step hbe hx hstored hprepared (hrows p hp hheld)⟩

theorem coherent_of_sound (hx : Sound l known x) (hapart : l.Apart known)
    (hlong : ∀ p ∈ known, 4 ≤ p.data.length) {params : CallParameters}
    (hmem : params.create = false → 4 ≤ params.data.length → params ∈ known)
    (hshort : params.create = false → params.data.length < 4 →
      x.lookup l (AbiLoader.abiKey params) = none) : Coherent l x params := by
  intro functionAbi hused
  unfold used at hused
  split at hused
  next => cases hused
  next hcreate =>
    have hcall : params.create = false := by simpa using hcreate
    cases hlookup : x.lookup l (AbiLoader.abiKey params) with
    | none =>
      rw [hlookup, Option.none_or] at hused
      exact (stored_of_loaded hused).1
    | some found =>
      rw [hlookup, Option.some_or] at hused
      cases hused
      by_cases hdata : params.data.length < 4
      · rw [hshort hcall hdata] at hlookup
        cases hlookup
      · have hcalled := hmem hcall (by omega)
        exact stored_of_lookup hx hapart hcalled hlong hlookup

theorem mem_calls {events : List CacheEvent} {params : CallParameters} :
    params ∈ calls events ↔
      (∃ room, .use params room ∈ events) ∧ params.create = false ∧ 4 ≤ params.data.length := by
  unfold calls
  rw [List.mem_filterMap]
  constructor
  · rintro ⟨event, hevent, h⟩
    cases event with
    | action action => cases h
    | evict hash => cases h
    | use p room =>
      dsimp only at h
      split at h
      next hp =>
        cases h
        exact ⟨⟨room, hevent⟩, hp⟩
      next => cases h
  · rintro ⟨⟨room, hevent⟩, hp⟩
    exact ⟨_, hevent, if_pos hp⟩

/-- In every run in which the ABI of no contract of the cache is changed under it, each
transaction is analysed with what the block has stored. -/
theorem coherent_of_kept (hbe : be.Lawful) (l : AbiLoader) (cached : Bool) (s : be.State)
    (events : List CacheEvent) (hapart : l.Apart (calls events))
    (hkept : Always (step l) (Kept l (calls events)) (init cached s) events) :
    Always (step l) (AtUses (Coherent l)) (init cached s) events := by
  have hcalled : ∀ event ∈ events, ∀ params room, event = .use params room →
      params.create = false → 4 ≤ params.data.length → params ∈ calls events := by
    rintro event hevent params room rfl hcreate hdata
    exact mem_calls.mpr ⟨⟨room, hevent⟩, hcreate, hdata⟩
  have hlong : ∀ p ∈ calls events, 4 ≤ p.data.length := fun p hp => (mem_calls.mp hp).2.2
  refine Runs.always_of_invariant (Sound l (calls events)) ?_ ?_ (sound_init cached s)
    (Runs.always_and hkept (Runs.always_of_forall hcalled))
  · exact fun x event hx hevent => sound_step hbe hx hevent.2 hevent.1
  · intro x event hx hevent
    cases event with
    | action action => exact True.intro
    | evict hash => exact True.intro
    | use params room => exact coherent_of_sound hx hapart hlong (hevent.2 params room rfl) hevent.1

/-- An ABI of one function, which is told by the kind of its conflict field. -/
def kindLoader : AbiLoader where
  hasher _ := 0
  compactLen _ := 1
  timestamp := 0
  number := 1
  parse abiStr := .ok (some (.array [.object [
    ("type", .string "function"), ("constant", .bool false), ("name", .string "f"),
    ("inputs", .array []), ("conflictFields", .array [.object [
      ("path", .array [.int 0]), ("kind", .int abiStr.length), ("read_only", .bool false),
      ("slot", .int 0)]])]]))
  hash _ := [1, 2, 3, 4]
  hashOf key := key.length.toUInt64

def callPath : CallParameters :=
  { type := .message, receiveAddress := "/c", data := [1, 2, 3, 4] }

def createPath (id : Nat) (abiStr : Bytes) : List CacheEvent :=
  [.action (.write id ⟨sysTables, ascii "/apps/c"⟩ (some [])),
    .action (.write id ⟨"/apps/c", ACCOUNT_ABI⟩ (some abiStr))]

theorem bytes_callPath : ∀ c ∈ callPath.receiveAddress.toList, c.toNat < 256 := by
  simp [callPath]

/-- A contract is created and called, its block is committed, and the next block calls it. -/
def calledTwice : List CacheEvent :=
  .action (.nextBlockHeader 1) :: createPath 0 [] ++ [.use callPath true, .action (.prepare 1),
    .action (.commit 1), .action (.nextBlockHeader 2), .use callPath true]

/-- The block is given up after the call, and in its place another ABI comes to the path. -/
def createdAgain : List CacheEvent :=
  .action (.nextBlockHeader 1) :: createPath 0 [] ++ .use callPath true :: .action .reset ::
    .action (.nextBlockHeader 1) :: createPath 1 [0] ++ [.use callPath true]

theorem coherent_calledTwice :
    Always (step kindLoader) (AtUses (Coherent kindLoader))
      (init true TransactionExecutor.emptyBackend) calledTwice := by
  have hcall {p : CallParameters} (hp : p ∈ calls calledTwice) : p = callPath := by
    rcases List.mem_cons.mp hp with rfl | hp
    · rfl
    · exact List.mem_singleton.mp hp
  refine coherent_of_kept memoryBackend_lawful kindLoader true TransactionExecutor.emptyBackend
    calledTwice ⟨fun p hp => by rw [hcall hp]; exact bytes_callPath,
      fun p hp q hq _ => by rw [hcall hp, hcall hq]⟩ ?_
  refine ⟨⟨nofun, fun _ _ hheld => absurd rfl hheld⟩, ⟨nofun, fun _ _ hheld => absurd rfl hheld⟩,
    ⟨nofun, fun _ _ hheld => absurd rfl hheld⟩, nofun, ⟨nofun, fun _ _ _ => True.intro⟩,
    ⟨fun _ _ first hfirst => ?_, fun _ _ _ => True.intro⟩, ⟨nofun, fun p hp _ _ _ => ?_⟩, nofun,
    trivial⟩
  · cases hfirst
    rfl
  · rw [hcall hp]
    rfl

/-- The second call is analysed with the ABI that the first one has left in the cache. -/
theorem not_coherent_createdAgain :
    kindLoader.Apart (calls createdAgain) ∧
      ¬ Always (step kindLoader) (AtUses (Coherent kindLoader))
        (init true TransactionExecutor.emptyBackend) createdAgain := by
  have hcall {p : CallParameters} (hp : p ∈ calls createdAgain) : p = callPath := by
    rcases List.mem_cons.mp hp with rfl | hp
    · rfl
    · exact List.mem_singleton.mp hp
  refine ⟨⟨fun p hp => by rw [hcall hp]; exact bytes_callPath,
      fun p hp q hq _ => by rw [hcall hp, hcall hq]⟩, ?_⟩
  rintro ⟨_, _, _, _, _, _, _, _, h, _⟩
  obtain ⟨abiStr, hrow, hread⟩ := h _ rfl
  cases hrow
  cases hread

end AbiCaching

end BcosExecutor
