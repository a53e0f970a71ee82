import BcosExecutor.VarKeys

namespace BcosExecutor

/-- The arguments of a call, which are shorter than the positions with 32 bits can tell. -/
structure Arguments where
  types : List Scale.Ty
  values : List Scale.Val
  typed : Scale.HaveTypes types values
  counted : AllCounted types values
  short : (Scale.encodeAll values).length < 2 ^ 32

/-- The function takes arguments of these types, and the call has them behind its selector. -/
structure Passes (functionAbi : FunctionAbi) (params : CallParameters) (arguments : Arguments) :
    Prop where
  inputs : functionAbi.inputs = paramAbis arguments.types
  data : ∃ selector, selector.length = 4 ∧
    params.data = selector ++ Scale.encodeAll arguments.values

/-- The string that a conflict field is about in a call. -/
inductive Designates (functionAbi : FunctionAbi) (params : CallParameters) :
    Abi.ConflictField → Bytes → Prop
  | caller {field} : field.kind = 2 → field.accessPath = [0] →
      Designates functionAbi params field (ascii params.senderAddress)
  | origin {field} : field.kind = 2 → field.accessPath = [1] →
      Designates functionAbi params field (ascii params.origin)
  | addr {field} : field.kind = 2 → field.accessPath = [4] →
      Designates functionAbi params field (ascii params.receiveAddress)
  | var {field segment path s} (arguments : Arguments) : Passes functionAbi params arguments →
      field.kind = 3 → field.accessPath = segment :: path →
      Scale.select segment path arguments.types arguments.values = some (.string, .text s) →
      Designates functionAbi params field s

/-- What comes into the key for a string: from the arguments it comes as it is encoded there. -/
def keyBytes (field : Abi.ConflictField) (s : Bytes) : Bytes :=
  if field.kind = 3 then Scale.encode (.text s) else s

/-- Both strings come into the keys in the same way, or neither is the other, encoded or not. -/
def Comparable (field₁ field₂ : Abi.ConflictField) (s t : Bytes) : Prop :=
  field₁.kind = field₂.kind ∨
    s ≠ t ∧ (field₁.kind = 3 → Scale.encode (.text s) ≠ t) ∧
      (field₂.kind = 3 → s ≠ Scale.encode (.text t))

variable {x : KeyContext} {functionAbi : FunctionAbi} {params : CallParameters}

theorem kind_of_designates {field : Abi.ConflictField} {s : Bytes}
    (h : Designates functionAbi params field s) : field.kind = 2 ∨ field.kind = 3 := by
  cases h with
  | caller hk => exact Or.inl hk
  | origin hk => exact Or.inl hk
  | addr hk => exact Or.inl hk
  | var _ _ hk => exact Or.inr hk

theorem valueOf_designates (hcompact : CompactLen x.compactLen) {field : Abi.ConflictField}
    {s : Bytes} (h : Designates functionAbi params field s) :
    x.valueOf functionAbi.inputs params field = .ok (some (keyBytes field s)) := by
  cases h with
  | caller hk hpath =>
    unfold KeyContext.valueOf keyBytes
    rw [hk, hpath]
    rfl
  | origin hk hpath =>
    unfold KeyContext.valueOf keyBytes
    rw [hk, hpath]
    rfl
  | addr hk hpath =>
    unfold KeyContext.valueOf keyBytes
    rw [hk, hpath]
    rfl
  | var arguments hpasses hk hpath hsel =>
    obtain ⟨hinputs, selector, hselector, hdata⟩ := hpasses
    have hparam : getParamData params.data = Scale.encodeAll arguments.values := by
      unfold getParamData
      rw [hdata, ← hselector, List.drop_left]
    unfold KeyContext.valueOf keyBytes
    rw [hk, hpath, hinputs, hparam, if_pos rfl]
    have hshort := arguments.short
    obtain ⟨pos, hlocated, hsized, hle⟩ := located_of_select arguments.counted.sized hsel
    exact KeyContext.varValue_exact hcompact arguments.typed (by omega) hlocated (by omega) hsized
      (by omega)

/-- The keys come in the order of the fields. -/
theorem getElem_of_decodeKeys {inputs : List ParameterAbi} {fields : List Abi.ConflictField}
    {keys : List ConflictField} (h : x.decodeKeys inputs params fields = .ok (some keys)) {i : Nat}
    {field : Abi.ConflictField} (hi : fields[i]? = some field) {value : Bytes}
    (hvalue : x.valueOf inputs params field = .ok (some value)) :
    keys[i]? = some (x.keyOf params field value) := by
  induction fields generalizing keys i with
  | nil => cases hi
  | cons field' fields ih =>
    obtain ⟨value', hvalue', h⟩ := ifPresent_bind_eq_some h
    obtain ⟨keys', hkeys', h⟩ := ifPresent_bind_eq_some h
    cases h
    cases i with
    | zero =>
      cases hi
      cases hvalue.symm.trans hvalue'
      rfl
    | succ i => exact ih hkeys' hi

theorem getElem_of_decodeConflictFields {keys : List ConflictField}
    (h : x.decodeConflictFields functionAbi params = .ok (some keys)) {i : Nat}
    {field : Abi.ConflictField} (hi : functionAbi.conflictFields[i]? = some field) {value : Bytes}
    (hvalue : x.valueOf functionAbi.inputs params field = .ok (some value)) :
    keys[i]? = some (x.keyOf params field value) := by
  unfold KeyContext.decodeConflictFields at h
  split at h
  next => cases h
  next => exact getElem_of_decodeKeys h hi hvalue

/-- Where every field has a value there are keys. -/
theorem exists_keys_of_values (hne : functionAbi.conflictFields ≠ [])
    (h : ∀ field ∈ functionAbi.conflictFields, ∃ value,
      x.valueOf functionAbi.inputs params field = .ok (some value)) :
    ∃ keys, x.decodeConflictFields functionAbi params = .ok (some keys) := by
  unfold KeyContext.decodeConflictFields
  rw [if_neg (by simpa using hne)]
  generalize functionAbi.conflictFields = fields at h
  induction fields with
  | nil => exact ⟨[], rfl⟩
  | cons field fields ih =>
    obtain ⟨⟨value, hvalue⟩, hfields⟩ := List.forall_mem_cons.mp h
    obtain ⟨keys, hkeys⟩ := ih hfields
    unfold KeyContext.decodeKeys
    rw [hvalue, hkeys]
    exact ⟨_, rfl⟩

/-- Where every field is about a string there are keys. -/
theorem exists_keys (hcompact : CompactLen x.compactLen) (hne : functionAbi.conflictFields ≠ [])
    (h : ∀ field ∈ functionAbi.conflictFields, ∃ s, Designates functionAbi params field s) :
    ∃ keys, x.decodeConflictFields functionAbi params = .ok (some keys) :=
  exists_keys_of_values hne fun field hfield =>
    have ⟨_, hs⟩ := h field hfield
    ⟨_, valueOf_designates hcompact hs⟩

theorem keyOf_inj {p q : CallParameters} (hto : p.receiveAddress = q.receiveAddress)
    {field₁ field₂ : Abi.ConflictField} (hslot : field₁.slot = field₂.slot) {a b : Bytes} :
    x.keyOf p field₁ a = x.keyOf q field₂ b ↔ a = b := by
  have hsame : x.slotOf p field₁ = x.slotOf q field₂ := by
    unfold KeyContext.slotOf
    rw [hto, hslot]
  unfold KeyContext.keyOf
  rw [Subtype.mk.injEq, hsame]
  exact List.append_right_inj _

/-- A string is never its own encoding, so that it must not be met by it either. -/
theorem encoded_agree_iff {s t : Bytes} :
    (s = Scale.encode (.text t) ↔ s = t) ↔ s ≠ t ∧ s ≠ Scale.encode (.text t) := by
  constructor
  · intro h
    have hne : s ≠ t := by
      intro hst
      have henc := h.mpr hst
      rw [hst] at henc
      exact Scale.encode_text_ne t henc.symm
    exact ⟨hne, fun henc => hne (h.mp henc)⟩
  · rintro ⟨hne, henc⟩
    exact ⟨fun h => absurd h henc, fun h => absurd h hne⟩

theorem keyBytes_agree_iff {field₁ field₂ : Abi.ConflictField} {s t : Bytes}
    (h₁ : field₁.kind = 2 ∨ field₁.kind = 3) (h₂ : field₂.kind = 2 ∨ field₂.kind = 3) :
    (keyBytes field₁ s = keyBytes field₂ t ↔ s = t) ↔ Comparable field₁ field₂ s t := by
  unfold keyBytes Comparable
  rcases h₁ with h₁ | h₁
  · rcases h₂ with h₂ | h₂
    · simp [h₁, h₂]
    · simpa [h₁, h₂] using encoded_agree_iff
  · rcases h₂ with h₂ | h₂
    · have hagree := encoded_agree_iff (s := t) (t := s)
      rw [eq_comm (a := t), eq_comm (a := t), ne_comm, ne_comm (a := t)] at hagree
      simpa [h₁, h₂] using hagree
    · have hinj : Scale.encode (.text s) = Scale.encode (.text t) ↔ s = t :=
        ⟨Scale.encode_text_injective, fun h => by rw [h]⟩
      simp [h₁, h₂, hinj]

/-- The keys of two calls of a contract agree on the strings of two fields with one slot exactly
when the fields are of one kind, or the strings are different in every form. -/
theorem keys_agree_iff (x : KeyContext) (hcompact : CompactLen x.compactLen)
    {f g : FunctionAbi} {p q : CallParameters} (hto : p.receiveAddress = q.receiveAddress)
    {keys₁ keys₂ : List ConflictField} (hp : x.decodeConflictFields f p = .ok (some keys₁))
    (hq : x.decodeConflictFields g q = .ok (some keys₂)) {i j : Nat}
    {field₁ field₂ : Abi.ConflictField} (hi : f.conflictFields[i]? = some field₁)
    (hj : g.conflictFields[j]? = some field₂) (hslot : field₁.slot = field₂.slot) {s t : Bytes}
    (hs : Designates f p field₁ s) (ht : Designates g q field₂ t) :
    (keys₁[i]? = keys₂[j]? ↔ s = t) ↔ Comparable field₁ field₂ s t := by
  rw [getElem_of_decodeConflictFields hp hi (valueOf_designates hcompact hs),
    getElem_of_decodeConflictFields hq hj (valueOf_designates hcompact ht), Option.some.injEq, keyOf_inj hto hslot]
  exact keyBytes_agree_iff (kind_of_designates hs) (kind_of_designates ht)

def zeroContext : KeyContext where
  hasher _ := 0
  compactLen n := (Scale.compact n).length
  timestamp := 0
  number := 1

/-- The string is the second argument of one function and the only one of the other. -/
def secondArgument : FunctionAbi :=
  ⟨"f", paramAbis [.uint 4, .string], [⟨3, [1], false, 0⟩]⟩

def onlyArgument : FunctionAbi :=
  ⟨"g", paramAbis [.string], [⟨3, [0], false, 0⟩]⟩

def senderField : FunctionAbi :=
  ⟨"h", [], [⟨2, [0], false, 0⟩]⟩

def numberAndText : Arguments where
  types := [.uint 4, .string]
  values := [.scalar [1, 0, 0, 0], .text [97]]
  typed := by simp [Scale.HaveTypes, Scale.HasType]
  counted := by simp [AllCounted, Counted]
  short := by decide

def onlyText : Arguments where
  types := [.string]
  values := [.text [97]]
  typed := by simp [Scale.HaveTypes, Scale.HasType]
  counted := by simp [AllCounted, Counted]
  short := by decide

def secondCall : CallParameters :=
  { type := .message, data := [0, 0, 0, 0, 1, 0, 0, 0, 4, 97] }

def onlyCall : CallParameters :=
  { type := .message, data := [1, 2, 3, 4, 4, 97], senderAddress := "a" }

def keyOfBytes (bytes : Bytes) : ConflictField :=
  ⟨List.replicate 8 0 ++ bytes, by simp⟩

theorem designates_secondArgument : Designates secondArgument secondCall ⟨3, [1], false, 0⟩ [97] :=
  .var numberAndText ⟨rfl, [0, 0, 0, 0], rfl, rfl⟩ rfl rfl rfl

theorem designates_onlyArgument : Designates onlyArgument onlyCall ⟨3, [0], false, 0⟩ [97] :=
  .var onlyText ⟨rfl, [1, 2, 3, 4], rfl, rfl⟩ rfl rfl rfl

theorem keys_agree_arguments :
    ([keyOfBytes [4, 97]][0]? = [keyOfBytes [4, 97]][0]? ↔ ([97] : Bytes) = [97]) ↔
      Comparable ⟨3, [1], false, 0⟩ ⟨3, [0], false, 0⟩ [97] [97] :=
  keys_agree_iff zeroContext (fun _ _ => rfl) (f := secondArgument) (g := onlyArgument)
    (p := secondCall) (q := onlyCall) rfl (i := 0) (j := 0) rfl rfl rfl rfl rfl
    designates_secondArgument designates_onlyArgument

/-- The sender of one call is the argument of the other, and their keys are different. -/
theorem not_keys_agree_sender :
    Designates senderField onlyCall ⟨2, [0], false, 0⟩ [97] ∧
      Designates onlyArgument onlyCall ⟨3, [0], false, 0⟩ [97] ∧
      zeroContext.decodeConflictFields senderField onlyCall = .ok (some [keyOfBytes [97]]) ∧
      zeroContext.decodeConflictFields onlyArgument onlyCall = .ok (some [keyOfBytes [4, 97]]) ∧
      keyOfBytes [97] ≠ keyOfBytes [4, 97] :=
  ⟨.caller rfl rfl, designates_onlyArgument, rfl, rfl, by decide⟩

end BcosExecutor
