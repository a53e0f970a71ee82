import BcosExecutor.KeyAgreement

namespace BcosExecutor

/-- How many bytes a compact integer of 32 bits takes, by its first one. -/
def modeLength (first : UInt8) : Nat :=
  match first.toNat % 4 with
  | 0 => 1
  | 1 => 2
  | 2 => 4
  | _ => 5

theorem compact_modeLength {n : Nat} (hn : n < 2 ^ 32) :
    ∃ first rest, Scale.compact n = first :: rest ∧
      (Scale.compact n).length = modeLength first := by
  have hbyte (m : Nat) : (UInt8.ofNat m).toNat = m % 256 := rfl
  unfold Scale.compact
  by_cases h6 : n < 2 ^ 6
  · have hmode : (4 * n) % 256 % 4 = 0 := by omega
    rw [if_pos h6]
    refine ⟨_, _, rfl, ?_⟩
    rw [Scale.length_bytesOf, modeLength, hbyte, hmode]
    rfl
  · rw [if_neg h6]
    by_cases h14 : n < 2 ^ 14
    · have hmode : (4 * n + 1) % 256 % 4 = 1 := by omega
      rw [if_pos h14]
      refine ⟨_, _, rfl, ?_⟩
      rw [Scale.length_bytesOf, modeLength, hbyte, hmode]
      rfl
    · rw [if_neg h14]
      by_cases h30 : n < 2 ^ 30
      · have hmode : (4 * n + 2) % 256 % 4 = 2 := by omega
        rw [if_pos h30]
        refine ⟨_, _, rfl, ?_⟩
        rw [Scale.length_bytesOf, modeLength, hbyte, hmode]
        rfl
      · have hthree := Scale.three_le_log (Nat.not_lt.mp h30)
        have hlog : Nat.log 256 n < 4 := Nat.log_lt_of_lt_pow (by omega) (by omega)
        have heq : Nat.log 256 n = 3 := by omega
        have hmode : (4 * (3 - 3) + 3) % 256 % 4 = 3 := rfl
        rw [if_neg h30, heq]
        refine ⟨_, _, rfl, ?_⟩
        rw [List.length_cons, Scale.length_bytesOf, modeLength, hbyte, hmode]
        rfl

theorem compact_append_inj {m n : Nat} (hm : m < 2 ^ 32) (hn : n < 2 ^ 32) {a b : Bytes}
    (h : Scale.compact m ++ a = Scale.compact n ++ b) : m = n ∧ a = b := by
  obtain ⟨first, rest, hcons, hlength⟩ := compact_modeLength hm
  obtain ⟨first', rest', hcons', hlength'⟩ := compact_modeLength hn
  have hfirst : first = first' := by
    rw [hcons, hcons'] at h
    exact (List.cons.inj h).1
  subst hfirst
  obtain ⟨hcompact, rfl⟩ := List.append_inj h (hlength.trans hlength'.symm)
  have hshort : ([] ++ (Scale.compact m ++ [])).length < 2 ^ 64 := by
    rw [List.nil_append, List.append_nil, hlength]
    unfold modeLength
    split
    all_goals omega
  have hread := decodeCompactInteger_compact (by omega) [] [] hshort
  rw [hcompact] at hread hshort
  rw [decodeCompactInteger_compact (by omega) [] [] hshort] at hread
  simp only [Except.ok.injEq, Option.some.injEq, Nat.mod_eq_of_lt hm, Nat.mod_eq_of_lt hn] at hread
  exact ⟨hread.symm, rfl⟩

theorem encodeAll_append_inj {vs ws : List Scale.Val} (hcount : vs.length = ws.length)
    (h : ∀ v ∈ vs, ∀ w ∈ ws, ∀ a b, Scale.encode v ++ a = Scale.encode w ++ b → v = w ∧ a = b)
    {a b : Bytes} (heq : Scale.encodeAll vs ++ a = Scale.encodeAll ws ++ b) : vs = ws ∧ a = b := by
  induction vs generalizing ws with
  | nil =>
    cases ws with
    | nil => exact ⟨rfl, heq⟩
    | cons w ws => cases hcount
  | cons v vs ih =>
    cases ws with
    | nil => cases hcount
    | cons w ws =>
      rw [Scale.encodeAll, Scale.encodeAll, List.append_assoc, List.append_assoc] at heq
      obtain ⟨rfl, hrest⟩ := h v List.mem_cons_self w List.mem_cons_self _ _ heq
      obtain ⟨rfl, rfl⟩ := ih (Nat.succ.inj hcount)
        (fun v hv w hw => h v (List.mem_cons_of_mem _ hv) w (List.mem_cons_of_mem _ hw)) hrest
      exact ⟨rfl, rfl⟩

/-- Values of a fixed width are their bytes. -/
theorem encode_append_inj_width {t : Scale.Ty} {size : Nat} (ht : Scale.width t = some size)
    {v w : Scale.Val} (hv : Scale.HasType t v) (hw : Scale.HasType t w) {a b : Bytes}
    (h : Scale.encode v ++ a = Scale.encode w ++ b) : v = w ∧ a = b := by
  have hscalar {u : Scale.Val} (hu : Scale.HasType t u) : ∃ bytes, u = .scalar bytes := by
    cases t with
    | uint _ | int _ | bytesN _ | bool | byte =>
      cases u with
      | scalar bytes => exact ⟨bytes, rfl⟩
      | _ => unfold Scale.HasType at hu; exact hu.elim
    | _ => cases ht
  have hlength := (Scale.length_encode hv ht).trans (Scale.length_encode hw ht).symm
  obtain ⟨bytes, rfl⟩ := hscalar hv
  obtain ⟨bytes', rfl⟩ := hscalar hw
  obtain ⟨hbytes, rfl⟩ := List.append_inj h hlength
  unfold Scale.encode at hbytes
  exact ⟨congrArg Scale.Val.scalar hbytes, rfl⟩

theorem encode_append_inj_text {t : Scale.Ty} (ht : t = .string ∨ t = .bytes) {v w : Scale.Val}
    (hv : Fits t v) (hw : Fits t w) {a b : Bytes}
    (h : Scale.encode v ++ a = Scale.encode w ++ b) : v = w ∧ a = b := by
  have htext {u : Scale.Val} (hu : Fits t u) :
      ∃ bytes, u = .text bytes ∧ bytes.length < 2 ^ 32 := by
    obtain ⟨htyped, -, hshort⟩ := hu
    rcases ht with rfl | rfl
    all_goals
      cases u with
      | text bytes =>
        rw [Scale.encode, List.length_append] at hshort
        exact ⟨bytes, rfl, by omega⟩
      | _ => unfold Scale.HasType at htyped; exact htyped.elim
  obtain ⟨bytes, rfl, hbytes⟩ := htext hv
  obtain ⟨bytes', rfl, hbytes'⟩ := htext hw
  rw [Scale.encode, Scale.encode, List.append_assoc, List.append_assoc] at h
  obtain ⟨hlength, hrest⟩ := compact_append_inj hbytes hbytes' h
  obtain ⟨rfl, rfl⟩ := List.append_inj hrest hlength
  exact ⟨rfl, rfl⟩

mutual

/-- No encoding of a type begins another one of it. -/
theorem encode_append_inj : ∀ {t : Scale.Ty} {v w : Scale.Val}, Fits t v → Fits t w →
    ∀ {a b : Bytes}, Scale.encode v ++ a = Scale.encode w ++ b → v = w ∧ a = b
  | .uint _, _, _, hv, hw, _, _, h | .int _, _, _, hv, hw, _, _, h
  | .bytesN _, _, _, hv, hw, _, _, h | .bool, _, _, hv, hw, _, _, h
  | .byte, _, _, hv, hw, _, _, h => encode_append_inj_width rfl hv.typed hw.typed h
  | .string, _, _, hv, hw, _, _, h => encode_append_inj_text (Or.inl rfl) hv hw h
  | .bytes, _, _, hv, hw, _, _, h => encode_append_inj_text (Or.inr rfl) hv hw h
  | .array element, v, w, hv, hw, a, b, h => by
    obtain ⟨hvtyped, hvsized, hvshort⟩ := hv
    obtain ⟨hwtyped, hwsized, hwshort⟩ := hw
    cases v with
    | array vs =>
      cases w with
      | array ws =>
        unfold Scale.HasType at hvtyped hwtyped
        unfold Sized at hvsized hwsized
        rw [Scale.encode, List.length_append] at hvshort hwshort
        rw [Scale.encode, Scale.encode, List.append_assoc, List.append_assoc] at h
        obtain ⟨hcount, hrest⟩ := compact_append_inj hvsized.1 hwsized.1 h
        obtain ⟨rfl, rfl⟩ := encodeAll_append_inj hcount (fun v hv w hw a b =>
          have hvle := Scale.length_encode_le hv
          have hwle := Scale.length_encode_le hw
          encode_append_inj ⟨hvtyped v hv, hvsized.2 v hv, by omega⟩
            ⟨hwtyped w hw, hwsized.2 w hw, by omega⟩) hrest
        exact ⟨rfl, rfl⟩
      | _ => unfold Scale.HasType at hwtyped; exact hwtyped.elim
    | _ => unfold Scale.HasType at hvtyped; exact hvtyped.elim
  | .fixedArray element size, v, w, hv, hw, a, b, h => by
    obtain ⟨hvtyped, hvsized, hvshort⟩ := hv
    obtain ⟨hwtyped, hwsized, hwshort⟩ := hw
    cases v with
    | sequence vs =>
      cases w with
      | sequence ws =>
        unfold Scale.HasType at hvtyped hwtyped
        unfold Sized at hvsized hwsized
        rw [Scale.encode] at hvshort hwshort
        rw [Scale.encode, Scale.encode] at h
        obtain ⟨rfl, rfl⟩ := encodeAll_append_inj (hvtyped.1.trans hwtyped.1.symm)
          (fun v hv w hw a b =>
            have hvle := Scale.length_encode_le hv
            have hwle := Scale.length_encode_le hw
            encode_append_inj ⟨hvtyped.2 v hv, hvsized.2 v hv, by omega⟩
              ⟨hwtyped.2 w hw, hwsized.2 w hw, by omega⟩) h
        exact ⟨rfl, rfl⟩
      | _ => unfold Scale.HasType at hwtyped; exact hwtyped.elim
    | _ => unfold Scale.HasType at hvtyped; exact hvtyped.elim
  | .tuple components, v, w, hv, hw, a, b, h => by
    obtain ⟨hvtyped, hvsized, hvshort⟩ := hv
    obtain ⟨hwtyped, hwsized, hwshort⟩ := hw
    cases v with
    | sequence vs =>
      cases w with
      | sequence ws =>
        unfold Scale.HasType at hvtyped hwtyped
        unfold Sized at hvsized hwsized
        rw [Scale.encode] at hvshort hwshort
        rw [Scale.encode, Scale.encode] at h
        obtain ⟨rfl, rfl⟩ := components_append_inj hvtyped hwtyped hvsized hwsized hvshort hwshort h
        exact ⟨rfl, rfl⟩
      | _ => unfold Scale.HasType at hwtyped; exact hwtyped.elim
    | _ => unfold Scale.HasType at hvtyped; exact hvtyped.elim

theorem components_append_inj : ∀ {ts : List Scale.Ty} {vs ws : List Scale.Val},
    Scale.HaveTypes ts vs → Scale.HaveTypes ts ws → AllSized ts vs → AllSized ts ws →
    (Scale.encodeAll vs).length < 2 ^ 32 → (Scale.encodeAll ws).length < 2 ^ 32 →
    ∀ {a b : Bytes}, Scale.encodeAll vs ++ a = Scale.encodeAll ws ++ b → vs = ws ∧ a = b
  | [], vs, ws, hv, hw, _, _, _, _, a, b, h => by
    cases vs with
    | nil =>
      cases ws with
      | nil => exact ⟨rfl, h⟩
      | cons w ws => unfold Scale.HaveTypes at hw; exact hw.elim
    | cons v vs => unfold Scale.HaveTypes at hv; exact hv.elim
  | t :: ts, vs, ws, hv, hw, hvs, hws, hvshort, hwshort, a, b, h => by
    cases vs with
    | nil => unfold Scale.HaveTypes at hv; exact hv.elim
    | cons v vs =>
      cases ws with
      | nil => unfold Scale.HaveTypes at hw; exact hw.elim
      | cons w ws =>
        unfold Scale.HaveTypes at hv hw
        unfold AllSized at hvs hws
        rw [Scale.encodeAll, List.length_append] at hvshort hwshort
        rw [Scale.encodeAll, Scale.encodeAll, List.append_assoc, List.append_assoc] at h
        obtain ⟨rfl, hrest⟩ := encode_append_inj ⟨hv.1, hvs.1, by omega⟩ ⟨hw.1, hws.1, by omega⟩ h
        obtain ⟨rfl, rfl⟩ := components_append_inj hv.2 hw.2 hvs.2 hws.2 (by omega) (by omega) hrest
        exact ⟨rfl, rfl⟩

end

theorem encode_inj {t : Scale.Ty} {v w : Scale.Val} (hv : Fits t v) (hw : Fits t w) :
    Scale.encode v = Scale.encode w ↔ v = w :=
  ⟨fun h => (encode_append_inj hv hw (congrArg (· ++ []) h)).1, congrArg Scale.encode⟩


/-- A field of kind `Var` and the component of the arguments that its path leads to, where the
component begins and all that stands before it can be measured. -/
structure Names (functionAbi : FunctionAbi) (params : CallParameters) (field : Abi.ConflictField)
    (t : Scale.Ty) (v : Scale.Val) : Prop where
  kind : field.kind = 3
  slot : field.slot < 2 ^ 8
  component : ∃ segment path types values selector pos,
    field.accessPath = segment :: path ∧ functionAbi.inputs = paramAbis types ∧
      Scale.HaveTypes types values ∧ selector.length = 4 ∧
      params.data = selector ++ Scale.encodeAll values ∧
      Located segment path types values pos t v ∧ pos < 2 ^ 32
  size : params.data.length < 2 ^ 64
  fits : Fits t v

variable {x : KeyContext} {functionAbi : FunctionAbi} {params : CallParameters}
  {field : Abi.ConflictField} {t : Scale.Ty} {v : Scale.Val}

theorem valueOf_names (hcompact : CompactLen x.compactLen)
    (h : Names functionAbi params field t v) :
    x.valueOf functionAbi.inputs params field = .ok (some (Scale.encode v)) := by
  obtain ⟨segment, path, types, values, selector, pos, hpath, hinputs, htyped, hselector, hdata,
    hlocated, hpos⟩ := h.component
  have hparam : getParamData params.data = Scale.encodeAll values := by
    unfold getParamData
    rw [hdata, ← hselector, List.drop_left]
  have hsize := h.size
  rw [hdata, List.length_append] at hsize
  unfold KeyContext.valueOf
  rw [h.kind, hpath, hinputs, hparam]
  exact KeyContext.varValue_exact hcompact htyped (by omega) hlocated hpos h.fits.sized h.fits.short

theorem toBytes_inj {size m n : Nat} (h : toBytes m size = toBytes n size) :
    m % 256 ^ size = n % 256 ^ size := by
  induction size generalizing m n with
  | zero => rw [Nat.pow_zero, Nat.mod_one, Nat.mod_one]
  | succ size ih =>
    obtain ⟨hbyte, hrest⟩ := List.cons.inj h
    have hlow : m % 256 = n % 256 := congrArg UInt8.toNat hbyte
    rw [Nat.pow_succ', Nat.mod_mul, Nat.mod_mul, hlow, ih hrest]

/-- In one contract the eight bytes tell the slots apart. -/
theorem slotOf_inj {p q : CallParameters} (hto : p.receiveAddress = q.receiveAddress)
    {field₁ field₂ : Abi.ConflictField} (h₁ : field₁.slot < 2 ^ 8) (h₂ : field₂.slot < 2 ^ 8) :
    x.slotOf p field₁ = x.slotOf q field₂ ↔ field₁.slot = field₂.slot := by
  unfold KeyContext.slotOf
  rw [hto]
  constructor
  · intro h
    have hmod := toBytes_inj h
    omega
  · intro h
    rw [h]

theorem keyOf_eq_iff {p q : CallParameters} {field₁ field₂ : Abi.ConflictField} {a b : Bytes} :
    x.keyOf p field₁ a = x.keyOf q field₂ b ↔ x.slotOf p field₁ = x.slotOf q field₂ ∧ a = b := by
  unfold KeyContext.keyOf
  rw [Subtype.mk.injEq]
  constructor
  · intro h
    exact List.append_inj h (by
      unfold KeyContext.slotOf
      rw [length_toBytes, length_toBytes])
  · rintro ⟨hslot, rfl⟩
    rw [hslot]

/-- The key of a `Var` field is its slot and then the component as it is encoded, so that keys of
one type are equal exactly with the slots and the components. -/
theorem component_keys (x : KeyContext) (hcompact : CompactLen x.compactLen) {f g : FunctionAbi}
    {p q : CallParameters} {field₁ field₂ : Abi.ConflictField} {t : Scale.Ty} {v w : Scale.Val}
    (hv : Names f p field₁ t v) (hw : Names g q field₂ t w) :
    (f.conflictFields ≠ [] →
      (∀ field ∈ f.conflictFields, field = field₁ ∨
        ∃ value, x.valueOf f.inputs p field = .ok (some value)) →
      ∃ keys, x.decodeConflictFields f p = .ok (some keys)) ∧
    (∀ (keys : List ConflictField) (i : Nat), x.decodeConflictFields f p = .ok (some keys) →
      f.conflictFields[i]? = some field₁ →
      ∃ key, keys[i]? = some key ∧ key.val = x.slotOf p field₁ ++ Scale.encode v) ∧
    (∀ (keys₁ keys₂ : List ConflictField) (i j : Nat),
      x.decodeConflictFields f p = .ok (some keys₁) →
      x.decodeConflictFields g q = .ok (some keys₂) → f.conflictFields[i]? = some field₁ →
      g.conflictFields[j]? = some field₂ →
      (keys₁[i]? = keys₂[j]? ↔ x.slotOf p field₁ = x.slotOf q field₂ ∧ v = w)) ∧
    (p.receiveAddress = q.receiveAddress →
      (x.slotOf p field₁ = x.slotOf q field₂ ↔ field₁.slot = field₂.slot)) := by
  have hvalue := valueOf_names hcompact hv
  refine ⟨fun hne h => ?_, fun keys i hkeys hi => ?_, fun keys₁ keys₂ i j hkeys₁ hkeys₂ hi hj => ?_,
    fun hto => slotOf_inj hto hv.slot hw.slot⟩
  · refine exists_keys_of_values hne fun field hfield => ?_
    rcases h field hfield with rfl | h
    · exact ⟨_, hvalue⟩
    · exact h
  · exact ⟨_, getElem_of_decodeConflictFields hkeys hi hvalue, rfl⟩
  · rw [getElem_of_decodeConflictFields hkeys₁ hi hvalue,
      getElem_of_decodeConflictFields hkeys₂ hj (valueOf_names hcompact hw), Option.some.injEq,
      keyOf_eq_iff, encode_inj hv.fits hw.fits]

/-- The name in the second argument, a tuple. -/
def nameInTuple : FunctionAbi :=
  ⟨"f", paramAbis [.uint 4, .tuple [.string, .uint 1]], [⟨3, [1, 0], false, 0⟩]⟩

def tupleCall : CallParameters :=
  { type := .message, data := [0, 0, 0, 0, 1, 0, 0, 0, 4, 97, 5] }

theorem names_nameInTuple :
    Names nameInTuple tupleCall ⟨3, [1, 0], false, 0⟩ .string (.text [97]) where
  kind := rfl
  slot := by decide
  component := ⟨1, [0], [.uint 4, .tuple [.string, .uint 1]],
    [.scalar [1, 0, 0, 0], .sequence [.text [97], .scalar [5]]], [0, 0, 0, 0], 4, rfl, rfl,
    by simp [Scale.HaveTypes, Scale.HasType], rfl, rfl,
    @Located.inside _ _ _ _ _ _ _ 0 _ _ rfl rfl (by simp [AllSized, Sized])
      (.here rfl rfl (by simp [AllSized])), by decide⟩
  size := by decide
  fits := ⟨by simp [Scale.HasType], by simp [Sized], by decide⟩

theorem names_onlyArgument :
    Names onlyArgument onlyCall ⟨3, [0], false, 0⟩ .string (.text [97]) where
  kind := rfl
  slot := by decide
  component := ⟨0, [], [.string], [.text [97]], [1, 2, 3, 4], 0, rfl, rfl,
    by simp [Scale.HaveTypes, Scale.HasType], rfl, rfl, .here rfl rfl (by simp [AllSized]),
    by decide⟩
  size := by decide
  fits := ⟨by simp [Scale.HasType], by simp [Sized], by decide⟩

/-- The component of a tuple and an argument on its own, which are the same string. -/
theorem component_keys_name :
    [keyOfBytes [4, 97]][0]? = [keyOfBytes [4, 97]][0]? ↔
      zeroContext.slotOf tupleCall ⟨3, [1, 0], false, 0⟩ =
        zeroContext.slotOf onlyCall ⟨3, [0], false, 0⟩ ∧ Scale.Val.text [97] = .text [97] :=
  (component_keys zeroContext (fun _ _ => rfl) names_nameInTuple names_onlyArgument).2.2.1 _ _ 0 0
    rfl rfl rfl rfl

/-- An array of tuples as the only argument. -/
def tuplesArgument : FunctionAbi :=
  ⟨"f", paramAbis [.array (.tuple [])], [⟨3, [0], false, 0⟩]⟩

/-- Arrays of so many tuples that their keys miss the number of them. -/
theorem not_component_keys :
    Scale.HaveTypes [.array (.tuple [])] [.array (emptyTuples (2 ^ 32))] ∧
      Scale.HaveTypes [.array (.tuple [])] [.array (emptyTuples (2 ^ 33))] ∧
      Scale.encodeAll [.array (emptyTuples (2 ^ 32))] = [7, 0, 0, 0, 0, 1] ∧
      Scale.encodeAll [.array (emptyTuples (2 ^ 33))] = [7, 0, 0, 0, 0, 2] ∧
      zeroContext.decodeConflictFields tuplesArgument
        { type := .message, data := [0, 0, 0, 0, 7, 0, 0, 0, 0, 1] } =
          .ok (some [keyOfBytes [7]]) ∧
      zeroContext.decodeConflictFields tuplesArgument
        { type := .message, data := [0, 0, 0, 0, 7, 0, 0, 0, 0, 2] } =
          .ok (some [keyOfBytes [7]]) ∧
      Scale.Val.array (emptyTuples (2 ^ 32)) ≠ .array (emptyTuples (2 ^ 33)) := by
  have htypes (n : Nat) : Scale.HaveTypes [.array (.tuple [])] [.array (emptyTuples n)] := by
    unfold Scale.HaveTypes
    exact ⟨hasType_manyTuples n, by simp [Scale.HaveTypes]⟩
  have hencode (n : Nat) : Scale.encodeAll [.array (emptyTuples n)] = Scale.compact n := by
    rw [Scale.encodeAll, Scale.encodeAll, encode_manyTuples, List.append_nil]
  refine ⟨htypes _, htypes _, ?_, ?_, ?_, ?_, fun h => ?_⟩
  · rw [hencode]
    decide +kernel
  · rw [hencode]
    decide +kernel
  · decide +kernel
  · decide +kernel
  · have hlength := congrArg List.length (Scale.Val.array.inj h)
    rw [emptyTuples, emptyTuples, List.length_replicate, List.length_replicate] at hlength
    omega

end BcosExecutor
