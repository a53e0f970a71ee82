import BcosExecutor.Abi
import BcosExecutor.FlowGraph
import BcosExecutor.ScaleBounds

namespace BcosExecutor

/-- The bytes of a number in memory, the lowest first. -/
def toBytes (n : Nat) : Nat → Bytes
  | 0 => []
  | size + 1 => UInt8.ofNat n :: toBytes (n / 256) size

theorem length_toBytes (n size : Nat) : (toBytes n size).length = size := by
  induction size generalizing n with
  | zero => rfl
  | succ size ih => simp [toBytes, ih]

/-- What the keys are made from besides the ABI and the parameters. -/
structure KeyContext where
  hasher : Bytes → Nat
  compactLen : Nat → Nat
  timestamp : Nat
  number : Int

namespace KeyContext

variable (x : KeyContext)

/-- The slot of the field for this contract. -/
def slotOf (params : CallParameters) (field : Abi.ConflictField) : Bytes :=
  toBytes ((x.hasher (ascii params.receiveAddress) + field.slot) % 2 ^ 64) 8

def envValue (params : CallParameters) : Nat → Option Bytes
  | 0 => some (ascii params.senderAddress)
  | 1 => some (ascii params.origin)
  | 2 => some (toBytes x.timestamp 8)
  | 3 => some (toBytes (x.number % 2 ^ 64).toNat 8)
  | 4 => some (ascii params.receiveAddress)
  | _ => none

/-- The position behind the components, with 32 bits. -/
def skip (inputData : Bytes) : List ParameterAbi → Nat → Checked (Option Nat)
  | [], startPos => .ok (some startPos)
  | component :: components, startPos =>
    scaleEncodingLength x.compactLen component inputData startPos >>= ifPresent fun length =>
      skip inputData components ((startPos + length) % 2 ^ 32)

def walkPath (inputData : Bytes) (segment : Nat) : List Nat → List ParameterAbi → Nat →
    Checked (Option (ParameterAbi × Nat))
  | path, components, startPos =>
    match components[segment]? with
    | none => .ok none
    | some paramAbi =>
      x.skip inputData (components.take segment) startPos >>= ifPresent fun startPos =>
        match path with
        | [] => .ok (some (paramAbi, startPos))
        | next :: path => walkPath inputData next path paramAbi.components startPos

def varValue (inputs : List ParameterAbi) (inputData : Bytes) (segment : Nat)
    (path : List Nat) : Checked (Option Bytes) :=
  x.walkPath inputData segment path inputs 0 >>= ifPresent fun found =>
    scaleEncodingLength x.compactLen found.1 inputData found.2 >>= ifPresent fun length => do
      assertThat (found.2 + length ≤ inputData.length)
      return some ((inputData.drop found.2).take length)

/-- What follows the slot in the key of the field. -/
def valueOf (inputs : List ParameterAbi) (params : CallParameters) (field : Abi.ConflictField) :
    Checked (Option Bytes) :=
  match field.kind, field.accessPath with
  | 0, _ | 1, _ => .ok (some [])
  | 2, [envKind] => .ok (x.envValue params envKind)
  | 2, _ => .error .assertion
  | 3, segment :: path => x.varValue inputs (getParamData params.data) segment path
  | 3, [] => .error .assertion
  | _, _ => .ok none

def keyOf (params : CallParameters) (field : Abi.ConflictField) (value : Bytes) : ConflictField :=
  ⟨x.slotOf params field ++ value, by simp [slotOf, length_toBytes]⟩

def decodeKeys (inputs : List ParameterAbi) (params : CallParameters) :
    List Abi.ConflictField → Checked (Option (List ConflictField))
  | [] => .ok (some [])
  | field :: fields =>
    x.valueOf inputs params field >>= ifPresent fun value =>
      decodeKeys inputs params fields >>= ifPresent fun keys =>
        .ok (some (x.keyOf params field value :: keys))

def decodeConflictFields (functionAbi : FunctionAbi) (params : CallParameters) :
    Checked (Option (List ConflictField)) :=
  if functionAbi.conflictFields.isEmpty then .ok none
  else x.decodeKeys functionAbi.inputs params functionAbi.conflictFields

def skipInside (inputData : Bytes) : List ParameterAbi → Nat → Prop
  | [], _ => True
  | component :: components, startPos =>
    prefixesInside x.compactLen component inputData startPos ∧
      ∀ length, scaleEncodingLength x.compactLen component inputData startPos = .ok (some length) →
        skipInside inputData components ((startPos + length) % 2 ^ 32)

def pathInside (inputData : Bytes) (segment : Nat) : List Nat → List ParameterAbi → Nat → Prop
  | path, components, startPos =>
    ∀ paramAbi, components[segment]? = some paramAbi →
      x.skipInside inputData (components.take segment) startPos ∧
        ∀ pos, x.skip inputData (components.take segment) startPos = .ok (some pos) →
          match path with
          | [] => True
          | next :: path => pathInside inputData next path paramAbi.components pos

/-- The argument is found, measured and cut out inside of the data. -/
structure VarInside (inputs : List ParameterAbi) (inputData : Bytes) (segment : Nat)
    (path : List Nat) : Prop where
  reached : x.pathInside inputData segment path inputs 0
  cut : ∀ paramAbi pos,
    x.walkPath inputData segment path inputs 0 = .ok (some (paramAbi, pos)) →
      prefixesInside x.compactLen paramAbi inputData pos ∧
        ∀ length, scaleEncodingLength x.compactLen paramAbi inputData pos = .ok (some length) →
          pos + length ≤ inputData.length

/-- An `Env` field has one step, a `Var` field has one or more, and its argument lies inside of
the data. -/
structure FieldInside (inputs : List ParameterAbi) (params : CallParameters)
    (field : Abi.ConflictField) : Prop where
  env : field.kind = 2 → field.accessPath.length = 1
  var : field.kind = 3 → ∃ segment path, field.accessPath = segment :: path ∧
    x.VarInside inputs (getParamData params.data) segment path

def KeysInside (inputs : List ParameterAbi) (params : CallParameters) :
    List Abi.ConflictField → Prop
  | [] => True
  | field :: fields => x.FieldInside inputs params field ∧
      ∀ value, x.valueOf inputs params field = .ok (some value) → KeysInside inputs params fields

variable {x}

theorem skip_eq_ok {inputData : Bytes} {components : List ParameterAbi} {startPos : Nat}
    (hpos : startPos < 2 ^ 32) :
    (∃ pos, x.skip inputData components startPos = .ok pos) ↔
      x.skipInside inputData components startPos := by
  induction components generalizing startPos with
  | nil => exact ⟨fun _ => trivial, fun _ => ⟨_, rfl⟩⟩
  | cons component components ih =>
    exact ifPresent_bind_eq_ok (scaleEncodingLength_eq_ok component inputData (by omega))
      fun length _ => ih (Nat.mod_lt _ (Nat.two_pow_pos 32))

theorem skip_lt {inputData : Bytes} {components : List ParameterAbi} {startPos pos : Nat}
    (hpos : startPos < 2 ^ 32) (h : x.skip inputData components startPos = .ok (some pos)) :
    pos < 2 ^ 32 := by
  induction components generalizing startPos with
  | nil => cases h; exact hpos
  | cons component components ih =>
    obtain ⟨length, _, h⟩ := ifPresent_bind_eq_some h
    exact ih (Nat.mod_lt _ (Nat.two_pow_pos 32)) h

theorem walkPath_eq_ok {inputData : Bytes} {path : List Nat} {segment startPos : Nat}
    {components : List ParameterAbi} (hpos : startPos < 2 ^ 32) :
    (∃ found, x.walkPath inputData segment path components startPos = .ok found) ↔
      x.pathInside inputData segment path components startPos := by
  induction path generalizing segment components startPos with
  | nil =>
    unfold walkPath pathInside
    cases components[segment]? with
    | none => exact ⟨fun _ => nofun, fun _ => ⟨none, rfl⟩⟩
    | some paramAbi =>
      simp only [Option.some.injEq, forall_eq']
      exact ifPresent_bind_eq_ok (skip_eq_ok hpos) fun pos _ =>
        ⟨fun _ => trivial, fun _ => ⟨_, rfl⟩⟩
  | cons next path ih =>
    unfold walkPath pathInside
    cases components[segment]? with
    | none => exact ⟨fun _ => nofun, fun _ => ⟨none, rfl⟩⟩
    | some paramAbi =>
      simp only [Option.some.injEq, forall_eq']
      exact ifPresent_bind_eq_ok (skip_eq_ok hpos) fun pos h => ih (skip_lt hpos h)

theorem walkPath_lt {inputData : Bytes} {path : List Nat} {segment startPos pos : Nat}
    {components : List ParameterAbi} {paramAbi : ParameterAbi} (hpos : startPos < 2 ^ 32)
    (h : x.walkPath inputData segment path components startPos = .ok (some (paramAbi, pos))) :
    pos < 2 ^ 32 := by
  induction path generalizing segment components startPos with
  | nil =>
    unfold walkPath at h
    split at h
    next => cases h
    next found hfound =>
      obtain ⟨skipped, hs, h⟩ := ifPresent_bind_eq_some h
      cases h
      exact skip_lt hpos hs
  | cons next path ih =>
    unfold walkPath at h
    split at h
    next => cases h
    next found hfound =>
      obtain ⟨skipped, hs, h⟩ := ifPresent_bind_eq_some h
      exact ih (skip_lt hpos hs) h

theorem varValue_eq_ok {inputs : List ParameterAbi} {inputData : Bytes} {segment : Nat}
    {path : List Nat} :
    (∃ value, x.varValue inputs inputData segment path = .ok value) ↔
      x.VarInside inputs inputData segment path := by
  have hpos : 0 < 2 ^ 32 := Nat.two_pow_pos 32
  have hcut (paramAbi : ParameterAbi) (pos : Nat)
      (h : x.walkPath inputData segment path inputs 0 = .ok (some (paramAbi, pos))) :
      (∃ value, (scaleEncodingLength x.compactLen paramAbi inputData pos >>= ifPresent fun length =>
          do
            assertThat (pos + length ≤ inputData.length)
            return some ((inputData.drop pos).take length)) = .ok value) ↔
        prefixesInside x.compactLen paramAbi inputData pos ∧
          ∀ length, scaleEncodingLength x.compactLen paramAbi inputData pos = .ok (some length) →
            pos + length ≤ inputData.length := by
    have hlt := walkPath_lt hpos h
    refine ifPresent_bind_eq_ok (scaleEncodingLength_eq_ok paramAbi inputData (by omega))
      fun length _ => ?_
    rw [assertThat_bind_eq_ok, decide_eq_true_eq]
    exact ⟨And.left, fun h => ⟨h, _, rfl⟩⟩
  refine (ifPresent_bind_eq_ok (walkPath_eq_ok hpos) fun found h => hcut found.1 found.2 h).trans ?_
  exact ⟨fun h => ⟨h.1, fun paramAbi pos => h.2 (paramAbi, pos)⟩,
    fun h => ⟨h.reached, fun found => h.cut found.1 found.2⟩⟩

theorem valueOf_eq_ok {inputs : List ParameterAbi} {params : CallParameters}
    {field : Abi.ConflictField} :
    (∃ value, x.valueOf inputs params field = .ok value) ↔ x.FieldInside inputs params field := by
  unfold valueOf
  split
  next hk => exact ⟨fun _ => ⟨by simp [hk], by simp [hk]⟩, fun _ => ⟨_, rfl⟩⟩
  next hk => exact ⟨fun _ => ⟨by simp [hk], by simp [hk]⟩, fun _ => ⟨_, rfl⟩⟩
  next envKind hk hpath =>
    exact ⟨fun _ => ⟨fun _ => by simp [hpath], by simp [hk]⟩, fun _ => ⟨_, rfl⟩⟩
  next hk hpath =>
    refine ⟨nofun, fun h => ?_⟩
    obtain ⟨envKind, henv⟩ := List.length_eq_one_iff.mp (h.env hk)
    exact absurd henv (hpath envKind)
  next segment path hk hpath =>
    rw [varValue_eq_ok]
    refine ⟨fun h => ⟨by simp [hk], fun _ => ⟨segment, path, hpath, h⟩⟩, fun h => ?_⟩
    obtain ⟨segment', path', hpath', hvar⟩ := h.var hk
    cases hpath.symm.trans hpath'
    exact hvar
  next hk hpath =>
    refine ⟨nofun, fun h => ?_⟩
    obtain ⟨segment, path, hpath', _⟩ := h.var hk
    simp [hpath] at hpath'
  next henv _ hvar hnone =>
    refine ⟨fun _ => ⟨fun hk => absurd hk henv, fun hk => ?_⟩, fun _ => ⟨_, rfl⟩⟩
    cases hpath : field.accessPath with
    | nil => exact absurd hpath (hnone hk)
    | cons segment path => exact absurd hpath (hvar segment path hk)

theorem decodeKeys_eq_ok {inputs : List ParameterAbi} {params : CallParameters}
    {fields : List Abi.ConflictField} :
    (∃ keys, x.decodeKeys inputs params fields = .ok keys) ↔ x.KeysInside inputs params fields := by
  induction fields with
  | nil => exact ⟨fun _ => trivial, fun _ => ⟨_, rfl⟩⟩
  | cons field fields ih =>
    refine ifPresent_bind_eq_ok valueOf_eq_ok fun value _ => ?_
    rw [← ih]
    refine (ifPresent_bind_eq_ok Iff.rfl (Q := fun _ => True) fun keys _ =>
      ⟨fun _ => trivial, fun _ => ⟨_, rfl⟩⟩).trans ?_
    exact ⟨And.left, fun h => ⟨h, fun _ _ => trivial⟩⟩

/-- The keys are made inside of the data exactly when every field is. -/
theorem decodeConflictFields_eq_ok {functionAbi : FunctionAbi} {params : CallParameters} :
    (∃ keys, x.decodeConflictFields functionAbi params = .ok keys) ↔
      x.KeysInside functionAbi.inputs params functionAbi.conflictFields := by
  unfold decodeConflictFields
  cases hf : functionAbi.conflictFields with
  | nil => exact ⟨fun _ => trivial, fun _ => ⟨none, rfl⟩⟩
  | cons field fields => exact decodeKeys_eq_ok

end KeyContext

end BcosExecutor
