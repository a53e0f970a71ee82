import BcosExecutor.ScaleUtils

namespace BcosExecutor

open ExceptRuns

theorem readByte_eq_ok {bytes : Bytes} {i : Nat} :
    (∃ byte, readByte bytes i = .ok byte) ↔ i < bytes.length := by
  unfold readByte
  constructor
  · rintro ⟨byte, h⟩
    split at h
    next hi => exact (List.getElem?_eq_some_iff.mp hi).1
    next => cases h
  · intro h
    rw [List.getElem?_eq_getElem h]
    exact ⟨_, rfl⟩

theorem readBytes_eq_ok {bytes : Bytes} {start n : Nat} (h : start + n ≤ bytes.length) :
    ∃ read, readBytes bytes start n = .ok read := by
  induction n generalizing start with
  | zero => exact ⟨[], rfl⟩
  | succ n ih =>
    obtain ⟨byte, hbyte⟩ := readByte_eq_ok.mpr (show start < bytes.length by omega)
    obtain ⟨rest, hrest⟩ := @ih (start + 1) (by omega)
    exact ⟨byte :: rest, by rw [readBytes, hbyte]; simp [hrest, bind, Except.bind, pure, Except.pure]⟩

theorem sizeFrom_le {bytes : Bytes} {startPos : Nat} (h : startPos ≤ bytes.length) :
    startPos + sizeFrom bytes startPos ≤ bytes.length := by
  have hmod : sizeFrom bytes startPos = (bytes.length - startPos) % 2 ^ 64 := by
    unfold sizeFrom
    rw [show bytes.length + 2 ^ 64 - startPos = bytes.length - startPos + 2 ^ 64 by omega,
      Nat.add_mod_right]
  have hle := Nat.mod_le (bytes.length - startPos) (2 ^ 64)
  omega

/-- A length prefix is read inside of the data exactly when it starts no later than at its end:
the difference of the sizes is only wrong beyond. -/
theorem decodeCompactInteger_eq_ok {bytes : Bytes} {startPos : Nat} (hpos : startPos < 2 ^ 64) :
    (∃ number, decodeCompactInteger bytes startPos = .ok number) ↔ startPos ≤ bytes.length := by
  constructor
  · intro h
    by_contra hlate
    have hsize : ¬ sizeFrom bytes startPos < 1 := by
      unfold sizeFrom
      rw [Nat.mod_eq_of_lt (by omega)]
      omega
    rw [decodeCompactInteger, if_neg hsize, ok_bind_iff] at h
    obtain ⟨byte, hbyte, _⟩ := h
    have := readByte_eq_ok.mp ⟨byte, hbyte⟩
    omega
  · intro h
    have hle := sizeFrom_le h
    unfold decodeCompactInteger
    by_cases hsize : sizeFrom bytes startPos < 1
    · rw [if_pos hsize]
      exact ⟨none, rfl⟩
    · rw [if_neg hsize, ok_bind_iff]
      obtain ⟨firstByte, hfirst⟩ := readByte_eq_ok.mpr (show startPos < bytes.length by omega)
      refine ⟨firstByte, hfirst, ?_⟩
      split
      · exact ⟨_, rfl⟩
      · split
        · exact ⟨_, rfl⟩
        · obtain ⟨secondByte, hsecond⟩ :=
            readByte_eq_ok.mpr (show startPos + 1 < bytes.length by omega)
          exact ok_bind_iff.mpr ⟨secondByte, hsecond, _, rfl⟩
      · split
        · exact ⟨_, rfl⟩
        · obtain ⟨rest, hrest⟩ := readBytes_eq_ok (show startPos + 1 + 3 ≤ bytes.length by omega)
          exact ok_bind_iff.mpr ⟨rest, hrest, _, rfl⟩
      · dsimp only
        split
        · exact ⟨_, rfl⟩
        · obtain ⟨rest, hrest⟩ := readBytes_eq_ok
            (show startPos + 1 + (firstByte.toNat / 4 + 4) ≤ bytes.length by omega)
          exact ok_bind_iff.mpr ⟨rest, hrest, _, rfl⟩

section

variable (compactLen : Nat → Nat)

/-- A property of the positions at which the elements start. -/
def elementsInside (inside : Nat → Prop) (element : Nat → Checked (Option Nat)) :
    Nat → Nat → Prop
  | 0, _ => True
  | n + 1, startPos => inside startPos ∧ ∀ value, element startPos = .ok (some value) →
      elementsInside inside element n ((startPos + value) % 2 ^ 64)

def typeInside (tuple : Bytes → Nat → Checked (Option Nat)) (tupleInside : Bytes → Nat → Prop) :
    Nat → List Char → Bytes → Nat → Prop
  | 0, _, _, _ => True
  | fuel + 1, type, encodedBytes, startPos =>
    if type.getLast? = some ']' then
      ∀ leftBracketPos, rfind '[' type = some leftBracketPos →
        let element := typeLength compactLen tuple fuel (type.take leftBracketPos) encodedBytes
        let inside := typeInside tuple tupleInside fuel (type.take leftBracketPos) encodedBytes
        if leftBracketPos + 2 = type.length then
          startPos ≤ encodedBytes.length ∧
            ∀ size, decodeCompactInteger encodedBytes startPos = .ok (some size) →
              elementsInside inside element size
                ((startPos + compactLen size % 2 ^ 32) % 2 ^ 64)
        else
          ∀ size, stoul (type.drop (leftBracketPos + 1)) = some size →
            elementsInside inside element (size % 2 ^ 32) startPos
    else if type = "string".toList ∨ type = "bytes".toList then startPos ≤ encodedBytes.length
    else if type = "tuple".toList then tupleInside encodedBytes startPos
    else True

mutual

/-- Every length prefix that the type calls for starts no later than the data ends. -/
def prefixesInside : ParameterAbi → Bytes → Nat → Prop
  | ⟨type, components⟩, encodedBytes, startPos =>
    typeInside compactLen (fun bytes pos => componentsLength compactLen components bytes pos 0)
      (componentsInside components) (type.length + 1) type.toList encodedBytes startPos

def componentsInside : List ParameterAbi → Bytes → Nat → Prop
  | [], _, _ => True
  | component :: components, encodedBytes, startPos =>
    prefixesInside component encodedBytes startPos ∧
      ∀ value, scaleEncodingLength compactLen component encodedBytes startPos = .ok (some value) →
        componentsInside components encodedBytes ((startPos + value) % 2 ^ 64)

end

variable {compactLen}

theorem mod_lt_size (n : Nat) : n % 2 ^ 64 < 2 ^ 64 :=
  Nat.mod_lt _ (Nat.two_pow_pos 64)

theorem elementsLength_eq_ok {element : Nat → Checked (Option Nat)} {inside : Nat → Prop}
    (h : ∀ pos, pos < 2 ^ 64 → ((∃ res, element pos = .ok res) ↔ inside pos)) (n : Nat)
    {pos : Nat} (hpos : pos < 2 ^ 64) (length : Nat) :
    (∃ res, elementsLength element n pos length = .ok res) ↔
      elementsInside inside element n pos := by
  induction n generalizing pos length with
  | zero => exact ⟨fun _ => trivial, fun _ => ⟨_, rfl⟩⟩
  | succ n ih => exact ifPresent_bind_eq_ok (h pos hpos) fun _ _ => ih (mod_lt_size _) _

theorem typeLength_eq_ok {tuple : Bytes → Nat → Checked (Option Nat)}
    {tupleInside : Bytes → Nat → Prop} {encodedBytes : Bytes}
    (htuple : ∀ pos, pos < 2 ^ 64 →
      ((∃ res, tuple encodedBytes pos = .ok res) ↔ tupleInside encodedBytes pos))
    (fuel : Nat) (type : List Char) {pos : Nat} (hpos : pos < 2 ^ 64) :
    (∃ res, typeLength compactLen tuple fuel type encodedBytes pos = .ok res) ↔
      typeInside compactLen tuple tupleInside fuel type encodedBytes pos := by
  induction fuel generalizing type pos with
  | zero => exact ⟨fun _ => trivial, fun _ => ⟨none, rfl⟩⟩
  | succ fuel ih =>
    unfold typeLength typeInside
    split
    · cases hleft : rfind '[' type with
      | none => exact ⟨fun _ => nofun, fun _ => ⟨none, rfl⟩⟩
      | some left =>
        have helement (pos : Nat) (hpos : pos < 2 ^ 64) := ih (type.take left) hpos
        simp only [Option.some.injEq, forall_eq']
        split
        · exact ifPresent_bind_eq_ok (decodeCompactInteger_eq_ok hpos)
            fun size _ => elementsLength_eq_ok helement size (mod_lt_size _) _
        · cases stoul (type.drop (left + 1)) with
          | none => exact ⟨fun _ => nofun, fun _ => ⟨none, rfl⟩⟩
          | some size =>
            simp only [Option.some.injEq, forall_eq']
            exact elementsLength_eq_ok helement _ hpos 0
    · by_cases hstring : type = "string".toList ∨ type = "bytes".toList
      · have hnumber : ¬ ("uint".toList.isPrefixOf type || "int".toList.isPrefixOf type) := by
          rcases hstring with rfl | rfl <;> decide
        rw [if_neg hnumber, if_pos hstring, if_pos hstring]
        refine (ifPresent_bind_eq_ok (decodeCompactInteger_eq_ok hpos)
          (Q := fun _ => True) fun size _ => ⟨fun _ => trivial, fun _ => ⟨_, rfl⟩⟩).trans ?_
        exact ⟨And.left, fun h => ⟨h, fun _ _ => trivial⟩⟩
      · rw [if_neg hstring, if_neg hstring]
        by_cases htype : type = "tuple".toList
        · subst htype
          exact htuple pos hpos
        · rw [if_neg htype, if_neg htype]
          refine ⟨fun _ => trivial, fun _ => ?_⟩
          split
          · exact ⟨_, rfl⟩
          · split
            · exact ⟨_, rfl⟩
            · split
              · exact ⟨_, rfl⟩
              · exact ⟨_, rfl⟩

mutual

/-- The length is computed inside of the data exactly when every length prefix starts there. -/
theorem scaleEncodingLength_eq_ok :
    ∀ (param : ParameterAbi) (encodedBytes : Bytes) {pos : Nat}, pos < 2 ^ 64 →
      ((∃ res, scaleEncodingLength compactLen param encodedBytes pos = .ok res) ↔
        prefixesInside compactLen param encodedBytes pos)
  | ⟨type, components⟩, encodedBytes, pos, hpos => by
    unfold scaleEncodingLength prefixesInside
    exact typeLength_eq_ok
      (fun pos hpos => componentsLength_eq_ok components encodedBytes hpos 0) _ _ hpos

theorem componentsLength_eq_ok :
    ∀ (components : List ParameterAbi) (encodedBytes : Bytes) {pos : Nat}, pos < 2 ^ 64 →
      ∀ length, ((∃ res, componentsLength compactLen components encodedBytes pos length = .ok res) ↔
        componentsInside compactLen components encodedBytes pos)
  | [], _, _, _, _ => ⟨fun _ => trivial, fun _ => ⟨_, rfl⟩⟩
  | component :: components, encodedBytes, pos, hpos, length => by
    unfold componentsLength componentsInside
    exact ifPresent_bind_eq_ok (scaleEncodingLength_eq_ok component encodedBytes hpos)
      fun value _ => componentsLength_eq_ok components encodedBytes (mod_lt_size _) _

end

end

end BcosExecutor
