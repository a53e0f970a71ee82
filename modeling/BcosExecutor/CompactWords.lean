import BcosExecutor.CompactNumbers
import BcosExecutor.ScaleBounds
import Mathlib.Data.Nat.ModEq
import Mathlib.Tactic.Ring

namespace BcosExecutor

namespace CompactWords

def size (encodedBytes : Bytes) : UInt64 :=
  .ofNat encodedBytes.length

def byteAt (encodedBytes : Bytes) (i : UInt64) : Checked UInt8 :=
  readByte encodedBytes i.toNat

/-- A loop over the bytes from the given one on, each of which changes `number` and
`multiplier`. -/
def addBytes {Multiplier : Type} (turn : UInt8 → UInt32 × Multiplier → UInt32 × Multiplier)
    (encodedBytes : Bytes) (startPos : UInt64) :
    Nat → UInt32 → UInt32 × Multiplier → Checked UInt32
  | 0, _, state => .ok state.1
  | turns + 1, i, state => do
    let byte ← byteAt encodedBytes (startPos + i.toUInt64)
    addBytes turn encodedBytes startPos turns (i + 1) (turn byte state)

/-- The turn of the four-byte mode, where `multiplier` is a `size_t`. -/
def fourByteTurn (byte : UInt8) (state : UInt32 × UInt64) : UInt32 × UInt64 :=
  ((state.1.toUInt64 + byte.toUInt64 * state.2).toUInt32, state.2 <<< 8)

/-- The turn of the big-integer mode, where `multiplier` is `unsigned` as `number` is. -/
def bigIntegerTurn (byte : UInt8) (state : UInt32 × UInt32) : UInt32 × UInt32 :=
  (state.1 + byte.toUInt32 * state.2, state.2 * 256)

/-- The function with the machine words of the source. -/
def decodeCompactInteger (encodedBytes : Bytes) (startPos : UInt64) : Checked (Option UInt64) :=
  if size encodedBytes - startPos < 1 then .ok none
  else do
    let firstByte ← byteAt encodedBytes startPos
    let flag := firstByte &&& 0b00000011
    if flag = 0b00 then
      let number := (firstByte >>> 2).toUInt64.toUInt32
      return some number.toUInt64
    else if flag = 0b01 then
      if size encodedBytes - startPos < 2 then return none
      else
        let secondByte ← byteAt encodedBytes (startPos + 1)
        let number := (((firstByte &&& 0b11111100).toUInt64 + secondByte.toUInt64 * 256) >>> 2).toUInt32
        return some number.toUInt64
    else if flag = 0b10 then
      if size encodedBytes - startPos < 4 then return none
      else
        let number ← addBytes fourByteTurn encodedBytes startPos 3 1 (firstByte.toUInt32, 256)
        return some (number >>> 2).toUInt64
    else if flag = 0b11 then
      let bytesCount := (firstByte.toUInt32 >>> 2) + 4
      if size encodedBytes - startPos < (bytesCount + 1).toUInt64 then return none
      else
        let number ← addBytes bigIntegerTurn encodedBytes startPos bytesCount.toNat 1 (0, 1)
        return some number.toUInt64
    else return none

theorem toNat_flag (b : UInt8) : (b &&& 0b00000011).toNat = b.toNat % 4 := by
  rw [UInt8.toNat_and]
  exact Nat.and_two_pow_sub_one_eq_mod b.toNat 2

theorem toNat_high (b : UInt8) : (b &&& 0b11111100).toNat = b.toNat / 4 * 4 := by
  have h : ∀ n < 256, n &&& 252 = n / 4 * 4 := by decide +kernel
  rw [UInt8.toNat_and]
  exact h b.toNat b.toNat_lt

theorem toNat_size {encodedBytes : Bytes} (hlen : encodedBytes.length < 2 ^ 64)
    (startPos : UInt64) :
    (size encodedBytes - startPos).toNat = sizeFrom encodedBytes startPos.toNat := by
  have hpos := startPos.toNat_lt
  rw [UInt64.toNat_sub, size, UInt64.toNat_ofNat', Nat.mod_eq_of_lt hlen, sizeFrom]
  congr 1
  omega

/-- The turns of both loops, for what `multiplier` counts up to 32 bits. -/
def Accumulates {Multiplier : Type} (value : Multiplier → Nat)
    (turn : UInt8 → UInt32 × Multiplier → UInt32 × Multiplier) : Prop :=
  ∀ byte state, (turn byte state).1.toNat ≡ state.1.toNat + byte.toNat * value state.2 [MOD 2 ^ 32] ∧
    value (turn byte state).2 ≡ value state.2 * 256 [MOD 2 ^ 32]

theorem accumulates_fourByteTurn : Accumulates UInt64.toNat fourByteTurn := by
  intro byte state
  refine ⟨?_, ?_⟩
  · simp [fourByteTurn, Nat.ModEq]
  · simp [fourByteTurn, Nat.ModEq, Nat.shiftLeft_eq]

theorem accumulates_bigIntegerTurn : Accumulates UInt32.toNat bigIntegerTurn := by
  intro byte state
  refine ⟨?_, ?_⟩
  · simp [bigIntegerTurn, Nat.ModEq]
  · simp [bigIntegerTurn, Nat.ModEq]

section

variable {Multiplier : Type} {value : Multiplier → Nat}
  {turn : UInt8 → UInt32 × Multiplier → UInt32 × Multiplier}

theorem Accumulates.add (h : Accumulates value turn) (byte : UInt8) (rest : Bytes)
    (state : UInt32 × Multiplier) :
    (turn byte state).1.toNat + value (turn byte state).2 * littleEndian rest ≡
      state.1.toNat + value state.2 * littleEndian (byte :: rest) [MOD 2 ^ 32] := by
  obtain ⟨hnumber, hmultiplier⟩ := h byte state
  have hbytes : littleEndian (byte :: rest) ≡ byte.toNat + 256 * littleEndian rest [MOD 2 ^ 32] :=
    Nat.mod_modEq _ _
  calc
    _ ≡ state.1.toNat + byte.toNat * value state.2 + value state.2 * 256 * littleEndian rest
        [MOD 2 ^ 32] := hnumber.add (hmultiplier.mul_right _)
    _ = state.1.toNat + value state.2 * (byte.toNat + 256 * littleEndian rest) := by ring
    _ ≡ _ [MOD 2 ^ 32] := (hbytes.symm.mul_left _).add_left _

/-- The loop adds up the bytes that it reads. -/
theorem Accumulates.loop (h : Accumulates value turn) {encodedBytes : Bytes}
    {startPos : UInt64} (hlen : encodedBytes.length < 2 ^ 64) {turns : Nat} {i : UInt32}
    (hi : i.toNat + turns < 2 ^ 32) (hpos : startPos.toNat + i.toNat + turns ≤ encodedBytes.length)
    (state : UInt32 × Multiplier) :
    ∃ number bytes, addBytes turn encodedBytes startPos turns i state = .ok number ∧
      readBytes encodedBytes (startPos.toNat + i.toNat) turns = .ok bytes ∧
      number.toNat = (state.1.toNat + value state.2 * littleEndian bytes) % 2 ^ 32 := by
  induction turns generalizing i state with
  | zero => exact ⟨state.1, [], rfl, rfl, (Nat.mod_eq_of_lt state.1.toNat_lt).symm⟩
  | succ turns ih =>
    have hat : (startPos + i.toUInt64).toNat = startPos.toNat + i.toNat := by
      rw [UInt64.toNat_add, UInt32.toNat_toUInt64]
      omega
    have hnext : (i + 1).toNat = i.toNat + 1 := by
      rw [UInt32.toNat_add]
      exact Nat.mod_eq_of_lt (show i.toNat + 1 < 2 ^ 32 by omega)
    obtain ⟨byte, hbyte⟩ := readByte_eq_ok.mpr
      (show startPos.toNat + i.toNat < encodedBytes.length by omega)
    obtain ⟨number, rest, hloop, hrest, hnumber⟩ :=
      ih (i := i + 1) (by omega) (by omega) (turn byte state)
    rw [hnext, ← Nat.add_assoc] at hrest
    refine ⟨number, byte :: rest, ?_, ?_, hnumber.trans (h.add byte rest state)⟩
    · rw [addBytes, byteAt, hat, hbyte]
      exact hloop
    · rw [readBytes, hbyte]
      simp only [bind, Except.bind, hrest]
      rfl

end

theorem size_lt_iff {encodedBytes : Bytes} (hlen : encodedBytes.length < 2 ^ 64)
    (startPos needed : UInt64) : size encodedBytes - startPos < needed ↔
      sizeFrom encodedBytes startPos.toNat < needed.toNat := by
  rw [UInt64.lt_iff_toNat_lt, toNat_size hlen]

theorem flag_eq_iff (b flag : UInt8) : b &&& 0b00000011 = flag ↔ b.toNat % 4 = flag.toNat := by
  rw [← UInt8.toNat_inj, toNat_flag]

theorem littleEndian_lt (bytes : Bytes) : littleEndian bytes < 2 ^ 32 := by
  cases bytes with
  | nil => exact Nat.two_pow_pos 32
  | cons byte rest => exact Nat.mod_lt _ (Nat.two_pow_pos 32)

theorem toNat_single (firstByte : UInt8) :
    (firstByte >>> 2).toUInt64.toUInt32.toUInt64.toNat = firstByte.toNat / 4 := by
  have hbyte := firstByte.toNat_lt
  simp [Nat.shiftRight_eq_div_pow]
  omega

theorem toNat_double (firstByte secondByte : UInt8) :
    (((firstByte &&& 0b11111100).toUInt64 + secondByte.toUInt64 * 256) >>> 2).toUInt32.toUInt64.toNat =
      (firstByte.toNat / 4 * 4 + secondByte.toNat * 256) / 4 := by
  have hfirst := firstByte.toNat_lt
  have hsecond := secondByte.toNat_lt
  have hhigh := toNat_high firstByte
  simp only [UInt32.toNat_toUInt64, UInt64.toNat_toUInt32, UInt64.toNat_shiftRight,
    UInt64.toNat_add, UInt64.toNat_mul, UInt8.toNat_toUInt64, hhigh, UInt64.reduceToNat,
    Nat.shiftRight_eq_div_pow, Nat.reduceMod, Nat.reducePow]
  omega

theorem toNat_bytesCount (firstByte : UInt8) :
    ((firstByte.toUInt32 >>> 2) + 4).toNat = firstByte.toNat / 4 + 4 := by
  have hbyte := firstByte.toNat_lt
  simp [Nat.shiftRight_eq_div_pow]
  omega

section

variable {encodedBytes : Bytes} {startPos : UInt64} (hlen : encodedBytes.length < 2 ^ 64)

include hlen

theorem fourByteLoop (hpos : startPos.toNat + 4 ≤ encodedBytes.length) (firstByte : UInt8) :
    ∃ number rest,
      addBytes fourByteTurn encodedBytes startPos 3 1 (firstByte.toUInt32, 256) = .ok number ∧
      readBytes encodedBytes (startPos.toNat + 1) 3 = .ok rest ∧
      (number >>> 2).toUInt64.toNat = littleEndian (firstByte :: rest) / 4 := by
  have hturns : (1 : UInt32).toNat + 3 < 2 ^ 32 := by decide
  have hin : startPos.toNat + (1 : UInt32).toNat + 3 ≤ encodedBytes.length := hpos
  obtain ⟨number, rest, hloop, hrest, hnumber⟩ :=
    accumulates_fourByteTurn.loop hlen hturns hin (firstByte.toUInt32, 256)
  refine ⟨number, rest, hloop, hrest, ?_⟩
  rw [UInt32.toNat_toUInt64, UInt32.toNat_shiftRight, hnumber]
  exact Nat.shiftRight_eq_div_pow _ 2

theorem bigIntegerLoop {bytesCount : Nat} (hcount : bytesCount < 2 ^ 31)
    (hpos : startPos.toNat + (bytesCount + 1) ≤ encodedBytes.length) :
    ∃ number rest, addBytes bigIntegerTurn encodedBytes startPos bytesCount 1 (0, 1) = .ok number ∧
      readBytes encodedBytes (startPos.toNat + 1) bytesCount = .ok rest ∧
      number.toUInt64.toNat = littleEndian rest := by
  have hone : (1 : UInt32).toNat = 1 := rfl
  have hturns : (1 : UInt32).toNat + bytesCount < 2 ^ 32 := by omega
  have hin : startPos.toNat + (1 : UInt32).toNat + bytesCount ≤ encodedBytes.length := by omega
  obtain ⟨number, rest, hloop, hrest, hnumber⟩ :=
    accumulates_bigIntegerTurn.loop hlen hturns hin (0, 1)
  refine ⟨number, rest, hloop, hrest, hnumber.trans ?_⟩
  show (0 + 1 * littleEndian rest) % 2 ^ 32 = littleEndian rest
  rw [Nat.zero_add, Nat.one_mul, Nat.mod_eq_of_lt (littleEndian_lt rest)]

end

/-- The words of the source compute the numbers of the model. -/
theorem toNat_decodeCompactInteger {encodedBytes : Bytes} (hlen : encodedBytes.length < 2 ^ 64)
    (startPos : UInt64) :
    Option.map UInt64.toNat <$> decodeCompactInteger encodedBytes startPos =
      BcosExecutor.decodeCompactInteger encodedBytes startPos.toNat := by
  have hpos := startPos.toNat_lt
  unfold decodeCompactInteger BcosExecutor.decodeCompactInteger
  simp only [size_lt_iff hlen, flag_eq_iff, UInt64.reduceToNat, UInt8.reduceToNat]
  by_cases hone : sizeFrom encodedBytes startPos.toNat < 1
  · rw [if_pos hone, if_pos hone]
    rfl
  rw [if_neg hone, if_neg hone, byteAt]
  cases hfirst : readByte encodedBytes startPos.toNat with
  | error e => rfl
  | ok firstByte =>
    have hin := readByte_eq_ok.mp ⟨firstByte, hfirst⟩
    have hle := sizeFrom_le (Nat.le_of_lt hin)
    have hbyte := firstByte.toNat_lt
    simp only [bind, Except.bind]
    obtain hflag | hflag | hflag | hflag : firstByte.toNat % 4 = 0 ∨ firstByte.toNat % 4 = 1 ∨
      firstByte.toNat % 4 = 2 ∨ firstByte.toNat % 4 = 3 := by omega
    · rw [if_pos hflag, hflag]
      exact congrArg (Except.ok ∘ some) (toNat_single firstByte)
    · rw [if_neg (by omega), if_pos hflag, hflag]
      by_cases hshort : sizeFrom encodedBytes startPos.toNat < 2
      · rw [if_pos hshort, if_pos hshort]
        rfl
      obtain ⟨secondByte, hsecond⟩ := readByte_eq_ok.mpr
        (show startPos.toNat + 1 < encodedBytes.length by omega)
      have hnext : (startPos + 1).toNat = startPos.toNat + 1 := by
        rw [UInt64.toNat_add]
        exact Nat.mod_eq_of_lt (show startPos.toNat + 1 < 2 ^ 64 by omega)
      rw [if_neg hshort, if_neg hshort, byteAt, hnext, hsecond]
      exact congrArg (Except.ok ∘ some) (toNat_double firstByte secondByte)
    · rw [if_neg (by omega), if_neg (by omega), if_pos hflag, hflag]
      by_cases hshort : sizeFrom encodedBytes startPos.toNat < 4
      · rw [if_pos hshort, if_pos hshort]
        rfl
      obtain ⟨number, rest, hloop, hrest, hnumber⟩ :=
        fourByteLoop hlen (show startPos.toNat + 4 ≤ _ by omega) firstByte
      rw [if_neg hshort, if_neg hshort, hloop, hrest]
      exact congrArg (Except.ok ∘ some) hnumber
    · rw [if_neg (by omega), if_neg (by omega), if_neg (by omega), if_pos hflag, hflag]
      have hcount := toNat_bytesCount firstByte
      have hneeded : ((firstByte.toUInt32 >>> 2) + 4 + 1).toUInt64.toNat =
          firstByte.toNat / 4 + 4 + 1 := by
        rw [UInt32.toNat_toUInt64, UInt32.toNat_add, hcount]
        exact Nat.mod_eq_of_lt (show firstByte.toNat / 4 + 4 + 1 < 2 ^ 32 by omega)
      rw [hneeded, hcount]
      by_cases hshort : sizeFrom encodedBytes startPos.toNat < firstByte.toNat / 4 + 4 + 1
      · rw [if_pos hshort, if_pos hshort]
        rfl
      obtain ⟨number, rest, hloop, hrest, hnumber⟩ :=
        bigIntegerLoop hlen (show firstByte.toNat / 4 + 4 < 2 ^ 31 by omega)
          (show startPos.toNat + (firstByte.toNat / 4 + 4 + 1) ≤ _ by omega)
      rw [if_neg hshort, if_neg hshort, hloop, hrest]
      exact congrArg (Except.ok ∘ some) hnumber

end CompactWords

end BcosExecutor
