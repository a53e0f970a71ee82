import BcosExecutor.BigEndian
import BcosExecutor.EvmExecutors
import Mathlib.Data.Nat.Log
import Mathlib.Data.Rat.Floor

namespace BcosExecutor

namespace EvmPrecompiled

open Building

namespace Eip198

/-- A number of the input, past the end of which zeroes go on. -/
def number (input : Bytes) (start count : ℕ) : ℕ :=
  BigEndian.value 256 (BigEndian.window (input.map UInt8.toNat) start count)

def baseLength (input : Bytes) : ℕ := number input 0 32

def expLength (input : Bytes) : ℕ := number input 32 32

def modLength (input : Bytes) : ℕ := number input 64 32

def base (input : Bytes) : ℕ := number input 96 (baseLength input)

def exponent (input : Bytes) : ℕ := number input (96 + baseLength input) (expLength input)

def modulus (input : Bytes) : ℕ :=
  number input (96 + baseLength input + expLength input) (modLength input)

def result (input : Bytes) : ℕ :=
  if modulus input = 0 then 0 else base input ^ exponent input % modulus input

/-- The index of the highest bit, zero where there is none. -/
def highestBit (n : ℕ) : ℕ := Nat.log 2 n

def adjustedExpLength (input : Bytes) : ℕ :=
  if expLength input ≤ 32 then highestBit (exponent input)
  else 8 * (expLength input - 32) + highestBit (number input (96 + baseLength input) 32)

def multComplexity (x : ℕ) : ℤ :=
  if x ≤ 64 then x ^ 2
  else if x ≤ 1024 then ⌊(x : ℚ) ^ 2 / 4⌋ + 96 * x - 3072
  else ⌊(x : ℚ) ^ 2 / 16⌋ + 480 * x - 199680

def price (input : Bytes) : ℤ :=
  ⌊((multComplexity (max (modLength input) (baseLength input)) *
    max (adjustedExpLength input) 1 : ℤ) : ℚ) / 20⌋

end Eip198

theorem fromBigEndian_eq_value (bytes : Bytes) :
    fromBigEndian bytes = BigEndian.value 256 (bytes.map UInt8.toNat) := by
  rw [BigEndian.value_eq_foldl, List.foldl_map]
  rfl

/-- What is cropped and shifted is the number with the zeroes behind it. -/
theorem parseBigEndianRightPadded_eq_number (input : Bytes) (start count : ℕ) :
    parseBigEndianRightPadded input start count = Eip198.number input start count := by
  unfold Eip198.number parseBigEndianRightPadded
  rw [BigEndian.value_window, ← List.map_drop, ← List.map_take, ← fromBigEndian_eq_value,
    List.length_map]
  by_cases hstart : input.length < start
  · rw [if_pos hstart, List.drop_eq_nil_of_le (Nat.le_of_lt hstart), List.take_nil]
    exact (Nat.zero_mul _).symm
  · rw [if_neg hstart]
    dsimp only
    have hcropped : (input.drop start).take (min count (input.length - start)) =
        (input.drop start).take count := by
      rw [← List.length_drop, ← List.take_eq_take_min]
    rw [hcropped, Nat.shiftLeft_eq, Nat.pow_mul]

theorem toBigEndian_map (n size : ℕ) :
    (Executor.toBigEndian n size).map UInt8.toNat = BigEndian.expand 256 n size := by
  unfold Executor.toBigEndian BigEndian.expand
  rw [List.map_map]
  exact List.map_congr_left fun i _ => UInt8.toNat_ofNat'

theorem length_toBigEndian (n size : ℕ) : (Executor.toBigEndian n size).length = size := by
  unfold Executor.toBigEndian
  rw [List.length_map, List.length_range]

theorem value_toBigEndian {n size : ℕ} (h : n < 256 ^ size) :
    BigEndian.value 256 ((Executor.toBigEndian n size).map UInt8.toNat) = n := by
  rw [toBigEndian_map, BigEndian.value_expand 256 h]

theorem floor_square_div (x d : ℕ) : ⌊(x : ℚ) ^ 2 / d⌋ = (x : ℤ) * x / d := by
  have hfloor := Rat.floor_intCast_div_natCast ((x : ℤ) * x) d
  rw [Int.cast_mul, Int.cast_natCast, ← sq] at hfloor
  exact hfloor

theorem multComplexity_eq (x : ℕ) : multComplexity x = Eip198.multComplexity x := by
  have hquarter := floor_square_div x 4
  have hsixteenth := floor_square_div x 16
  rw [Nat.cast_ofNat, Nat.cast_ofNat] at hquarter hsixteenth
  unfold multComplexity Eip198.multComplexity
  rw [hquarter, hsixteenth, ← sq]
  norm_cast

theorem expLengthAdjust_eq (input : Bytes) :
    expLengthAdjust (baseLength input + 96) (expLength input) input =
      Eip198.adjustedExpLength input := by
  unfold expLengthAdjust Eip198.adjustedExpLength Eip198.highestBit Eip198.exponent
    Eip198.expLength Eip198.baseLength expLength baseLength
  rw [Nat.log2_eq_log_two, Nat.log2_eq_log_two]
  simp only [parseBigEndianRightPadded_eq_number, Nat.add_comm 96]

theorem modexpCost_eq_price (input : Bytes) : modexpCost input = Eip198.price input := by
  have hadjust := expLengthAdjust_eq input
  unfold Eip198.price
  rw [← hadjust, ← multComplexity_eq]
  refine Eq.trans ?_ (Rat.floor_intCast_div_natCast _ 20).symm
  unfold modexpCost Eip198.modLength Eip198.baseLength baseLength expLength
  simp only [parseBigEndianRightPadded_eq_number]
  rfl

/-- The lengths, and what is returned, are those of the standard. -/
theorem modexpOutput_spec (input : Bytes) :
    (modexpOutput input).length = Eip198.modLength input ∧
      BigEndian.value 256 ((modexpOutput input).map UInt8.toNat) = Eip198.result input := by
  have hlt := parseBigEndianRightPadded_lt input
    (96 + baseLength input + expLength input) (modLength input)
  unfold modexpOutput
  dsimp only
  rw [length_toBigEndian, value_toBigEndian (remainder_lt hlt)]
  unfold Eip198.result Eip198.base Eip198.exponent Eip198.modulus Eip198.modLength
    Eip198.baseLength Eip198.expLength modLength baseLength expLength
  simp only [parseBigEndianRightPadded_eq_number, ite_not]
  exact ⟨trivial, trivial⟩

/-- Executor and pricer follow the standard where the lengths are within the limit. -/
theorem modexp_follows_eip198 (input : Bytes) (hbase : Eip198.baseLength input ≤ lengthLimit)
    (hexp : Eip198.expLength input ≤ lengthLimit) (hmod : Eip198.modLength input ≤ lengthLimit) :
    (∃ out bound, Reaches (Executor.modexp input) (true, out) bound ∧
        out.length = Eip198.modLength input ∧
        BigEndian.value 256 (out.map UInt8.toNat) = Eip198.result input) ∧
      ∃ bound, Reaches (Executor.modexpPricer input) (Eip198.price input) bound := by
  have hlengths : baseLength input ≤ lengthLimit ∧ expLength input ≤ lengthLimit ∧
      modLength input ≤ lengthLimit := by
    unfold baseLength expLength modLength
    rw [parseBigEndianRightPadded_eq_number, parseBigEndianRightPadded_eq_number,
      parseBigEndianRightPadded_eq_number]
    exact ⟨hbase, hexp, hmod⟩
  obtain ⟨hbase', hexp', hmod'⟩ := hlengths
  refine ⟨⟨modexpOutput input, lengthLimit, ?_, modexpOutput_spec input⟩, 32, ?_⟩
  · exact reaches_modexp_output hmod' hbase' hexp' (by decide) hmod' hbase' hexp'
  · rw [← modexpCost_eq_price]
    exact reaches_cost .modexp input

/-- Three to the power of two modulo 1280, the last byte of which is missing. -/
def truncatedModexp : Bytes :=
  List.replicate 31 0 ++ [1] ++ List.replicate 31 0 ++ [1] ++ List.replicate 31 0 ++ [2] ++
    [3, 2, 5]

theorem modexp_follows_eip198_truncated :
    (∃ out bound, Reaches (Executor.modexp truncatedModexp) (true, out) bound ∧
        out.length = Eip198.modLength truncatedModexp ∧
        BigEndian.value 256 (out.map UInt8.toNat) = Eip198.result truncatedModexp) ∧
      ∃ bound, Reaches (Executor.modexpPricer truncatedModexp) (Eip198.price truncatedModexp)
        bound :=
  modexp_follows_eip198 truncatedModexp (by decide) (by decide) (by decide)

end EvmPrecompiled

end BcosExecutor
