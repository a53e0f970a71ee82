import BcosExecutor.EvmExecutors
import BcosExecutor.ReadPrograms
import Mathlib.Data.List.GetD

namespace BcosExecutor

namespace EvmPrecompiled

abbrev ByteReading := Reading UInt8

namespace ByteReads

open Building (byteSize)
open Reading

def parseBigEndianRightPadded (n start count : Nat) : ByteReading Nat := do
  if n < start then
    return 0
  else do
    check (count ≤ lengthLimit)
    let cropped ← readRange start (min count (n - start))
    check (count - cropped.length ≤ lengthLimit)
    let ret := fromBigEndian cropped <<< (8 * (count - cropped.length))
    sized (byteSize ret)
    return ret

def modexp (n : Nat) : ByteReading (Bool × Bytes) := do
  let baseLength ← parseBigEndianRightPadded n 0 32
  let expLength ← parseBigEndianRightPadded n 32 32
  let modLength ← parseBigEndianRightPadded n 64 32
  check (modLength ≤ lengthLimit)
  check (baseLength ≤ lengthLimit)
  if modLength = 0 ∧ baseLength = 0 then
    return (true, [])
  else do
    check (expLength ≤ lengthLimit)
    let base ← parseBigEndianRightPadded n 96 baseLength
    let exp ← parseBigEndianRightPadded n (96 + baseLength) expLength
    let mod ← parseBigEndianRightPadded n (96 + baseLength + expLength) modLength
    let result := if mod ≠ 0 then base ^ exp % mod else 0
    sized (byteSize result)
    sized modLength
    return (true, Executor.toBigEndian result modLength)

def ecRecover (c : Crypto) : ByteReading (Bool × Bytes) := do
  let signature ← readRange 64 64
  let v ← readAt 63
  let rawRSV := signature ++ [v - 27]
  sized 65
  let msgHash ← readRange 0 32
  sized 32
  sized 64
  match c.recoverPublicKey msgHash rawRSV with
  | none => return (true, [])
  | some publicKey =>
    match c.keccak256 publicKey with
    | none => return (true, [])
    | some pubkeyHash => return (true, List.replicate 12 0 ++ pubkeyHash.drop 12)

/-- The whole input goes to a function of the library. -/
def wedpr (size : Nat) (function : Bytes → Bool × Bytes) (n : Nat) :
    ByteReading (Bool × Bytes) := do
  sized size
  let input ← readRange 0 n
  return function input

def alt_bn128_pairing_product (c : Crypto) (n : Nat) : ByteReading (Bool × Bytes) := do
  sized 32
  if n / 192 * 192 ≠ n then
    return (false, List.replicate 32 0)
  else do
    let input ← readRange 0 n
    return c.alt_bn128_pairing_product input

def blake2_compression (c : Crypto) (n : Nat) : ByteReading (Bool × Bytes) := do
  if n ≠ 213 then
    return (false, [])
  else do
    let rounds ← readRange 0 4
    let finalBlockIndicator ← readAt 212
    if finalBlockIndicator ≠ 0 ∧ finalBlockIndicator ≠ 1 then
      return (false, [])
    else do
      sized 64
      let stateVector ← readRange 4 64
      let messageBlockVector ← readRange 68 128
      let offsetCounter0 ← readRange 196 8
      let offsetCounter1 ← readRange 204 8
      return (true, c.blake2FCompression (fromBigEndian rounds) stateVector offsetCounter0
        offsetCounter1 (finalBlockIndicator = 1) messageBlockVector)

/-- The executors as they read an input of `n` bytes, with all of the buffers that they hand to the
library of cryptography. -/
def execute (c : Crypto) (n : Nat) : EvmPrecompiled → ByteReading (Bool × Bytes)
  | .ecrecover => ecRecover c
  | .sha256 => wedpr 32 (fun input => (true, c.sha256 input)) n
  | .ripemd160 => wedpr 32 (fun input => (true, List.replicate 12 0 ++ c.ripemd160 input)) n
  | .identity => wedpr n (fun input => (true, input)) n
  | .modexp => modexp n
  | .alt_bn128_G1_add => wedpr 64 c.alt_bn128_g1_add n
  | .alt_bn128_G1_mul => wedpr 64 c.alt_bn128_g1_mul n
  | .alt_bn128_pairing_product => alt_bn128_pairing_product c n
  | .blake2_compression => blake2_compression c n

def expLengthAdjust (expOffset expLength n : Nat) : ByteReading Nat := do
  if expLength ≤ 32 then do
    let exp ← parseBigEndianRightPadded n expOffset expLength
    return exp.log2
  else do
    let expFirstWord ← parseBigEndianRightPadded n expOffset 32
    return 8 * (expLength - 32) + expFirstWord.log2

def modexpPricer (n : Nat) : ByteReading Int := do
  let baseLength ← parseBigEndianRightPadded n 0 32
  let expLength ← parseBigEndianRightPadded n 32 32
  let modLength ← parseBigEndianRightPadded n 64 32
  let maxLength := max modLength baseLength
  let adjustedExpLength ← expLengthAdjust (baseLength + 96) expLength n
  return multComplexity maxLength * max adjustedExpLength 1 / 20

def linearPricer (base word n : Nat) : ByteReading Int :=
  return base + (n + 31) / 32 * word

def blake2Pricer (n : Nat) : ByteReading Int := do
  if 4 ≤ n then do
    let rounds ← readRange 0 4
    return fromBigEndian rounds
  else
    return 0

def cost (n : Nat) : EvmPrecompiled → ByteReading Int
  | .ecrecover => linearPricer 3000 0 n
  | .sha256 => linearPricer 60 12 n
  | .ripemd160 => linearPricer 600 120 n
  | .identity => linearPricer 15 3 n
  | .modexp => modexpPricer n
  | .alt_bn128_G1_add => linearPricer 150 0 n
  | .alt_bn128_G1_mul => linearPricer 6000 0 n
  | .alt_bn128_pairing_product => return ((45000 + n.toUInt64 / 192 * 34000).toNat : Int)
  | .blake2_compression => blake2Pricer n

/-- An input in the memory, and what follows it. -/
def memory (c : Crypto) (input : Bytes) (i : Nat) : UInt8 :=
  input.getD i (c.pastEnd input i)

variable {c : Crypto} {input : Bytes}

/-- A range of the memory inside of the input. -/
theorem range_memory {start count : Nat} (h : start + count ≤ input.length) :
    (List.range' start count).map (memory c input) = (input.drop start).take count := by
  refine List.ext_getElem ?_ fun i hi hi' => ?_
  · rw [List.length_map, List.length_range', List.length_take, List.length_drop]
    omega
  · rw [List.length_map, List.length_range'] at hi
    rw [List.getElem_map, List.getElem_range', List.getElem_take, List.getElem_drop, Nat.one_mul]
    exact (List.getElem_eq_getD _).symm

theorem range_memory_all : (List.range' 0 input.length).map (memory c input) = input := by
  rw [range_memory (Nat.le_of_eq (Nat.zero_add _)), List.drop_zero, List.take_length]

theorem run_parseBigEndianRightPadded (start count : Nat) :
    (parseBigEndianRightPadded input.length start count).run (memory c input) =
      Executor.parseBigEndianRightPadded input start count := by
  unfold parseBigEndianRightPadded Executor.parseBigEndianRightPadded
  rw [run_ite]
  by_cases hstart : input.length < start
  · rw [if_pos hstart, if_pos hstart, run_pure]
  · rw [if_neg hstart, if_neg hstart]
    simp only [run_bind, run_check, run_readRange, run_sized, run_pure, pure_bind]
    rw [range_memory (by omega)]

theorem run_modexp : (modexp input.length).run (memory c input) = Executor.modexp input := by
  unfold modexp Executor.modexp
  simp only [run_bind, run_parseBigEndianRightPadded, run_check, run_ite, run_sized, run_pure]

theorem range_memory_from (start count : Nat) : (List.range' start count).map (memory c input) =
    (List.range count).map fun i => memory c input (start + i) := by
  rw [List.range'_eq_map_range, List.map_map]
  rfl

theorem run_ecRecover :
    (ecRecover c).run (memory c input) = Executor.ecRecover c input := by
  have hrecovered (out : Option Bytes) : run (memory c input) (match out with
      | none => (return (true, []) : ByteReading (Bool × Bytes))
      | some publicKey =>
        match c.keccak256 publicKey with
        | none => return (true, [])
        | some pubkeyHash => return (true, List.replicate 12 0 ++ pubkeyHash.drop 12)) =
      match out with
      | none => (return (true, []) : Building (Bool × Bytes))
      | some publicKey =>
        match c.keccak256 publicKey with
        | none => return (true, [])
        | some pubkeyHash => return (true, List.replicate 12 0 ++ pubkeyHash.drop 12) := by
    cases out with
    | none => rfl
    | some publicKey =>
      dsimp only
      cases c.keccak256 publicKey <;> rfl
  unfold ecRecover Executor.ecRecover
  simp only [run_bind, run_readRange, run_readAt, run_sized, pure_bind, range_memory_from,
    Nat.zero_add]
  refine bind_congr fun _ => bind_congr fun _ => bind_congr fun _ => ?_
  exact hrecovered _

theorem run_wedpr (size : Nat) (function : Bytes → Bool × Bytes) :
    (wedpr size function input.length).run (memory c input) =
      Executor.wedpr size function input := by
  unfold wedpr Executor.wedpr
  simp only [run_bind, run_sized, run_readRange, run_pure, pure_bind, range_memory_all]

theorem run_pairing : (alt_bn128_pairing_product c input.length).run (memory c input) =
    Executor.alt_bn128_pairing_product c input := by
  unfold alt_bn128_pairing_product Executor.alt_bn128_pairing_product
  simp only [run_bind, run_sized, run_ite, run_readRange, run_pure, pure_bind, range_memory_all]

theorem run_blake2 : (blake2_compression c input.length).run (memory c input) =
    Executor.blake2_compression c input := by
  unfold blake2_compression Executor.blake2_compression
  rw [run_ite]
  by_cases hlength : input.length = 213
  · rw [if_neg (not_not.mpr hlength), if_neg (not_not.mpr hlength)]
    have hlast : memory c input 212 = input.getD 212 0 := by
      unfold memory
      have hlt : 212 < input.length := by omega
      rw [List.getD_eq_getElem _ _ hlt, List.getD_eq_getElem _ _ hlt]
    have hrounds : (List.range' 0 4).map (memory c input) = input.take 4 :=
      range_memory (by omega)
    simp only [run_bind, run_readRange, run_readAt, run_ite, run_sized, run_pure, pure_bind, hlast,
      hrounds,
      range_memory (by omega : 4 + 64 ≤ input.length),
      range_memory (by omega : 68 + 128 ≤ input.length),
      range_memory (by omega : 196 + 8 ≤ input.length),
      range_memory (by omega : 204 + 8 ≤ input.length)]
  · rw [if_pos hlength, if_pos hlength, run_pure]

/-- Where the reads are given the bytes of the input, the executors do what they do. -/
theorem run_execute (precompiled : EvmPrecompiled) :
    (execute c input.length precompiled).run (memory c input) =
      Executor.execute c precompiled input := by
  cases precompiled with
  | ecrecover => exact run_ecRecover
  | sha256 | ripemd160 | alt_bn128_G1_add | alt_bn128_G1_mul => exact run_wedpr _ _
  | identity => exact run_wedpr _ _
  | modexp => exact run_modexp
  | alt_bn128_pairing_product => exact run_pairing
  | blake2_compression => exact run_blake2

theorem run_modexpPricer :
    (modexpPricer input.length).run (memory c input) = Executor.modexpPricer input := by
  unfold modexpPricer Executor.modexpPricer expLengthAdjust Executor.expLengthAdjust
  simp only [run_bind, run_parseBigEndianRightPadded, run_ite, run_pure]

theorem run_blake2Pricer :
    (blake2Pricer input.length).run (memory c input) = Pure.pure (blake2Cost input) := by
  unfold blake2Pricer blake2Cost
  rw [run_ite]
  split
  next hlength =>
    simp only [run_bind, run_readRange, run_pure, pure_bind]
    rw [range_memory (by omega), List.drop_zero]
  next => rw [run_pure]

theorem run_cost (precompiled : EvmPrecompiled) :
    (cost input.length precompiled).run (memory c input) = Executor.cost precompiled input := by
  cases precompiled with
  | modexp => exact run_modexpPricer
  | blake2_compression => exact run_blake2Pricer
  | _ => rfl

end ByteReads

end EvmPrecompiled

end BcosExecutor
