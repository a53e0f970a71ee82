import BcosExecutor.BuiltInGas
import BcosExecutor.BuiltSizes

namespace BcosExecutor

open Building

namespace EvmPrecompiled

/-- What the executors take from the library of cryptography. -/
structure Crypto where
  /-- What is read past the end of an input. -/
  pastEnd : Bytes → Nat → UInt8
  recoverPublicKey : Bytes → Bytes → Option Bytes
  keccak256 : Bytes → Option Bytes
  sha256 : Bytes → Bytes
  ripemd160 : Bytes → Bytes
  /-- The status and what the buffer of the result holds. -/
  alt_bn128_g1_add : Bytes → Bool × Bytes
  alt_bn128_g1_mul : Bytes → Bool × Bytes
  alt_bn128_pairing_product : Bytes → Bool × Bytes
  blake2FCompression : Nat → Bytes → Bytes → Bytes → Bool → Bytes → Bytes

def noCrypto : Crypto where
  pastEnd _ _ := 0
  recoverPublicKey _ _ := none
  keccak256 _ := none
  sha256 _ := []
  ripemd160 _ := []
  alt_bn128_g1_add _ := (false, [])
  alt_bn128_g1_mul _ := (false, [])
  alt_bn128_pairing_product _ := (false, [])
  blake2FCompression _ _ _ _ _ _ := []

/-- An eighth of what fits in a `size_t`. -/
def lengthLimit : Nat := 2 ^ 61 - 1

namespace Executor

def parseBigEndianRightPadded (input : Bytes) (start count : Nat) : Building Nat := do
  if input.length < start then
    return 0
  else do
    check (count ≤ lengthLimit)
    let cropped := (input.drop start).take (min count (input.length - start))
    check (count - cropped.length ≤ lengthLimit)
    let ret := fromBigEndian cropped <<< (8 * (count - cropped.length))
    build (byteSize ret)
    return ret

def toBigEndian (value size : Nat) : Bytes :=
  (List.range size).map fun i => (value / 256 ^ (size - 1 - i)).toUInt8

def modexp (input : Bytes) : Building (Bool × Bytes) := do
  let baseLength ← parseBigEndianRightPadded input 0 32
  let expLength ← parseBigEndianRightPadded input 32 32
  let modLength ← parseBigEndianRightPadded input 64 32
  check (modLength ≤ lengthLimit)
  check (baseLength ≤ lengthLimit)
  if modLength = 0 ∧ baseLength = 0 then
    return (true, [])
  else do
    check (expLength ≤ lengthLimit)
    let base ← parseBigEndianRightPadded input 96 baseLength
    let exp ← parseBigEndianRightPadded input (96 + baseLength) expLength
    let mod ← parseBigEndianRightPadded input (96 + baseLength + expLength) modLength
    let result := if mod ≠ 0 then base ^ exp % mod else 0
    build (byteSize result)
    build modLength
    return (true, toBigEndian result modLength)

/-- The hash, the identifier and the signature are read wherever the input ends. -/
def ecRecover (c : Crypto) (input : Bytes) : Building (Bool × Bytes) := do
  let byteAt (i : Nat) := input.getD i (c.pastEnd input i)
  let rawRSV := (List.range 64).map (fun i => byteAt (64 + i)) ++ [byteAt 63 - 27]
  build 65
  let msgHash := (List.range 32).map byteAt
  build 32
  build 64
  match c.recoverPublicKey msgHash rawRSV with
  | none => return (true, [])
  | some publicKey =>
    match c.keccak256 publicKey with
    | none => return (true, [])
    | some pubkeyHash => return (true, List.replicate 12 0 ++ pubkeyHash.drop 12)

/-- The buffer of the result is there first. -/
def wedpr (size : Nat) (function : Bytes → Bool × Bytes) (input : Bytes) :
    Building (Bool × Bytes) := do
  build size
  return function input

def alt_bn128_pairing_product (c : Crypto) (input : Bytes) : Building (Bool × Bytes) := do
  build 32
  if input.length / 192 * 192 ≠ input.length then
    return (false, List.replicate 32 0)
  else
    return c.alt_bn128_pairing_product input

def blake2_compression (c : Crypto) (input : Bytes) : Building (Bool × Bytes) := do
  if input.length ≠ 213 then
    return (false, [])
  else
    let rounds := fromBigEndian (input.take 4)
    let stateVector := (input.drop 4).take 64
    let messageBlockVector := (input.drop 68).take 128
    let offsetCounter0 := (input.drop 196).take 8
    let offsetCounter1 := (input.drop 204).take 8
    let finalBlockIndicator := input.getD 212 0
    if finalBlockIndicator ≠ 0 ∧ finalBlockIndicator ≠ 1 then
      return (false, [])
    else do
      build 64
      return (true, c.blake2FCompression rounds stateVector offsetCounter0 offsetCounter1
        (finalBlockIndicator = 1) messageBlockVector)

def execute (c : Crypto) : EvmPrecompiled → Bytes → Building (Bool × Bytes)
  | .ecrecover => ecRecover c
  | .sha256 => wedpr 32 fun input => (true, c.sha256 input)
  | .ripemd160 => wedpr 32 fun input => (true, List.replicate 12 0 ++ c.ripemd160 input)
  | .identity => fun input => do
    build input.length
    return (true, input)
  | .modexp => Executor.modexp
  | .alt_bn128_G1_add => wedpr 64 c.alt_bn128_g1_add
  | .alt_bn128_G1_mul => wedpr 64 c.alt_bn128_g1_mul
  | .alt_bn128_pairing_product => Executor.alt_bn128_pairing_product c
  | .blake2_compression => Executor.blake2_compression c

def expLengthAdjust (expOffset expLength : Nat) (input : Bytes) : Building Nat := do
  if expLength ≤ 32 then do
    let exp ← parseBigEndianRightPadded input expOffset expLength
    return exp.log2
  else do
    let expFirstWord ← parseBigEndianRightPadded input expOffset 32
    return 8 * (expLength - 32) + expFirstWord.log2

def modexpPricer (input : Bytes) : Building Int := do
  let baseLength ← parseBigEndianRightPadded input 0 32
  let expLength ← parseBigEndianRightPadded input 32 32
  let modLength ← parseBigEndianRightPadded input 64 32
  let maxLength := max modLength baseLength
  let adjustedExpLength ← expLengthAdjust (baseLength + 96) expLength input
  return multComplexity maxLength * max adjustedExpLength 1 / 20

def cost : EvmPrecompiled → Bytes → Building Int
  | .modexp => modexpPricer
  | precompiled => fun input => pure (precompiled.cost input)

end Executor

theorem fromBigEndian_lt (bytes : Bytes) : fromBigEndian bytes < 256 ^ bytes.length := by
  have hfold : ∀ (bytes : Bytes) (n k : Nat), n < 256 ^ k →
      bytes.foldl (fun n b => n * 256 + b.toNat) n < 256 ^ (k + bytes.length) := by
    intro bytes
    induction bytes with
    | nil => exact fun n k h => h
    | cons byte bytes ih =>
      intro n k h
      have hbyte : byte.toNat < 256 := byte.toNat_lt
      have hstep := ih (n * 256 + byte.toNat) (k + 1) (by rw [Nat.pow_succ]; omega)
      rw [List.length_cons, show k + (bytes.length + 1) = k + 1 + bytes.length by omega]
      exact hstep
  have h := hfold bytes 0 0 (by decide)
  rwa [Nat.zero_add] at h

theorem parseBigEndianRightPadded_lt (input : Bytes) (start count : Nat) :
    parseBigEndianRightPadded input start count < 256 ^ count := by
  unfold parseBigEndianRightPadded
  split
  · exact Nat.pow_pos (by decide)
  · dsimp only
    generalize hcropped : (input.drop start).take (min count (input.length - start)) = cropped
    have hle : cropped.length ≤ count := by
      rw [← hcropped, List.length_take]
      omega
    have hpow : 256 ^ count = 256 ^ cropped.length * 2 ^ (8 * (count - cropped.length)) := by
      rw [Nat.pow_mul, ← Nat.pow_add, Nat.add_sub_cancel' hle]
    rw [Nat.shiftLeft_eq, hpow]
    exact Nat.mul_lt_mul_of_pos_right (fromBigEndian_lt cropped) (Nat.two_pow_pos _)

/-- A number that is no longer than the limit is read without a failing assertion. -/
theorem reaches_parse (input : Bytes) (start : Nat) {count bound : Nat}
    (hlimit : count ≤ lengthLimit) (hbound : count ≤ bound) :
    Reaches (Executor.parseBigEndianRightPadded input start count)
      (parseBigEndianRightPadded input start count) bound := by
  have hlt := parseBigEndianRightPadded_lt input start count
  unfold Executor.parseBigEndianRightPadded
  unfold parseBigEndianRightPadded at hlt ⊢
  by_cases hstart : input.length < start
  · rw [if_pos hstart, if_pos hstart]
    exact reaches_pure 0 bound
  · rw [if_neg hstart] at hlt
    rw [if_neg hstart, if_neg hstart]
    refine (reaches_check hlimit bound).bind ?_
    refine (reaches_check (by omega) bound).bind ?_
    refine (reaches_build (Nat.le_trans (byteSize_le hlt) hbound)).bind ?_
    exact reaches_pure _ bound

/-- The three numbers at the start of the input of `modexp`. -/
def baseLength (input : Bytes) : Nat := parseBigEndianRightPadded input 0 32

def expLength (input : Bytes) : Nat := parseBigEndianRightPadded input 32 32

def modLength (input : Bytes) : Nat := parseBigEndianRightPadded input 64 32

/-- Without a base and a modulus the exponent is not looked at. -/
def OnlyExponent (input : Bytes) : Prop :=
  modLength input = 0 ∧ baseLength input = 0

variable {input : Bytes} {bound : Nat}

theorem reaches_header (h : 32 ≤ bound) (start : Nat) :
    Reaches (Executor.parseBigEndianRightPadded input start 32)
      (parseBigEndianRightPadded input start 32) bound :=
  reaches_parse input start (by decide) h

theorem reaches_modexp_onlyExponent (h : OnlyExponent input) :
    Reaches (Executor.modexp input) (true, []) 32 := by
  obtain ⟨hmod, hbase⟩ := h
  unfold Executor.modexp
  refine (reaches_header (Nat.le_refl 32) 0).bind ?_
  refine (reaches_header (Nat.le_refl 32) 32).bind ?_
  refine (reaches_header (Nat.le_refl 32) 64).bind ?_
  change modLength input = 0 at hmod
  change parseBigEndianRightPadded input 64 32 = 0 at hmod
  change parseBigEndianRightPadded input 0 32 = 0 at hbase
  rw [hmod, hbase]
  refine (reaches_check (Nat.zero_le _) 32).bind ?_
  refine (reaches_check (Nat.zero_le _) 32).bind ?_
  rw [if_pos ⟨rfl, rfl⟩]
  exact reaches_pure _ 32

/-- What `modexp` returns. -/
def modexpOutput (input : Bytes) : Bytes :=
  let base := parseBigEndianRightPadded input 96 (baseLength input)
  let exp := parseBigEndianRightPadded input (96 + baseLength input) (expLength input)
  let mod := parseBigEndianRightPadded input (96 + baseLength input + expLength input)
    (modLength input)
  Executor.toBigEndian (if mod ≠ 0 then base ^ exp % mod else 0) (modLength input)

theorem modexpOutput_onlyExponent (h : OnlyExponent input) : modexpOutput input = [] := by
  unfold modexpOutput
  dsimp only
  rw [h.1]
  rfl

/-- A remainder is no longer than the modulus. -/
theorem remainder_lt {base exp mod length : Nat} (hlt : mod < 256 ^ length) :
    (if mod ≠ 0 then base ^ exp % mod else 0) < 256 ^ length := by
  split
  next hne => exact Nat.lt_trans (Nat.mod_lt _ (Nat.pos_of_ne_zero hne)) hlt
  next => exact Nat.pow_pos (by decide)

theorem reaches_modexp_output (hmod : modLength input ≤ lengthLimit)
    (hbase : baseLength input ≤ lengthLimit) (hexp : expLength input ≤ lengthLimit)
    (hbound : 32 ≤ bound) (hmodBound : modLength input ≤ bound)
    (hbaseBound : baseLength input ≤ bound) (hexpBound : expLength input ≤ bound) :
    Reaches (Executor.modexp input) (true, modexpOutput input) bound := by
  by_cases honly : OnlyExponent input
  · rw [modexpOutput_onlyExponent honly]
    exact (reaches_modexp_onlyExponent honly).mono hbound
  · have hresult (base exp : Nat) {mod : Nat} (hlt : mod < 256 ^ modLength input) :
        byteSize (if mod ≠ 0 then base ^ exp % mod else 0) ≤ bound :=
      Nat.le_trans (byteSize_le (remainder_lt hlt)) hmodBound
    have hboth : ¬(parseBigEndianRightPadded input 64 32 = 0 ∧
        parseBigEndianRightPadded input 0 32 = 0) := honly
    unfold Executor.modexp
    refine (reaches_header hbound 0).bind ?_
    refine (reaches_header hbound 32).bind ?_
    refine (reaches_header hbound 64).bind ?_
    refine (reaches_check hmod bound).bind ?_
    refine (reaches_check hbase bound).bind ?_
    rw [if_neg hboth]
    refine (reaches_check hexp bound).bind ?_
    refine (reaches_parse input 96 hbase hbaseBound).bind ?_
    refine (reaches_parse input _ hexp hexpBound).bind ?_
    refine (reaches_parse input _ hmod hmodBound).bind ?_
    refine (reaches_build (hresult _ _ (parseBigEndianRightPadded_lt input _ _))).bind ?_
    refine (reaches_build hmodBound).bind ?_
    exact reaches_pure _ bound

theorem reaches_modexp (hmod : modLength input ≤ lengthLimit)
    (hbase : baseLength input ≤ lengthLimit) (hexp : expLength input ≤ lengthLimit)
    (hbound : 32 ≤ bound) (hmodBound : modLength input ≤ bound)
    (hbaseBound : baseLength input ≤ bound)
    (hexpBound : expLength input ≤ bound) : ∃ out, Reaches (Executor.modexp input) out bound :=
  ⟨_, reaches_modexp_output hmod hbase hexp hbound hmodBound hbaseBound hexpBound⟩

theorem fails_modexp (h : ¬(modLength input ≤ lengthLimit ∧ baseLength input ≤ lengthLimit ∧
    (expLength input ≤ lengthLimit ∨ OnlyExponent input))) : Fails (Executor.modexp input) := by
  unfold Executor.modexp
  refine (reaches_header (Nat.le_refl 32) 0).bind_fails ?_
  refine (reaches_header (Nat.le_refl 32) 32).bind_fails ?_
  refine (reaches_header (Nat.le_refl 32) 64).bind_fails ?_
  by_cases hmod : modLength input ≤ lengthLimit
  · refine (reaches_check hmod 32).bind_fails ?_
    by_cases hbase : baseLength input ≤ lengthLimit
    · refine (reaches_check hbase 32).bind_fails ?_
      have honly : ¬(parseBigEndianRightPadded input 64 32 = 0 ∧
          parseBigEndianRightPadded input 0 32 = 0) := fun honly => h ⟨hmod, hbase, .inr honly⟩
      have hexp : ¬expLength input ≤ lengthLimit := fun hexp => h ⟨hmod, hbase, .inl hexp⟩
      rw [if_neg honly]
      exact (fails_check hexp).bind _
    · exact (fails_check hbase).bind _
  · exact (fails_check hmod).bind _

theorem reaches_expLengthAdjust (expOffset count : Nat) (input : Bytes) :
    Reaches (Executor.expLengthAdjust expOffset count input)
      (expLengthAdjust expOffset count input) 32 := by
  unfold Executor.expLengthAdjust expLengthAdjust
  by_cases hcount : count ≤ 32
  · rw [if_pos hcount, if_pos hcount]
    refine (reaches_parse input expOffset ?_ hcount).bind (reaches_pure _ 32)
    exact Nat.le_trans hcount (by decide)
  · rw [if_neg hcount, if_neg hcount]
    exact (reaches_header (Nat.le_refl 32) expOffset).bind (reaches_pure _ 32)

/-- A price is reached, whatever the lengths. -/
theorem reaches_cost (precompiled : EvmPrecompiled) (input : Bytes) :
    Reaches (Executor.cost precompiled input) (precompiled.cost input) 32 := by
  cases precompiled with
  | modexp =>
    show Reaches (Executor.modexpPricer input) (modexpCost input) 32
    unfold Executor.modexpPricer modexpCost
    refine (reaches_header (Nat.le_refl 32) 0).bind ?_
    refine (reaches_header (Nat.le_refl 32) 32).bind ?_
    refine (reaches_header (Nat.le_refl 32) 64).bind ?_
    exact (reaches_expLengthAdjust _ _ input).bind (reaches_pure _ 32)
  | _ => exact reaches_pure _ 32

end EvmPrecompiled

end BcosExecutor
