import BcosExecutor.PricedCalls

namespace BcosExecutor

open CheckedWords

/-- The precompiled contracts of the EVM, in the order of their addresses. -/
inductive EvmPrecompiled
  | ecrecover | sha256 | ripemd160 | identity | modexp | alt_bn128_G1_add | alt_bn128_G1_mul
  | alt_bn128_pairing_product | blake2_compression
  deriving DecidableEq, Repr

namespace EvmPrecompiled

def fromBigEndian (bytes : Bytes) : Nat :=
  bytes.foldl (fun n b => n * 256 + b.toNat) 0

/-- What is missing at the end counts as zeroes. -/
def parseBigEndianRightPadded (input : Bytes) (start count : Nat) : Nat :=
  if input.length < start then 0
  else
    let cropped := (input.drop start).take (min count (input.length - start))
    fromBigEndian cropped <<< (8 * (count - cropped.length))

def expLengthAdjust (expOffset expLength : Nat) (input : Bytes) : Nat :=
  if expLength ≤ 32 then
    (parseBigEndianRightPadded input expOffset expLength).log2
  else
    8 * (expLength - 32) + (parseBigEndianRightPadded input expOffset 32).log2

def multComplexity (x : Int) : Int :=
  if x ≤ 64 then x * x
  else if x ≤ 1024 then x * x / 4 + 96 * x - 3072
  else x * x / 16 + 480 * x - 199680

def modexpCost (input : Bytes) : Int :=
  let baseLength := parseBigEndianRightPadded input 0 32
  let expLength := parseBigEndianRightPadded input 32 32
  let modLength := parseBigEndianRightPadded input 64 32
  let maxLength := max modLength baseLength
  let adjustedExpLength := expLengthAdjust (baseLength + 96) expLength input
  multComplexity maxLength * max adjustedExpLength 1 / 20

/-- So much for the call, and so much for each word of the input. -/
def linearCost (base word : Nat) (input : Bytes) : Int :=
  base + (input.length + 31) / 32 * word

def pairingCost (input : Bytes) : UInt64 :=
  45000 + input.length.toUInt64 / 192 * 34000

def checkedPairingCost (input : Bytes) : Option Nat := do
  let product ← unsigned (input.length / 192 * 34000)
  unsigned (45000 + product)

/-- Without four bytes there are no rounds. -/
def blake2Cost (input : Bytes) : Int :=
  if 4 ≤ input.length then fromBigEndian (input.take 4) else 0

def cost : EvmPrecompiled → Bytes → Int
  | ecrecover => linearCost 3000 0
  | sha256 => linearCost 60 12
  | ripemd160 => linearCost 600 120
  | identity => linearCost 15 3
  | modexp => modexpCost
  | alt_bn128_G1_add => linearCost 150 0
  | alt_bn128_G1_mul => linearCost 6000 0
  | alt_bn128_pairing_product => fun input => (pairingCost input).toNat
  | blake2_compression => blake2Cost

def costOfPrecompiled (precompiled : EvmPrecompiled) (input : Bytes) : Int :=
  saturate (precompiled.cost input)

theorem multComplexity_nonneg {x : Int} (h : 0 ≤ x) : 0 ≤ multComplexity x := by
  have hsquare : 0 ≤ x * x := Int.mul_nonneg h h
  unfold multComplexity
  split
  · exact hsquare
  split
  · omega
  · omega

theorem modexpCost_nonneg (input : Bytes) : 0 ≤ modexpCost input := by
  unfold modexpCost
  dsimp only
  refine Int.ediv_nonneg (Int.mul_nonneg (multComplexity_nonneg ?_) ?_) (by decide)
  · omega
  · omega

theorem cost_nonneg (precompiled : EvmPrecompiled) (input : Bytes) :
    0 ≤ precompiled.cost input := by
  have hlinear (base word : Nat) : 0 ≤ linearCost base word input := by
    unfold linearCost
    have hwords : (0 : Int) ≤ (input.length + 31) / 32 * word :=
      Int.mul_nonneg (Int.ediv_nonneg (by omega) (by decide)) (Int.natCast_nonneg _)
    omega
  cases precompiled with
  | modexp => exact modexpCost_nonneg input
  | alt_bn128_pairing_product => exact Int.natCast_nonneg _
  | blake2_compression =>
    show 0 ≤ blake2Cost input
    unfold blake2Cost
    split
    · exact Int.natCast_nonneg _
    · exact Int.le_refl 0
  | _ => exact hlinear _ _

theorem costOfPrecompiled_bounds (precompiled : EvmPrecompiled) (input : Bytes) :
    0 ≤ precompiled.costOfPrecompiled input ∧ precompiled.costOfPrecompiled input < 2 ^ 63 :=
  ⟨saturate_nonneg (precompiled.cost_nonneg input), saturate_lt _⟩

/-- The one price that is computed in words of 64 bits. -/
theorem pairingCost_checked {input : Bytes} (h : input.length < 2 ^ 32) :
    checkedPairingCost input = some (pairingCost input).toNat := by
  have hlength : input.length.toUInt64.toNat = input.length := by
    rw [UInt64.toNat_ofNat']
    omega
  have hproduct : input.length / 192 * 34000 < 2 ^ 60 := by omega
  unfold checkedPairingCost pairingCost
  rw [UInt64.toNat_add, UInt64.toNat_mul, UInt64.toNat_div, hlength]
  show _ = some ((45000 + input.length / 192 * 34000 % 2 ^ 64) % 2 ^ 64)
  generalize input.length / 192 * 34000 = product at hproduct
  rw [unsigned_of_lt (n := product) (by omega), Option.bind_eq_bind, Option.bind_some,
    unsigned_of_lt (by omega), Nat.mod_eq_of_lt (a := product) (by omega),
    Nat.mod_eq_of_lt (by omega)]

end EvmPrecompiled

/-- What a precompiled contract comes to that is called in place. -/
inductive BuiltInCall
  | evm (precompiled : EvmPrecompiled) (success : Bool) (output : Bytes)
  | constant (outcome : Except Exc PrecompiledExecResult)

namespace BuiltInCall

/-- The price and the data of a call that succeeds. -/
def paid (data : Bytes) : BuiltInCall → Option (Int × Bytes)
  | evm precompiled success output =>
    if success then some (precompiled.costOfPrecompiled data, output) else none
  | constant (.ok result) => some (result.gas, result.execResult)
  | constant (.error _) => none

def callBuiltInPrecompiled (request : CallParameters) (call : BuiltInCall) : Result :=
  match call.paid request.data with
  | none => ⟨.other (-1), 0, []⟩
  | some (gas, output) =>
    let gasLeft := toInt64 (request.gas - gas)
    if gasLeft < 0 then ⟨.outOfGas, 0, []⟩ else ⟨.success, gasLeft, output⟩

/-- The price is no negative word. -/
def Priced : BuiltInCall → Prop
  | constant (.ok result) => 0 ≤ result.gas ∧ result.gas < 2 ^ 63
  | _ => True

theorem paid_bounds {call : BuiltInCall} (h : call.Priced) {data output : Bytes} {gas : Int}
    (hpaid : call.paid data = some (gas, output)) : 0 ≤ gas ∧ gas < 2 ^ 63 := by
  cases call with
  | evm precompiled success output' =>
    cases success with
    | false => cases hpaid
    | true =>
      cases hpaid
      exact precompiled.costOfPrecompiled_bounds data
  | constant outcome =>
    cases outcome with
    | error e => cases hpaid
    | ok result =>
      cases hpaid
      exact h

/-- What is left of the gas of a request, and the subtraction that gives it. -/
theorem callBuiltInPrecompiled_gas {request : CallParameters} {call : BuiltInCall}
    (hgas : 0 ≤ request.gas) (hword : request.gas < 2 ^ 63) (h : call.Priced) :
    (0 ≤ (callBuiltInPrecompiled request call).gasLeft ∧
        (callBuiltInPrecompiled request call).gasLeft ≤ request.gas) ∧
      ∀ gas output, call.paid request.data = some (gas, output) →
        signed (request.gas - gas) = some (toInt64 (request.gas - gas)) := by
  have hexact {gas : Int} (hbounds : 0 ≤ gas ∧ gas < 2 ^ 63) :
      toInt64 (request.gas - gas) = request.gas - gas :=
    bmod_of_bounds (by omega) (by omega)
  refine ⟨?_, fun gas output hpaid => ?_⟩
  · unfold callBuiltInPrecompiled
    cases hpaid : call.paid request.data with
    | none => exact ⟨Int.le_refl 0, hgas⟩
    | some pair =>
      obtain ⟨gas, output⟩ := pair
      have hbounds := paid_bounds h hpaid
      dsimp only
      rw [hexact hbounds]
      split
      · exact ⟨Int.le_refl 0, hgas⟩
      · dsimp only
        omega
  · have hbounds := paid_bounds h hpaid
    rw [hexact hbounds]
    exact signed_of_bounds (by omega) (by omega)

end BuiltInCall

end BcosExecutor
