import BcosExecutor.InputReads
import BcosExecutor.ModexpStandard

namespace BcosExecutor

namespace EvmPrecompiled

open Building (Reaches Fails)

variable {input : Bytes}

/-- An input with zeroes behind it. -/
def padded (input : Bytes) (missing : Nat) : Bytes :=
  input ++ List.replicate missing 0

theorem parse_padded (input : Bytes) (missing start count : Nat) :
    parseBigEndianRightPadded (padded input missing) start count =
      parseBigEndianRightPadded input start count := by
  rw [parseBigEndianRightPadded_eq_number, parseBigEndianRightPadded_eq_number]
  unfold Eip198.number padded
  rw [List.map_append, List.map_replicate]
  exact congrArg _ (BigEndian.window_append_zeroes _ _ _ _)

/-- No assertion about the lengths fails. -/
def WithinLimits (input : Bytes) : Prop :=
  modLength input ≤ lengthLimit ∧ baseLength input ≤ lengthLimit ∧
    (expLength input ≤ lengthLimit ∨ OnlyExponent input)

theorem withinLimits_padded (input : Bytes) (missing : Nat) :
    WithinLimits (padded input missing) ↔ WithinLimits input := by
  unfold WithinLimits OnlyExponent modLength baseLength expLength
  rw [parse_padded, parse_padded, parse_padded]

theorem modexpOutput_padded (missing : Nat) :
    modexpOutput (padded input missing) = modexpOutput input := by
  unfold modexpOutput expLength baseLength modLength
  simp only [parse_padded]

theorem modexpCost_padded (missing : Nat) :
    modexpCost (padded input missing) = modexpCost input := by
  unfold modexpCost expLengthAdjust
  simp only [parse_padded]

theorem outcome_modexp (h : WithinLimits input) :
    (Executor.modexp input).outcome = some (true, modexpOutput input) := by
  obtain ⟨hmod, hbase, hexp | honly⟩ := h
  · exact (reaches_modexp_output hmod hbase hexp (by decide) hmod hbase hexp).outcome_eq
  · rw [modexpOutput_onlyExponent honly]
    exact (reaches_modexp_onlyExponent honly).outcome_eq

theorem outcome_modexp_padded (missing : Nat) :
    (Executor.modexp (padded input missing)).outcome = (Executor.modexp input).outcome := by
  have hiff := withinLimits_padded input missing
  by_cases h : WithinLimits input
  · rw [outcome_modexp (hiff.mpr h), outcome_modexp h, modexpOutput_padded]
  · have hfails : Fails (Executor.modexp input) := fails_modexp h
    have hpadded : Fails (Executor.modexp (padded input missing)) :=
      fails_modexp fun hlimits => h (hiff.mp hlimits)
    rw [hpadded.outcome_eq, hfails.outcome_eq]

/-- What `ecRecover` reads of an input is at its first bytes. -/
theorem ecRecover_padded (c : Crypto) (missing : Nat) (h : 128 ≤ input.length) :
    Executor.ecRecover c (padded input missing) = Executor.ecRecover c input := by
  have hbyte (i : Nat) (hi : i < 128) : (padded input missing).getD i
      (c.pastEnd (padded input missing) i) = input.getD i (c.pastEnd input i) := by
    have hlt : i < input.length := Nat.lt_of_lt_of_le hi h
    unfold padded
    rw [List.getD_append _ _ _ _ hlt, List.getD_eq_getElem _ _ hlt, List.getD_eq_getElem _ _ hlt]
  have hsignature : (List.range 64).map (fun i => (padded input missing).getD (64 + i)
      (c.pastEnd (padded input missing) (64 + i))) =
      (List.range 64).map fun i => input.getD (64 + i) (c.pastEnd input (64 + i)) := by
    refine List.map_congr_left fun i hi => ?_
    have hlt := List.mem_range.mp hi
    exact hbyte (64 + i) (by omega)
  have hhash : (List.range 32).map (fun i => (padded input missing).getD i
      (c.pastEnd (padded input missing) i)) =
      (List.range 32).map fun i => input.getD i (c.pastEnd input i) := by
    refine List.map_congr_left fun i hi => ?_
    have hlt := List.mem_range.mp hi
    exact hbyte i (by omega)
  unfold Executor.ecRecover
  dsimp only
  rw [hsignature, hhash, hbyte 63 (by decide)]

namespace ByteReads

open Reading

variable {memory : Nat → UInt8} {n start count : Nat}

theorem inside_range (h : start + count ≤ n) :
    (readRange start count : ByteReading Bytes).Inside memory (· < n) :=
  (inside_readRange_iff start count).mpr fun _ _ hlt => Nat.lt_of_lt_of_le hlt h

/-- What is cropped ends with the input. -/
theorem inside_parse (start count : Nat) :
    (parseBigEndianRightPadded n start count).Inside memory (· < n) := by
  unfold parseBigEndianRightPadded
  apply inside_ite (fun _ => inside_pure 0)
  intro hstart
  apply inside_bind (inside_check _)
  intro _
  apply inside_bind (inside_range (by omega))
  intro cropped
  apply inside_bind (inside_check _)
  intro _
  exact inside_bind (inside_sized _) fun _ => inside_pure _

theorem inside_modexp : (modexp n).Inside memory (· < n) := by
  unfold modexp
  apply inside_bind (inside_parse 0 32)
  intro baseLength
  apply inside_bind (inside_parse 32 32)
  intro expLength
  apply inside_bind (inside_parse 64 32)
  intro modLength
  apply inside_bind (inside_check _)
  intro _
  apply inside_bind (inside_check _)
  intro _
  apply inside_ite (fun _ => inside_pure _)
  intro _
  apply inside_bind (inside_check _)
  intro _
  apply inside_bind (inside_parse _ _)
  intro base
  apply inside_bind (inside_parse _ _)
  intro exp
  apply inside_bind (inside_parse _ _)
  intro mod
  apply inside_bind (inside_sized _)
  intro _
  exact inside_bind (inside_sized _) fun _ => inside_pure _

theorem inside_wedpr (size : Nat) (function : Bytes → Bool × Bytes) :
    (wedpr size function n).Inside memory (· < n) := by
  unfold wedpr
  apply inside_bind (inside_sized size)
  intro _
  exact inside_bind (inside_range (Nat.le_of_eq (Nat.zero_add n))) fun input => inside_pure _

theorem inside_pairing (c : Crypto) :
    (alt_bn128_pairing_product c n).Inside memory (· < n) := by
  unfold alt_bn128_pairing_product
  apply inside_bind (inside_sized 32)
  intro _
  apply inside_ite (fun _ => inside_pure _)
  intro _
  exact inside_bind (inside_range (Nat.le_of_eq (Nat.zero_add n))) fun input => inside_pure _

theorem inside_blake2 (c : Crypto) : (blake2_compression c n).Inside memory (· < n) := by
  unfold blake2_compression
  apply inside_ite (fun _ => inside_pure _)
  intro hlength
  have hn : n = 213 := not_not.mp hlength
  apply inside_bind (inside_range (by omega))
  intro rounds
  apply inside_bind (inside_readAt (by omega))
  intro finalBlockIndicator
  apply inside_ite (fun _ => inside_pure _)
  intro _
  apply inside_bind (inside_sized 64)
  intro _
  apply inside_bind (inside_range (by omega))
  intro stateVector
  apply inside_bind (inside_range (by omega))
  intro messageBlockVector
  apply inside_bind (inside_range (by omega))
  intro offsetCounter0
  exact inside_bind (inside_range (by omega)) fun offsetCounter1 => inside_pure _

/-- The signature is copied first, and nothing says that it is there. -/
theorem inside_ecRecover_iff (c : Crypto) :
    (ecRecover c).Inside memory (· < n) ↔ 128 ≤ n := by
  unfold ecRecover
  constructor
  · intro h
    have hcopied := (inside_readRange_iff 64 64).mp (inside_of_bind h)
    exact hcopied 127 (by decide) (by decide)
  · intro h
    apply inside_bind (inside_range h)
    intro signature
    apply inside_bind (inside_readAt (by omega))
    intro v
    apply inside_bind (inside_sized 65)
    intro _
    apply inside_bind (inside_range (by omega))
    intro msgHash
    apply inside_bind (inside_sized 32)
    intro _
    apply inside_bind (inside_sized 64)
    intro _
    cases c.recoverPublicKey msgHash (signature ++ [v - 27]) with
    | none => exact inside_pure _
    | some publicKey =>
      dsimp only
      cases c.keccak256 publicKey with
      | none => exact inside_pure _
      | some pubkeyHash => exact inside_pure _

theorem inside_execute_iff (c : Crypto) (precompiled : EvmPrecompiled) :
    (execute c n precompiled).Inside memory (· < n) ↔ (precompiled = .ecrecover → 128 ≤ n) := by
  cases precompiled with
  | ecrecover => exact (inside_ecRecover_iff c).trans ⟨fun h _ => h, fun h => h rfl⟩
  | sha256 | ripemd160 | identity | alt_bn128_G1_add | alt_bn128_G1_mul =>
    exact iff_of_true (inside_wedpr _ _) nofun
  | modexp => exact iff_of_true inside_modexp nofun
  | alt_bn128_pairing_product => exact iff_of_true (inside_pairing c) nofun
  | blake2_compression => exact iff_of_true (inside_blake2 c) nofun

theorem inside_expLengthAdjust (expOffset expLength : Nat) :
    (expLengthAdjust expOffset expLength n).Inside memory (· < n) := by
  unfold expLengthAdjust
  refine inside_ite (fun _ => ?_) fun _ => ?_
  · exact inside_bind (inside_parse _ _) fun exp => inside_pure _
  · exact inside_bind (inside_parse _ _) fun expFirstWord => inside_pure _

theorem inside_cost (precompiled : EvmPrecompiled) :
    (cost n precompiled).Inside memory (· < n) := by
  cases precompiled with
  | modexp =>
    apply inside_bind (inside_parse 0 32)
    intro baseLength
    apply inside_bind (inside_parse 32 32)
    intro expLength
    apply inside_bind (inside_parse 64 32)
    intro modLength
    exact inside_bind (inside_expLengthAdjust _ _) fun adjustedExpLength => inside_pure _
  | blake2_compression =>
    refine inside_ite (fun hlength => ?_) fun _ => inside_pure _
    exact inside_bind (inside_range (by omega)) fun rounds => inside_pure _
  | _ => exact inside_pure _

/-- What an executor comes to over the memory that its input lies in. -/
def outcome (c : Crypto) (precompiled : EvmPrecompiled) (input : Bytes) : Option (Bool × Bytes) :=
  ((execute c input.length precompiled).run (ByteReads.memory c input)).outcome

def price (c : Crypto) (precompiled : EvmPrecompiled) (input : Bytes) : Option Int :=
  ((cost input.length precompiled).run (ByteReads.memory c input)).outcome

/-- Executor and pricer read nothing but the input, and for the bytes that `ecRecover` and `modexp`
miss there are zeroes. -/
structure StaysInside (c : Crypto) (precompiled : EvmPrecompiled) (input : Bytes) : Prop where
  execute : (execute c input.length precompiled).Inside (ByteReads.memory c input)
    (· < input.length)
  cost : (cost input.length precompiled).Inside (ByteReads.memory c input) (· < input.length)
  padded : precompiled = .ecrecover ∨ precompiled = .modexp → ∀ missing,
    outcome c precompiled (padded input missing) = outcome c precompiled input ∧
      price c precompiled (padded input missing) = price c precompiled input

variable {c : Crypto} {precompiled : EvmPrecompiled}

theorem outcome_eq : outcome c precompiled input =
    (Executor.execute c precompiled input).outcome := by
  unfold outcome
  rw [run_execute]

theorem price_eq : price c precompiled input = some (precompiled.cost input) := by
  unfold price
  rw [run_cost]
  exact (reaches_cost precompiled input).outcome_eq

theorem padded_modexp (missing : Nat) :
    outcome c .modexp (padded input missing) = outcome c .modexp input ∧
      price c .modexp (padded input missing) = price c .modexp input := by
  rw [outcome_eq, outcome_eq, price_eq, price_eq]
  exact ⟨outcome_modexp_padded missing, congrArg some (modexpCost_padded missing)⟩

/-- The price of `ecRecover` does not look at the input. -/
theorem padded_ecRecover (h : 128 ≤ input.length) (missing : Nat) :
    outcome c .ecrecover (padded input missing) = outcome c .ecrecover input ∧
      price c .ecrecover (padded input missing) = price c .ecrecover input := by
  have hprice (input : Bytes) : EvmPrecompiled.ecrecover.cost input = 3000 := by
    show (3000 : Int) + (input.length + 31) / 32 * 0 = 3000
    rw [Int.mul_zero, Int.add_zero]
  rw [outcome_eq, outcome_eq, price_eq, price_eq, hprice, hprice]
  exact ⟨congrArg Building.outcome (ecRecover_padded c missing h), rfl⟩

theorem staysInside_iff (c : Crypto) (precompiled : EvmPrecompiled) (input : Bytes) :
    StaysInside c precompiled input ↔ (precompiled = .ecrecover → 128 ≤ input.length) := by
  constructor
  · intro h
    exact (inside_execute_iff c precompiled).mp h.execute
  · intro h
    refine ⟨(inside_execute_iff c precompiled).mpr h, inside_cost precompiled, ?_⟩
    rintro (rfl | rfl) missing
    · exact padded_ecRecover (h rfl) missing
    · exact padded_modexp missing

theorem not_staysInside_empty : ¬∀ precompiled input, StaysInside noCrypto precompiled input := by
  intro h
  have hread := (h .ecrecover []).execute
  exact absurd hread.1 (by decide)

end ByteReads

end EvmPrecompiled

end BcosExecutor
