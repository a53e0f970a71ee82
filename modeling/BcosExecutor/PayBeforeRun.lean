import BcosExecutor.EvmExecutors

namespace BcosExecutor

open Building CheckedWords

namespace EvmPrecompiled

theorem le_multComplexity {x : Int} (h : 0 ≤ x) : x ≤ multComplexity x := by
  have hsquare : 0 ≤ x * x := Int.mul_nonneg h h
  unfold multComplexity
  split
  · rcases Int.le_iff_eq_or_lt.mp h with hzero | hpos
    · rw [← hzero]
      decide
    · have hle : x * 1 ≤ x * x := Int.mul_le_mul_of_nonneg_left (by omega) h
      omega
  split
  · omega
  · omega

theorem multComplexity_large {x : Int} (h : 2 ^ 61 ≤ x) : 2 ^ 69 ≤ multComplexity x := by
  have hsquare : (2 ^ 61 : Int) * 2 ^ 61 ≤ x * x := Int.mul_le_mul h h (by decide) (by omega)
  unfold multComplexity
  rw [if_neg (by omega), if_neg (by omega)]
  omega

theorem le_expLengthAdjust (expOffset count : Nat) (input : Bytes) :
    8 * (count - 32) ≤ expLengthAdjust expOffset count input := by
  unfold expLengthAdjust
  split
  · omega
  · omega

/-- What is paid for bounds the lengths, where there is a base or a modulus. -/
theorem lengths_of_modexpCost {input : Bytes} {gas : Int} (hcost : modexpCost input ≤ gas)
    (h : ¬OnlyExponent input) :
    multComplexity (max (modLength input) (baseLength input) : Nat) ≤ 20 * gas + 19 ∧
      (modLength input : Int) ≤ 20 * gas + 19 ∧ (baseLength input : Int) ≤ 20 * gas + 19 ∧
      (expLength input : Int) ≤ 20 * gas + 51 := by
  have hadjust := le_expLengthAdjust (baseLength input + 96) (expLength input) input
  have hpos : 1 ≤ max (modLength input) (baseLength input) := by
    by_contra hzero
    exact h ⟨by omega, by omega⟩
  have hmult := le_multComplexity (Int.natCast_nonneg (max (modLength input) (baseLength input)))
  change multComplexity (max (modLength input) (baseLength input) : Nat) *
    (max (expLengthAdjust (baseLength input + 96) (expLength input) input) 1 : Nat) / 20 ≤ gas
    at hcost
  generalize expLengthAdjust (baseLength input + 96) (expLength input) input = adjusted at *
  generalize hmax : max (modLength input) (baseLength input) = maxLength at *
  generalize multComplexity maxLength = mult at *
  have hfirst : mult * 1 ≤ mult * (max adjusted 1 : Nat) :=
    Int.mul_le_mul_of_nonneg_left (by omega) (by omega)
  have hsecond : 1 * (max adjusted 1 : Nat) ≤ mult * (max adjusted 1 : Nat) :=
    Int.mul_le_mul_of_nonneg_right (by omega) (by omega)
  generalize mult * (max adjusted 1 : Nat) = product at *
  omega

/-- What is done for a request, each time with the sizes that were built, or nothing where an
assertion failed. -/
inductive BuiltInEvent
  | priced (run : Option (Int × List Nat))
  | executed (run : Option ((Bool × Bytes) × List Nat))

section

variable (c : Crypto) (request : CallParameters) (precompiled : EvmPrecompiled)

/-- The executor runs as soon as there is a price. The gas is looked at afterwards. -/
def callBuiltInPrecompiled : List BuiltInEvent × Option Result :=
  let price := Executor.cost precompiled request.data []
  match price with
  | none => ([.priced none], none)
  | some _ =>
    let run := Executor.execute c precompiled request.data []
    ([.priced price, .executed run], run.map fun ran =>
      BuiltInCall.callBuiltInPrecompiled request (.evm precompiled ran.1.1 ran.1.2))

def events : List BuiltInEvent :=
  (callBuiltInPrecompiled c request precompiled).1

end

/-- So many bytes are built at most for this gas. -/
def sizeBound (gas : Int) : Nat :=
  (20 * gas + 65).toNat

theorem le_sizeBound {size : Nat} {gas : Int} (h : (size : Int) ≤ 20 * gas + 65) :
    size ≤ sizeBound gas := by
  unfold sizeBound
  omega

/-- The executor runs only if its price does not exceed the gas, no assertion fails and the gas
bounds what is built. -/
structure PaysBeforeRun (c : Crypto) (request : CallParameters) (precompiled : EvmPrecompiled) :
    Prop where
  paid : ∀ run, .executed run ∈ events c request precompiled →
    precompiled.costOfPrecompiled request.data ≤ request.gas
  checked : .priced none ∉ events c request precompiled ∧
    .executed none ∉ events c request precompiled
  pricedSizes : ∀ cost sizes, .priced (some (cost, sizes)) ∈ events c request precompiled →
    ∀ size ∈ sizes, size ≤ sizeBound request.gas
  executedSizes : ∀ out sizes, .executed (some (out, sizes)) ∈ events c request precompiled →
    ∀ size ∈ sizes, size ≤ sizeBound request.gas

variable {c : Crypto} {request : CallParameters} {precompiled : EvmPrecompiled}

theorem events_eq (c : Crypto) (request : CallParameters) (precompiled : EvmPrecompiled) :
    ∃ sizes, (∀ size ∈ sizes, size ≤ 32) ∧
      events c request precompiled =
        [.priced (some (precompiled.cost request.data, sizes)),
          .executed (Executor.execute c precompiled request.data [])] := by
  obtain ⟨sizes, hcost, hsizes⟩ := reaches_cost precompiled request.data []
  refine ⟨sizes, hsizes, ?_⟩
  unfold events callBuiltInPrecompiled
  dsimp only
  rw [hcost, List.nil_append]

theorem paid_of_paysBeforeRun (h : PaysBeforeRun c request precompiled) :
    precompiled.costOfPrecompiled request.data ≤ request.gas := by
  obtain ⟨sizes, -, hevents⟩ := events_eq c request precompiled
  refine h.paid (Executor.execute c precompiled request.data []) ?_
  rw [hevents]
  exact List.mem_cons_of_mem _ (List.mem_singleton.mpr rfl)

theorem not_paysBeforeRun_of_fails (h : Fails (Executor.execute c precompiled request.data)) :
    ¬PaysBeforeRun c request precompiled := by
  intro hpays
  obtain ⟨sizes, -, hevents⟩ := events_eq c request precompiled
  refine hpays.checked.2 ?_
  rw [hevents, h []]
  exact List.mem_cons_of_mem _ (List.mem_singleton.mpr rfl)

/-- A price that is paid, and an executor that builds no more than it pays for. -/
theorem paysBeforeRun_of_reaches {out : Bool × Bytes} {bound : Nat}
    (hpaid : precompiled.costOfPrecompiled request.data ≤ request.gas)
    (hout : Reaches (Executor.execute c precompiled request.data) out bound)
    (hbound : bound ≤ sizeBound request.gas) : PaysBeforeRun c request precompiled := by
  have hgas : 0 ≤ request.gas :=
    Int.le_trans (precompiled.costOfPrecompiled_bounds request.data).1 hpaid
  have hsmall : 32 ≤ sizeBound request.gas := le_sizeBound (by omega)
  obtain ⟨priceSizes, hprice, hevents⟩ := events_eq c request precompiled
  obtain ⟨sizes, hrun, hsizes⟩ := hout []
  rw [hrun, List.nil_append] at hevents
  refine ⟨fun _ _ => hpaid, ⟨fun hmem => ?_, fun hmem => ?_⟩, fun cost sizes' hmem size hsize => ?_,
    fun out' sizes' hmem size hsize => ?_⟩
  · rw [hevents] at hmem
    simp at hmem
  · rw [hevents] at hmem
    simp at hmem
  · rw [hevents] at hmem
    have heq : cost = precompiled.cost request.data ∧ sizes' = priceSizes := by simpa using hmem
    rw [heq.2] at hsize
    exact Nat.le_trans (hprice size hsize) hsmall
  · rw [hevents] at hmem
    have heq : out' = out ∧ sizes' = sizes := by simpa using hmem
    rw [heq.2] at hsize
    exact Nat.le_trans (hsizes size hsize) hbound

/-- Apart from `modexp` and `identity` nothing but small buffers is built. -/
theorem reaches_execute (hmodexp : precompiled ≠ .modexp) (hidentity : precompiled ≠ .identity)
    (input : Bytes) : ∃ out, Reaches (Executor.execute c precompiled input) out 65 := by
  have hwedpr (size : Nat) (hsize : size ≤ 65) (function : Bytes → Bool × Bytes) :
      ∃ out, Reaches (Executor.wedpr size function input) out 65 :=
    ⟨_, (reaches_build hsize).bind (reaches_pure _ 65)⟩
  cases precompiled with
  | ecrecover =>
    show ∃ out, Reaches (Executor.ecRecover c input) out 65
    have hbuilt {out : Bool × Bytes} {m : Building (Bool × Bytes)} (h : Reaches m out 65) :
        Reaches (build 65 >>= fun _ => build 32 >>= fun _ => build 64 >>= fun _ => m) out 65 :=
      (reaches_build (by decide)).bind ((reaches_build (by decide)).bind
        ((reaches_build (by decide)).bind h))
    unfold Executor.ecRecover
    dsimp only
    split
    · exact ⟨_, hbuilt (reaches_pure _ 65)⟩
    · split
      · exact ⟨_, hbuilt (reaches_pure _ 65)⟩
      · exact ⟨_, hbuilt (reaches_pure _ 65)⟩
  | sha256 => exact hwedpr 32 (by decide) fun input => (true, c.sha256 input)
  | ripemd160 => exact hwedpr 32 (by decide) fun input =>
      (true, List.replicate 12 0 ++ c.ripemd160 input)
  | identity => exact absurd rfl hidentity
  | modexp => exact absurd rfl hmodexp
  | alt_bn128_G1_add => exact hwedpr 64 (by decide) _
  | alt_bn128_G1_mul => exact hwedpr 64 (by decide) _
  | alt_bn128_pairing_product =>
    show ∃ out, Reaches (Executor.alt_bn128_pairing_product c input) out 65
    unfold Executor.alt_bn128_pairing_product
    by_cases hlength : input.length / 192 * 192 ≠ input.length
    · rw [if_pos hlength]
      exact ⟨_, (reaches_build (by decide)).bind (reaches_pure _ 65)⟩
    · rw [if_neg hlength]
      exact ⟨_, (reaches_build (by decide)).bind (reaches_pure _ 65)⟩
  | blake2_compression =>
    show ∃ out, Reaches (Executor.blake2_compression c input) out 65
    unfold Executor.blake2_compression
    by_cases hlength : input.length ≠ 213
    · rw [if_pos hlength]
      exact ⟨_, reaches_pure _ 65⟩
    rw [if_neg hlength]
    dsimp only
    by_cases hfinal : input.getD 212 0 ≠ 0 ∧ input.getD 212 0 ≠ 1
    · rw [if_pos hfinal]
      exact ⟨_, reaches_pure _ 65⟩
    · rw [if_neg hfinal]
      exact ⟨_, (reaches_build (by decide)).bind (reaches_pure _ 65)⟩

/-- The lengths that `modexp` can work with at this gas. The price is a word, so that the greatest
gas pays for lengths of any price. -/
def LengthsFit (input : Bytes) (gas : Int) : Prop :=
  (expLength input ≤ lengthLimit ∨ OnlyExponent input) ∧
    (gas = 2 ^ 63 - 1 → modLength input ≤ lengthLimit ∧ baseLength input ≤ lengthLimit)

theorem lengths_of_paid (hgas : request.gas < 2 ^ 63 - 1)
    (hpaid : EvmPrecompiled.modexp.costOfPrecompiled request.data ≤ request.gas) :
    modexpCost request.data ≤ request.gas ∧ modLength request.data ≤ lengthLimit ∧
      baseLength request.data ≤ lengthLimit := by
  have hcost : modexpCost request.data ≤ request.gas := by
    have hnonneg := modexpCost_nonneg request.data
    change saturate (modexpCost request.data) ≤ request.gas at hpaid
    unfold saturate at hpaid
    omega
  refine ⟨hcost, ?_⟩
  have hlimit : lengthLimit = 2 ^ 61 - 1 := rfl
  by_cases honly : OnlyExponent request.data
  · obtain ⟨hmod, hbase⟩ := honly
    omega
  · obtain ⟨hmult, -⟩ := lengths_of_modexpCost hcost honly
    by_contra hlarge
    have hmax : (2 ^ 61 : Int) ≤
        (max (modLength request.data) (baseLength request.data) : Nat) := by omega
    have hmultLarge := multComplexity_large hmax
    omega

theorem paysBeforeRun_modexp_iff (hgas : request.gas < 2 ^ 63) :
    PaysBeforeRun c request .modexp ↔
      EvmPrecompiled.modexp.costOfPrecompiled request.data ≤ request.gas ∧
        LengthsFit request.data request.gas := by
  have hlimit : lengthLimit = 2 ^ 61 - 1 := rfl
  constructor
  · intro hpays
    refine ⟨paid_of_paysBeforeRun hpays, ?_⟩
    by_contra hunfit
    have hfails : Fails (Executor.execute c .modexp request.data) :=
      fails_modexp fun ⟨hmod, hbase, hexp⟩ => hunfit ⟨hexp, fun _ => ⟨hmod, hbase⟩⟩
    exact not_paysBeforeRun_of_fails hfails hpays
  · rintro ⟨hpaid, hexp, hgreatest⟩
    have hnonneg : 0 ≤ request.gas :=
      Int.le_trans (EvmPrecompiled.modexp.costOfPrecompiled_bounds request.data).1 hpaid
    have hsmall : 32 ≤ sizeBound request.gas := le_sizeBound (by omega)
    by_cases honly : OnlyExponent request.data
    · have hout := reaches_modexp_onlyExponent honly
      exact paysBeforeRun_of_reaches hpaid hout hsmall
    have hexp := hexp.resolve_right honly
    by_cases hword : request.gas = 2 ^ 63 - 1
    · obtain ⟨hmod, hbase⟩ := hgreatest hword
      have hbound : lengthLimit ≤ sizeBound request.gas := le_sizeBound (by omega)
      obtain ⟨out, hout⟩ := reaches_modexp hmod hbase hexp (by decide) hmod hbase hexp
      exact paysBeforeRun_of_reaches hpaid hout hbound
    · obtain ⟨hcost, hmod, hbase⟩ := lengths_of_paid (by omega) hpaid
      obtain ⟨-, hmodGas, hbaseGas, hexpGas⟩ := lengths_of_modexpCost hcost honly
      have hmodBound : modLength request.data ≤ sizeBound request.gas := le_sizeBound (by omega)
      have hbaseBound : baseLength request.data ≤ sizeBound request.gas := le_sizeBound (by omega)
      have hexpBound : expLength request.data ≤ sizeBound request.gas := le_sizeBound (by omega)
      obtain ⟨out, hout⟩ := reaches_modexp hmod hbase hexp hsmall hmodBound hbaseBound hexpBound
      exact paysBeforeRun_of_reaches hpaid hout (Nat.le_refl _)

/-- The executor has been paid for when it runs where the price is at most the gas, and an
assertion fails all the same where `modexp` is given lengths that do not fit. -/
theorem paysBeforeRun_iff (c : Crypto) {request : CallParameters} (precompiled : EvmPrecompiled)
    (hgas : request.gas < 2 ^ 63) (hdata : request.data.length < 2 ^ 64) :
    PaysBeforeRun c request precompiled ↔
      precompiled.costOfPrecompiled request.data ≤ request.gas ∧
        (precompiled = .modexp → LengthsFit request.data request.gas) := by
  by_cases hmodexp : precompiled = .modexp
  · subst hmodexp
    rw [paysBeforeRun_modexp_iff hgas]
    exact ⟨fun ⟨hpaid, hfit⟩ => ⟨hpaid, fun _ => hfit⟩, fun ⟨hpaid, hfit⟩ => ⟨hpaid, hfit rfl⟩⟩
  refine ⟨fun hpays => ⟨paid_of_paysBeforeRun hpays, fun h => absurd h hmodexp⟩,
    fun ⟨hpaid, _⟩ => ?_⟩
  have hnonneg : 0 ≤ request.gas :=
    Int.le_trans (precompiled.costOfPrecompiled_bounds request.data).1 hpaid
  by_cases hidentity : precompiled = .identity
  · subst hidentity
    have hout : Reaches (Executor.execute c .identity request.data) (true, request.data)
        request.data.length := (reaches_build (Nat.le_refl _)).bind (reaches_pure _ _)
    refine paysBeforeRun_of_reaches hpaid hout (le_sizeBound ?_)
    change saturate (linearCost 15 3 request.data) ≤ request.gas at hpaid
    unfold saturate linearCost at hpaid
    omega
  · obtain ⟨out, hout⟩ := reaches_execute (c := c) hmodexp hidentity request.data
    exact paysBeforeRun_of_reaches hpaid hout (le_sizeBound (by omega))

def requestOf (gas : Int) (data : Bytes) : CallParameters where
  type := .message
  gas
  data

/-- An exponent for a base and a modulus of one byte, whose length is above the limit. -/
def longExponent : Bytes :=
  List.replicate 31 0 ++ [1] ++ (List.replicate 24 0 ++ [0x20] ++ List.replicate 7 0) ++
    (List.replicate 31 0 ++ [1])

/-- The length of a base that is above the limit, and nothing else. -/
def longBase : Bytes :=
  List.replicate 24 0 ++ [0x20] ++ List.replicate 7 0

theorem paysBeforeRun_iff_paid :
    PaysBeforeRun noCrypto (requestOf 18 [1, 2, 3]) .identity ∧
      EvmPrecompiled.modexp.costOfPrecompiled longExponent ≤ 2 ^ 60 ∧
      ¬PaysBeforeRun noCrypto (requestOf (2 ^ 60) longExponent) .modexp := by
  have hne : EvmPrecompiled.identity ≠ .modexp := by decide
  have hprice : EvmPrecompiled.identity.costOfPrecompiled [1, 2, 3] ≤ 18 := by decide
  have hlong : ¬(expLength longExponent ≤ lengthLimit ∨
      modLength longExponent = 0 ∧ baseLength longExponent = 0) := by decide +kernel
  refine ⟨(paysBeforeRun_iff noCrypto .identity (by decide) (by decide)).mpr
    ⟨hprice, fun h => absurd h hne⟩, by decide +kernel, fun hpays => ?_⟩
  have h := (paysBeforeRun_iff noCrypto .modexp (by decide) (by decide)).mp hpays
  exact hlong (h.2 rfl).1

theorem not_paysBeforeRun :
    ¬∀ (c : Crypto) (request : CallParameters) (precompiled : EvmPrecompiled),
      request.gas < 2 ^ 63 → request.data.length < 2 ^ 64 →
        PaysBeforeRun c request precompiled := by
  intro h
  have hlarge : ¬baseLength longBase ≤ lengthLimit := by decide +kernel
  have hfails : Fails (Executor.execute noCrypto .modexp (requestOf 0 longBase).data) :=
    fails_modexp fun hlengths => hlarge hlengths.2.1
  exact not_paysBeforeRun_of_fails hfails (h noCrypto (requestOf 0 longBase) .modexp
    (by decide) (by decide))

end EvmPrecompiled

end BcosExecutor
