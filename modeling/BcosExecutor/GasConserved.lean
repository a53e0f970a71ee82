import BcosExecutor.BuiltInGas
import BcosExecutor.CallTree
import BcosExecutor.DagTransfer
import BcosExecutor.ScriptEnsures

namespace BcosExecutor

open CheckedWords

/-- A response has no more gas than its request, and no less than none. -/
def GasLaw (request response : CallParameters) : Prop :=
  0 ≤ response.gas ∧ response.gas ≤ request.gas

/-- Every run of the virtual machine leaves some of the gas, and what a precompiled contract asks
for is the price of one of its calls, or nothing where the call has ended early. -/
structure GasSound {κ : Type} (b : Behaviour κ) (p : CallParameters) : Prop where
  vm : b.vm.Ensures GasLaw fun ret => 0 ≤ ret.gasLeft ∧ ret.gasLeft ≤ p.gas
  precompiled : b.precompiled.Ensures GasLaw fun r => r.gas = 0 ∨ ∃ (call : PricedCall) (param : UInt64),
    r.gas = (call.pricer param r.execResult.length.toUInt64).calTotalGas

namespace TransactionExecutive

variable {κ : Type} {env : Environment} {b : Behaviour κ} {p : CallParameters}

/-- The message has some of the gas of the parameters. -/
def Kept (p : CallParameters) (ending : Ending) : Prop :=
  GasLaw p ending.message

theorem kept_same (hgas : 0 ≤ p.gas) {ending : Ending} (h : ending.message.gas = p.gas) :
    Kept p ending := by
  unfold Kept GasLaw
  omega

theorem ensures_callPrecompiled (hgas : 0 ≤ p.gas) (h : GasSound b p) :
    (callPrecompiled env b p).Ensures GasLaw (Kept p) := by
  have hexec : (execPrecompiled b).Ensures GasLaw fun r => 0 ≤ r.gas := by
    unfold execPrecompiled
    refine h.precompiled.attempt.bind fun out hout => ?_
    match out with
    | .ok r =>
      rcases hout r rfl with hzero | ⟨call, param, hprice⟩
      · exact Int.le_of_eq hzero.symm
      · show 0 ≤ r.gas
        rw [hprice]
        exact call.gas_nonneg param _
    | .error x => cases x <;> trivial
  unfold callPrecompiled
  refine hexec.attempt.bind fun out hout => ?_
  match out with
  | .ok r =>
    have hprice : 0 ≤ r.gas := hout r rfl
    dsimp only
    split
    · exact kept_same hgas rfl
    · show 0 ≤ p.gas - r.gas ∧ p.gas - r.gas ≤ p.gas
      omega
  | .error x => cases x <;> exact kept_same hgas rfl

/-- What is handed to `go` has the gas of the parameters. -/
def Prepared (p : CallParameters) : Settled (HostContext × Bytes × Bytes) → Prop
  | .ends ending => Kept p ending
  | .goOn (host, _, _) => host.callParameters.gas = p.gas

theorem ensures_createContract (hgas : 0 ≤ p.gas) {p' : CallParameters} (hsame : p'.gas = p.gas)
    (params abi : Bytes) :
    (createContract env b p' params abi).Ensures GasLaw (Prepared p) := by
  unfold createContract
  split
  · exact kept_same hgas hsame
  refine Script.ensures_bind fun out => ?_
  match out with
  | .error e => exact kept_same hgas hsame
  | .ok () =>
    dsimp only
    split
    · exact hsame
    · refine Script.ensures_bind fun built => ?_
      cases built with
      | true => exact hsame
      | false => exact kept_same hgas hsame

theorem ensures_decodeInput (hgas : 0 ≤ p.gas) :
    (decodeInput env p : Script κ _).Ensures GasLaw fun out => match out with
      | .ends ending => Kept p ending
      | .goOn (p', _, _) => p'.gas = p.gas := by
  unfold decodeInput
  split
  · exact rfl
  cases env.decode p.data with
  | none => trivial
  | some input =>
    obtain ⟨⟨code, params⟩, abi⟩ := input
    dsimp only
    split
    · exact kept_same hgas rfl
    cases env.injectMeter code with
    | none => exact kept_same hgas rfl
    | some byteCode => exact rfl

theorem ensures_prepare (hgas : 0 ≤ p.gas) (h : GasSound b p) :
    (prepare env b p).Ensures GasLaw (Prepared p) := by
  unfold prepare
  split
  · refine (ensures_decodeInput hgas).bind fun out hout => ?_
    match out with
    | .ends ending => exact hout
    | .goOn (p', params, abi) => exact ensures_createContract hgas hout params abi
  · unfold call
    split
    · exact (ensures_callPrecompiled hgas h).bind fun ending hending => hending
    split
    · exact kept_same hgas rfl
    · exact rfl

theorem ensures_caught (hgas : 0 ≤ p.gas) {p' : CallParameters} (hsame : p'.gas = p.gas)
    (x : Exc) : (caught p' x : Script κ Ending).Ensures GasLaw (Kept p) := by
  cases x <;> first | trivial | exact kept_same hgas hsame

/-- A status that the switch lists leaves the gas of the machine or that of the parameters. -/
theorem kept_parseEVMCResult {p' : CallParameters} {ret : Result} {ending : Ending}
    (hret : 0 ≤ ret.gasLeft ∧ ret.gasLeft ≤ p.gas) (hgas : 0 ≤ p.gas) (hsame : p'.gas = p.gas)
    (h : parseEVMCResult p' ret = .ok ending) :
    Kept p ending ∧ (ending.message.status = .none → ending.message.gas = ret.gasLeft) := by
  obtain ⟨status, gasLeft, output⟩ := ret
  cases status with
  | other code =>
    unfold parseEVMCResult at h
    dsimp only at h
    split at h <;> cases h
  | success | revert | outOfGas | failure =>
    cases h
    exact ⟨hret, fun _ => rfl⟩
  | _ =>
    cases h
    exact ⟨kept_same hgas hsame, nofun⟩

/-- The price of the code is a word, and so is what is left where it is paid. -/
theorem deposit_exact {gas : Int} (hgas : 0 ≤ gas) (hword : gas < 2 ^ 63) {output : Bytes}
    (hlength : output.length ≤ FiscoBcosScheduleV3.maxCodeSize) :
    toInt64 (output.length * FiscoBcosScheduleV3.createDataGas) =
        output.length * FiscoBcosScheduleV3.createDataGas ∧
      (¬ codeDepositTooDear FiscoBcosScheduleV3 gas output →
        0 ≤ gas - output.length * FiscoBcosScheduleV3.createDataGas ∧
          toInt64 (gas - output.length * FiscoBcosScheduleV3.createDataGas) =
            gas - output.length * FiscoBcosScheduleV3.createDataGas) := by
  have hsmall : output.length ≤ 0x40000 := hlength
  have hprice : toInt64 (output.length * FiscoBcosScheduleV3.createDataGas) =
      output.length * FiscoBcosScheduleV3.createDataGas := by
    show Int.bmod (output.length * (20 : Nat)) _ = output.length * (20 : Nat)
    exact bmod_of_bounds (by omega) (by omega)
  refine ⟨hprice, fun hcheap => ?_⟩
  have hpaid : (output.length : Int) * FiscoBcosScheduleV3.createDataGas ≤ gas := by
    by_contra hdear
    refine hcheap ⟨?_, rfl⟩
    rw [hprice]
    exact Int.not_le.mp hdear
  have hnonneg : (0 : Int) ≤ output.length * FiscoBcosScheduleV3.createDataGas :=
    Int.mul_nonneg (Int.natCast_nonneg _) (Int.natCast_nonneg _)
  exact ⟨by omega, bmod_of_bounds (by omega) (by omega)⟩

theorem ensures_depositCode (hschedule : env.evmSchedule = FiscoBcosScheduleV3)
    (hword : p.gas < 2 ^ 63) {p' : CallParameters} (hkept : GasLaw p p') (host : HostContext)
    (abi : Bytes) (ret : Result) :
    (depositCode env host p' abi ret : Script κ Ending).Ensures GasLaw (Kept p) := by
  obtain ⟨hnonneg, hle⟩ := hkept
  unfold depositCode
  rw [hschedule]
  dsimp only
  by_cases hlarge : FiscoBcosScheduleV3.maxCodeSize < ret.output.length
  · rw [if_pos hlarge]
    exact ⟨hnonneg, hle⟩
  by_cases hdear : codeDepositTooDear FiscoBcosScheduleV3 p'.gas ret.output
  · rw [if_neg hlarge, if_pos hdear]
    exact ⟨hnonneg, hle⟩
  obtain ⟨_, hdeposit⟩ := deposit_exact hnonneg (by omega) (Nat.le_of_not_lt hlarge)
  obtain ⟨hleft, hexact⟩ := hdeposit hdear
  rw [if_neg hlarge, if_neg hdear]
  split
  · exact ⟨hnonneg, hle⟩
  · have hkept : GasLaw p { p' with
        gas := toInt64 (p'.gas - ret.output.length * FiscoBcosScheduleV3.createDataGas)
        newEVMContractAddress := p'.codeAddress
        create := false
        data := [] } := by
      have hpaid : (0 : Int) ≤ ret.output.length * FiscoBcosScheduleV3.createDataGas :=
        Int.mul_nonneg (Int.natCast_nonneg _) (Int.natCast_nonneg _)
      show 0 ≤ toInt64 _ ∧ toInt64 _ ≤ p.gas
      rw [hexact]
      omega
    split
    · exact Script.ensures_bind fun _ => hkept
    · exact Script.ensures_bind fun _ => hkept

theorem clearForeignLogs_gas (p : CallParameters) : (clearForeignLogs p).gas = p.gas := by
  unfold clearForeignLogs
  split <;> rfl

theorem ensures_concludeCreate (hschedule : env.evmSchedule = FiscoBcosScheduleV3)
    (hgas : 0 ≤ p.gas) (hword : p.gas < 2 ^ 63) {p' : CallParameters} (hsame : p'.gas = p.gas)
    (host : HostContext) (abi : Bytes) {out : Except Exc Result}
    (hout : ∀ ret, out = .ok ret → 0 ≤ ret.gasLeft ∧ ret.gasLeft ≤ p.gas) :
    (concludeCreate env host abi p' out : Script κ Ending).Ensures GasLaw (Kept p) := by
  match out with
  | .error x => exact ensures_caught hgas hsame x
  | .ok ret =>
    unfold concludeCreate
    dsimp only
    split
    · trivial
    next ending p'' reverted hparse =>
      obtain ⟨hkept, _⟩ := kept_parseEVMCResult (hout ret rfl) hgas
        ((clearForeignLogs_gas p').trans hsame) hparse
      obtain ⟨hnonneg, hle⟩ : GasLaw p p'' := hkept
      split
      · exact ⟨hnonneg, hle⟩
      · exact ensures_depositCode hschedule hword ⟨hnonneg, hle⟩ host abi ret

theorem ensures_concludeCall (hgas : 0 ≤ p.gas) {p' : CallParameters} (hsame : p'.gas = p.gas)
    {out : Except Exc Result}
    (hout : ∀ ret, out = .ok ret → 0 ≤ ret.gasLeft ∧ ret.gasLeft ≤ p.gas) :
    (concludeCall p' out : Script κ Ending).Ensures GasLaw (Kept p) := by
  match out with
  | .error x => exact ensures_caught hgas hsame x
  | .ok ret =>
    unfold concludeCall
    dsimp only
    split
    · trivial
    next ending p'' reverted hparse =>
      obtain ⟨hkept, _⟩ := kept_parseEVMCResult (hout ret rfl) hgas hsame hparse
      obtain ⟨hnonneg, hle⟩ : GasLaw p p'' := hkept
      show 0 ≤ (clearForeignLogs p'').gas ∧ (clearForeignLogs p'').gas ≤ p.gas
      rw [clearForeignLogs_gas]
      exact ⟨hnonneg, hle⟩

theorem ensures_go (hschedule : env.evmSchedule = FiscoBcosScheduleV3) (hgas : 0 ≤ p.gas)
    (hword : p.gas < 2 ^ 63) (h : GasSound b p) {host : HostContext}
    (hhost : host.callParameters.gas = p.gas) (abi : Bytes) :
    (go env b host abi).Ensures GasLaw (Kept p) := by
  unfold go
  dsimp only
  split
  · refine h.vm.attempt.bind fun out hout => ?_
    refine ensures_concludeCreate hschedule hgas hword ?_ host abi hout
    exact hhost
  · refine Script.ensures_bind fun code => ?_
    split
    · exact kept_same hgas hhost
    · refine h.vm.attempt.bind fun out hout => ensures_concludeCall hgas ?_ hout
      exact hhost

theorem ensures_execute (hschedule : env.evmSchedule = FiscoBcosScheduleV3) (hgas : 0 ≤ p.gas)
    (hword : p.gas < 2 ^ 63) (h : GasSound b p) :
    (execute env b p).Ensures GasLaw (Kept p) := by
  unfold execute
  refine (ensures_prepare hgas h).bind fun out hout => ?_
  match out with
  | .ends ending => exact hout
  | .goOn (host, _, abi) => exact ensures_go hschedule hgas hword h hout abi

end TransactionExecutive

/-- A modelled contract asks for the price of one of its calls. -/
theorem DagTransfer.ensures_call {κ : Type} (c : Codec) (isWasm : Bool) (param : Bytes) :
    (call c isWasm param : Script κ _).Ensures GasLaw fun r =>
      r.gas = 0 ∨ ∃ (call : PricedCall) (param : UInt64),
        r.gas = (call.pricer param r.execResult.length.toUInt64).calTotalGas := by
  unfold call
  cases getParamFunc param with
  | ok func => exact Script.ensures_bind fun execResult => .inr ⟨.dagTransfer, 0, rfl⟩
  | error fault => cases fault <;> trivial

/-- No step of the computations of gas for a message is lost: the price of a call of a precompiled
contract while the entries and the result are not too large, what it leaves, the price of the code
and what it leaves, and the same for the contracts that are called in place. -/
structure GasExact (p : CallParameters) : Prop where
  price : ∀ (call : PricedCall) (param execResult : UInt64), param.toNat < 2 ^ 32 →
    call.EntryBelow (2 ^ 37 - 31) → execResult.toNat < 2 ^ 37 - 31 →
      (call.pricer param execResult).checkedTotalGas =
        some (call.pricer param execResult).calTotalGas
  paid : ∀ (call : PricedCall) (param execResult : UInt64),
    signed (p.gas - (call.pricer param execResult).calTotalGas) =
      some (p.gas - (call.pricer param execResult).calTotalGas)
  deposit : ∀ (gas : Int) (output : Bytes), 0 ≤ gas → gas ≤ p.gas →
    output.length ≤ FiscoBcosScheduleV3.maxCodeSize →
      unsigned (output.length * FiscoBcosScheduleV3.createDataGas) =
          some (output.length * FiscoBcosScheduleV3.createDataGas) ∧
        signed (output.length * FiscoBcosScheduleV3.createDataGas) =
          some (toInt64 (output.length * FiscoBcosScheduleV3.createDataGas)) ∧
        (¬ TransactionExecutive.codeDepositTooDear FiscoBcosScheduleV3 gas output →
          signed (gas - output.length * FiscoBcosScheduleV3.createDataGas) =
            some (toInt64 (gas - output.length * FiscoBcosScheduleV3.createDataGas)))
  pairing : ∀ input : Bytes, input.length < 2 ^ 32 →
    EvmPrecompiled.checkedPairingCost input = some (EvmPrecompiled.pairingCost input).toNat
  inPlace : ∀ (request : CallParameters) (call : BuiltInCall), 0 ≤ request.gas →
    request.gas < 2 ^ 63 → call.Priced →
      (0 ≤ (call.callBuiltInPrecompiled request).gasLeft ∧
          (call.callBuiltInPrecompiled request).gasLeft ≤ request.gas) ∧
        ∀ gas output, call.paid request.data = some (gas, output) →
          signed (request.gas - gas) = some (toInt64 (request.gas - gas))

theorem gasExact {p : CallParameters} (hgas : 0 ≤ p.gas) (hword : p.gas < 2 ^ 63) : GasExact p where
  price call param execResult hparam hentry hresult :=
    PricedCall.gas_checked hentry (by omega) hresult
  paid call param execResult := by
    have hnonneg := call.gas_nonneg param execResult
    have hlt := PrecompiledGas.calTotalGas_lt (call.pricer_operationList_le param execResult)
    exact signed_of_bounds (by omega) (by omega)
  deposit gas output hnonneg hle hlength := by
    have hsmall : output.length ≤ 0x40000 := hlength
    obtain ⟨hprice, hleft⟩ :=
      TransactionExecutive.deposit_exact hnonneg (by omega : gas < 2 ^ 63) hlength
    rw [hprice]
    refine ⟨unsigned_of_lt ?_, signed_of_bounds ?_ ?_, fun hcheap => ?_⟩
    · show output.length * 20 < 2 ^ 64
      omega
    · show -2 ^ 63 ≤ (output.length : Int) * (20 : Nat)
      omega
    · show (output.length : Int) * (20 : Nat) < 2 ^ 63
      omega
    · obtain ⟨hpos, hexact⟩ := hleft hcheap
      have hpaid : (0 : Int) ≤ output.length * FiscoBcosScheduleV3.createDataGas :=
        Int.mul_nonneg (Int.natCast_nonneg _) (Int.natCast_nonneg _)
      rw [hexact]
      exact signed_of_bounds (by omega) (by omega)
  pairing input h := EvmPrecompiled.pairingCost_checked h
  inPlace request call hnonneg hlt h := BuiltInCall.callBuiltInPrecompiled_gas hnonneg hlt h

/-- The message that comes back has no more gas than the one that went in, and no less than none;
on the way no step of the computations is lost. -/
theorem gas_conserved {κ : Type} {st : StateStorage} {env : Environment} {b : Behaviour κ}
    {p : CallParameters} (hschedule : env.evmSchedule = FiscoBcosScheduleV3) (hgas : 0 ≤ p.gas)
    (hword : p.gas < 2 ^ 63) (h : GasSound b p) {scheduler : Scheduler st κ}
    (hs : ∀ callee request s response,
      (scheduler callee request s).response = some response → GasLaw request response) :
    (∀ e ending e', (TransactionExecutive.execute env b p).run scheduler e =
      (some (.ok ending), e') → GasLaw p ending.message) ∧ GasExact p :=
  ⟨fun _ _ _ hrun => (TransactionExecutive.ensures_execute hschedule hgas hword h).run hs hrun,
    gasExact hgas hword⟩

/-- A contract that answers with one byte, at its price. -/
def oneByte : Behaviour Empty where
  precompiled := return ⟨[1], (PricedCall.dagTransfer.pricer 0 1).calTotalGas⟩
  vm := return ⟨.success, 10, [0]⟩

def oneByteRequest : CallParameters where
  codeAddress := "1009"
  gas := 100
  type := .message

theorem gas_conserved_oneByte :
    (∀ e ending e', (TransactionExecutive.execute evmEnvironment oneByte oneByteRequest).run
        (noCalls undoLogStorage) e = (some (.ok ending), e') →
      GasLaw oneByteRequest ending.message) ∧ GasExact oneByteRequest := by
  have hsound : GasSound oneByte oneByteRequest :=
    ⟨⟨by decide, by decide⟩, .inr ⟨.dagTransfer, 0, rfl⟩⟩
  exact gas_conserved rfl (by decide) (by decide) hsound nofun

/-- A directory whose listing takes 128 gigabytes. -/
theorem not_checked_largeListing :
    ¬ ∀ (call : PricedCall) (param execResult : UInt64), param.toNat < 2 ^ 32 →
      (call.pricer param execResult).checkedTotalGas =
        some (call.pricer param execResult).calTotalGas := by
  intro h
  have hlisting := h (.listDir true) 68 (2 ^ 37) (by decide)
  rw [PrecompiledGas.checkedTotalGas_iff (PricedCall.pricer_operationList_le _ _ _)] at hlisting
  have hmem : ((PricedCall.listDir true).pricer 68 (2 ^ 37)).memUsed.toNat = 2 ^ 37 := by
    decide +kernel
  omega

end BcosExecutor
