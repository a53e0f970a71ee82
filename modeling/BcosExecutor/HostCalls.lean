import BcosExecutor.PayBeforeRun
import BcosExecutor.RequestPassage

namespace BcosExecutor

open Building

/-- What ends a host function that may not throw. -/
inductive HostFault
  | thrown (e : Exc)
  | assertion
  | outOfBounds
  deriving DecidableEq, Repr

/-- The fields of the answer of another executive that are read. The status is a number. -/
structure CallResponse where
  type : CallParameters.Kind
  status : Int
  gas : Int
  data : Bytes
  newEVMContractAddress : String
  deriving DecidableEq, Repr

/-- What is given back to a virtual machine. -/
structure EvmcResult extends Result where
  createAddress : Bytes
  deriving DecidableEq, Repr

/-- The status whose number this is. -/
def EvmcStatus.ofCode : Int → EvmcStatus
  | 0 => .success
  | 1 => .failure
  | 2 => .revert
  | 3 => .outOfGas
  | 4 => .invalidInstruction
  | 5 => .undefinedInstruction
  | 6 => .stackOverflow
  | 7 => .stackUnderflow
  | 8 => .badJumpDestination
  | 9 => .invalidMemoryAccess
  | 11 => .staticModeViolation
  | 13 => .contractValidationFailure
  | 14 => .argumentOutOfRange
  | 15 => .wasmUnreachableInstruction
  | code => .other code

theorem EvmcStatus.ofCode_eq_success {code : Int} : ofCode code = .success ↔ code = 0 := by
  constructor
  · intro h
    unfold ofCode at h
    split at h
    · rfl
    all_goals cases h
  · rintro rfl
    rfl

/-- What a request meets: the contracts that are called in place, and the other executives. -/
structure HostWorld where
  isBuiltInPrecompiled : String → Bool
  execPrecompiled : CallParameters → Except Exc PrecompiledExecResult
  evmPrecompiled : String → Option EvmPrecompiled
  crypto : EvmPrecompiled.Crypto
  externalCall : CallParameters → CallResponse

def HostWorld.builtIns (w : HostWorld) : BuiltIns where
  isBuiltInPrecompiled := w.isBuiltInPrecompiled
  isEthereumPrecompiled address := (w.evmPrecompiled address).isSome

/-- What comes back for a request. -/
inductive HostAnswer
  | inPlace (request : CallParameters) (call : BuiltInCall)
  | response (response : CallResponse)

namespace HostContext

section

variable (context : BlockContext) (w : HostWorld) (host : HostContext) (msg : EvmcMessage)

/-- Up to the point where there is an answer to the request. -/
def answerRequest : Except HostFault HostAnswer :=
  match host.externalRequest context w.builtIns msg with
  | .throws e => .error (.thrown e)
  | .callBuiltInPrecompiled request false =>
    .ok (.inPlace request (.constant (w.execPrecompiled request)))
  | .callBuiltInPrecompiled request true =>
    match w.evmPrecompiled request.receiveAddress with
    | none => .error (.thrown (.stdException "map::at"))
    | some precompiled =>
      match EvmPrecompiled.Executor.execute w.crypto precompiled request.data [] with
      | none => .error .assertion
      | some ((success, output), _) => .ok (.inPlace request (.evm precompiled success output))
  | .externalCall request => .ok (.response (w.externalCall request))

end

/-- Twenty bytes are copied from the string. -/
def toEvmC (address : Bytes) : Except HostFault Bytes :=
  if address.length < 20 then .error .outOfBounds else .ok (address.take 20)

/-- The address is converted, whatever was asked for. -/
def convertResponse (response : CallResponse) : Except HostFault EvmcResult :=
  match unhex response.newEVMContractAddress with
  | none => .error (.thrown (.stdException "unhex"))
  | some bytes => do
    let createAddress ← toEvmC bytes
    return {
      status := .ofCode response.status
      gasLeft := response.gas
      output := response.data
      createAddress }

/-- The answer as the virtual machine gets it. -/
def toEvmcResult : HostAnswer → Except HostFault EvmcResult
  | .inPlace request call =>
    .ok { call.callBuiltInPrecompiled request with createAddress := List.replicate 20 0 }
  | .response response => convertResponse response

/-- The host function `call`, which is declared not to throw. -/
def call (context : BlockContext) (w : HostWorld) (host : HostContext) (msg : EvmcMessage) :
    Except HostFault EvmcResult :=
  if msg.gas < 0 then .error (.thrown (.exception .gasOverflow ""))
  else do
    let answer ← host.answerRequest context w msg
    toEvmcResult answer

end HostContext

/-- An answer that is no success. -/
def HostAnswer.failed : HostAnswer → Bool
  | .inPlace request call => (call.paid request.data).isNone
  | .response r => r.type == .revert || r.status != 0

def EvmcCallKind.isSupported : EvmcCallKind → Bool
  | .delegatecall | .callcode => false
  | .call | .create | .create2 => true

/-- A result is given back, no success where the request is not supported or was answered by a
failure, and the address of a contract that was created in EVM mode is the one in the response. -/
def AlwaysReturns (context : BlockContext) (w : HostWorld) (host : HostContext)
    (msg : EvmcMessage) : Prop :=
  ∃ result, host.call context w msg = .ok result ∧
    (msg.kind.isSupported = false → result.status ≠ .success) ∧
    ∀ answer, host.answerRequest context w msg = .ok answer →
      (answer.failed = true → result.status ≠ .success) ∧
      ∀ response, answer = .response response → msg.kind.creates = true →
        context.isWasm = false → answer.failed = false →
        unhex response.newEVMContractAddress = some result.createAddress

/-- A response with the hexadecimal form of twenty bytes at least, and of no more where a contract
was created in EVM mode. One that reverts has the status of a failure. -/
def CallResponse.Convertible (context : BlockContext) (msg : EvmcMessage) (r : CallResponse) :
    Prop :=
  (r.type = .revert → r.status ≠ 0) ∧
    ∃ bytes, unhex r.newEVMContractAddress = some bytes ∧ 20 ≤ bytes.length ∧
      (msg.kind.creates = true → context.isWasm = false → r.status = 0 → bytes.length = 20)

/-- The lengths at the start of an input of `modexp` are within the limit. -/
def EvmPrecompiled.Runs (precompiled : EvmPrecompiled) (input : Bytes) : Prop :=
  precompiled = .modexp → modLength input ≤ lengthLimit ∧ baseLength input ≤ lengthLimit ∧
    (expLength input ≤ lengthLimit ∨ OnlyExponent input)

/-- What is asked for can be done, and its answer can be converted. -/
def Answerable (context : BlockContext) (w : HostWorld) (host : HostContext) (msg : EvmcMessage) :
    Prop :=
  match host.externalRequest context w.builtIns msg with
  | .throws _ => False
  | .callBuiltInPrecompiled _ false => True
  | .callBuiltInPrecompiled request true => ∀ precompiled,
    w.evmPrecompiled request.receiveAddress = some precompiled → precompiled.Runs request.data
  | .externalCall request => (w.externalCall request).Convertible context msg

namespace EvmPrecompiled

/-- An executor comes to its end, apart from `modexp` with lengths above the limit. -/
theorem reaches_execute_of_runs (c : Crypto) {precompiled : EvmPrecompiled} {input : Bytes}
    (h : precompiled.Runs input) :
    ∃ out bound, Reaches (Executor.execute c precompiled input) out bound := by
  by_cases hmodexp : precompiled = .modexp
  · obtain ⟨hmod, hbase, hexp⟩ := h hmodexp
    subst hmodexp
    by_cases honly : OnlyExponent input
    · have hout := reaches_modexp_onlyExponent honly
      exact ⟨_, 32, hout⟩
    · have hexp := hexp.resolve_right honly
      obtain ⟨out, hout⟩ := reaches_modexp hmod hbase hexp (by decide) hmod hbase hexp
      exact ⟨out, lengthLimit, hout⟩
  · by_cases hidentity : precompiled = .identity
    · subst hidentity
      exact ⟨(true, input), input.length, (reaches_build (Nat.le_refl _)).bind (reaches_pure _ _)⟩
    · obtain ⟨out, hout⟩ := reaches_execute (c := c) hmodexp hidentity input
      exact ⟨out, 65, hout⟩

theorem fails_execute_of_not_runs (c : Crypto) {precompiled : EvmPrecompiled} {input : Bytes}
    (h : ¬precompiled.Runs input) : Fails (Executor.execute c precompiled input) := by
  by_cases hmodexp : precompiled = .modexp
  · subst hmodexp
    exact fails_modexp fun hlengths => h fun _ => hlengths
  · exact absurd (fun heq => absurd heq hmodexp) h

end EvmPrecompiled

section

variable {context : BlockContext} {w : HostWorld} {host : HostContext} {msg : EvmcMessage}

theorem isSupported_of_externalRequest
    (h : (host.externalRequest context w.builtIns msg).request.isSome = true) :
    msg.kind.isSupported = true := by
  unfold HostContext.externalRequest HostContext.convertMessage at h
  cases hkind : msg.kind with
  | delegatecall | callcode =>
    rw [hkind] at h
    cases h
  | call | create | create2 => rfl

/-- A request to a contract of the EVM names one. -/
theorem exists_evmPrecompiled {request : CallParameters}
    (h : host.externalRequest context w.builtIns msg = .callBuiltInPrecompiled request true) :
    ∃ precompiled, w.evmPrecompiled request.receiveAddress = some precompiled := by
  unfold HostContext.externalRequest at h
  dsimp only at h
  split at h
  · cases h
  · split at h
    · cases h
    · split at h
      next hethereum =>
        cases h
        exact Option.isSome_iff_exists.mp (Bool.and_eq_true_iff.mp hethereum).1
      next => cases h

theorem call_of_nonneg (h : 0 ≤ msg.gas) :
    host.call context w msg =
      host.answerRequest context w msg >>= HostContext.toEvmcResult :=
  if_neg (Int.not_lt.mpr h)

/-- What a request that is answered comes to. -/
theorem alwaysReturns_of_answer {answer : HostAnswer} {result : EvmcResult} (hgas : 0 ≤ msg.gas)
    (hanswer : host.answerRequest context w msg = .ok answer)
    (hresult : HostContext.toEvmcResult answer = .ok result)
    (hsupported : msg.kind.isSupported = true)
    (hfailed : answer.failed = true → result.status ≠ .success)
    (haddress : ∀ response, answer = .response response → msg.kind.creates = true →
      context.isWasm = false → answer.failed = false →
      unhex response.newEVMContractAddress = some result.createAddress) :
    AlwaysReturns context w host msg := by
  refine ⟨result, ?_, fun h => ?_, fun answer' hanswer' => ?_⟩
  · rw [call_of_nonneg hgas, hanswer]
    exact hresult
  · rw [hsupported] at h
    cases h
  · rw [hanswer] at hanswer'
    cases hanswer'
    exact ⟨hfailed, haddress⟩

theorem not_alwaysReturns_of_neg (h : ¬0 ≤ msg.gas) : ¬AlwaysReturns context w host msg := by
  rintro ⟨result, hcall, -⟩
  unfold HostContext.call at hcall
  rw [if_pos (Int.not_le.mp h)] at hcall
  cases hcall

theorem not_alwaysReturns_of_error {fault : HostFault}
    (h : host.answerRequest context w msg >>= HostContext.toEvmcResult = .error fault) :
    ¬AlwaysReturns context w host msg := by
  by_cases hgas : 0 ≤ msg.gas
  · rintro ⟨result, hcall, -⟩
    rw [call_of_nonneg hgas, h] at hcall
    cases hcall
  · exact not_alwaysReturns_of_neg hgas

/-- A call in place that fails is no success. -/
theorem alwaysReturns_inPlace {request : CallParameters} {call : BuiltInCall} (hgas : 0 ≤ msg.gas)
    (hsupported : msg.kind.isSupported = true)
    (hanswer : host.answerRequest context w msg = .ok (.inPlace request call)) :
    AlwaysReturns context w host msg := by
  refine alwaysReturns_of_answer hgas hanswer rfl hsupported (fun hfailed => ?_)
    fun response heq => ?_
  · have hnone : call.paid request.data = none := Option.isNone_iff_eq_none.mp hfailed
    show (call.callBuiltInPrecompiled request).status ≠ .success
    unfold BuiltInCall.callBuiltInPrecompiled
    rw [hnone]
    intro h
    cases h
  · cases heq

theorem convertResponse_none {r : CallResponse} (h : unhex r.newEVMContractAddress = none) :
    HostContext.convertResponse r = .error (.thrown (.stdException "unhex")) := by
  unfold HostContext.convertResponse
  rw [h]

theorem convertResponse_short {r : CallResponse} {bytes : Bytes}
    (h : unhex r.newEVMContractAddress = some bytes) (hshort : bytes.length < 20) :
    HostContext.convertResponse r = .error .outOfBounds := by
  unfold HostContext.convertResponse HostContext.toEvmC
  rw [h]
  dsimp only
  rw [if_pos hshort]
  rfl

theorem convertResponse_long {r : CallResponse} {bytes : Bytes}
    (h : unhex r.newEVMContractAddress = some bytes) (hlong : 20 ≤ bytes.length) :
    HostContext.convertResponse r =
      .ok ⟨⟨.ofCode r.status, r.gas, r.data⟩, bytes.take 20⟩ := by
  unfold HostContext.convertResponse HostContext.toEvmC
  rw [h]
  dsimp only
  rw [if_neg (Nat.not_lt.mpr hlong)]
  rfl

theorem failed_response_iff {r : CallResponse} :
    (HostAnswer.response r).failed = true ↔ r.type = .revert ∨ r.status ≠ 0 := by
  unfold HostAnswer.failed
  rw [Bool.or_eq_true, beq_iff_eq, bne_iff_ne]

/-- The answer of another executive can be given back where it can be converted. -/
theorem alwaysReturns_response_iff {r : CallResponse} (hgas : 0 ≤ msg.gas)
    (hsupported : msg.kind.isSupported = true)
    (hanswer : host.answerRequest context w msg = .ok (.response r)) :
    AlwaysReturns context w host msg ↔ r.Convertible context msg := by
  have hrun : host.answerRequest context w msg >>= HostContext.toEvmcResult =
      HostContext.convertResponse r := by
    rw [hanswer]
    rfl
  constructor
  · intro hreturns
    cases hunhex : unhex r.newEVMContractAddress with
    | none =>
      rw [convertResponse_none hunhex] at hrun
      exact absurd hreturns (not_alwaysReturns_of_error hrun)
    | some bytes =>
      by_cases hshort : bytes.length < 20
      · rw [convertResponse_short hunhex hshort] at hrun
        exact absurd hreturns (not_alwaysReturns_of_error hrun)
      have hlong := Nat.not_lt.mp hshort
      obtain ⟨result, hcall, -, hanswered⟩ := hreturns
      rw [call_of_nonneg hgas, hrun, convertResponse_long hunhex hlong] at hcall
      cases hcall
      obtain ⟨hfailed, haddress⟩ := hanswered _ hanswer
      have hrevert : r.type = .revert → r.status ≠ 0 := fun htype hzero =>
        hfailed (failed_response_iff.mpr (.inl htype)) (EvmcStatus.ofCode_eq_success.mpr hzero)
      refine ⟨hrevert, bytes, hunhex, hlong, fun hcreates hwasm hzero => ?_⟩
      have hsuccess : (HostAnswer.response r).failed = false := by
        rw [← Bool.not_eq_true, failed_response_iff]
        rintro (htype | hne)
        · exact hrevert htype hzero
        · exact hne hzero
      have htake := haddress r rfl hcreates hwasm hsuccess
      rw [hunhex] at htake
      have hlength := congrArg List.length (Option.some.inj htake)
      rw [List.length_take] at hlength
      omega
  · rintro ⟨hrevert, bytes, hunhex, hlong, hexact⟩
    refine alwaysReturns_of_answer hgas hanswer (convertResponse_long hunhex hlong) hsupported
      (fun hfailed hok => ?_) fun response heq hcreates hwasm hsuccess => ?_
    · have hzero := EvmcStatus.ofCode_eq_success.mp hok
      rcases failed_response_iff.mp hfailed with htype | hne
      · exact hrevert htype hzero
      · exact hne hzero
    · cases heq
      have hzero : r.status = 0 := by
        by_contra hne
        rw [failed_response_iff.mpr (.inr hne)] at hsuccess
        cases hsuccess
      rw [hunhex, List.take_of_length_le (by rw [hexact hcreates hwasm hzero])]

/-- A contract of the EVM answers where its executor comes to an end. -/
theorem alwaysReturns_evm_iff {request : CallParameters} (hgas : 0 ≤ msg.gas)
    (hrequest : host.externalRequest context w.builtIns msg =
      .callBuiltInPrecompiled request true) :
    AlwaysReturns context w host msg ↔ ∀ precompiled,
      w.evmPrecompiled request.receiveAddress = some precompiled →
        precompiled.Runs request.data := by
  have hsupported := isSupported_of_externalRequest (by rw [hrequest]; rfl)
  obtain ⟨precompiled, hprecompiled⟩ := exists_evmPrecompiled hrequest
  have hall : (∀ precompiled', w.evmPrecompiled request.receiveAddress = some precompiled' →
      precompiled'.Runs request.data) ↔ precompiled.Runs request.data := by
    rw [hprecompiled]
    simp
  rw [hall]
  by_cases hruns : precompiled.Runs request.data
  · obtain ⟨⟨success, output⟩, bound, hout⟩ :=
      EvmPrecompiled.reaches_execute_of_runs w.crypto hruns
    obtain ⟨sizes, hrun, -⟩ := hout []
    have hanswer : host.answerRequest context w msg =
        .ok (.inPlace request (.evm precompiled success output)) := by
      unfold HostContext.answerRequest
      rw [hrequest]
      dsimp only
      rw [hprecompiled]
      dsimp only
      rw [hrun]
    exact iff_of_true (alwaysReturns_inPlace hgas hsupported hanswer) hruns
  · have herror : host.answerRequest context w msg >>= HostContext.toEvmcResult =
        .error .assertion := by
      unfold HostContext.answerRequest
      rw [hrequest]
      dsimp only
      rw [hprecompiled]
      dsimp only
      rw [EvmPrecompiled.fails_execute_of_not_runs w.crypto hruns []]
      rfl
    exact iff_of_false (not_alwaysReturns_of_error herror) hruns

end

/-- The host function returns as it should where the gas is not negative, what is asked for can
be done and its answer can be converted. -/
theorem alwaysReturns_iff (context : BlockContext) (w : HostWorld) (host : HostContext)
    (msg : EvmcMessage) :
    AlwaysReturns context w host msg ↔ 0 ≤ msg.gas ∧ Answerable context w host msg := by
  by_cases hgas : 0 ≤ msg.gas
  · rw [and_iff_right hgas]
    unfold Answerable
    cases hrequest : host.externalRequest context w.builtIns msg with
    | throws e =>
      have herror : host.answerRequest context w msg >>= HostContext.toEvmcResult =
          .error (.thrown e) := by
        unfold HostContext.answerRequest
        rw [hrequest]
        rfl
      exact iff_of_false (not_alwaysReturns_of_error herror) id
    | callBuiltInPrecompiled request isEvmPrecompiled =>
      have hsupported := isSupported_of_externalRequest (by rw [hrequest]; rfl)
      cases isEvmPrecompiled with
      | false =>
        have hanswer : host.answerRequest context w msg =
            .ok (.inPlace request (.constant (w.execPrecompiled request))) := by
          unfold HostContext.answerRequest
          rw [hrequest]
        exact iff_of_true (alwaysReturns_inPlace hgas hsupported hanswer) True.intro
      | true => exact alwaysReturns_evm_iff hgas hrequest
    | externalCall request =>
      have hsupported := isSupported_of_externalRequest (by rw [hrequest]; rfl)
      refine alwaysReturns_response_iff hgas hsupported ?_
      unfold HostContext.answerRequest
      rw [hrequest]
  · exact iff_of_false (not_alwaysReturns_of_neg hgas) fun h => hgas h.1

/-- Another contract answers with success and, as nothing was created, no address. -/
def plainWorld : HostWorld where
  isBuiltInPrecompiled _ := false
  execPrecompiled _ := .error (.stdException "")
  evmPrecompiled _ := none
  crypto := EvmPrecompiled.noCrypto
  externalCall request := ⟨.finished, 0, request.gas, [], ""⟩

def callMessage : EvmcMessage :=
  { create2Message with kind := .call }

theorem not_alwaysReturns :
    ¬∀ (context : BlockContext) (w : HostWorld) (host : HostContext) (msg : EvmcMessage),
      AlwaysReturns context w host msg := by
  intro h
  have herror : HostContext.answerRequest evmEnvironment.toBlockContext plainWorld
      ⟨TransactionExecutive.transactionParameters, ""⟩ callMessage >>=
        HostContext.toEvmcResult = .error .outOfBounds := by decide +kernel
  exact not_alwaysReturns_of_error herror (h _ _ _ _)

end BcosExecutor
