import BcosExecutor.StaticCalls

namespace BcosExecutor

/-- The request that is built, in place or for another executive. -/
def Requested.request : Requested → Option CallParameters
  | .throws _ => none
  | .callBuiltInPrecompiled request _ | .externalCall request => some request

def Requested.isExternal : Requested → Bool
  | .externalCall _ => true
  | .throws _ | .callBuiltInPrecompiled _ _ => false

/-- What the scheduler fills in of a request. -/
structure Filling where
  toAddress : String
  contextID : Int
  seq : Int

def Filling.fill (f : Filling) (message : ExecutionMessage) : ExecutionMessage :=
  { message with toAddress := f.toAddress, contextID := f.contextID, seq := f.seq }

def EvmcCallKind.creates : EvmcCallKind → Bool
  | .create | .create2 => true
  | .call | .delegatecall | .callcode => false

/-- The parameters have what the message asks for. -/
structure Carries (host : HostContext) (msg : EvmcMessage) (p : CallParameters) : Prop where
  data : p.data = msg.inputData
  gas : p.gas = msg.gas
  senderAddress : p.senderAddress = host.myAddress
  origin : p.origin = host.callParameters.origin
  create : p.create = msg.kind.creates
  createSalt : msg.kind = .create2 → p.createSalt = some msg.create2Salt.toNat

/-- The message has become a request that carries it, and where the request leaves the
executive, so do the parameters of the executive it leads to. -/
def Faithful (context : BlockContext) (builtIns : BuiltIns) (host : HostContext)
    (msg : EvmcMessage) : Prop :=
  ∃ request, (host.externalRequest context builtIns msg).request = some request ∧
    Carries host msg request ∧
    ((host.externalRequest context builtIns msg).isExternal = true →
      ∀ (fresh : ExecutionMessage) (f : Filling) (staticCall : Bool), ∃ p,
        createCallParameters (f.fill (toExecutiveResult fresh host.callParameters.contextID
          host.callParameters.seq request)) staticCall = some p ∧ Carries host msg p)

variable {context : BlockContext} {host : HostContext} {msg : EvmcMessage}

/-- The request that the switch over the kind starts from. -/
def HostContext.newRequest (host : HostContext) : CallParameters where
  type := .message
  senderAddress := host.myAddress
  origin := host.callParameters.origin
  status := .none

/-- Only the gas and the flag of a static call are set after the switch. -/
theorem externalRequest_of_converted (builtIns : BuiltIns) {converted : CallParameters}
    (h : HostContext.convertMessage context msg host.newRequest = .ok converted) :
    ∃ staticCall, (host.externalRequest context builtIns msg).request =
      some { converted with gas := msg.gas, staticCall } := by
  unfold HostContext.newRequest at h
  unfold HostContext.externalRequest
  simp only [h]
  split
  · exact ⟨converted.staticCall, rfl⟩
  · split
    · exact ⟨converted.staticCall, rfl⟩
    · exact ⟨host.callParameters.staticCall, rfl⟩

theorem externalRequest_of_error (builtIns : BuiltIns) {e : Exc}
    (h : HostContext.convertMessage context msg host.newRequest = .error e) :
    (host.externalRequest context builtIns msg).request = none := by
  unfold HostContext.newRequest at h
  unfold HostContext.externalRequest
  simp only [h]
  rfl

/-- What is carried besides the salt reaches the executive that answers a message. -/
theorem carries_createCallParameters {request : CallParameters} (fresh : ExecutionMessage)
    (contextID seq : Int) (f : Filling) (staticCall : Bool) (htype : request.type = .message)
    (hcarries : Carries host msg request) (hkind : msg.kind ≠ .create2) :
    ∃ p, createCallParameters (f.fill (toExecutiveResult fresh contextID seq request)) staticCall =
      some p ∧ Carries host msg p := by
  have hmessage : (f.fill (toExecutiveResult fresh contextID seq request)).type = .message := by
    simp only [Filling.fill, toExecutiveResult, toExecutionResult, htype]
  have hsender : (f.fill (toExecutiveResult fresh contextID seq request)).fromAddress =
      request.senderAddress := by
    simp only [Filling.fill, toExecutiveResult, toExecutionResult, htype]
  unfold createCallParameters
  simp only [hmessage]
  refine ⟨_, rfl, ?_, ?_, ?_, ?_, ?_, fun h => absurd h hkind⟩
  · exact hcarries.data
  · exact hcarries.gas
  · exact hsender.trans hcarries.senderAddress
  · exact hcarries.origin
  · exact hcarries.create

theorem convertMessage_type {converted : CallParameters}
    (h : HostContext.convertMessage context msg host.newRequest = .ok converted) :
    converted.type = .message := by
  unfold HostContext.convertMessage at h
  cases hk : msg.kind with
  | delegatecall | callcode => simp only [hk] at h; cases h
  | call | create | create2 => simp only [hk] at h; cases h; rfl

theorem convertMessage_kind {converted : CallParameters}
    (h : HostContext.convertMessage context msg host.newRequest = .ok converted) :
    msg.kind ≠ .create2 ↔ msg.kind = .call ∨ msg.kind = .create := by
  unfold HostContext.convertMessage at h
  cases hk : msg.kind with
  | delegatecall | callcode => simp only [hk] at h; cases h
  | call | create | create2 => simp

/-- The switch keeps the message for a call and for one of the two kinds of creation. -/
theorem convertMessage_carries {converted : CallParameters} (staticCall : Bool)
    (h : HostContext.convertMessage context msg host.newRequest = .ok converted) :
    Carries host msg { converted with gas := msg.gas, staticCall } ↔ msg.kind ≠ .create2 := by
  unfold HostContext.convertMessage at h
  cases hk : msg.kind with
  | delegatecall | callcode => simp only [hk] at h; cases h
  | create2 =>
    simp only [hk] at h
    cases h
    refine iff_of_false (fun hcarries => ?_) (fun hne => hne rfl)
    have hcreate := hcarries.create
    rw [hk] at hcreate
    exact absurd hcreate Bool.false_ne_true
  | call | create =>
    simp only [hk] at h
    cases h
    refine iff_of_true ⟨rfl, rfl, rfl, rfl, ?_, fun h => ?_⟩ (fun h => ?_)
    · rw [hk]; rfl
    · rw [hk] at h; cases h
    · cases h

/-- A message of the kind CREATE2 loses its code and the mark of a creation. -/
theorem externalRequest_faithful_iff (context : BlockContext) (builtIns : BuiltIns)
    (host : HostContext) (msg : EvmcMessage) :
    Faithful context builtIns host msg ↔ msg.kind = .call ∨ msg.kind = .create := by
  cases hconverted : HostContext.convertMessage context msg host.newRequest with
  | error e =>
    have hnone := externalRequest_of_error builtIns hconverted
    refine iff_of_false ?_ ?_
    · rintro ⟨request, hrequest, _⟩
      rw [hnone] at hrequest
      cases hrequest
    · unfold HostContext.convertMessage at hconverted
      rintro (h | h) <;> simp [h] at hconverted
  | ok converted =>
    obtain ⟨staticCall, hrequest⟩ := externalRequest_of_converted builtIns hconverted
    have hiff := convertMessage_carries staticCall hconverted
    rw [← convertMessage_kind hconverted]
    constructor
    · rintro ⟨request, hrequest', hcarries, _⟩
      rw [hrequest] at hrequest'
      cases hrequest'
      exact hiff.mp hcarries
    · intro hne
      refine ⟨_, hrequest, hiff.mpr hne, fun _ fresh f staticCall' => ?_⟩
      have htype := convertMessage_type hconverted
      exact carries_createCallParameters fresh _ _ f staticCall' htype (hiff.mpr hne) hne

/-- A creation with the salt 1 that a contract asks for. -/
def create2Message : EvmcMessage where
  kind := .create2
  flags := 0
  depth := 0
  gas := 100000
  destination := List.replicate 20 0
  sender := List.replicate 20 0x11
  inputData := [0x60, 0x00]
  value := 0
  create2Salt := 1

theorem create2_not_faithful :
    ¬ Faithful evmEnvironment.toBlockContext TransactionExecutive.noBuiltIns
      ⟨TransactionExecutive.transactionParameters, ""⟩ create2Message := by
  rintro ⟨request, hrequest, hcarries, _⟩
  have hdata : request.data = [] := by
    cases Option.some.inj hrequest
    rfl
  exact absurd (hdata.symm.trans hcarries.data) (by decide)

end BcosExecutor
