import BcosExecutor.ExecutiveAtomic
import BcosExecutor.WrappedExecutive

namespace BcosExecutor

/-- The message answers a call. -/
def Ending.Answers (ending : Ending) : Prop :=
  ending.message.type = .finished ∨ ending.message.type = .revert

/-- What has settled a message is an answer. -/
def TransactionExecutive.Settled.Answers {α : Type} : Settled α → Prop
  | .ends ending => ending.Answers
  | .goOn _ => True

namespace Script

variable {κ α : Type}

theorem returns_attempt {P : α → Prop} {m : Script κ α} (hm : m.Returns P) :
    m.attempt.Returns fun r => ∀ a, r = .ok a → P a := by
  induction m with
  | pure a =>
    intro a' ha
    cases ha
    exact hm
  | throw x => exact fun a ha => nomatch ha
  | abort => trivial
  | getRow row k ih => exact fun entry => ih entry (hm entry)
  | setRow row entry k ih => exact ih hm
  | externalCall callee request k ih => exact fun response => ih response (hm response)

end Script

namespace TransactionExecutive

variable {κ : Type} (env : Environment) (p : CallParameters)

theorem answers_caught (x : Exc) : (caught p x : Script κ Ending).Returns Ending.Answers := by
  cases x with
  | internalVMError | exception | stdException => exact True.intro
  | _ => exact Or.inr rfl

theorem answers_depositCode (host : HostContext) (abi : Bytes) (ret : Result)
    (hp : p.type = .finished) :
    (depositCode env host p abi ret : Script κ Ending).Returns Ending.Answers := by
  unfold depositCode
  dsimp only
  by_cases hlarge : env.evmSchedule.maxCodeSize < ret.output.length
  · rw [if_pos hlarge]
    exact Or.inr rfl
  by_cases hdear : codeDepositTooDear env.evmSchedule p.gas ret.output
  · rw [if_neg hlarge, if_pos hdear]
    exact Or.inr rfl
  by_cases hnone : (!env.isWasm && ret.output.isEmpty) = true
  · rw [if_neg hlarge, if_neg hdear, if_pos hnone]
    exact Or.inr rfl
  rw [if_neg hlarge, if_neg hdear, if_neg hnone]
  split
  · exact Script.returns_bind (Script.returns_true _) fun _ _ => Or.inl hp
  · exact Script.returns_bind (Script.returns_true _) fun _ _ => Or.inl hp

theorem answers_concludeCreate (host : HostContext) (abi : Bytes) (outcome : Except Exc Result) :
    (concludeCreate env host abi p outcome : Script κ Ending).Returns Ending.Answers := by
  unfold concludeCreate
  match outcome with
  | .error x => exact answers_caught p x
  | .ok ret =>
    dsimp only
    split
    next => exact True.intro
    next p' reverted hparse =>
      split
      next => exact Or.inr rfl
      next hstatus =>
        rcases parseEVMCResult_cases hparse with ⟨_, _, hne, _⟩ | ⟨_, htype, _⟩
        · exact absurd hne hstatus
        · exact answers_depositCode env p' host abi ret htype

theorem answers_concludeCall (outcome : Except Exc Result) :
    (concludeCall p outcome : Script κ Ending).Returns Ending.Answers := by
  unfold concludeCall
  match outcome with
  | .error x => exact answers_caught p x
  | .ok ret =>
    dsimp only
    split
    next => exact True.intro
    next p' reverted hparse =>
      have htype : (clearForeignLogs p').type = p'.type := by
        unfold clearForeignLogs
        split <;> rfl
      rcases parseEVMCResult_cases hparse with ⟨_, hrevert, _⟩ | ⟨_, hfinished, _⟩
      · exact Or.inr (htype.trans hrevert)
      · exact Or.inl (htype.trans hfinished)

theorem answers_callPrecompiled (b : Behaviour κ) :
    (callPrecompiled env b p).Returns Ending.Answers := by
  unfold callPrecompiled
  refine Script.returns_bind (Script.returns_true _) fun r _ => ?_
  match r with
  | .ok precompiledResult =>
    dsimp only
    split
    · exact Or.inr rfl
    · exact Or.inl rfl
  | .error x => cases x <;> exact Or.inr rfl

theorem answers_decodeInput : (decodeInput env p : Script κ _).Returns Settled.Answers := by
  unfold decodeInput
  split
  · exact True.intro
  split
  · exact True.intro
  · dsimp only
    split
    · exact Or.inr rfl
    split
    · exact Or.inr rfl
    · exact True.intro

end TransactionExecutive

namespace Access

open TransactionExecutive (Settled answers_caught answers_concludeCreate answers_concludeCall
  answers_callPrecompiled answers_decodeInput)

variable {κ : Type} (env : Environment) (b : WrappedBehaviour κ) (p : CallParameters)

theorem answers_createPermitted (params abi : Bytes) :
    (createPermitted env p params abi : Access κ _).erase.Returns Settled.Answers := by
  unfold createPermitted createTables buildBfsPath
  dsimp only
  rw [erase_bind, erase_attempt, erase_via]
  refine Script.returns_bind (Script.returns_true _) fun r _ => ?_
  match r with
  | .error x => exact Or.inr rfl
  | .ok () =>
    dsimp only
    split
    · exact True.intro
    · rw [erase_bind, erase_via]
      refine Script.returns_bind (Script.returns_true _) fun built _ => ?_
      split
      · exact True.intro
      · exact Or.inr rfl

theorem answers_createContract (params abi : Bytes) :
    (createContract env b p params abi).erase.Returns Settled.Answers := by
  unfold createContract
  split
  · rw [erase_bind]
    refine Script.returns_bind (Script.returns_true _) fun permitted _ => ?_
    split
    · exact answers_createPermitted env p params abi
    · exact Or.inr rfl
  · exact answers_createPermitted env p params abi

theorem answers_create : (create env b p).erase.Returns Settled.Answers := by
  unfold create
  rw [erase_bind, erase_via]
  refine Script.returns_bind (answers_decodeInput env p) fun settled hsettled => ?_
  match settled with
  | .ends ending => exact hsettled
  | .goOn (p', params, abi) => exact answers_createContract env b p' params abi

theorem answers_call : (call env b p).erase.Returns Settled.Answers := by
  unfold call
  dsimp only
  split
  · rw [erase_bind, erase_callPrecompiled env b (c := true)]
    exact Script.returns_bind (answers_callPrecompiled env p _) fun _ h => h
  split
  · rw [erase_bind]
    refine Script.returns_bind (Script.returns_true _) fun permitted _ => ?_
    split
    · exact True.intro
    · exact Or.inr rfl
  · exact True.intro

theorem answers_go (host : HostContext) (abi : Bytes) :
    (go env b host abi).erase.Returns Ending.Answers := by
  unfold go
  dsimp only
  split
  · rw [erase_bind]
    refine Script.returns_bind (Script.returns_true _) fun outcome _ => ?_
    rw [erase_bind, erase_attempt, erase_via]
    refine Script.returns_bind
      (Script.returns_attempt (answers_concludeCreate env _ host abi outcome)) fun r hr => ?_
    match r with
    | .ok ending => exact hr ending rfl
    | .error x => exact True.intro
  · rw [erase_bind]
    refine Script.returns_bind (Script.returns_true _) fun r _ => ?_
    match r with
    | .error x =>
      dsimp only
      rw [erase_via]
      exact answers_caught _ x
    | .ok code =>
      dsimp only
      split
      · exact Or.inr rfl
      · rw [erase_bind]
        refine Script.returns_bind (Script.returns_true _) fun outcome _ => ?_
        rw [erase_via]
        exact answers_concludeCall _ outcome

/-- An executive ends with an answer. -/
theorem answers_execute : (execute env b p).erase.Returns Ending.Answers := by
  unfold execute prepare
  rw [erase_bind]
  have hprepared : (if p.create then create env b p else call env b p).erase.Returns
      Settled.Answers := by
    split
    · exact answers_create env b p
    · exact answers_call env b p
  refine Script.returns_bind hprepared fun settled hsettled => ?_
  match settled with
  | .ends ending => exact hsettled
  | .goOn (host, _, abi) => exact answers_go env b host abi

end Access

end BcosExecutor
