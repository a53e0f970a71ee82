import BcosExecutor.KeyLocks

namespace BcosExecutor

/-- What runs on behalf of a message, over the wrapper. -/
structure WrappedBehaviour (κ : Type) where
  checkAuth : Access κ Bool := pure true
  precompiled : Access κ PrecompiledExecResult
  vm : Access κ Result
  logEntries : List LogEntry := []

/-- Code that has nothing to do. -/
def WrappedBehaviour.idle : WrappedBehaviour Empty where
  precompiled := .throw (.precompiledError none)
  vm := return ⟨.success, 0, []⟩

def WrappedBehaviour.erase {κ : Type} (b : WrappedBehaviour κ) (checkAuth : Bool) :
    Behaviour κ where
  checkAuth
  precompiled := b.precompiled.erase
  vm := b.vm.erase
  logEntries := b.logEntries

/-- `setCode` opens the table of the contract and writes its rows through the wrapper. -/
def hostWay (row : StateRow) : Way :=
  if row.table = sysTables then .table else .wrapper

namespace Script

variable {κ α β : Type}

/-- A program that throws nothing. -/
def Throwless : Script κ α → Prop
  | pure _ | abort => True
  | throw _ => False
  | getRow _ k => ∀ entry, (k entry).Throwless
  | setRow _ _ k => k.Throwless
  | externalCall _ _ k => ∀ response, (k response).Throwless

theorem Throwless.bind {m : Script κ α} {f : α → Script κ β} (hm : m.Throwless)
    (hf : ∀ a, (f a).Throwless) : (m >>= f).Throwless := by
  show (m.bind f).Throwless
  induction m with
  | pure a => exact hf a
  | throw e => exact hm.elim
  | abort => trivial
  | getRow row k ih => exact fun entry => ih entry (hm entry)
  | setRow row entry k ih => exact ih hm
  | externalCall callee request k ih => exact fun response => ih response (hm response)

theorem attempt_bind_of_throwless {m : Script κ α} {f : Except Exc α → Script κ β}
    {g : α → Script κ β} (hm : m.Throwless) (hf : ∀ a, f (.ok a) = g a) :
    m.attempt >>= f = m >>= g := by
  show m.attempt.bind f = m.bind g
  induction m with
  | pure a => exact hf a
  | throw e => exact hm.elim
  | abort => rfl
  | getRow row k ih => exact congrArg (getRow row) (funext fun entry => ih entry (hm entry))
  | setRow row entry k ih => exact congrArg (setRow row entry) (ih hm)
  | externalCall callee request k ih =>
    exact congrArg (externalCall callee request) (funext fun p => ih p (hm p))

theorem bind_pure (m : Script κ α) : m >>= Pure.pure = m := by
  show m.bind Script.pure = m
  induction m with
  | pure a => rfl
  | throw e => rfl
  | abort => rfl
  | getRow row k ih => exact congrArg (getRow row) (funext ih)
  | setRow row entry k ih => exact congrArg (setRow row entry) ih
  | externalCall callee request k ih => exact congrArg (externalCall callee request) (funext ih)

theorem bind_congr {m : Script κ α} {f g : α → Script κ β} (h : ∀ a, f a = g a) :
    m >>= f = m >>= g := by
  rw [funext h]

theorem throwless_pure (a : α) : (Pure.pure a : Script κ α).Throwless := trivial

end Script

theorem throwless_setCode {κ : Type} (context : BlockContext) (host : HostContext) (code : Bytes) :
    (host.setCode context code : Script κ Bool).Throwless := by
  intro info
  show Script.Throwless (if info.isSome then _ else _)
  split <;> trivial

theorem throwless_caught {κ : Type} (p : CallParameters) (e : Exc) :
    (TransactionExecutive.caught p e : Script κ Ending).Throwless := by
  cases e <;> trivial

theorem throwless_depositCode {κ : Type} (env : Environment) (host : HostContext)
    (p : CallParameters) (abi : Bytes) (ret : Result) :
    (TransactionExecutive.depositCode env host p abi ret : Script κ Ending).Throwless := by
  have hset := throwless_setCode (κ := κ) env.toBlockContext host ret.output
  unfold TransactionExecutive.depositCode HostContext.setCodeAndAbi
  dsimp only
  by_cases hlarge : env.evmSchedule.maxCodeSize < ret.output.length
  · rw [if_pos hlarge]
    exact Script.throwless_pure _
  by_cases hdear : TransactionExecutive.codeDepositTooDear env.evmSchedule p.gas ret.output
  · rw [if_neg hlarge, if_pos hdear]
    exact Script.throwless_pure _
  by_cases hnone : (!env.isWasm && ret.output.isEmpty) = true
  · rw [if_neg hlarge, if_neg hdear, if_pos hnone]
    exact Script.throwless_pure _
  rw [if_neg hlarge, if_neg hdear, if_neg hnone]
  split
  · refine (hset.bind fun set => ?_).bind fun _ => Script.throwless_pure _
    split <;> trivial
  · exact hset.bind fun _ => Script.throwless_pure _

theorem throwless_concludeCreate {κ : Type} (env : Environment) (host : HostContext) (abi : Bytes)
    (p : CallParameters) (outcome : Except Exc Result) :
    (TransactionExecutive.concludeCreate env host abi p outcome : Script κ Ending).Throwless := by
  unfold TransactionExecutive.concludeCreate
  match outcome with
  | .error e => exact throwless_caught p e
  | .ok ret =>
    dsimp only
    split
    · trivial
    · split
      · exact Script.throwless_pure _
      · exact throwless_depositCode env host _ abi ret

namespace Access

open TransactionExecutive

variable {κ : Type}

def checkAuth (b : WrappedBehaviour κ) (p : CallParameters) : Access κ Bool :=
  if p.staticCall then return true else b.checkAuth

def execPrecompiled (b : WrappedBehaviour κ) : Access κ PrecompiledExecResult := do
  match ← b.precompiled.attempt with
  | .ok execResult => return execResult
  | .error (.precompiledError comment) => .throw (.precompiledError comment)
  | .error _ => .throw (.precompiledError none)

def callPrecompiled (env : Environment) (b : WrappedBehaviour κ) (p : CallParameters) :
    Access κ Ending := do
  let p := { p with type := .finished }
  match ← (execPrecompiled b).attempt with
  | .ok precompiledResult =>
    let gas := precompiledResult.gas
    if p.gas < gas then
      return ⟨{ p with type := .revert, status := .outOfGas }, false⟩
    else
      return ⟨{ p with
        gas := p.gas - gas
        status := .none
        data := precompiledResult.execResult }, false⟩
  | .error (.precompiledError comment) =>
    let msg := comment.getD "error occurs in precompiled, but error_info is empty"
    return ⟨{ p with
      data := env.writeErrInfoToOutput msg
      type := .revert
      status := .precompiledError }, true⟩
  | .error e =>
    return ⟨{ p with
      data := env.writeErrInfoToOutput e.what
      type := .revert
      status := e.toTransactionStatus }, true⟩

def createTables (env : Environment) (p : CallParameters) (tableName : String) :
    Access κ Unit :=
  (TransactionExecutive.createTables env p tableName).via fun _ => .table

def buildBfsPath (env : Environment) (absoluteDir : String) : Access κ Bool :=
  (TransactionExecutive.buildBfsPath env absoluteDir).via fun _ => .table

/-- The part of `create` after the permission check. -/
def createPermitted (env : Environment) (p : CallParameters) (params abi : Bytes) :
    Access κ (Settled (HostContext × Bytes × Bytes)) := do
  let tableName := getContractTableName env.toBlockContext p.codeAddress
  match ← (createTables env p tableName).attempt with
  | .error e => return .ends (revertWith p .contractAddressAlreadyUsed e.what)
  | .ok () =>
    if !env.isWasm then
      return .goOn (⟨p, tableName⟩, [], [])
    else if ← buildBfsPath env tableName then
      return .goOn (⟨p, tableName⟩, params, abi)
    else
      return .ends (revertWith p .revertInstruction "Error occurs in build BFS dir")

def createContract (env : Environment) (b : WrappedBehaviour κ) (p : CallParameters)
    (params abi : Bytes) : Access κ (Settled (HostContext × Bytes × Bytes)) :=
  if env.isAuthCheck then do
    if ← checkAuth b p then
      createPermitted env p params abi
    else
      return .ends (revertWith p .permissionDenied "Create permission denied")
  else
    createPermitted env p params abi

def create (env : Environment) (b : WrappedBehaviour κ) (p : CallParameters) :
    Access κ (Settled (HostContext × Bytes × Bytes)) := do
  match ← (decodeInput env p).via hostWay with
  | .ends ending => return .ends ending
  | .goOn (p, params, abi) => createContract env b p params abi

def go (env : Environment) (b : WrappedBehaviour κ) (host : HostContext) (abi : Bytes) :
    Access κ Ending := do
  let p := host.callParameters
  let logged := { p with logEntries := p.logEntries ++ b.logEntries }
  if host.isCreate then
    let outcome ← b.vm.attempt
    match ← ((concludeCreate env host abi logged outcome).via hostWay).attempt with
    | .ok ending => return ending
    -- the catch clauses find the parameters gone
    | .error _ => .abort
  else
    match ← (host.code.via fun _ => .wrapper).attempt with
    | .error e => (caught p e).via hostWay
    | .ok code =>
      if code.isEmpty then
        return ⟨{ p with
          type := .revert
          status := .callAddressError
          message := "Error contract address." }, false⟩
      else
        (concludeCall logged (← b.vm.attempt)).via hostWay

def call (env : Environment) (b : WrappedBehaviour κ) (p : CallParameters) :
    Access κ (Settled (HostContext × Bytes × Bytes)) :=
  let tableName := getContractTableName env.toBlockContext p.codeAddress
  if env.isPrecompiled p.codeAddress then do
    return .ends (← callPrecompiled env b p)
  else if env.isAuthCheck && !env.isWasm then do
    if ← checkAuth b p then
      return .goOn (⟨p, tableName⟩, [], [])
    else
      return .ends (revertWith p .permissionDenied "Call permission denied")
  else
    return .goOn (⟨p, tableName⟩, [], [])

def prepare (env : Environment) (b : WrappedBehaviour κ) (p : CallParameters) :
    Access κ (Settled (HostContext × Bytes × Bytes)) :=
  if p.create then create env b p else call env b p

def execute (env : Environment) (b : WrappedBehaviour κ) (p : CallParameters) :
    Access κ Ending := do
  match ← prepare env b p with
  | .ends ending => return ending
  | .goOn (host, _, abi) => go env b host abi

/-! The executive over the wrapper does what the executive over the storage does. -/

section Erase

variable (env : Environment) (b : WrappedBehaviour κ) {c : Bool}

theorem erase_execPrecompiled :
    (execPrecompiled b).erase = TransactionExecutive.execPrecompiled (b.erase c) := by
  unfold execPrecompiled TransactionExecutive.execPrecompiled
  rw [erase_bind, erase_attempt]
  refine Script.bind_congr fun r => ?_
  match r with
  | .ok execResult => rfl
  | .error e => cases e <;> rfl

theorem erase_callPrecompiled (p : CallParameters) :
    (callPrecompiled env b p).erase =
      TransactionExecutive.callPrecompiled env (b.erase c) p := by
  unfold callPrecompiled TransactionExecutive.callPrecompiled
  dsimp only
  rw [erase_bind, erase_attempt, erase_execPrecompiled b]
  refine Script.bind_congr fun r => ?_
  match r with
  | .ok precompiledResult =>
    dsimp only
    split <;> rfl
  | .error e => cases e <;> rfl

theorem erase_createPermitted (p : CallParameters) (params abi : Bytes)
    (hc : (env.isAuthCheck && !(p.staticCall || c)) = false) :
    (createPermitted env p params abi).erase =
      TransactionExecutive.createContract env (b.erase c) p params abi := by
  unfold createPermitted TransactionExecutive.createContract createTables buildBfsPath
  have hpermitted : (env.isAuthCheck && !(p.staticCall || (b.erase c).checkAuth)) = false := hc
  rw [hpermitted, if_neg Bool.false_ne_true]
  dsimp only
  rw [erase_bind, erase_attempt, erase_via]
  refine Script.bind_congr fun r => ?_
  match r with
  | .error e => rfl
  | .ok () =>
    dsimp only
    split
    · rfl
    · rw [erase_bind, erase_via]
      refine Script.bind_congr fun built => ?_
      split <;> rfl

theorem erase_createContract (hb : b.checkAuth = pure c) (p : CallParameters)
    (params abi : Bytes) :
    (createContract env b p params abi).erase =
      TransactionExecutive.createContract env (b.erase c) p params abi := by
  unfold createContract checkAuth
  rw [hb]
  cases hauth : env.isAuthCheck with
  | false => exact erase_createPermitted env b p params abi (by rw [hauth]; rfl)
  | true =>
    cases hs : p.staticCall with
    | true => exact erase_createPermitted env b p params abi (by rw [hauth, hs]; rfl)
    | false =>
      cases c with
      | true => exact erase_createPermitted env b p params abi (by rw [hauth, hs]; rfl)
      | false =>
        unfold TransactionExecutive.createContract WrappedBehaviour.erase
        rw [hauth, hs]
        rfl

theorem erase_create (hb : b.checkAuth = pure c) (p : CallParameters) :
    (create env b p).erase = TransactionExecutive.create env (b.erase c) p := by
  unfold create TransactionExecutive.create
  rw [erase_bind, erase_via]
  refine Script.bind_congr fun r => ?_
  match r with
  | .ends ending => rfl
  | .goOn (p, params, abi) => exact erase_createContract env b hb p params abi

theorem erase_go (host : HostContext) (abi : Bytes) :
    (go env b host abi).erase = TransactionExecutive.go env (b.erase c) host abi := by
  unfold go TransactionExecutive.go
  dsimp only
  split
  · rw [erase_bind, erase_attempt]
    refine Script.bind_congr fun outcome => ?_
    rw [erase_bind, erase_attempt, erase_via]
    have hthrowless := throwless_concludeCreate (κ := κ) env host abi
      { host.callParameters with
        logEntries := host.callParameters.logEntries ++ b.logEntries } outcome
    refine (Script.attempt_bind_of_throwless hthrowless fun ending => ?_).trans
      (Script.bind_pure _)
    rfl
  · rw [erase_bind, erase_attempt, erase_via]
    have hthrowless : (host.code : Script κ Bytes).Throwless := fun entry => trivial
    refine Script.attempt_bind_of_throwless hthrowless fun code => ?_
    dsimp only
    split
    · rfl
    · rw [erase_bind, erase_attempt]
      exact Script.bind_congr fun outcome => erase_via _ _

theorem erase_call (hb : b.checkAuth = pure c) (p : CallParameters) :
    (call env b p).erase = TransactionExecutive.call env (b.erase c) p := by
  unfold call TransactionExecutive.call
  dsimp only
  split
  · rw [erase_bind, erase_callPrecompiled env b (c := c)]
    rfl
  · unfold checkAuth
    rw [hb]
    cases env.isAuthCheck && !env.isWasm with
    | false => rfl
    | true => cases p.staticCall <;> cases c <;> rfl

theorem erase_execute (hb : b.checkAuth = pure c) (p : CallParameters) :
    (execute env b p).erase = TransactionExecutive.execute env (b.erase c) p := by
  unfold execute TransactionExecutive.execute prepare TransactionExecutive.prepare
  rw [erase_bind]
  have hprepared : (if p.create then create env b p else call env b p).erase =
      if p.create then TransactionExecutive.create env (b.erase c) p
      else TransactionExecutive.call env (b.erase c) p := by
    split
    · exact erase_create env b hb p
    · exact erase_call env b hb p
  rw [hprepared]
  refine Script.bind_congr fun r => ?_
  match r with
  | .ends ending => rfl
  | .goOn (host, _, abi) => exact erase_go env b host abi

end Erase

end Access

end BcosExecutor
