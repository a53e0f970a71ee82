import BcosExecutor.GoReturns
import BcosExecutor.RowRuns

namespace BcosExecutor

namespace TransactionExecutive

/-- An exception as it is thrown: gas that ran out comes with the status of the machine. -/
def thrown : Exc → Thrown
  | .permissionDenied => .permissionDenied
  | .precompiledError _ => .precompiledError
  | .outOfGas => .outOfGas (some 3)
  | .error errorCode errorMessage => .error errorCode errorMessage
  | .internalVMError => .internalVMError (some (-1))
  | .exception _ _ => .exception
  | .stdException _ => .stdException

/-- What the rows answer where no access throws. -/
def answersOn (b : Behaviour Empty) (host : HostContext) (myAddress : String) (s : Rows) :
    GoAnswers where
  myAddress
  code := .ok ((s ⟨host.tableName, ACCOUNT_CODE⟩).getD [])
  exec :=
    match (b.vm.onRows s).1 with
    | some (.ok ret) => .ok ret
    | some (.error e) => .error (thrown e)
    | none => .error .stdException
  logEntries := b.logEntries
  openTable := .ok ((b.vm.onRows s).2 ⟨sysTables, ascii host.tableName⟩).isSome

/-- The message that comes back. -/
def returned :
    Except Stop (Except Thrown CallParameters × Option CallParameters) →
      Option (Except Exc CallParameters)
  | .ok (.ok p, _) => some (.ok p)
  | _ => none

/-- The outcome of a script as the message that comes back. -/
def message (out : Option (Except Exc Ending)) : Option (Except Exc CallParameters) :=
  out.map fun r => r.map Ending.message

variable {env : Environment} {b : Behaviour Empty} {host : HostContext} {myAddress : String}
  {extraData : Option CallParameters} {p : CallParameters} {s : Rows}

theorem caught_onRows (e : Exc) (s' : Rows) :
    message ((caught p e : Script Empty Ending).onRows s').1 =
      returned (Go.caught (answersOn b host myAddress s) (thrown e) (some p)) := by
  cases e <;> rfl

theorem setCode_onRows (host : HostContext) (context : BlockContext) (output : Bytes) (s' : Rows) :
    ∃ s'', (host.setCode context output : Script Empty Bool).onRows s' =
      (some (.ok (s' ⟨sysTables, ascii host.tableName⟩).isSome), s'') := by
  unfold HostContext.setCode
  rw [Script.onRows_bind, Script.onRows_openTable]
  cases (s' ⟨sysTables, ascii host.tableName⟩).isSome with
  | true => exact ⟨_, rfl⟩
  | false => exact ⟨_, rfl⟩

theorem setCodeAndAbi_onRows (host : HostContext) (context : BlockContext) (output abi : Bytes) (s' : Rows) :
    ∃ s'', (host.setCodeAndAbi context output abi : Script Empty Unit).onRows s' =
      (some (.ok ()), s'') := by
  obtain ⟨s'', hset⟩ := setCode_onRows host context output s'
  unfold HostContext.setCodeAndAbi
  rw [Script.onRows_bind_of_ok hset]
  cases (s' ⟨sysTables, ascii host.tableName⟩).isSome with
  | true => exact ⟨_, rfl⟩
  | false => exact ⟨_, rfl⟩

theorem storeCode_answersOn (context : BlockContext)
    (hinput : context.isWasm = true → extraData.isSome = true) (held : Option CallParameters) :
    Go.storeCode context (answersOn b host myAddress s) extraData held = .ok (.ok (), held) := by
  unfold Go.storeCode Go.setCodeAndAbi Go.setCode answersOn
  cases hwasm : context.isWasm with
  | false =>
    cases ((b.vm.onRows s).2 ⟨sysTables, ascii host.tableName⟩).isSome <;> rfl
  | true =>
    rw [hinput hwasm]
    cases ((b.vm.onRows s).2 ⟨sysTables, ascii host.tableName⟩).isSome <;> rfl

theorem depositCode_onRows (host : HostContext) (myAddress : String)
    (hinput : env.isWasm = true → extraData.isSome = true) (abi : Bytes)
    (ret : Result) :
    message ((depositCode env host p abi ret).onRows (b.vm.onRows s).2).1 =
      returned (Go.depositCode env.toBlockContext (answersOn b host myAddress s) extraData p ret
        none) := by
  unfold depositCode Go.depositCode
  dsimp only
  split
  · rfl
  split
  · rfl
  split
  · rfl
  rw [Go.bind_of_ok (storeCode_answersOn env.toBlockContext hinput none)]
  obtain ⟨s'', hset⟩ := setCode_onRows host env.toBlockContext ret.output
    (b.vm.onRows s).2
  obtain ⟨s₂, habi⟩ := setCodeAndAbi_onRows host env.toBlockContext ret.output abi
    (b.vm.onRows s).2
  cases env.isWasm with
  | false =>
    rw [if_neg Bool.false_ne_true, Script.onRows_bind_of_ok hset]
    rfl
  | true =>
    rw [if_pos rfl, Script.onRows_bind_of_ok habi]
    rfl

theorem concludeCreate_onRows (hinput : env.isWasm = true → extraData.isSome = true) (abi : Bytes)
    (ret : Result) :
    message ((concludeCreate env host abi p (.ok ret)).onRows (b.vm.onRows s).2).1 =
      returned (Go.concludeCreate env.toBlockContext (answersOn b host myAddress s) extraData p ret
        none) := by
  unfold concludeCreate Go.concludeCreate Go.parseEVMCResult
  dsimp only
  cases hparse : parseEVMCResult (clearForeignLogs p) ret with
  | error e => rfl
  | ok ending =>
    obtain ⟨p', reverted⟩ := ending
    have hdeposit := depositCode_onRows (p := p') (b := b) (s := s) host myAddress hinput abi
      ret
    have hundone : (if reverted then (Go.revert (answersOn b host myAddress s) >>= fun _ => pure p')
        else pure p' : Go CallParameters) none = .ok (.ok p', none) := by
      cases reverted <;> rfl
    rw [Go.bind_of_ok hundone]
    dsimp only
    by_cases hstatus : p'.status = .none
    · rw [if_neg (not_not.mpr hstatus), if_neg (not_not.mpr hstatus)]
      exact hdeposit
    · rw [if_pos hstatus, if_pos hstatus]
      rfl

theorem concludeCall_onRows (ret : Result) (s' : Rows) :
    message ((concludeCall p (.ok ret) : Script Empty Ending).onRows s').1 =
      returned ((Go.parseEVMCResult (answersOn b host myAddress s) p ret >>= fun callResults =>
        (pure (clearForeignLogs callResults) : Go CallParameters)) none) := by
  unfold concludeCall Go.parseEVMCResult
  dsimp only
  cases hparse : parseEVMCResult p ret with
  | error e => rfl
  | ok ending =>
    obtain ⟨p', reverted⟩ := ending
    cases reverted <;> rfl

theorem returned_go_of_taken {context : BlockContext} {a : GoAnswers} {x : Go CallParameters}
    {held : Option CallParameters} (h : Go.body context a host extraData held = x none)
    (hx : Go.Still x) : returned (Go.go context a host extraData held) = returned (x none) := by
  unfold Go.go
  rw [Go.tryCatch_apply, h]
  rcases hrun : x none with stop | ⟨out, held'⟩
  · rfl
  · have hnone := hx none out held' hrun
    subst hnone
    cases out with
    | ok p => rfl
    | error e => cases e <;> rfl

theorem returned_go_of_thrown {context : BlockContext} {a : GoAnswers} {e : Thrown}
    {held : Option CallParameters}
    (h : Go.body context a host extraData held = .ok (.error e, some p)) :
    returned (Go.go context a host extraData held) = returned (Go.caught a e (some p)) := by
  unfold Go.go
  rw [Go.tryCatch_apply, h]

/-- What follows once the virtual machine is called. -/
theorem called_onRows (rest : CallParameters → Result → Go CallParameters)
    {conclude : Except Exc Result → Script Empty Ending} (hrest : ∀ p ret, Go.Still (rest p ret))
    (hmade : Go.MessageMade env.toBlockContext (answersOn b host myAddress s) host extraData)
    (hbody : Go.body env.toBlockContext (answersOn b host myAddress s) host extraData (some p) = (do
      Go.getEVMCMessage env.toBlockContext (answersOn b host myAddress s) host extraData
      let ret ← Go.exec (answersOn b host myAddress s)
      let callResults ← Go.takeCallParameters
      rest callResults ret : Go CallParameters) (some p))
    (hok : ∀ ret, message ((conclude (.ok ret)).onRows (b.vm.onRows s).2).1 =
      returned (rest { p with logEntries := p.logEntries ++ b.logEntries } ret none))
    (herror : ∀ e, conclude (.error e) =
      caught { p with logEntries := p.logEntries ++ b.logEntries } e) :
    message ((b.vm.attempt >>= conclude).onRows s).1 =
      returned (Go.go env.toBlockContext (answersOn b host myAddress s) host extraData
        (some p)) := by
  have hmessage : Go.getEVMCMessage env.toBlockContext (answersOn b host myAddress s) host
      extraData (some p) = .ok (.ok (), some p) := by
    rcases Go.gate_getEVMCMessage env.toBlockContext (answersOn b host myAddress s) host
      extraData with ⟨_, h⟩ | ⟨h, _⟩
    · obtain ⟨_, h⟩ := h (some p)
      exact h
    · exact absurd hmade h
  rw [Go.bind_of_ok hmessage] at hbody
  rw [Script.onRows_bind, Script.onRows_attempt]
  cases hrun : (b.vm.onRows s).1 with
  | none =>
    have hexec : (answersOn b host myAddress s).exec = .error .stdException := by
      unfold answersOn
      rw [hrun]
    rw [Go.bind_of_thrown (Go.exec_error hexec p)] at hbody
    rw [returned_go_of_thrown hbody]
    rfl
  | some out =>
    cases out with
    | error e =>
      have hexec : (answersOn b host myAddress s).exec = .error (thrown e) := by
        unfold answersOn
        rw [hrun]
      rw [Go.bind_of_thrown (Go.exec_error hexec p)] at hbody
      rw [returned_go_of_thrown hbody, ← caught_onRows e (b.vm.onRows s).2]
      show message ((conclude (.error e)).onRows _).1 = _
      rw [herror]
      rfl
    | ok ret =>
      have hexec : (answersOn b host myAddress s).exec = .ok ret := by
        unfold answersOn
        rw [hrun]
      rw [Go.bind_of_ok (Go.exec_ok hexec p), Go.bind_of_ok (Go.takeCallParameters_some _)] at hbody
      rw [returned_go_of_taken hbody (hrest _ ret)]
      exact hok ret

/-- Where no access throws and the message is made, this is what `go` returns over the rows. -/
theorem go_onRows (abi : Bytes)
    (hmade : Go.MessageMade env.toBlockContext (answersOn b host myAddress s) host extraData) :
    message ((go env b host abi).onRows s).1 =
      returned (Go.go env.toBlockContext (answersOn b host myAddress s) host extraData
        (some host.callParameters)) := by
  unfold go
  dsimp only
  cases hcreate : host.isCreate with
  | true =>
    rw [if_pos rfl]
    refine called_onRows (fun p ret =>
        Go.concludeCreate env.toBlockContext (answersOn b host myAddress s) extraData p ret)
      (fun p ret => Go.still_concludeCreate _ _ _ p ret) hmade ?_
      (fun ret => concludeCreate_onRows (fun hwasm => hmade.input hwasm hcreate) abi ret)
      fun e => rfl
    exact Go.body_create rfl hcreate
  | false =>
    rw [if_neg Bool.false_ne_true]
    have hcode : (host.code : Script Empty Bytes).onRows s =
        (some (.ok ((s ⟨host.tableName, ACCOUNT_CODE⟩).getD [])), s) := rfl
    rw [Script.onRows_bind_of_ok hcode]
    cases hempty : ((s ⟨host.tableName, ACCOUNT_CODE⟩).getD []).isEmpty with
    | true =>
      rw [if_pos rfl]
      have hnil : (answersOn b host myAddress s).code = .ok [] :=
        congrArg Except.ok (List.isEmpty_iff.mp hempty)
      have hbody := Go.body_noCode env.toBlockContext extraData host.callParameters rfl hcreate hnil
      rw [returned_go_of_taken hbody (Go.still_pure _)]
      rfl
    | false =>
      rw [if_neg Bool.false_ne_true]
      refine called_onRows (fun p ret => do
          let callResults ← Go.parseEVMCResult (answersOn b host myAddress s) p ret
          return clearForeignLogs callResults)
        (fun p ret => Go.still_bind (Go.still_parseEVMCResult _ p ret) fun _ => Go.still_pure _)
        hmade ?_ (fun ret => concludeCall_onRows ret _) fun e => rfl
      refine Go.body_call rfl hcreate rfl fun hnil => ?_
      rw [hnil] at hempty
      cases hempty

end TransactionExecutive

end BcosExecutor
