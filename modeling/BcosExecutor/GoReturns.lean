import BcosExecutor.GoSteps

namespace BcosExecutor

/-- One of the kinds whose catch clause returns. -/
def Thrown.Listed : Thrown → Prop
  | .permissionDenied | .precompiledError | .outOfGas _ | .error _ _ => True
  | .internalVMError _ | .exception | .stdException => False

/-- What the catch clause reads of it is there. -/
def Thrown.Informed : Thrown → Prop
  | .outOfGas evmcStatusCode => evmcStatusCode.isSome = true
  | _ => True

namespace Go

variable {α β : Type}

section

variable (context : BlockContext) (a : GoAnswers)

theorem still_parseEVMCResult (p : CallParameters) (ret : Result) :
    Still (parseEVMCResult a p ret) := by
  unfold parseEVMCResult
  split
  next => exact still_ite (still_bind (still_answered _) fun _ => still_pure _) (still_pure _)
  next => exact still_bind (still_answered _) fun _ => still_throw _

theorem still_setCode : Still (setCode a) := by
  refine still_bind (still_answered _) fun there => ?_
  refine still_ite ?_ (still_pure _)
  exact still_bind (still_answered _) fun _ => still_bind (still_answered _) fun _ => still_pure _

theorem still_storeCode (extraData : Option CallParameters) :
    Still (storeCode context a extraData) := by
  unfold storeCode
  refine still_ite ?_ ?_
  · refine still_bind (still_assertThat _) fun _ => still_bind (still_setCode a) fun there => ?_
    exact still_ite (still_answered _) (still_pure _)
  · exact still_bind (still_setCode a) fun _ => still_pure _

theorem still_depositCode (extraData : Option CallParameters) (p : CallParameters)
    (ret : Result) : Still (depositCode context a extraData p ret) := by
  unfold depositCode
  refine still_ite (still_pure _) (still_ite (still_pure _) (still_ite ?_ ?_))
  · exact still_bind (still_answered _) fun _ => still_pure _
  · exact still_bind (still_storeCode context a extraData) fun _ => still_pure _

theorem still_concludeCreate (extraData : Option CallParameters) (p : CallParameters)
    (ret : Result) : Still (concludeCreate context a extraData p ret) :=
  still_bind (still_parseEVMCResult a _ ret) fun _ =>
    still_ite (still_pure _) (still_depositCode context a extraData _ ret)

/-- The catch clause comes to its end. -/
structure Handled (e : Thrown) : Prop where
  listed : e.Listed
  informed : e.Informed
  there : a.context = true
  thereLater : a.contextLater = true
  rollbackLater : a.rollbackLater = .ok ()

/-- The message for the virtual machine is made. -/
structure MessageMade (host : HostContext) (extraData : Option CallParameters) : Prop where
  number : context.isAuthCheck = true ∨ 0 < a.number
  calls : ¬ (host.callParameters.staticCall = true ∧ host.isCreate = true)
  input : context.isWasm = true → host.isCreate = true → extraData.isSome = true
  addresses : context.isWasm = false → ∃ address caller,
    BcosExecutor.unhex a.myAddress = some address ∧
      BcosExecutor.unhex host.callParameters.senderAddress = some caller ∧
        20 ≤ address.length ∧ 20 ≤ caller.length

/-- The status is one of the switch, and what has to be undone is. -/
structure Parsed (ret : Result) : Prop where
  listed : ∀ code, ret.status ≠ .other code
  rollback : ret.status ≠ .success → a.rollback = .ok ()

/-- No access throws while the code is stored. -/
structure CodeStored (extraData : Option CallParameters) : Prop where
  input : context.isWasm = true → extraData.isSome = true
  rows : ∃ there, a.openTable = .ok there ∧ (there = true →
    a.setCodeHash = .ok () ∧ a.setCode = .ok () ∧ (context.isWasm = true → a.setAbi = .ok ()))

def Deposited (extraData : Option CallParameters) (ret : Result) : Prop :=
  ret.output.length ≤ context.evmSchedule.maxCodeSize →
    ¬ TransactionExecutive.codeDepositTooDear context.evmSchedule ret.gasLeft ret.output →
      if !context.isWasm && ret.output.isEmpty then a.rollback = .ok ()
      else CodeStored context a extraData

/-- The virtual machine is called. -/
def Called (host : HostContext) : Prop :=
  host.isCreate = true ∨ ∃ code, a.code = .ok code ∧ code ≠ []

/-- What is thrown before the parameters are taken is handled, and nothing is thrown after that. -/
structure Yields (host : HostContext) (extraData : Option CallParameters) : Prop where
  there : a.context = true
  code : host.isCreate = false → ∀ e, a.code = .error e → Handled a e
  message : Called a host → MessageMade context a host extraData
  exec : Called a host → ∀ e, a.exec = .error e → Handled a e
  parsed : Called a host → ∀ ret, a.exec = .ok ret → Parsed a ret
  deposited : host.isCreate = true → ∀ ret, a.exec = .ok ret → ret.status = .success →
    Deposited context a extraData ret

variable {p : CallParameters}

theorem takeCallParameters_some (p : CallParameters) :
    takeCallParameters (some p) = .ok (.ok p, none) := rfl

theorem takeCallParameters_none : takeCallParameters none = .error .nullDereference := rfl

theorem answered_ok {x : Except Thrown α} {v : α} (h : x = .ok v)
    (held : Option CallParameters) : answered x held = .ok (.ok v, held) := by
  rw [h]
  rfl

theorem answered_error {x : Except Thrown α} {e : Thrown} (h : x = .error e)
    (held : Option CallParameters) : answered x held = .ok (.error e, held) := by
  rw [h]
  rfl

variable {a}

theorem revertLater_returns_iff {f : Unit → Go CallParameters} {held : Option CallParameters} :
    Returns (revertLater a >>= f) held ↔
      (a.context = true ∧ a.contextLater = true ∧ a.rollbackLater = .ok ()) ∧
        Returns (f ()) held := by
  cases hcontext : (a.context && a.contextLater) with
  | false =>
    have hrevert : revertLater a held = .ok (.error (.error (-1) "blockContext is null!"), held) := by
      unfold revertLater
      rw [hcontext]
      rfl
    refine iff_of_false (not_returns_of_thrown (bind_of_thrown hrevert f)) ?_
    rintro ⟨⟨hfirst, hlater, _⟩, _⟩
    rw [hfirst, hlater] at hcontext
    cases hcontext
  | true =>
    obtain ⟨hfirst, hlater⟩ := Bool.and_eq_true_iff.mp hcontext
    have hrevert : revertLater a held = answered a.rollbackLater held := by
      unfold revertLater
      rw [hcontext]
      rfl
    cases hrollback : a.rollbackLater with
    | error e =>
      rw [answered_error hrollback] at hrevert
      exact iff_of_false (not_returns_of_thrown (bind_of_thrown hrevert f))
        fun h => nomatch h.1.2.2
    | ok _ =>
      rw [answered_ok hrollback] at hrevert
      rw [returns_bind_of_ok hrevert]
      exact ⟨fun h => ⟨⟨hfirst, hlater, rfl⟩, h⟩, fun h => h.2⟩

theorem returns_pure {held : Option CallParameters} (h : p.type = .finished ∨ p.type = .revert) :
    Returns (pure p) held :=
  ⟨p, held, rfl, h⟩

theorem caught_returns_iff (e : Thrown) : Returns (caught a e) (some p) ↔ Handled a e := by
  have hstop {s : Stop} : ¬ Returns (stop s) none := not_returns_of_stop rfl
  cases e with
  | permissionDenied =>
    unfold caught
    rw [returns_bind_of_ok (takeCallParameters_some p), revertLater_returns_iff]
    exact ⟨fun ⟨⟨h, h', h''⟩, _⟩ => ⟨trivial, trivial, h, h', h''⟩,
      fun h => ⟨⟨h.there, h.thereLater, h.rollbackLater⟩, returns_pure (.inr rfl)⟩⟩
  | precompiledError =>
    unfold caught
    rw [returns_bind_of_ok (takeCallParameters_some p), revertLater_returns_iff]
    exact ⟨fun ⟨⟨h, h', h''⟩, _⟩ => ⟨trivial, trivial, h, h', h''⟩,
      fun h => ⟨⟨h.there, h.thereLater, h.rollbackLater⟩, returns_pure (.inr rfl)⟩⟩
  | error code message =>
    unfold caught
    rw [returns_bind_of_ok (takeCallParameters_some p), revertLater_returns_iff]
    exact ⟨fun ⟨⟨h, h', h''⟩, _⟩ => ⟨trivial, trivial, h, h', h''⟩,
      fun h => ⟨⟨h.there, h.thereLater, h.rollbackLater⟩, returns_pure (.inr rfl)⟩⟩
  | outOfGas info =>
    unfold caught
    rw [returns_bind_of_ok (takeCallParameters_some p), revertLater_returns_iff]
    cases info with
    | none => exact iff_of_false (fun h => not_returns_of_stop rfl h.2) fun h => nomatch h.informed
    | some code =>
      exact ⟨fun ⟨⟨h, h', h''⟩, _⟩ => ⟨trivial, rfl, h, h', h''⟩,
        fun h => ⟨⟨h.there, h.thereLater, h.rollbackLater⟩, returns_pure (.inr rfl)⟩⟩
  | internalVMError info =>
    refine iff_of_false ?_ fun h => h.listed
    unfold caught
    rw [returns_bind_of_ok (takeCallParameters_some p)]
    cases info with
    | none => exact not_returns_of_stop rfl
    | some code => exact not_returns_of_stop rfl
  | exception => exact iff_of_false (not_returns_of_stop rfl) fun h => h.listed
  | stdException => exact iff_of_false (not_returns_of_stop rfl) fun h => h.listed

/-- Every clause goes for the parameters or ends the process. -/
theorem not_caught_returns_none (e : Thrown) : ¬ Returns (caught a e) none := by
  cases e <;> exact not_returns_of_stop rfl

variable {context : BlockContext} {host : HostContext} {extraData : Option CallParameters}

theorem gate_addresses :
    Gate (∃ address, BcosExecutor.unhex a.myAddress = some address ∧ ∃ caller,
        BcosExecutor.unhex host.callParameters.senderAddress = some caller ∧
          20 ≤ address.length ∧ 20 ≤ caller.length ∧ True)
      (unhex a.myAddress >>= fun address => unhex host.callParameters.senderAddress >>= fun caller =>
        toEvmC address >>= fun _ => toEvmC caller >>= fun _ => (pure () : Go Unit)) := by
  refine gate_unhex fun address => gate_unhex fun caller => ?_
  refine gate_toEvmC.and (gate_toEvmC.and ?_)
  exact .inl ⟨trivial, fun held => ⟨(), rfl⟩⟩

theorem gate_getEVMCMessage (context : BlockContext) (a : GoAnswers) (host : HostContext)
    (extraData : Option CallParameters) :
    Gate (MessageMade context a host extraData) (getEVMCMessage context a host extraData) := by
  have hnumber : ((context.isAuthCheck || decide (0 < a.number)) = true) ↔
      (context.isAuthCheck = true ∨ 0 < a.number) := by
    simp
  have hcalls : ((!(host.callParameters.staticCall && host.isCreate)) = true) ↔
      ¬ (host.callParameters.staticCall = true ∧ host.isCreate = true) := by
    rw [Bool.not_eq_true', ← Bool.not_eq_true, Bool.and_eq_true]
  unfold getEVMCMessage
  cases hwasm : context.isWasm with
  | true =>
    refine (gate_assertThat.and (gate_assertThat.and gate_assertThat)).congr ?_
    rw [hnumber, hcalls]
    constructor
    · rintro ⟨hpos, hcall, hinput⟩
      refine ⟨hpos, hcall, fun _ hcreate => ?_, fun h => Bool.noConfusion (hwasm.symm.trans h)⟩
      rw [hcreate] at hinput
      exact hinput
    · intro h
      refine ⟨h.number, h.calls, ?_⟩
      cases hcreate : host.isCreate with
      | false => rfl
      | true => exact h.input hwasm hcreate
  | false =>
    refine (gate_assertThat.and (gate_assertThat.and gate_addresses)).congr ?_
    rw [hnumber, hcalls]
    constructor
    · rintro ⟨hpos, hcall, address, haddress, caller, hcaller, hlong, hlong', _⟩
      exact ⟨hpos, hcall, fun h => Bool.noConfusion (hwasm.symm.trans h),
        fun _ => ⟨address, caller, haddress, hcaller, hlong, hlong'⟩⟩
    · intro h
      obtain ⟨address, caller, haddress, hcaller, hlong, hlong'⟩ := h.addresses hwasm
      exact ⟨h.number, h.calls, address, haddress, caller, hcaller, hlong, hlong', trivial⟩

theorem parseEVMCResult_pure (p : CallParameters) (ret : Result) :
    (∃ ending, TransactionExecutive.parseEVMCResult p ret = .ok ending ∧
        (∀ code, ret.status ≠ .other code) ∧
        (ending.reverted = true ↔ ret.status ≠ .success) ∧
        (ending.message.status = .none ↔ ret.status = .success) ∧
        (ending.message.type = .finished ∨ ending.message.type = .revert) ∧
        (ret.status = .success → ending.message.gas = ret.gasLeft)) ∨
      ∃ e code, TransactionExecutive.parseEVMCResult p ret = .error e ∧
        ret.status = .other code := by
  obtain ⟨status, gasLeft, output⟩ := ret
  cases status with
  | other code =>
    refine .inr ?_
    by_cases hcode : code ≤ -1
    · exact ⟨.internalVMError, code, if_pos hcode, rfl⟩
    · exact ⟨.outOfGas, code, if_neg hcode, rfl⟩
  | success => exact .inl ⟨_, rfl, nofun, by simp, by simp, .inl rfl, fun _ => rfl⟩
  | _ => exact .inl ⟨_, rfl, nofun, by simp, by simp, .inr rfl, nofun⟩

theorem parse_returns_iff {ret : Result} {f : CallParameters → Go CallParameters}
    {held : Option CallParameters} {R : Prop}
    (hf : ∀ ending, TransactionExecutive.parseEVMCResult p ret = .ok ending →
      (Returns (f ending.message) held ↔ R)) :
    Returns (parseEVMCResult a p ret >>= f) held ↔ Parsed a ret ∧ R := by
  rcases parseEVMCResult_pure p ret with
    ⟨ending, hending, hlisted, hreverted, _⟩ | ⟨e, code, herror, hcode⟩
  · have hparse : parseEVMCResult a p ret =
        if ending.reverted then (revert a >>= fun _ => pure ending.message)
        else pure ending.message := by
      unfold parseEVMCResult
      rw [hending]
    rw [hparse]
    cases hrev : ending.reverted with
    | false =>
      have hsuccess : ret.status = .success := by
        by_contra hne
        rw [hreverted.mpr hne] at hrev
        cases hrev
      rw [if_neg Bool.false_ne_true, returns_bind_of_ok (pure_apply _ _), hf ending hending]
      exact ⟨fun h => ⟨⟨hlisted, fun hne => absurd hsuccess hne⟩, h⟩, fun h => h.2⟩
    | true =>
      rw [if_pos rfl]
      cases hroll : a.rollback with
      | error e =>
        refine iff_of_false (not_returns_of_thrown (bind_of_thrown
          (bind_of_thrown (answered_error hroll held) _) f)) fun h => ?_
        cases hroll.symm.trans (h.1.rollback (hreverted.mp hrev))
      | ok _ =>
        have hrun : (revert a >>= fun _ => (pure ending.message : Go CallParameters)) held =
            .ok (.ok ending.message, held) := bind_of_ok (answered_ok hroll held) _
        rw [returns_bind_of_ok hrun, hf ending hending]
        exact ⟨fun h => ⟨⟨hlisted, fun _ => hroll⟩, h⟩, fun h => h.2⟩
  · refine iff_of_false ?_ fun h => h.1.listed code hcode
    have hparse : parseEVMCResult a p ret = (revert a >>= fun _ => throw (thrownFor ret.status)) := by
      unfold parseEVMCResult
      rw [herror]
    rw [hparse]
    cases hroll : a.rollback with
    | error e =>
      exact not_returns_of_thrown
        (bind_of_thrown (bind_of_thrown (answered_error hroll held) _) f)
    | ok _ =>
      have hrun : (revert a >>= fun _ => (throw (thrownFor ret.status) : Go CallParameters)) held =
          .ok (.error (thrownFor ret.status), held) := bind_of_ok (answered_ok hroll held) _
      exact not_returns_of_thrown (bind_of_thrown hrun f)

theorem answered_returns_iff {x : Except Thrown Unit} {f : Unit → Go CallParameters}
    {held : Option CallParameters} :
    Returns (answered x >>= f) held ↔ x = .ok () ∧ Returns (f ()) held := by
  cases x with
  | error e => exact iff_of_false (not_returns_of_thrown rfl) nofun
  | ok _ => exact ⟨fun h => ⟨rfl, h⟩, fun h => h.2⟩

theorem returns_bind_assoc {x : Go α} {f : α → Go β} {g : β → Go CallParameters}
    {held : Option CallParameters} :
    Returns (x >>= f >>= g) held ↔ Returns (x >>= fun v => f v >>= g) held := by
  unfold Returns
  rw [bind_assoc]

theorem setCode_returns_iff {f : Bool → Go CallParameters} {held : Option CallParameters} :
    Returns (setCode a >>= f) held ↔ ∃ there, a.openTable = .ok there ∧
      (there = true → a.setCodeHash = .ok () ∧ a.setCode = .ok ()) ∧ Returns (f there) held := by
  unfold setCode
  cases hopen : a.openTable with
  | error e => exact iff_of_false (not_returns_of_thrown rfl) nofun
  | ok there =>
    cases there with
    | false => exact ⟨fun h => ⟨false, rfl, nofun, h⟩, fun ⟨_, heq, _, h⟩ => by cases heq; exact h⟩
    | true =>
      rw [returns_bind_assoc, returns_bind_of_ok (answered_ok rfl held), if_pos rfl,
        returns_bind_assoc, answered_returns_iff, returns_bind_assoc, answered_returns_iff]
      constructor
      · rintro ⟨hhash, hcode, h⟩
        exact ⟨true, rfl, fun _ => ⟨hhash, hcode⟩, h⟩
      · rintro ⟨there, heq, hset, h⟩
        cases heq
        exact ⟨(hset rfl).1, (hset rfl).2, h⟩

theorem storeCode_returns_iff {f : Unit → Go CallParameters} {held : Option CallParameters} :
    Returns (storeCode context a extraData >>= f) held ↔
      CodeStored context a extraData ∧ Returns (f ()) held := by
  unfold storeCode
  cases hwasm : context.isWasm with
  | false =>
    rw [if_neg Bool.false_ne_true, returns_bind_assoc, setCode_returns_iff]
    constructor
    · rintro ⟨there, hopen, hset, h⟩
      refine ⟨⟨fun h => ?_, there, hopen, fun hthere => ?_⟩, h⟩
      · cases hwasm.symm.trans h
      · exact ⟨(hset hthere).1, (hset hthere).2, fun h => Bool.noConfusion (hwasm.symm.trans h)⟩
    · rintro ⟨⟨_, there, hopen, hset⟩, h⟩
      exact ⟨there, hopen, fun hthere => ⟨(hset hthere).1, (hset hthere).2.1⟩, h⟩
  | true =>
    rw [if_pos rfl, returns_bind_assoc]
    cases hinput : extraData.isSome with
    | false =>
      refine iff_of_false (not_returns_of_stop rfl) fun h => ?_
      cases hinput.symm.trans (h.1.input hwasm)
    | true =>
      have hassert : assertThat true held = .ok (.ok (), held) := rfl
      rw [returns_bind_of_ok hassert]
      unfold setCodeAndAbi
      rw [returns_bind_assoc, setCode_returns_iff]
      constructor
      · rintro ⟨there, hopen, hset, h⟩
        refine ⟨⟨fun _ => hinput, there, hopen, fun hthere => ?_⟩, ?_⟩
        · rw [hthere, if_pos rfl, answered_returns_iff] at h
          exact ⟨(hset hthere).1, (hset hthere).2, fun _ => h.1⟩
        · cases there with
          | false => exact h
          | true => exact (answered_returns_iff.mp h).2
      · rintro ⟨⟨_, there, hopen, hset⟩, h⟩
        refine ⟨there, hopen, fun hthere => ⟨(hset hthere).1, (hset hthere).2.1⟩, ?_⟩
        cases there with
        | false => exact h
        | true => exact answered_returns_iff.mpr ⟨(hset rfl).2.2 hwasm, h⟩

theorem depositCode_returns_iff {ret : Result} {held : Option CallParameters}
    (hgas : p.gas = ret.gasLeft) (htype : p.type = .finished ∨ p.type = .revert) :
    Returns (depositCode context a extraData p ret) held ↔ Deposited context a extraData ret := by
  unfold depositCode Deposited
  rw [hgas]
  by_cases hlarge : context.evmSchedule.maxCodeSize < ret.output.length
  · dsimp only
    rw [if_pos hlarge]
    exact iff_of_true (returns_pure (.inr rfl)) fun hle => absurd hlarge (Nat.not_lt_of_le hle)
  · by_cases hdear : TransactionExecutive.codeDepositTooDear context.evmSchedule ret.gasLeft ret.output
    · dsimp only
      rw [if_neg hlarge, if_pos hdear]
      exact iff_of_true (returns_pure (.inr rfl)) fun _ hnot => absurd hdear hnot
    · dsimp only
      rw [if_neg hlarge, if_neg hdear]
      have hsmall := Nat.le_of_not_lt hlarge
      split
      · rw [show revert a = answered a.rollback from rfl, answered_returns_iff]
        exact ⟨fun h _ _ => h.1, fun h => ⟨h hsmall hdear, returns_pure (.inr rfl)⟩⟩
      · rw [storeCode_returns_iff]
        exact ⟨fun h _ _ => h.1, fun h => ⟨h hsmall hdear, returns_pure htype⟩⟩

theorem concludeCreate_returns_iff {ret : Result} {held : Option CallParameters} :
    Returns (concludeCreate context a extraData p ret) held ↔
      Parsed a ret ∧ (ret.status = .success → Deposited context a extraData ret) := by
  refine parse_returns_iff fun ending hending => ?_
  rcases parseEVMCResult_pure (TransactionExecutive.clearForeignLogs p) ret with
    ⟨ending', hending', _, _, hstatus, htype, hgas⟩ | ⟨e, code, herror, _⟩
  · cases hending.symm.trans hending'
    by_cases hsuccess : ret.status = .success
    · rw [if_neg (not_not.mpr (hstatus.mpr hsuccess)), depositCode_returns_iff (hgas hsuccess) htype]
      exact ⟨fun h _ => h, fun h => h hsuccess⟩
    · rw [if_pos (mt hstatus.mp hsuccess)]
      exact iff_of_true (returns_pure (.inr rfl)) fun h => absurd h hsuccess
  · cases hending.symm.trans herror

theorem concludeCall_returns_iff {ret : Result} {held : Option CallParameters} :
    Returns (parseEVMCResult a p ret >>= fun callResults =>
      pure (TransactionExecutive.clearForeignLogs callResults)) held ↔ Parsed a ret := by
  refine (parse_returns_iff (R := True) fun ending hending => ?_).trans (and_true _).to_iff
  refine iff_of_true (returns_pure ?_) trivial
  rcases parseEVMCResult_pure p ret with ⟨ending', hending', _, _, _, htype, _⟩ | ⟨e, _, herror, _⟩
  · cases hending.symm.trans hending'
    unfold TransactionExecutive.clearForeignLogs
    split
    · exact htype
    · exact htype
  · cases hending.symm.trans herror

theorem body_create (hthere : a.context = true) (hcreate : host.isCreate = true) :
    body context a host extraData (some p) = (do
      getEVMCMessage context a host extraData
      let ret ← exec a
      let callResults ← takeCallParameters
      concludeCreate context a extraData callResults ret : Go CallParameters) (some p) := by
  unfold body
  rw [hthere, hcreate]
  rfl

theorem body_noCode (context : BlockContext) (extraData : Option CallParameters)
    (p : CallParameters) (hthere : a.context = true) (hcreate : host.isCreate = false)
    (hcode : a.code = .ok []) :
    body context a host extraData (some p) = (pure { p with
      type := .revert
      status := .callAddressError
      message := "Error contract address." } : Go CallParameters) none := by
  unfold body
  rw [hthere, hcreate, hcode]
  rfl

theorem body_call (hthere : a.context = true) (hcreate : host.isCreate = false) {code : Bytes}
    (hcode : a.code = .ok code) (hne : code ≠ []) :
    body context a host extraData (some p) = (do
      getEVMCMessage context a host extraData
      let ret ← exec a
      let callResults ← takeCallParameters
      let callResults ← parseEVMCResult a callResults ret
      return TransactionExecutive.clearForeignLogs callResults : Go CallParameters) (some p) := by
  unfold body
  rw [hthere, hcreate, hcode]
  cases code with
  | nil => exact absurd rfl hne
  | cons b bs => rfl

theorem go_of_stop {held : Option CallParameters} {s : Stop}
    (h : body context a host extraData held = .error s) :
    ¬ Returns (go context a host extraData) held := by
  refine not_returns_of_stop (s := s) ?_
  unfold go
  rw [tryCatch_apply, h]

theorem go_of_thrown {held held' : Option CallParameters} {e : Thrown}
    (h : body context a host extraData held = .ok (.error e, held')) :
    Returns (go context a host extraData) held ↔ Returns (caught a e) held' := by
  have heq : go context a host extraData held = caught a e held' := by
    unfold go
    rw [tryCatch_apply, h]
  unfold Returns
  rw [heq]

/-- Once the parameters are taken, what is thrown is not handled. -/
theorem go_of_taken {held : Option CallParameters} {x : Go CallParameters}
    (h : body context a host extraData held = x none) (hx : Still x) :
    Returns (go context a host extraData) held ↔ Returns x none := by
  rcases hrun : x none with s | ⟨out, held'⟩
  · exact iff_of_false (go_of_stop (h.trans hrun)) (not_returns_of_stop hrun)
  · have hnone := hx none out held' hrun
    subst hnone
    cases out with
    | error e =>
      refine iff_of_false (fun hret => ?_) (not_returns_of_thrown hrun)
      exact not_caught_returns_none e ((go_of_thrown (h.trans hrun)).mp hret)
    | ok message =>
      have heq : go context a host extraData held = x none := by
        unfold go
        rw [tryCatch_apply, h, hrun]
      unfold Returns
      rw [heq]

theorem exec_ok {ret : Result} (h : a.exec = .ok ret) (p : CallParameters) :
    exec a (some p) =
      .ok (.ok ret, some { p with logEntries := p.logEntries ++ a.logEntries }) := by
  unfold exec
  rw [h]
  rfl

theorem exec_error {e : Thrown} (h : a.exec = .error e) (p : CallParameters) :
    exec a (some p) =
      .ok (.error e, some { p with logEntries := p.logEntries ++ a.logEntries }) := by
  unfold exec
  rw [h]
  rfl

/-- The part of the body from the message for the virtual machine on. -/
theorem go_of_called (rest : CallParameters → Result → Go CallParameters)
    (hrest : ∀ p ret, Still (rest p ret)) {R : Result → Prop}
    (hR : ∀ p ret, Returns (rest p ret) none ↔ R ret)
    (h : body context a host extraData (some p) = (do
      getEVMCMessage context a host extraData
      let ret ← exec a
      let callResults ← takeCallParameters
      rest callResults ret : Go CallParameters) (some p)) :
    Returns (go context a host extraData) (some p) ↔
      MessageMade context a host extraData ∧ (∀ e, a.exec = .error e → Handled a e) ∧
        ∀ ret, a.exec = .ok ret → R ret := by
  rcases gate_getEVMCMessage context a host extraData with
    ⟨hmade, hmessage⟩ | ⟨hmade, hmessage⟩
  · obtain ⟨_, hmessage⟩ := hmessage (some p)
    rw [bind_of_ok hmessage] at h
    cases hexec : a.exec with
    | error e =>
      rw [bind_of_thrown (exec_error hexec p)] at h
      rw [go_of_thrown h, caught_returns_iff]
      refine ⟨fun hhandled => ⟨hmade, fun e' he => ?_, nofun⟩, fun hall => hall.2.1 e rfl⟩
      cases he
      exact hhandled
    | ok ret =>
      rw [bind_of_ok (exec_ok hexec p), bind_of_ok (takeCallParameters_some _)] at h
      rw [go_of_taken h (hrest _ ret), hR]
      refine ⟨fun hret => ⟨hmade, nofun, fun ret' heq => ?_⟩, fun hall => hall.2.2 ret rfl⟩
      cases heq
      exact hret
  · refine iff_of_false ?_ fun hall => hmade hall.1
    rcases hmessage (some p) with ⟨s, hs⟩ | hthrown
    · exact go_of_stop (h.trans (bind_of_stop hs _))
    · rw [go_of_thrown (h.trans (bind_of_thrown hthrown _)), caught_returns_iff]
      exact fun hhandled => hhandled.listed

/-- `go` returns a finished or reverted message exactly where what is thrown before the parameters
are taken is handled and nothing is thrown after that. -/
theorem go_returns_iff (context : BlockContext) (a : GoAnswers) (host : HostContext)
    (extraData : Option CallParameters) :
    Returns (go context a host extraData) (some host.callParameters) ↔
      Yields context a host extraData := by
  cases hthere : a.context with
  | false =>
    have hbody : body context a host extraData (some host.callParameters) =
        .ok (.error (.error (-1) "blockContext is null!"), some host.callParameters) := by
      unfold body
      rw [hthere]
      rfl
    rw [go_of_thrown hbody, caught_returns_iff]
    exact iff_of_false (fun h => Bool.noConfusion (hthere.symm.trans h.there))
      fun h => Bool.noConfusion (hthere.symm.trans h.there)
  | true =>
    cases hcreate : host.isCreate with
    | true =>
      rw [go_of_called (fun p ret => concludeCreate context a extraData p ret)
        (fun p ret => still_concludeCreate context a extraData p ret)
        (fun p ret => concludeCreate_returns_iff)
        (body_create hthere hcreate)]
      constructor
      · rintro ⟨hmade, herror, hok⟩
        exact ⟨hthere, fun h => Bool.noConfusion (hcreate.symm.trans h), fun _ => hmade,
          fun _ => herror, fun _ ret hret => (hok ret hret).1, fun _ ret hret => (hok ret hret).2⟩
      · intro h
        exact ⟨h.message (.inl hcreate), h.exec (.inl hcreate), fun ret hret =>
          ⟨h.parsed (.inl hcreate) ret hret, h.deposited hcreate ret hret⟩⟩
    | false =>
      have hnot {Q : Prop} : host.isCreate = true → Q := fun h =>
        Bool.noConfusion (hcreate.symm.trans h)
      cases hcode : a.code with
      | error e =>
        have hbody : body context a host extraData (some host.callParameters) =
            .ok (.error e, some host.callParameters) := by
          unfold body
          rw [hthere, hcreate, hcode]
          rfl
        have hcalled : ¬ Called a host := by
          rintro (h | ⟨code, h, _⟩)
          · exact hnot h
          · cases hcode.symm.trans h
        rw [go_of_thrown hbody, caught_returns_iff]
        refine ⟨fun h => ⟨hthere, fun _ e' he => ?_, fun h => absurd h hcalled,
          fun h => absurd h hcalled, fun h => absurd h hcalled, hnot⟩,
          fun h => h.code hcreate e hcode⟩
        cases hcode.symm.trans he
        exact h
      | ok code =>
        cases code with
        | nil =>
          have hcalled : ¬ Called a host := by
            rintro (h | ⟨code, h, hne⟩)
            · exact hnot h
            · cases hcode.symm.trans h
              exact hne rfl
          have hbody := body_noCode context extraData host.callParameters hthere hcreate hcode
          have hreturns := (go_of_taken hbody (still_pure _)).mpr (returns_pure (.inr rfl))
          refine iff_of_true hreturns ⟨hthere, fun _ e he => ?_, fun h => absurd h hcalled,
            fun h => absurd h hcalled, fun h => absurd h hcalled, hnot⟩
          cases hcode.symm.trans he
        | cons b bs =>
          have hcalled : Called a host := .inr ⟨b :: bs, hcode, List.cons_ne_nil _ _⟩
          rw [go_of_called (fun p ret => do
              let callResults ← parseEVMCResult a p ret
              return TransactionExecutive.clearForeignLogs callResults)
            (fun p ret => still_bind (still_parseEVMCResult a p ret) fun _ => still_pure _)
            (fun p ret => concludeCall_returns_iff)
            (body_call hthere hcreate hcode (List.cons_ne_nil _ _))]
          constructor
          · rintro ⟨hmade, herror, hok⟩
            refine ⟨hthere, fun _ e he => ?_, fun _ => hmade, fun _ => herror, fun _ => hok, hnot⟩
            cases hcode.symm.trans he
          · intro h
            exact ⟨h.message hcalled, h.exec hcalled, h.parsed hcalled⟩

end

/-- The exceptions of the kinds that the clauses handle, and no internal error of the machine. -/
structure Expected (a : GoAnswers) : Prop where
  code : ∀ e, a.code = .error e → e.Listed
  exec : ∀ e, a.exec = .error e → e.Listed
  status : ∀ ret code, a.exec = .ok ret → ret.status = .other code → -1 < code
  rollback : ∀ e, a.rollback = .error e → e.Listed
  rollbackLater : ∀ e, a.rollbackLater = .error e → e.Listed
  openTable : ∀ e, a.openTable = .error e → e.Listed
  setCodeHash : ∀ e, a.setCodeHash = .error e → e.Listed
  setCode : ∀ e, a.setCode = .error e → e.Listed
  setAbi : ∀ e, a.setAbi = .error e → e.Listed

def wasmContext : BlockContext where
  isWasm := true
  isAuthCheck := false
  hash := id

/-- The machine reports a trap of a host function, which has a status of its own. -/
def trapped : GoAnswers where
  myAddress := "/hello"
  code := .ok [0, 97, 115, 109, 1, 0, 0, 0]
  exec := .ok ⟨.other 16, 0, []⟩

def helloHost : HostContext where
  callParameters := { codeAddress := "/hello", gas := 100, type := .message }
  tableName := "/apps/hello"

theorem not_go_returns_trapped :
    ¬ ∀ a : GoAnswers, Expected a →
      Returns (go wasmContext a helloHost none) (some helloHost.callParameters) := by
  intro h
  have hexpected : Expected trapped := by
    refine ⟨nofun, nofun, fun ret code hret hcode => ?_, nofun, nofun, nofun, nofun, nofun, nofun⟩
    cases hret
    cases hcode
    decide
  exact not_returns_of_stop (s := .nullDereference) rfl (h trapped hexpected)

end Go

end BcosExecutor
