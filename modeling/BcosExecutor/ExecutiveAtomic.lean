import BcosExecutor.Executive
import BcosExecutor.Mirror

namespace BcosExecutor

/-- A message that is not left behind without a `revert()`. -/
def Ending.Clean (ending : Ending) : Prop :=
  ending.reverted = true ∧ ending.message.type = .revert ∨
    ending.reverted = false ∧ ending.message.type = .finished

variable {st : StateStorage}

/-- A failed message whose executive has not called `revert()`. -/
def Ending.Unreverted (ending : Ending) : Prop :=
  ending.reverted = false ∧ ending.message.type = .revert

namespace TransactionExecutive

variable {κ : Type} {env : Environment} {b : Behaviour κ}
  {p : CallParameters} {scheduler : Scheduler st κ} {e e' : Executive st}

/-- The run of a constructor that the deposit turns down without `revert()`. -/
def DepositFails (schedule : EVMSchedule) (ret : Result) : Prop :=
  ret.status = .success ∧
    (schedule.maxCodeSize < ret.output.length ∨
      codeDepositTooDear schedule ret.gasLeft ret.output)

instance (schedule : EVMSchedule) (ret : Result) : Decidable (DepositFails schedule ret) := by
  unfold DepositFails
  infer_instance

theorem parseEVMCResult_cases {ret : Result} {ending : Ending}
    (h : parseEVMCResult p ret = .ok ending) :
    (ending.reverted = true ∧ ending.message.type = .revert ∧ ending.message.status ≠ .none ∧
        ret.status ≠ .success) ∨
      (ending.reverted = false ∧ ending.message.type = .finished ∧
        ending.message.status = .none ∧ ending.message.gas = ret.gasLeft ∧
        ret.status = .success) := by
  unfold parseEVMCResult at h
  cases hs : ret.status with
  | success =>
    rw [hs] at h
    cases h
    exact .inr ⟨rfl, rfl, rfl, rfl, rfl⟩
  | other code =>
    rw [hs] at h
    dsimp only at h
    split at h <;> cases h
  | _ =>
    rw [hs] at h
    cases h
    exact .inl ⟨rfl, rfl, nofun, nofun⟩

theorem caught_run {x : Exc} {ending : Ending}
    (h : (caught p x).run scheduler e = (some (.ok ending), e')) : ending.Clean := by
  cases x with
  | internalVMError => cases (Prod.mk.inj h).1
  | exception => cases (Prod.mk.inj h).1
  | stdException => cases (Prod.mk.inj h).1
  | _ =>
    cases (Script.run_pure_ok h).1
    exact .inl ⟨rfl, rfl⟩

theorem depositCode_run {host : HostContext} {abi : Bytes} {ret : Result} {ending : Ending}
    (hp : p.type = .finished) (hg : p.gas = ret.gasLeft) (hs : ret.status = .success)
    (h : (depositCode env host p abi ret).run scheduler e = (some (.ok ending), e')) :
    ending.Clean ∨ ending.Unreverted ∧ DepositFails env.evmSchedule ret ∧ e' = e := by
  unfold depositCode at h
  dsimp only at h
  split at h
  next hl =>
    obtain ⟨hend, he⟩ := Script.run_pure_ok h
    subst hend
    exact .inr ⟨⟨rfl, rfl⟩, ⟨hs, .inl hl⟩, he⟩
  split at h
  next hd =>
    obtain ⟨hend, he⟩ := Script.run_pure_ok h
    subst hend
    exact .inr ⟨⟨rfl, rfl⟩, ⟨hs, .inr (hg ▸ hd)⟩, he⟩
  split at h
  next =>
    cases (Script.run_pure_ok h).1
    exact .inl (.inl ⟨rfl, rfl⟩)
  split at h
  all_goals
    obtain ⟨_, _, _, h⟩ := Script.run_bind_ok h
    cases (Script.run_pure_ok h).1
    exact .inl (.inr ⟨rfl, hp⟩)

theorem concludeCreate_run {host : HostContext} {abi : Bytes} {r : Except Exc Result}
    {ending : Ending}
    (h : (concludeCreate env host abi p r).run scheduler e = (some (.ok ending), e')) :
    ending.Clean ∨ ending.Unreverted ∧
      ∃ ret, r = .ok ret ∧ DepositFails env.evmSchedule ret ∧ e' = e := by
  cases r with
  | error x => exact .inl (caught_run h)
  | ok ret =>
    unfold concludeCreate at h
    dsimp only at h
    split at h
    next => cases (Prod.mk.inj h).1
    next p reverted hp =>
      rcases parseEVMCResult_cases hp with ⟨hr, ht, hn, _⟩ | ⟨hr, ht, hn, hg, hs⟩
      · rw [if_pos hn] at h
        cases (Script.run_pure_ok h).1
        exact .inl (.inl ⟨hr, rfl⟩)
      · rw [if_neg (not_not.mpr hn)] at h
        rcases depositCode_run ht hg hs h with hclean | ⟨hun, hd, he⟩
        · exact .inl hclean
        · exact .inr ⟨hun, ret, rfl, hd, he⟩

theorem concludeCall_run {r : Except Exc Result} {ending : Ending}
    (h : (concludeCall p r).run scheduler e = (some (.ok ending), e')) : ending.Clean := by
  cases r with
  | error x => exact caught_run h
  | ok ret =>
    unfold concludeCall at h
    dsimp only at h
    split at h
    next => cases (Prod.mk.inj h).1
    next p reverted hp =>
      cases (Script.run_pure_ok h).1
      have htype : (clearForeignLogs p).type = p.type := by
        unfold clearForeignLogs
        split <;> rfl
      rcases parseEVMCResult_cases hp with ⟨hr, ht, _⟩ | ⟨hr, ht, _⟩
      · exact .inl ⟨hr, htype.trans ht⟩
      · exact .inr ⟨hr, htype.trans ht⟩

theorem go_run {host : HostContext} {abi : Bytes} {ending : Ending}
    (h : (go env b host abi).run scheduler e = (some (.ok ending), e')) :
    ending.Clean ∨ ending.Unreverted ∧ (host.callParameters.create = false ∧ e' = e ∨
      host.callParameters.create = true ∧ ∃ ret,
        b.vm.run scheduler e = (some (.ok ret), e') ∧ DepositFails env.evmSchedule ret) := by
  unfold go at h
  dsimp only at h
  split at h
  next hc =>
    obtain ⟨r, e₁, hvm, h⟩ := Script.run_bind_ok h
    rcases concludeCreate_run h with hclean | ⟨hun, ret, hr, hd, he⟩
    · exact .inl hclean
    · subst hr he
      exact .inr ⟨hun, .inr ⟨hc, ret, Script.run_attempt_ok hvm, hd⟩⟩
  next hc =>
    obtain ⟨code, e₁, hcode, hk⟩ := Script.run_bind_ok h
    cases (Prod.mk.inj hcode).2
    have hc' : host.callParameters.create = false := Bool.eq_false_iff.mpr hc
    split at hk
    next =>
      obtain ⟨hend, he⟩ := Script.run_pure_ok hk
      subst hend
      exact .inr ⟨⟨rfl, rfl⟩, .inl ⟨hc', he⟩⟩
    next =>
      obtain ⟨r, e₂, _, h⟩ := Script.run_bind_ok hk
      exact .inl (concludeCall_run h)

theorem execPrecompiled_run {ret : PrecompiledExecResult}
    (h : (execPrecompiled b).run scheduler e = (some (.ok ret), e')) :
    b.precompiled.run scheduler e = (some (.ok ret), e') := by
  obtain ⟨r, e₁, hr, h⟩ := Script.run_bind_ok h
  have hr := Script.run_attempt_ok hr
  cases r with
  | ok ret' =>
    obtain ⟨hret, he⟩ := Script.run_pure_ok h
    subst hret he
    exact hr
  | error x => cases x <;> cases (Prod.mk.inj h).1

theorem callPrecompiled_run {ending : Ending}
    (h : (callPrecompiled env b p).run scheduler e = (some (.ok ending), e')) :
    ending.Clean ∨ ending.Unreverted ∧
      ∃ ret, b.precompiled.run scheduler e = (some (.ok ret), e') ∧ p.gas < ret.gas := by
  obtain ⟨r, e₁, hr, h⟩ := Script.run_bind_ok h
  have hr := Script.run_attempt_ok hr
  cases r with
  | ok ret =>
    dsimp only at h
    split at h
    next hg =>
      obtain ⟨hend, he⟩ := Script.run_pure_ok h
      subst hend he
      exact .inr ⟨⟨rfl, rfl⟩, ret, execPrecompiled_run hr, hg⟩
    next =>
      cases (Script.run_pure_ok h).1
      exact .inl (.inr ⟨rfl, rfl⟩)
  | error x =>
    cases x
    all_goals
      cases (Script.run_pure_ok h).1
      exact .inl (.inl ⟨rfl, rfl⟩)

theorem call_run {r : Settled (HostContext × Bytes × Bytes)}
    (h : (call env b p).run scheduler e = (some (.ok r), e')) :
    (∃ ending, r = .ends ending ∧ (ending.Clean ∨ ending.Unreverted ∧
        env.isPrecompiled p.codeAddress = true ∧
        ∃ ret, b.precompiled.run scheduler e = (some (.ok ret), e') ∧ p.gas < ret.gas)) ∨
      ∃ host params abi, r = .goOn (host, params, abi) ∧ host.callParameters = p ∧ e' = e := by
  unfold call at h
  split at h
  next hpre =>
    obtain ⟨ending, e₁, hrun, h⟩ := Script.run_bind_ok h
    obtain ⟨hr, he⟩ := Script.run_pure_ok h
    subst he
    exact .inl ⟨ending, hr, (callPrecompiled_run hrun).imp_right fun hs => ⟨hs.1, hpre, hs.2⟩⟩
  split at h
  next => exact .inl ⟨_, (Script.run_pure_ok h).1, .inl (.inl ⟨rfl, rfl⟩)⟩
  next => exact .inr ⟨_, _, _, (Script.run_pure_ok h).1, rfl, (Script.run_pure_ok h).2⟩

theorem decodeInput_run {r : Settled (CallParameters × Bytes × Bytes)}
    (h : (decodeInput env p).run scheduler e = (some (.ok r), e')) :
    (∃ ending, r = .ends ending ∧ ending.Clean) ∨
      ∃ q params abi, r = .goOn (q, params, abi) ∧ q.create = p.create := by
  unfold decodeInput at h
  split at h
  next => exact .inr ⟨p, [], [], (Script.run_pure_ok h).1, rfl⟩
  split at h
  next => cases (Prod.mk.inj h).1
  next code params abi _ =>
    dsimp only at h
    split at h
    next => exact .inl ⟨_, (Script.run_pure_ok h).1, .inl ⟨rfl, rfl⟩⟩
    split at h
    next => exact .inl ⟨_, (Script.run_pure_ok h).1, .inl ⟨rfl, rfl⟩⟩
    next byteCode _ =>
      exact .inr ⟨{ p with data := byteCode }, params, abi, (Script.run_pure_ok h).1, rfl⟩

theorem createContract_run {params abi : Bytes} {r : Settled (HostContext × Bytes × Bytes)}
    (h : (createContract env b p params abi).run scheduler e = (some (.ok r), e')) :
    (∃ ending, r = .ends ending ∧ ending.Clean) ∨
      ∃ host params abi, r = .goOn (host, params, abi) ∧ host.callParameters = p := by
  unfold createContract at h
  split at h
  next => exact .inl ⟨_, (Script.run_pure_ok h).1, .inl ⟨rfl, rfl⟩⟩
  obtain ⟨r', e₁, _, h⟩ := Script.run_bind_ok h
  cases r' with
  | error x => exact .inl ⟨_, (Script.run_pure_ok h).1, .inl ⟨rfl, rfl⟩⟩
  | ok u =>
    dsimp only at h
    split at h
    next => exact .inr ⟨_, _, _, (Script.run_pure_ok h).1, rfl⟩
    obtain ⟨built, e₂, _, h⟩ := Script.run_bind_ok h
    split at h
    next => exact .inr ⟨_, _, _, (Script.run_pure_ok h).1, rfl⟩
    next => exact .inl ⟨_, (Script.run_pure_ok h).1, .inl ⟨rfl, rfl⟩⟩

theorem create_run {r : Settled (HostContext × Bytes × Bytes)}
    (h : (create env b p).run scheduler e = (some (.ok r), e')) :
    (∃ ending, r = .ends ending ∧ ending.Clean) ∨
      ∃ host params abi, r = .goOn (host, params, abi) ∧
        host.callParameters.create = p.create := by
  obtain ⟨d, e₁, hd, h⟩ := Script.run_bind_ok h
  rcases decodeInput_run hd with ⟨ending, heq, hclean⟩ | ⟨q, params, abi, heq, hq⟩
  · subst heq
    exact .inl ⟨_, (Script.run_pure_ok h).1, hclean⟩
  · subst heq
    rcases createContract_run h with hends | ⟨host, params, abi, hr, hhost⟩
    · exact .inl hends
    · exact .inr ⟨host, params, abi, hr, hhost ▸ hq⟩

/-- The exits that return `REVERT` with the writes of the executive still in the storage: a
precompiled contract that costs more gas than there is, and a code deposit that fails. -/
inductive Silent (env : Environment) (b : Behaviour κ) (p : CallParameters)
    (scheduler : Scheduler st κ) (e : Executive st) : Executive st → Prop
  | precompiled {ret : PrecompiledExecResult} {e' : Executive st} (hc : p.create = false)
      (hp : env.isPrecompiled p.codeAddress = true)
      (hr : b.precompiled.run scheduler e = (some (.ok ret), e')) (hg : p.gas < ret.gas) :
      Silent env b p scheduler e e'
  | deposit {host : HostContext} {params abi : Bytes} {ret : Result} {e₁ e' : Executive st}
      (hc : p.create = true)
      (hk : (create env b p).run scheduler e = (some (.ok (.goOn (host, params, abi))), e₁))
      (hv : b.vm.run scheduler e₁ = (some (.ok ret), e')) (hd : DepositFails env.evmSchedule ret) :
      Silent env b p scheduler e e'

theorem execute_run {ending : Ending}
    (h : (execute env b p).run scheduler e = (some (.ok ending), e')) :
    ending.Clean ∨ ending.Unreverted ∧ (e' = e ∨ Silent env b p scheduler e e') := by
  obtain ⟨r, e₁, hr, hk⟩ := Script.run_bind_ok h
  unfold prepare at hr
  split at hr
  next hc =>
    rcases create_run hr with ⟨ending', heq, hclean⟩ | ⟨host, params, abi, heq, hhost⟩
    · subst heq
      exact .inl ((Script.run_pure_ok hk).1 ▸ hclean)
    · subst heq
      rcases go_run hk with hclean | ⟨hun, ⟨hn, _⟩ | ⟨_, ret, hv, hd⟩⟩
      · exact .inl hclean
      · cases hn.symm.trans (hhost.trans hc)
      · exact .inr ⟨hun, .inr (.deposit hc hr hv hd)⟩
  next hc =>
    have hc' : p.create = false := Bool.eq_false_iff.mpr hc
    rcases call_run hr with ⟨ending', heq, hclean⟩ | ⟨host, params, abi, heq, hhost, he⟩
    · subst heq
      obtain ⟨hend, he⟩ := Script.run_pure_ok hk
      subst hend he
      rcases hclean with hclean | ⟨hun, hpre, ret, hrun, hg⟩
      · exact .inl hclean
      · exact .inr ⟨hun, .inr (.precompiled hc' hpre hrun hg)⟩
    · subst heq he
      rcases go_run hk with hclean | ⟨hun, ⟨_, he⟩ | ⟨hn, _⟩⟩
      · exact .inl hclean
      · exact .inr ⟨hun, .inl he⟩
      · rw [hhost, hc'] at hn
        cases hn

theorem execute_reverted {ending : Ending}
    (h : (execute env b p).run scheduler e = (some (.ok ending), e'))
    (hr : ending.reverted = true) : ending.message.type = .revert := by
  rcases execute_run h with (⟨_, ht⟩ | ⟨hn, _⟩) | ⟨⟨_, ht⟩, _⟩
  · exact ht
  · cases hn.symm.trans hr
  · exact ht

end TransactionExecutive

/-- A scheduler for executives that call nobody. -/
def noCalls (st : StateStorage) : Scheduler st Empty :=
  nofun

/-- One executive from its start to the message that it returns. -/
def executeMessage (st : StateStorage) (env : Environment) (b : Behaviour Empty)
    (p : CallParameters) (s : st.State) : Delivery st :=
  settle s ((TransactionExecutive.execute env b p).run (noCalls st) (Executive.start s))

/-- What the executive has written is undone by its own recoder. -/
theorem undone_run {α : Type} (h : st.Lawful) (m : Script Empty α) (e : Executive st) :
    st.undone (m.run (noCalls st) e).2.storage (m.run (noCalls st) e).2.recoder =
      st.undone e.storage e.recoder := by
  induction m generalizing e with
  | pure a => rfl
  | throw x => rfl
  | abort => rfl
  | getRow row k ih => exact ih _ e
  | setRow row entry k ih =>
    exact (ih (e.setRow row entry)).trans (h.undone_setRow e.storage e.recoder row entry)
  | externalCall callee => exact callee.elim

/-- A chain of EVM contracts with one precompiled contract. -/
def evmEnvironment : Environment where
  isWasm := false
  isAuthCheck := false
  hash := id
  isPrecompiled address := address == "1009"
  writeErrInfoToOutput := ascii
  decode _ := none
  injectMeter _ := none
  insertBfs _ _ _ := none
  emptyBfs := []

end BcosExecutor
