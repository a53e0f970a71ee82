import BcosExecutor.CodeFrames

namespace BcosExecutor

open TransactionExecutive

variable {st : StateStorage}

/-- The executive has created the table of the name. -/
def Running.Holds (x : Running st) (key : Bytes) : Prop :=
  (st.recorded x.recoder ⟨sysTables, key⟩).isSome

namespace ChainState

/-- The tables that stand for a deposited contract or were created by another executive. -/
def Held (c : ChainState st) (id : Nat) (key : Bytes) : Prop :=
  (∃ d ∈ c.deposits, ascii d.tableName = key) ∨
    ∃ j x, j ≠ id ∧ c.executives j = some x ∧ x.Holds key

structure Inv (env : Environment) (c : ChainState st) : Prop where
  intact : c.CodeIntact env
  frames : ∀ id x, c.executives id = some x →
    CodeFrame st (c.Held id) (st.getRow c.storage) ⟨c.storage, x.recoder, []⟩
  hosts : ∀ id x, c.executives id = some x → x.host.tableName ≠ sysTables ∧
    (x.host.isCreate = true → x.Holds (ascii x.host.tableName))
  tables : ∀ d ∈ c.deposits, d.tableName ≠ sysTables ∧
    (st.getRow c.storage ⟨sysTables, ascii d.tableName⟩).isSome

variable {env : Environment} {c : ChainState st} {id : Nat}

theorem inv_init (s : st.State) : (init s).Inv env where
  intact _ hd := nomatch hd
  frames _ _ hx := nomatch hx
  hosts _ _ hx := nomatch hx
  tables _ hd := nomatch hd

theorem Inv.held_present (hc : c.Inv env) {key : Bytes} (hk : c.Held id key) :
    (st.getRow c.storage ⟨sysTables, key⟩).isSome := by
  rcases hk with ⟨d, hd, hk⟩ | ⟨j, x, _, hx, hk⟩
  · exact hk ▸ (hc.tables d hd).2
  · exact (hc.frames j x hx).created key hk

theorem codeRow_of_deposit (hc : c.Inv env) {d : Deposit} (hd : d ∈ c.deposits) {key : Bytes}
    (hk : CodeKey key) : CodeRow ⟨d.tableName, key⟩ :=
  ⟨(hc.tables d hd).1, hk⟩

/-- The rows of the deposited code are the only ones that the deposits depend on. -/
theorem codeIntact_of_eq (hc : c.Inv env) {c' : ChainState st}
    (hdep : c'.deposits = c.deposits)
    (hrows : ∀ d ∈ c.deposits, ∀ key, CodeKey key →
      st.getRow c'.storage ⟨d.tableName, key⟩ = st.getRow c.storage ⟨d.tableName, key⟩) :
    c'.CodeIntact env := by
  intro d hd
  rw [hdep] at hd
  obtain ⟨hcode, hhash, habi⟩ := hc.intact d hd
  refine ⟨?_, ?_, ?_⟩
  · rw [hrows d hd _ (by decide), hcode]
  · rw [hrows d hd _ (by decide), hhash]
  · rw [hrows d hd _ (by decide), habi]

theorem drop_executives {s : st.State} {j : Nat} {x : Running st}
    (hx : (c.drop id s).executives j = some x) : j ≠ id ∧ c.executives j = some x := by
  replace hx : Function.update c.executives id none j = some x := hx
  by_cases hj : j = id
  · rw [hj, Function.update_self] at hx
    cases hx
  · rw [Function.update_of_ne hj] at hx
    exact ⟨hj, hx⟩

theorem inv_drop (hc : c.Inv env) {s : st.State}
    (hheld : ∀ key, c.Held id key → (st.getRow s ⟨sysTables, key⟩).isSome)
    (hrows : ∀ d ∈ c.deposits, ∀ key, CodeKey key →
      st.getRow s ⟨d.tableName, key⟩ = st.getRow c.storage ⟨d.tableName, key⟩) :
    (c.drop id s).Inv env := by
  refine ⟨codeIntact_of_eq hc rfl hrows, fun j x hx => ?_, fun j x hx => ?_,
    fun d hd => ⟨(hc.tables d hd).1, hheld _ (.inl ⟨d, hd, rfl⟩)⟩⟩
  · obtain ⟨hj, hx⟩ := drop_executives hx
    have hf := hc.frames j x hx
    refine ⟨fun key hk => ?_, fun key hk => hheld key (.inr ⟨j, x, hj, hx, hk⟩), hf.unrecorded,
      fun _ _ => rfl⟩
    rcases hk with hk | ⟨k, y, hkj, hy, hk⟩
    · exact ⟨hheld key (.inl hk), (hf.held_table key (.inl hk)).2⟩
    · obtain ⟨hki, hy⟩ := drop_executives hy
      exact ⟨hheld key (.inr ⟨k, y, hki, hy, hk⟩),
        (hf.held_table key (.inr ⟨k, y, hkj, hy, hk⟩)).2⟩
  · exact hc.hosts j x (drop_executives hx).2

theorem inv_deposit (hc : c.Inv env) {d : Deposit} (ht : d.tableName ≠ sysTables)
    (hthere : (st.getRow c.storage ⟨sysTables, ascii d.tableName⟩).isSome)
    (hfree : ∀ j x, c.executives j = some x → ¬ x.Holds (ascii d.tableName))
    (hcode : st.getRow c.storage ⟨d.tableName, ACCOUNT_CODE⟩ = some d.code)
    (hhash : st.getRow c.storage ⟨d.tableName, ACCOUNT_CODE_HASH⟩ = some (env.hash d.code))
    (habi : st.getRow c.storage ⟨d.tableName, ACCOUNT_ABI⟩ = d.abi) :
    ({ c with deposits := d :: c.deposits } : ChainState st).Inv env := by
  refine ⟨fun d' hd' => ?_, fun j x hx => ?_, hc.hosts, fun d' hd' => ?_⟩
  · rcases List.mem_cons.mp hd' with heq | hd'
    · subst heq
      exact ⟨hcode, hhash, habi⟩
    · exact hc.intact d' hd'
  · have hf := hc.frames j x hx
    refine ⟨fun key hk => ?_, hf.created, hf.unrecorded, hf.code⟩
    rcases hk with ⟨d', hd', hk⟩ | hk
    · rcases List.mem_cons.mp hd' with heq | hd'
      · subst heq hk
        exact ⟨hthere, Option.not_isSome_iff_eq_none.mp (hfree j x hx)⟩
      · exact hf.held_table key (.inl ⟨d', hd', hk⟩)
    · exact hf.held_table key (.inr hk)
  · rcases List.mem_cons.mp hd' with heq | hd'
    · subst heq
      exact ⟨ht, hthere⟩
    · exact hc.tables d' hd'

theorem frame_left (h : st.Lawful) {held : Bytes → Prop} {base : Rows} {e : Executive st}
    (he : CodeFrame st held base e) (ending : Ending) :
    (∀ key, held key → (st.getRow (left ending e) ⟨sysTables, key⟩).isSome) ∧
      ∀ row, CodeRow row → st.getRow (left ending e) row = base row := by
  unfold left
  split
  next =>
    rw [h.getRow_rollback]
    refine ⟨fun key hk => ?_, fun row hr => ?_⟩
    · obtain ⟨hthere, hnone⟩ := he.held_table key hk
      rw [StateStorage.undone, hnone]
      exact hthere
    · rw [StateStorage.undone, he.unrecorded row hr]
      exact he.code row hr
  next => exact ⟨fun key hk => (he.held_table key hk).1, he.code⟩

/-- The executive after the deposit of the code. -/
def deposited (env : Environment) (host : HostContext) (abi code : Bytes) (e : Executive st) :
    Executive st :=
  let e := (e.setRow ⟨host.tableName, ACCOUNT_CODE_HASH⟩ (some (env.hash code))).setRow
    ⟨host.tableName, ACCOUNT_CODE⟩ (some code)
  if env.isWasm then e.setRow ⟨host.tableName, ACCOUNT_ABI⟩ (some abi) else e

theorem setCode_run {context : BlockContext} {host : HostContext} {e : Executive st}
    (hthere : (st.getRow e.storage ⟨sysTables, ascii host.tableName⟩).isSome) (code : Bytes) :
    (host.setCode context code : Script Empty Bool).run (noCalls st) e =
      (some (.ok true), (e.setRow ⟨host.tableName, ACCOUNT_CODE_HASH⟩
        (some (context.hash code))).setRow ⟨host.tableName, ACCOUNT_CODE⟩ (some code)) := by
  show ((if (st.getRow e.storage ⟨sysTables, ascii host.tableName⟩).isSome then _ else _ :
    Script Empty Bool).run (noCalls st) e) = _
  rw [if_pos hthere]
  rfl

/-- The code is deposited, or nothing is written and the message is not `FINISHED`. -/
theorem depositCode_cases {host : HostContext} {p : CallParameters} {abi : Bytes} {ret : Result}
    {e e' : Executive st} {out : Option (Except Exc Ending)}
    (hthere : (st.getRow e.storage ⟨sysTables, ascii host.tableName⟩).isSome)
    (hrun : (depositCode env host p abi ret).run (noCalls st) e = (out, e')) :
    (e' = e ∧ ∀ ending, out = some (.ok ending) → ending.message.type ≠ .finished) ∨
      (e' = deposited env host abi ret.output e ∧
        ∃ ending, out = some (.ok ending) ∧ ending.reverted = false) := by
  have hpure : ∀ {ending : Ending}, ending.message.type = .revert →
      (pure ending : Script Empty _).run (noCalls st) e = (out, e') →
      e' = e ∧ ∀ ending, out = some (.ok ending) → ending.message.type ≠ .finished := by
    intro ending ht hp
    cases hp
    refine ⟨rfl, fun ending' heq => ?_⟩
    cases heq
    rw [ht]
    exact nofun
  unfold depositCode at hrun
  dsimp only at hrun
  split at hrun
  next => exact .inl (hpure rfl hrun)
  split at hrun
  next => exact .inl (hpure rfl hrun)
  split at hrun
  next => exact .inl (hpure rfl hrun)
  split at hrun
  next hw =>
    have habi : (host.setCodeAndAbi env.toBlockContext ret.output abi : Script Empty Unit).run
        (noCalls st) e = (some (.ok ()), deposited env host abi ret.output e) := by
      unfold HostContext.setCodeAndAbi deposited
      rw [Script.run_bind_of_ok (setCode_run hthere _), if_pos hw]
      rfl
    rw [Script.run_bind_of_ok habi] at hrun
    cases hrun
    exact .inr ⟨rfl, _, rfl, rfl⟩
  next hw =>
    rw [Script.run_bind_of_ok (setCode_run hthere _)] at hrun
    cases hrun
    refine .inr ⟨?_, _, rfl, rfl⟩
    unfold deposited
    rw [if_neg hw]

theorem caught_cases {p : CallParameters} {x : Exc} {e e' : Executive st}
    {out : Option (Except Exc Ending)}
    (hrun : (caught p x : Script Empty _).run (noCalls st) e = (out, e')) :
    e' = e ∧ ∀ ending, out = some (.ok ending) → ending.message.type ≠ .finished := by
  cases x
  all_goals
    cases hrun
    refine ⟨rfl, fun ending heq => ?_⟩
    cases heq
  all_goals exact nofun

/-- What the end of an executive does to its storage before its `revert()`. -/
theorem conclude_cases {x : Running st} {r : Except Exc Result} {e e' : Executive st}
    {out : Option (Except Exc Ending)}
    (hthere : x.host.isCreate = true →
      (st.getRow e.storage ⟨sysTables, ascii x.host.tableName⟩).isSome)
    (hrun : (conclude env x r).run (noCalls st) e = (out, e')) :
    (e' = e ∧ ∀ ending, out = some (.ok ending) → x.host.isCreate = true →
        ending.message.type ≠ .finished) ∨
      (x.host.isCreate = true ∧ ∃ ret, r = .ok ret ∧
        e' = deposited env x.host x.abi ret.output e ∧
        ∃ ending, out = some (.ok ending) ∧ ending.reverted = false) := by
  unfold conclude at hrun
  split at hrun
  next hc =>
    cases r with
    | error exc =>
      have h := caught_cases hrun
      exact .inl ⟨h.1, fun ending heq _ => h.2 ending heq⟩
    | ok ret =>
      unfold concludeCreate at hrun
      dsimp only at hrun
      split at hrun
      next =>
        cases hrun
        exact .inl ⟨rfl, fun _ heq => nomatch heq⟩
      split at hrun
      next =>
        cases hrun
        refine .inl ⟨rfl, fun ending heq _ => ?_⟩
        cases heq
        exact nofun
      next =>
        rcases depositCode_cases (hthere hc) hrun with ⟨he, ht⟩ | ⟨he, hout⟩
        · exact .inl ⟨he, fun ending heq _ => ht ending heq⟩
        · exact .inr ⟨hc, ret, rfl, he, hout⟩
  next hc =>
    refine .inl ⟨?_, fun _ _ hcr => absurd hcr hc⟩
    cases r with
    | error exc => exact (caught_cases hrun).1
    | ok ret =>
      unfold concludeCall at hrun
      dsimp only at hrun
      split at hrun
      all_goals
        cases hrun
        rfl

theorem getRow_deposited (h : st.Lawful) (env : Environment) (host : HostContext) (abi code : Bytes)
    (e : Executive st) :
    st.getRow (deposited env host abi code e).storage ⟨host.tableName, ACCOUNT_CODE⟩ =
        some code ∧
      st.getRow (deposited env host abi code e).storage ⟨host.tableName, ACCOUNT_CODE_HASH⟩ =
        some (env.hash code) ∧
      (env.isWasm = true → st.getRow (deposited env host abi code e).storage
        ⟨host.tableName, ACCOUNT_ABI⟩ = some abi) ∧
      ∀ row : StateRow, row.table ≠ host.tableName →
        st.getRow (deposited env host abi code e).storage row = st.getRow e.storage row := by
  have hset : ∀ (e : Executive st) row entry, st.getRow (e.setRow row entry).storage =
      Function.update (st.getRow e.storage) row entry :=
    fun e row entry => h.getRow_setRow e.storage e.recoder row entry
  have hcode : ACCOUNT_CODE ≠ ACCOUNT_CODE_HASH := by decide
  have hcodeAbi : ACCOUNT_CODE ≠ ACCOUNT_ABI := by decide
  have hhashAbi : ACCOUNT_CODE_HASH ≠ ACCOUNT_ABI := by decide
  have hrow : ∀ {row : StateRow} {key}, row.table ≠ host.tableName → row ≠ ⟨host.tableName, key⟩ :=
    fun ht heq => ht (heq ▸ rfl)
  unfold deposited
  dsimp only
  split
  next =>
    refine ⟨?_, ?_, fun _ => ?_, fun row ht => ?_⟩
    · simp [hset, hcodeAbi]
    · simp [hset, hhashAbi, Ne.symm hcode]
    · simp [hset]
    · simp [hset, hrow ht]
  next hw =>
    refine ⟨?_, ?_, fun hw' => absurd hw' hw, fun row ht => ?_⟩
    · simp [hset]
    · simp [hset, Ne.symm hcode]
    · simp [hset, hrow ht]

/-- A creation leaves its rows where no other executive and no deposit has any. -/
theorem inv_deposited (hc : c.Inv env) (h : st.Lawful) {x : Running st}
    (hx : c.executives id = some x) (hcr : x.host.isCreate = true) (code : Bytes) {s : st.State}
    (hs : s = (deposited env x.host x.abi code ⟨c.storage, x.recoder, []⟩).storage) :
    (c.drop id s).Inv env ∧
      ({ c.drop id s with deposits := ⟨x.host.tableName, code, if env.isWasm then some x.abi
        else st.getRow s ⟨x.host.tableName, ACCOUNT_ABI⟩⟩ :: c.deposits } : ChainState st).Inv
        env := by
  have hhost := hc.hosts id x hx
  have hframe := hc.frames id x hx
  obtain ⟨hcode, hhash, habi, hrest⟩ :=
    getRow_deposited h env x.host x.abi code ⟨c.storage, x.recoder, []⟩
  rw [← hs] at hcode hhash habi hrest
  have hholds := hhost.2 hcr
  have hfree : ¬ c.Held id (ascii x.host.tableName) := fun hk => by
    rw [Running.Holds, (hframe.held_table _ hk).2] at hholds
    cases hholds
  have hsame (key : Bytes) : st.getRow s ⟨sysTables, key⟩ = st.getRow c.storage ⟨sysTables, key⟩ :=
    hrest _ (Ne.symm hhost.1)
  have hdropped : (c.drop id s).Inv env := by
    refine inv_drop hc (fun key hk => ?_) fun d hd key _ => hrest _ fun heq => ?_
    · rw [hsame]
      exact hc.held_present hk
    · exact hfree (.inl ⟨d, hd, congrArg ascii heq⟩)
  refine ⟨hdropped, inv_deposit hdropped hhost.1 ?_ (fun j y hy hk => ?_) hcode hhash ?_⟩
  · show (st.getRow s _).isSome
    rw [hsame]
    exact hframe.created _ hholds
  · obtain ⟨hj, hy⟩ := drop_executives hy
    exact hfree (.inr ⟨j, y, hj, hy, hk⟩)
  · show st.getRow s _ = if env.isWasm then _ else _
    split
    next hw => exact habi hw
    next => rfl

theorem inv_finish (hc : c.Inv env) (h : st.Lawful) {x : Running st}
    (hx : c.executives id = some x) (outcome : Except Exc Result) :
    (c.finish env id x outcome).Inv env := by
  have hhost := hc.hosts id x hx
  have hframe := hc.frames id x hx
  have hthere : x.host.isCreate = true →
      (st.getRow c.storage ⟨sysTables, ascii x.host.tableName⟩).isSome :=
    fun hcr => hframe.created _ (hhost.2 hcr)
  have hdrop : ∀ ending, (c.drop id (left ending ⟨c.storage, x.recoder, []⟩)).Inv env :=
    fun ending => inv_drop hc (frame_left h hframe ending).1
      fun d hd key hk => (frame_left h hframe ending).2 _ (codeRow_of_deposit hc hd hk)
  unfold finish
  split
  next ending e hrun =>
    rcases conclude_cases hthere hrun with ⟨he, ht⟩ | ⟨hcr, ret, hr, he, _, hout, hrev⟩
    · subst he
      cases outcome with
      | error exc => exact hdrop ending
      | ok ret =>
        dsimp only
        split
        next hfin =>
          simp only [Bool.and_eq_true, decide_eq_true_eq] at hfin
          exact absurd hfin.2 (ht ending rfl hfin.1)
        next => exact hdrop ending
    · cases hout
      subst hr he
      have hleft : left ending (deposited env x.host x.abi ret.output ⟨c.storage, x.recoder, []⟩) =
          (deposited env x.host x.abi ret.output ⟨c.storage, x.recoder, []⟩).storage := by
        rw [left, hrev]
        rfl
      obtain ⟨hdropped, hkept⟩ := inv_deposited hc h hx hcr ret.output hleft
      dsimp only
      split
      next => exact hkept
      next => exact hdropped
  -- an exception or a break leaves nothing new
  next hrun =>
    rcases conclude_cases hthere hrun with ⟨he, _⟩ | ⟨_, _, _, _, _, hout, _⟩
    · subst he
      exact hdrop ⟨x.host.callParameters, false⟩
    · cases hout
  next hrun =>
    rcases conclude_cases hthere hrun with ⟨he, _⟩ | ⟨_, _, _, _, _, hout, _⟩
    · subst he
      exact hdrop ⟨x.host.callParameters, false⟩
    · cases hout

end ChainState

end BcosExecutor
