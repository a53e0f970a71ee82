import BcosExecutor.DagAccesses
import BcosExecutor.DagTransferCommutes

namespace BcosExecutor

open Interleaving (Config Footprint)

namespace DagTransfer

/-- The table is there. -/
def opened (row : StateRow) (entry : Option Entry) : Prop :=
  row = tableRow → entry.isSome

/-- The rows that a call with these tags may read and write. -/
def tagFootprint (tags : List String) : Footprint StateRow where
  reads := {tableRow} ∪ userRows tags
  writes := userRows tags

variable {tags tags' : List String} {user : String} {α : Type}

theorem apart_of_disjoint (htags : ∀ tag ∈ tags, IsCppString tag)
    (htags' : ∀ tag ∈ tags', IsCppString tag) (hdisjoint : ∀ tag ∈ tags, tag ∉ tags') :
    (tagFootprint tags).Apart (tagFootprint tags') := by
  have hrows := notMem_userRows htags htags' hdisjoint
  refine ⟨fun row hrow hrow' => ?_, fun row hrow hrow' => ?_, hrows⟩
  · rcases hrow' with heq | hrow'
    · exact tableRow_notMem_userRows (Set.mem_singleton_iff.mp heq ▸ hrow)
    · exact hrows row hrow hrow'
  · rcases hrow with heq | hrow
    · exact tableRow_notMem_userRows (Set.mem_singleton_iff.mp heq ▸ hrow')
    · exact hrows row hrow hrow'

theorem keeps_openTable :
    (openTable : Script Empty Unit).Keeps opened (tagFootprint tags) := by
  refine ⟨.inl rfl, fun entry hentry => ?_⟩
  obtain ⟨value, rfl⟩ := Option.isSome_iff_exists.mp (hentry rfl)
  trivial

theorem keeps_getBalance (h : user ∈ tags) :
    (getBalance user : Script Empty _).Keeps opened (tagFootprint tags) :=
  ⟨.inr (mem_userRows h), fun _ _ => trivial⟩

theorem keeps_setBalance (c : Codec) (h : user ∈ tags) (balance : U256) :
    (setBalance c user balance : Script Empty _).Keeps opened (tagFootprint tags) := by
  have hrow := mem_userRows h
  exact ⟨.inr hrow, hrow, fun heq => absurd (heq ▸ hrow) tableRow_notMem_userRows, trivial⟩

theorem keeps_ofOption (x : Option α) :
    (ofOption x : Script Empty α).Keeps opened (tagFootprint tags) := by
  cases x <;> trivial

theorem keeps_pure (a : α) : (pure a : Script Empty α).Keeps opened (tagFootprint tags) :=
  trivial

theorem keeps_balanceOrAdd (c : Codec) (h : user ∈ tags) :
    (balanceOrAdd c user : Script Empty _).Keeps opened (tagFootprint tags) := by
  refine Script.keeps_bind (keeps_getBalance h) fun entry => ?_
  cases entry with
  | none => exact Script.keeps_bind (keeps_setBalance c h 0) fun _ => keeps_pure _
  | some entry => exact keeps_ofOption _

section

variable (c : Codec) (isWasm : Bool) {data : Bytes} {fromUser toUser : String} {amount : U256}

theorem keeps_userAddCall (h : c.decodeUserAmount isWasm data = .ok (user, amount)) :
    (userAddCall c isWasm data).Keeps opened (tagFootprint [user]) := by
  have hmem : user ∈ [user] := List.mem_singleton.mpr rfl
  unfold userAddCall
  rw [h]
  show (if user.isEmpty then _ else _ : Script Empty Bytes).Keeps _ _
  split
  · exact keeps_pure _
  refine Script.keeps_bind keeps_openTable fun _ =>
    Script.keeps_bind (keeps_getBalance hmem) fun entry => ?_
  cases entry with
  | some entry => exact keeps_pure _
  | none => exact Script.keeps_bind (keeps_setBalance c hmem _) fun _ => keeps_pure _

theorem keeps_userSaveCall (h : c.decodeUserAmount isWasm data = .ok (user, amount)) :
    (userSaveCall c isWasm data).Keeps opened (tagFootprint [user]) := by
  have hmem : user ∈ [user] := List.mem_singleton.mpr rfl
  unfold userSaveCall
  rw [h]
  show (if user.isEmpty then _ else if amount = 0 then _ else _ : Script Empty Bytes).Keeps _ _
  split
  · exact keeps_pure _
  split
  · exact keeps_pure _
  refine Script.keeps_bind keeps_openTable fun _ =>
    Script.keeps_bind (keeps_getBalance hmem) fun entry => ?_
  cases entry with
  | none => exact Script.keeps_bind (keeps_setBalance c hmem _) fun _ => keeps_pure _
  | some entry =>
    refine Script.keeps_bind (keeps_ofOption _) fun balance => ?_
    dsimp only
    split
    · exact keeps_pure _
    · exact Script.keeps_bind (keeps_setBalance c hmem _) fun _ => keeps_pure _

theorem keeps_userDrawCall (h : c.decodeUserAmount isWasm data = .ok (user, amount)) :
    (userDrawCall c isWasm data).Keeps opened (tagFootprint [user]) := by
  have hmem : user ∈ [user] := List.mem_singleton.mpr rfl
  unfold userDrawCall
  rw [h]
  show (if user.isEmpty then _ else if amount = 0 then _ else _ : Script Empty Bytes).Keeps _ _
  split
  · exact keeps_pure _
  split
  · exact keeps_pure _
  refine Script.keeps_bind keeps_openTable fun _ =>
    Script.keeps_bind (keeps_getBalance hmem) fun entry => ?_
  cases entry with
  | none => exact keeps_pure _
  | some entry =>
    refine Script.keeps_bind (keeps_ofOption _) fun balance => ?_
    split
    · exact keeps_pure _
    · exact Script.keeps_bind (keeps_setBalance c hmem _) fun _ => keeps_pure _

theorem keeps_userTransferCall
    (h : c.decodeTransfer isWasm data = .ok (fromUser, toUser, amount)) :
    (userTransferCall c isWasm data).Keeps opened (tagFootprint [fromUser, toUser]) := by
  have hfrom : fromUser ∈ [fromUser, toUser] := List.mem_cons_self
  have hto : toUser ∈ [fromUser, toUser] := List.mem_cons_of_mem _ (List.mem_singleton.mpr rfl)
  unfold userTransferCall
  rw [h]
  show (if fromUser.isEmpty || toUser.isEmpty then _ else if amount = 0 then _
    else if fromUser = toUser then _ else _ : Script Empty Bytes).Keeps _ _
  split
  · exact keeps_pure _
  split
  · exact keeps_pure _
  split
  · exact keeps_pure _
  refine Script.keeps_bind keeps_openTable fun _ =>
    Script.keeps_bind (keeps_getBalance hfrom) fun entry => ?_
  cases entry with
  | none => exact keeps_pure _
  | some entry =>
    refine Script.keeps_bind (keeps_ofOption _) fun fromUserBalance => ?_
    split
    · exact keeps_pure _
    refine Script.keeps_bind (keeps_balanceOrAdd c hto) fun toUserBalance => ?_
    split
    · exact keeps_pure _
    refine Script.keeps_bind (keeps_setBalance c hfrom _) fun _ => ?_
    exact Script.keeps_bind (keeps_setBalance c hto _) fun _ => keeps_pure _

variable (r : CriticalsReader)

/-- The function of a call with tags touches the rows of its tags. -/
theorem keeps_dispatch {func : UInt32} (hfunc : tagOf (c.reader r) isWasm data func = .ok tags)
    (hne : tags ≠ []) : (dispatch c isWasm func data).Keeps opened (tagFootprint tags) := by
  unfold dispatch
  by_cases htakes : takesUser (c.reader r) func
  · obtain ⟨user, amount, hdec, _, rfl⟩ := tagOf_user c isWasm r hfunc hne htakes
    by_cases hadd : func = c.getFuncSelector METHOD_ADD_STR_UINT
    · rw [if_pos hadd]
      exact keeps_userAddCall c isWasm hdec
    by_cases hsave : func = c.getFuncSelector METHOD_SAV_STR_UINT
    · rw [if_neg hadd, if_pos hsave]
      exact keeps_userSaveCall c isWasm hdec
    have hdraw : func = c.getFuncSelector METHOD_DRAW_STR_UINT :=
      (htakes.resolve_left hadd).resolve_left hsave
    rw [if_neg hadd, if_neg hsave, if_pos hdraw]
    exact keeps_userDrawCall c isWasm hdec
  · obtain ⟨htransfer, fromUser, toUser, amount, hdec, _, rfl⟩ :=
      tagOf_users c isWasm r hfunc hne htakes
    have hadd : func ≠ c.getFuncSelector METHOD_ADD_STR_UINT := fun h => htakes (.inl h)
    have hsave : func ≠ c.getFuncSelector METHOD_SAV_STR_UINT := fun h => htakes (.inr (.inl h))
    have hdraw : func ≠ c.getFuncSelector METHOD_DRAW_STR_UINT := fun h => htakes (.inr (.inr h))
    rw [if_neg hadd, if_neg hsave, if_neg hdraw, if_pos htransfer]
    exact keeps_userTransferCall c isWasm hdec

theorem keeps_call {param : Bytes} (hcall : getParallelTag (c.reader r) param isWasm = .ok tags)
    (hne : tags ≠ []) : (call c isWasm param).Keeps opened (tagFootprint tags) := by
  unfold getParallelTag at hcall
  unfold call
  cases hfunc : getParamFunc param with
  | error fault =>
    rw [hfunc] at hcall
    cases hcall
  | ok func =>
    rw [hfunc] at hcall
    exact Script.keeps_bind (keeps_dispatch c isWasm r hcall hne) fun _ => trivial

end

/-- What a message to the contract runs. -/
def behaviour (c : Codec) (isWasm : Bool) (p : CallParameters) : Behaviour Empty where
  precompiled := call c isWasm p.data
  vm := .abort

/-- A transaction that calls the contract, with its tags. -/
structure Calls (env : Environment) (c : Codec) (r : CriticalsReader) (contract : String)
    (p : CallParameters) (criticals : List String) : Prop where
  receiver : p.receiveAddress = contract
  precompiled : env.isPrecompiled p.codeAddress = true
  create : p.create = false
  criticals : (c.reader r).getTxCriticals p = .ok criticals

section

variable {env : Environment} {c : Codec} {r : CriticalsReader} {contract : String}
  {p : CallParameters} {criticals : List String}

theorem getTxCriticals_of_tags {tags : List String} (hcreate : p.create = false)
    (hcontract : r.getPrecompiled p.receiveAddress = some .dagTransfer)
    (htags : getParallelTag (c.reader r) p.data r.isWasm = .ok tags) :
    (c.reader r).getTxCriticals p = .ok (tags.map (· ++ p.receiveAddress)) := by
  have hcontract' : (c.reader r).getPrecompiled p.receiveAddress = some .dagTransfer := hcontract
  unfold CriticalsReader.getTxCriticals
  rw [hcreate, if_neg Bool.false_ne_true, hcontract']
  show (·.map (· ++ p.receiveAddress)) <$> getParallelTag (c.reader r) p.data r.isWasm = _
  rw [htags]
  rfl

theorem Calls.exists_tags (h : Calls env c r contract p criticals)
    (hcontract : r.getPrecompiled contract = some .dagTransfer) (hne : criticals ≠ []) :
    ∃ tags, getParallelTag (c.reader r) p.data r.isWasm = .ok tags ∧ tags ≠ [] ∧
      criticals = tags.map (· ++ contract) := by
  have hcriticals := h.criticals
  have hcontract' : (c.reader r).getPrecompiled contract = some .dagTransfer := hcontract
  unfold CriticalsReader.getTxCriticals at hcriticals
  rw [h.create, if_neg Bool.false_ne_true, h.receiver, hcontract'] at hcriticals
  change (·.map (· ++ contract)) <$> getParallelTag (c.reader r) p.data (c.reader r).isWasm =
    .ok criticals at hcriticals
  cases htags : getParallelTag (c.reader r) p.data (c.reader r).isWasm with
  | error fault =>
    rw [htags] at hcriticals
    cases hcriticals
  | ok tags =>
    rw [htags] at hcriticals
    have heq : tags.map (· ++ contract) = criticals := Except.ok.inj hcriticals
    refine ⟨tags, htags, fun hnil => hne ?_, heq.symm⟩
    rw [← heq, hnil]
    rfl

/-- The tags of a call, none where it has no readable ones. -/
def callTags (c : Codec) (r : CriticalsReader) (isWasm : Bool) (p : CallParameters) :
    List String :=
  (getParallelTag (c.reader r) p.data isWasm).toOption.getD []

theorem callTags_eq {isWasm : Bool} {tags : List String}
    (h : getParallelTag (c.reader r) p.data isWasm = .ok tags) : callTags c r isWasm p = tags := by
  unfold callTags
  rw [h]
  rfl

variable {st : StateStorage} {block : Nat → CallParameters} {txs : List (List String)}
  {ι : Type*} [DecidableEq ι] [Fintype ι] {m : DagRun ι Unit}

/-- However the reads and writes of the workers interleave, the parallel calls of a block leave the
balances and give the answers that they do one after the other, once the table is there. -/
theorem block_serializable (h : st.Lawful) (hwasm : r.isWasm = env.isWasm)
    (hcontract : r.getPrecompiled contract = some .dagTransfer)
    (hblock : ∀ id < txs.length, txs.getD id [] ≠ [] →
      Calls env c r contract (block id) (txs.getD id []))
    {s : st.State} (hopened : TableThere (st.getRow s) dagTableName)
    {run : Config Nat StateRow Entry (Option (Except Exc Ending))}
    (reach : Relation.ReflTransGen (dagSystem ι txs).AccessStep
      (DagRun.init txs (), dagConfig txs env (fun id => behaviour c env.isWasm (block id)) block
        (st.getRow s)) (m, run))
    (hf : m.hasFinished ∨ ∃ i, m.workers i = .left) :
    run.store = st.getRow ((keyedTxs txs txs.length).foldl
        (fun s id => (onMessage st env c (block id) s).storage) s) ∧
      ∀ id, DagRun.hasCriticals txs id = true → ∃ out, run.programs id = .done out ∧
        answered out = (onMessage st env c (block id) ((keyedTxs txs id).foldl
          (fun s id => (onMessage st env c (block id) s).storage) s)).response := by
  have hcalls {id : Nat} (hkeyed : DagRun.hasCriticals txs id = true) :
      Calls env c r contract (block id) (txs.getD id []) ∧
        ∃ tags, getParallelTag (c.reader r) (block id).data env.isWasm = .ok tags ∧ tags ≠ [] ∧
          txs.getD id [] = tags.map (· ++ contract) := by
    have hne : txs.getD id [] ≠ [] := by
      intro hnil
      rw [DagRun.hasCriticals, hnil] at hkeyed
      exact Bool.false_ne_true hkeyed
    have hcall := hblock id (lt_of_hasCriticals hkeyed) hne
    exact ⟨hcall, hwasm ▸ hcall.exists_tags hcontract hne⟩
  have hkeeps (id : Nat) (hkeyed : DagRun.hasCriticals txs id = true) :
      (TransactionExecutive.execute env (behaviour c env.isWasm (block id)) (block id)).Keeps
        opened (tagFootprint (callTags c r env.isWasm (block id))) := by
    obtain ⟨hcall, tags, htags, hne, _⟩ := hcalls hkeyed
    rw [callTags_eq htags]
    exact TransactionExecutive.keeps_execute hcall.precompiled hcall.create
      (keeps_call c env.isWasm r htags hne)
  refine dagExecute_serializable h hkeeps (fun i j _ hi hj hshare => ?_) (fun row hrow => ?_)
    reach hf
  · obtain ⟨_, tags, htags, hne, hcriticals⟩ := hcalls hi
    obtain ⟨_, tags', htags', hne', hcriticals'⟩ := hcalls hj
    rw [callTags_eq htags, callTags_eq htags']
    refine apart_of_disjoint (local_call c env.isWasm r htags hne).2
      (local_call c env.isWasm r htags' hne').2
      fun tag htag htag' => hshare ⟨tag ++ contract, ?_, ?_⟩
    · rw [hcriticals]
      exact List.mem_map_of_mem htag
    · rw [hcriticals']
      exact List.mem_map_of_mem htag'
  · rw [hrow]
    exact hopened

end

/-- A block of two calls that add one to the balances of two users. -/
def twoSaves (id : Nat) : CallParameters :=
  { saveOne (if id = 0 then 97 else 98) with receiveAddress := "100c" }

/-- The table is there, and no user is. -/
def openedRows : Rows :=
  Function.update (fun _ => none) tableRow (some (ascii "balance"))

theorem block_serializable_twoSaves : ∃ (m : DagRun Unit Unit)
    (run : Config Nat StateRow Entry (Option (Except Exc Ending))),
    Relation.ReflTransGen (dagSystem Unit apartCriticals).AccessStep
      (DagRun.init apartCriticals (), dagConfig apartCriticals dagEnvironment
        (fun id => behaviour abiCodec false (twoSaves id)) twoSaves openedRows) (m, run) ∧
      run.store = undoLogStorage.getRow (onMessage undoLogStorage dagEnvironment abiCodec
        (twoSaves 1) (onMessage undoLogStorage dagEnvironment abiCodec (twoSaves 0)
          openedRows).storage).storage := by
  obtain ⟨m, hreach, hf⟩ := apartCriticals_finishes
  obtain ⟨run, hrun⟩ := (dagSystem_disciplined Unit apartCriticals).lift hreach
    (dagConfig apartCriticals dagEnvironment
      (fun id => behaviour abiCodec false (twoSaves id)) twoSaves openedRows)
  have hblock : ∀ id < apartCriticals.length, apartCriticals.getD id [] ≠ [] →
      Calls dagEnvironment abiCodec solidityReader "100c" (twoSaves id)
        (apartCriticals.getD id []) := by
    intro id hid _
    obtain ⟨htags, htags'⟩ := saveOne_tags solidityReader
    match id with
    | 0 => exact ⟨rfl, rfl, rfl, getTxCriticals_of_tags (p := twoSaves 0) rfl rfl htags⟩
    | 1 => exact ⟨rfl, rfl, rfl, getTxCriticals_of_tags (p := twoSaves 1) rfl rfl htags'⟩
    | id + 2 => exact absurd hid (Nat.not_lt_of_le (Nat.le_add_left 2 id))
  refine ⟨m, run, hrun, ?_⟩
  have hserial := block_serializable undoLogStorage_lawful (r := solidityReader) rfl rfl hblock
    (s := openedRows) rfl hrun (.inl hf)
  have hkeyed : keyedTxs apartCriticals apartCriticals.length = [0, 1] := rfl
  rw [hkeyed, List.foldl_cons, List.foldl_cons, List.foldl_nil] at hserial
  exact hserial.1

end DagTransfer

end BcosExecutor
