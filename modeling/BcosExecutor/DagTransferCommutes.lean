import BcosExecutor.AbiCache
import BcosExecutor.DagTransfer
import BcosExecutor.ExternalRequest

namespace BcosExecutor

open LocalEffects

namespace Script

variable {α β : Type} {K : Set StateRow}

/-- A program that reads and writes rows of the set only. -/
def Within (K : Set StateRow) : Script Empty α → Prop
  | pure _ | throw _ | abort => True
  | getRow row k => row ∈ K ∧ ∀ entry, (k entry).Within K
  | setRow row _ k => row ∈ K ∧ k.Within K
  | externalCall _ _ _ => False

theorem within_bind {m : Script Empty α} {f : α → Script Empty β} (hm : m.Within K)
    (hf : ∀ a, (f a).Within K) : (m >>= f).Within K := by
  show (m.bind f).Within K
  induction m with
  | pure a => exact hf a
  | throw x => trivial
  | abort => trivial
  | getRow row k ih => exact ⟨hm.1, fun entry => ih entry (hm.2 entry)⟩
  | setRow row entry k ih => exact ⟨hm.1, ih hm.2⟩
  | externalCall callee => exact callee.elim

theorem Within.frame {m : Script Empty α} (h : m.Within K) (s : Rows) {row : StateRow}
    (hrow : row ∉ K) : (m.onRows s).2 row = s row := by
  induction m generalizing s with
  | pure a => rfl
  | throw x => rfl
  | abort => rfl
  | getRow row k ih => exact ih _ (h.2 _) s
  | setRow row' entry k ih =>
    have hne : row ≠ row' := fun heq => hrow (heq ▸ h.1)
    exact (ih h.2 _).trans (Function.update_of_ne hne _ _)
  | externalCall callee => exact callee.elim

theorem Within.congr {m : Script Empty α} (h : m.Within K) {s s' : Rows} (hs : AgreeOn K s s') :
    (m.onRows s).1 = (m.onRows s').1 ∧ AgreeOn K (m.onRows s).2 (m.onRows s').2 := by
  induction m generalizing s s' with
  | pure a => exact ⟨rfl, hs⟩
  | throw x => exact ⟨rfl, hs⟩
  | abort => exact ⟨rfl, hs⟩
  | getRow row k ih =>
    have hrow := hs row h.1
    simp only [onRows, hrow]
    exact ih _ (h.2 _) hs
  | setRow row entry k ih =>
    refine ih h.2 fun row' hrow' => ?_
    by_cases heq : row' = row
    · rw [heq, Function.update_self, Function.update_self]
    · rw [Function.update_of_ne heq, Function.update_of_ne heq, hs row' hrow']
  | externalCall callee => exact callee.elim

end Script

/-- The outcome of a precompiled contract and the rows that it leaves. -/
def settled {α : Type} (m : Script Empty α) (s : Rows) : Option (Except Exc α) × Rows :=
  ((m.onRows s).1, keptRows m s)

def isThrown {α : Type} : Option (Except Exc α) → Bool
  | some (.error _) => true
  | _ => false

variable {α β : Type}

theorem keptRows_eq (m : Script Empty α) (s : Rows) :
    keptRows m s = if isThrown (m.onRows s).1 then s else (m.onRows s).2 := by
  unfold keptRows
  rcases m.onRows s with ⟨out, s'⟩
  match out with
  | none => rfl
  | some (.ok a) => rfl
  | some (.error x) => rfl

theorem keptRows_invariant {p : Rows → Prop} {m : Script Empty α} {s : Rows} (hs : p s)
    (h : ∀ out s', m.onRows s = (out, s') → isThrown out = false → p s') :
    p (keptRows m s) := by
  rw [keptRows_eq]
  split
  next => exact hs
  next hout => exact h _ _ rfl (Bool.eq_false_iff.mpr hout)

theorem settled_bind_pure (m : Script Empty α) (f : α → β) (s : Rows) :
    settled (m >>= fun a => pure (f a)) s =
      ((settled m s).1.map (Except.map f), (settled m s).2) := by
  unfold settled
  simp only [keptRows_eq, Script.onRows_bind]
  rcases m.onRows s with ⟨out, s'⟩
  match out with
  | none => rfl
  | some (.ok a) => rfl
  | some (.error x) => rfl

/-- The rows that follow a message to a precompiled contract, by the program that it runs. -/
theorem precompiled_message {st : StateStorage} (h : st.Lawful) (env : Environment)
    {p : CallParameters} (hp : env.isPrecompiled p.codeAddress = true) (hc : p.create = false)
    (vm : Script Empty Result) (program : Script Empty α) (answer : α → PrecompiledExecResult)
    (s : st.State) :
    st.getRow (executeMessage st env
      { precompiled := program >>= fun a => pure (answer a), vm } p s).storage =
        keptRows program (st.getRow s) := by
  rw [(executeMessage_precompiled h env _ s hp hc).2]
  exact congrArg Prod.snd (settled_bind_pure program answer (st.getRow s))

namespace DagTransfer

def tableRow : StateRow := ⟨sysTables, ascii dagTableName⟩

/-- The rows after the table was looked for. -/
def withTable (s : Rows) : Rows :=
  Function.update s tableRow ((s tableRow).or (some (ascii "balance")))

theorem openTable_onRows (s : Rows) :
    (openTable : Script Empty Unit).onRows s = (some (.ok ()), withTable s) :=
  Script.foundTable_onRows dagTableName "balance" s

variable {K : Set StateRow}

/-- An operation that ends before the table is opened. -/
theorem local_within {m : Script Empty α} (h : m.Within K) (hK : tableRow ∉ K) :
    Local tableRow (ascii "balance") K (settled m) := by
  refine ⟨fun s row hrow _ => ?_, fun s s' hs => (h.congr hs).1, fun s s' hs row hrow => ?_,
    ⟨fun _ => false, fun _ _ _ => rfl, fun s => ?_⟩⟩
  · unfold settled
    dsimp only
    rw [keptRows_eq]
    split
    · rfl
    · exact h.frame s hrow
  · unfold settled
    dsimp only
    rw [keptRows_eq, keptRows_eq, (h.congr hs).1]
    split
    · exact hs row hrow
    · exact (h.congr hs).2 row hrow
  · unfold settled
    dsimp only
    rw [keptRows_eq, if_neg Bool.false_ne_true]
    split
    · rfl
    · exact h.frame s hK

/-- An operation that opens the table and then works on rows of the set. -/
theorem local_openTable {m : Script Empty α} (h : m.Within K) (hK : tableRow ∉ K) :
    Local tableRow (ascii "balance") K (settled (openTable >>= fun _ => m)) := by
  have hrun (s : Rows) : (openTable >>= fun _ => m).onRows s = m.onRows (withTable s) :=
    Script.onRows_bind_of_ok (openTable_onRows s) _
  have hne {row : StateRow} (hrow : row ∈ K) : row ≠ tableRow := fun heq => hK (heq ▸ hrow)
  have hagree (s : Rows) : AgreeOn K (withTable s) s := fun row hrow =>
    Function.update_of_ne (hne hrow) _ _
  have hwith {s s' : Rows} (hs : AgreeOn K s s') : AgreeOn K (withTable s) (withTable s') := by
    intro row hrow
    rw [hagree s row hrow, hagree s' row hrow, hs row hrow]
  refine ⟨fun s row hrow hshared => ?_, fun s s' hs => ?_, fun s s' hs row hrow => ?_,
    ⟨fun s => !isThrown (m.onRows (withTable s)).1, fun s s' hs => ?_, fun s => ?_⟩⟩
  · unfold settled
    dsimp only
    rw [keptRows_eq, hrun]
    split
    · rfl
    · rw [h.frame _ hrow]
      exact Function.update_of_ne hshared _ _
  · unfold settled
    dsimp only
    rw [hrun, hrun]
    exact (h.congr (hwith hs)).1
  · unfold settled
    dsimp only
    rw [keptRows_eq, keptRows_eq, hrun, hrun, (h.congr (hwith hs)).1]
    split
    · exact hs row hrow
    · exact (h.congr (hwith hs)).2 row hrow
  · dsimp only
    rw [(h.congr (hwith hs)).1]
  · unfold settled
    dsimp only
    rw [keptRows_eq, hrun]
    by_cases hthrown : isThrown (m.onRows (withTable s)).1 = true
    · simp only [hthrown, if_true, Bool.not_true, Bool.false_eq_true, if_false]
    · rw [Bool.not_eq_true] at hthrown
      simp only [hthrown, Bool.false_eq_true, if_false, Bool.not_false, if_true]
      rw [h.frame _ hK]
      exact Function.update_self _ _ _

/-- The rows of the balances of these users. -/
def userRows (users : List String) : Set StateRow :=
  {row | ∃ user ∈ users, row = ⟨dagTableName, ascii user⟩}

variable {users : List String} {user : String}

theorem mem_userRows (h : user ∈ users) :
    (⟨dagTableName, ascii user⟩ : StateRow) ∈ userRows users :=
  ⟨user, h, rfl⟩

theorem tableRow_notMem_userRows : tableRow ∉ userRows users := by
  rintro ⟨user, _, heq⟩
  have htable : sysTables = dagTableName := congrArg StateRow.table heq
  exact absurd htable (by decide)

theorem within_getBalance (h : user ∈ users) :
    (getBalance user : Script Empty _).Within (userRows users) :=
  ⟨mem_userRows h, fun _ => trivial⟩

theorem within_setBalance (c : Codec) (h : user ∈ users) (balance : U256) :
    (setBalance c user balance : Script Empty _).Within (userRows users) :=
  ⟨mem_userRows h, trivial⟩

theorem within_ofOption {K : Set StateRow} (x : Option α) :
    (ofOption x : Script Empty α).Within K := by
  cases x <;> trivial

theorem within_pure {K : Set StateRow} (a : α) : (pure a : Script Empty α).Within K :=
  trivial

theorem within_balanceOrAdd (c : Codec) (h : user ∈ users) :
    (balanceOrAdd c user : Script Empty _).Within (userRows users) := by
  refine Script.within_bind (within_getBalance h) fun entry => ?_
  cases entry with
  | none => exact Script.within_bind (within_setBalance c h 0) fun _ => within_pure _
  | some entry => exact within_ofOption _

section

variable (c : Codec) (isWasm : Bool) {data : Bytes} {fromUser toUser : String} {amount : U256}

theorem local_userAddCall (h : c.decodeUserAmount isWasm data = .ok (user, amount))
    (huser : user.isEmpty = false) :
    Local tableRow (ascii "balance") (userRows [user]) (settled (userAddCall c isWasm data)) := by
  have hmem : user ∈ [user] := List.mem_singleton.mpr rfl
  unfold userAddCall
  rw [h]
  show Local _ _ _ (settled (if user.isEmpty then _ else _))
  rw [huser, if_neg Bool.false_ne_true]
  refine local_openTable (Script.within_bind (within_getBalance hmem) fun entry => ?_)
    tableRow_notMem_userRows
  cases entry with
  | some entry => exact within_pure _
  | none => exact Script.within_bind (within_setBalance c hmem _) fun _ => within_pure _

theorem local_userSaveCall (h : c.decodeUserAmount isWasm data = .ok (user, amount))
    (huser : user.isEmpty = false) :
    Local tableRow (ascii "balance") (userRows [user]) (settled (userSaveCall c isWasm data)) := by
  have hmem : user ∈ [user] := List.mem_singleton.mpr rfl
  unfold userSaveCall
  rw [h]
  show Local _ _ _ (settled (if user.isEmpty then _ else if amount = 0 then _ else _))
  rw [huser, if_neg Bool.false_ne_true]
  split
  · exact local_within (within_pure _) tableRow_notMem_userRows
  · refine local_openTable (Script.within_bind (within_getBalance hmem) fun entry => ?_)
      tableRow_notMem_userRows
    cases entry with
    | none => exact Script.within_bind (within_setBalance c hmem _) fun _ => within_pure _
    | some entry =>
      refine Script.within_bind (within_ofOption _) fun balance => ?_
      dsimp only
      split
      · exact within_pure _
      · exact Script.within_bind (within_setBalance c hmem _) fun _ => within_pure _

theorem local_userDrawCall (h : c.decodeUserAmount isWasm data = .ok (user, amount))
    (huser : user.isEmpty = false) :
    Local tableRow (ascii "balance") (userRows [user]) (settled (userDrawCall c isWasm data)) := by
  have hmem : user ∈ [user] := List.mem_singleton.mpr rfl
  unfold userDrawCall
  rw [h]
  show Local _ _ _ (settled (if user.isEmpty then _ else if amount = 0 then _ else _))
  rw [huser, if_neg Bool.false_ne_true]
  split
  · exact local_within (within_pure _) tableRow_notMem_userRows
  · refine local_openTable (Script.within_bind (within_getBalance hmem) fun entry => ?_)
      tableRow_notMem_userRows
    cases entry with
    | none => exact within_pure _
    | some entry =>
      refine Script.within_bind (within_ofOption _) fun balance => ?_
      split
      · exact within_pure _
      · exact Script.within_bind (within_setBalance c hmem _) fun _ => within_pure _

theorem local_userTransferCall (h : c.decodeTransfer isWasm data = .ok (fromUser, toUser, amount))
    (husers : (fromUser.isEmpty || toUser.isEmpty) = false) :
    Local tableRow (ascii "balance") (userRows [fromUser, toUser])
      (settled (userTransferCall c isWasm data)) := by
  have hfrom : fromUser ∈ [fromUser, toUser] := List.mem_cons_self
  have hto : toUser ∈ [fromUser, toUser] := List.mem_cons_of_mem _ (List.mem_singleton.mpr rfl)
  unfold userTransferCall
  rw [h]
  show Local _ _ _ (settled (if fromUser.isEmpty || toUser.isEmpty then _
    else if amount = 0 then _ else if fromUser = toUser then _ else _))
  rw [husers, if_neg Bool.false_ne_true]
  split
  · exact local_within (within_pure _) tableRow_notMem_userRows
  split
  · exact local_within (within_pure _) tableRow_notMem_userRows
  refine local_openTable (Script.within_bind (within_getBalance hfrom) fun entry => ?_)
    tableRow_notMem_userRows
  cases entry with
  | none => exact within_pure _
  | some entry =>
    refine Script.within_bind (within_ofOption _) fun fromUserBalance => ?_
    split
    · exact within_pure _
    · refine Script.within_bind (within_balanceOrAdd c hto) fun toUserBalance => ?_
      split
      · exact within_pure _
      · refine Script.within_bind (within_setBalance c hfrom _) fun _ => ?_
        exact Script.within_bind (within_setBalance c hto _) fun _ => within_pure _

variable (r : CriticalsReader) {param : Bytes} {tags : List String}

theorem tagOf_user {func : UInt32} (h : tagOf (c.reader r) isWasm data func = .ok tags)
    (hne : tags ≠ []) (hfunc : takesUser (c.reader r) func) :
    ∃ user amount, c.decodeUserAmount isWasm data = .ok (user, amount) ∧
      user.isEmpty = false ∧ tags = [user] := by
  unfold tagOf at h
  rw [if_pos hfunc] at h
  change (orThrow ((c.decodeUserAmount isWasm data).map _) >>= _) = _ at h
  cases hdec : c.decodeUserAmount isWasm data with
  | error e =>
    rw [hdec] at h
    cases h
  | ok x =>
    obtain ⟨user, amount⟩ := x
    rw [hdec] at h
    have htags : (if user.isEmpty then [] else [user]) = tags := Except.ok.inj h
    cases huser : user.isEmpty with
    | true =>
      rw [huser, if_pos rfl] at htags
      exact absurd htags.symm hne
    | false =>
      rw [huser, if_neg Bool.false_ne_true] at htags
      exact ⟨user, amount, rfl, huser, htags.symm⟩

theorem tagOf_users {func : UInt32} (h : tagOf (c.reader r) isWasm data func = .ok tags)
    (hne : tags ≠ []) (hfunc : ¬ takesUser (c.reader r) func) :
    func = c.getFuncSelector METHOD_TRS_STR2_UINT ∧ ∃ fromUser toUser amount,
      c.decodeTransfer isWasm data = .ok (fromUser, toUser, amount) ∧
        (fromUser.isEmpty || toUser.isEmpty) = false ∧ tags = [fromUser, toUser] := by
  unfold tagOf at h
  rw [if_neg hfunc] at h
  by_cases htransfer : func = (c.reader r).getFuncSelector METHOD_TRS_STR2_UINT
  · rw [if_pos htransfer] at h
    change (orThrow ((c.decodeTransfer isWasm data).map _) >>= _) = _ at h
    refine ⟨htransfer, ?_⟩
    cases hdec : c.decodeTransfer isWasm data with
    | error e =>
      rw [hdec] at h
      cases h
    | ok x =>
      obtain ⟨fromUser, toUser, amount⟩ := x
      rw [hdec] at h
      have htags : (if fromUser.isEmpty || toUser.isEmpty then [] else [fromUser, toUser]) = tags :=
        Except.ok.inj h
      cases husers : fromUser.isEmpty || toUser.isEmpty with
      | true =>
        rw [husers, if_pos rfl] at htags
        exact absurd htags.symm hne
      | false =>
        rw [husers, if_neg Bool.false_ne_true] at htags
        exact ⟨fromUser, toUser, amount, rfl, husers, htags.symm⟩
  · rw [if_neg htransfer] at h
    exact absurd (Except.ok.inj h).symm hne

/-- The function of a call with tags works on the rows of its tags. -/
theorem local_dispatch {func : UInt32} (hfunc : tagOf (c.reader r) isWasm data func = .ok tags)
    (hne : tags ≠ []) :
    Local tableRow (ascii "balance") (userRows tags) (settled (dispatch c isWasm func data)) ∧
      ∀ tag ∈ tags, IsCppString tag := by
  unfold dispatch
  by_cases htakes : takesUser (c.reader r) func
  · obtain ⟨user, amount, hdec, huser, htags⟩ := tagOf_user c isWasm r hfunc hne htakes
    subst htags
    refine ⟨?_, fun tag htag => ?_⟩
    · by_cases hadd : func = c.getFuncSelector METHOD_ADD_STR_UINT
      · rw [if_pos hadd]
        exact local_userAddCall c isWasm hdec huser
      by_cases hsave : func = c.getFuncSelector METHOD_SAV_STR_UINT
      · rw [if_neg hadd, if_pos hsave]
        exact local_userSaveCall c isWasm hdec huser
      have hdraw : func = c.getFuncSelector METHOD_DRAW_STR_UINT :=
        (htakes.resolve_left hadd).resolve_left hsave
      rw [if_neg hadd, if_neg hsave, if_pos hdraw]
      exact local_userDrawCall c isWasm hdec huser
    · rw [List.mem_singleton.mp htag]
      exact c.userAmount_cppString _ _ _ _ hdec
  · obtain ⟨htransfer, fromUser, toUser, amount, hdec, husers, htags⟩ :=
      tagOf_users c isWasm r hfunc hne htakes
    subst htags
    have hadd : func ≠ c.getFuncSelector METHOD_ADD_STR_UINT := fun h => htakes (.inl h)
    have hsave : func ≠ c.getFuncSelector METHOD_SAV_STR_UINT := fun h => htakes (.inr (.inl h))
    have hdraw : func ≠ c.getFuncSelector METHOD_DRAW_STR_UINT := fun h => htakes (.inr (.inr h))
    obtain ⟨hfrom, hto⟩ := c.transfer_cppString _ _ _ _ _ hdec
    rw [if_neg hadd, if_neg hsave, if_neg hdraw, if_pos htransfer]
    refine ⟨local_userTransferCall c isWasm hdec husers, fun tag htag => ?_⟩
    rcases List.mem_cons.mp htag with heq | htag
    · rwa [heq]
    · rwa [List.mem_singleton.mp htag]

/-- A call with tags works on the rows of its tags. -/
theorem local_call (hcall : getParallelTag (c.reader r) param isWasm = .ok tags)
    (hne : tags ≠ []) :
    Local tableRow (ascii "balance") (userRows tags) (settled (call c isWasm param)) ∧
      ∀ tag ∈ tags, IsCppString tag := by
  unfold getParallelTag at hcall
  unfold call
  cases hfunc : getParamFunc param with
  | error fault =>
    rw [hfunc] at hcall
    cases hcall
  | ok func =>
    rw [hfunc] at hcall
    obtain ⟨hlocal, htags⟩ := local_dispatch c isWasm r hcall hne
    refine ⟨?_, htags⟩
    have hpriced := hlocal.map (Option.map (Except.map (priced)))
    convert hpriced using 2 with s
    exact settled_bind_pure _ priced s

end

theorem notMem_userRows {tags tags' : List String} (htags : ∀ tag ∈ tags, IsCppString tag)
    (htags' : ∀ tag ∈ tags', IsCppString tag) (hdisjoint : ∀ tag ∈ tags, tag ∉ tags') :
    ∀ row ∈ userRows tags, row ∉ userRows tags' := by
  rintro row ⟨user, huser, hrow⟩ ⟨user', huser', hrow'⟩
  have hkey : ascii user = ascii user' := congrArg StateRow.key (hrow.symm.trans hrow')
  have heq := AbiCaching.ascii_injective (htags user huser) (htags' user' huser') hkey
  exact hdisjoint user huser (heq ▸ huser')

/-- A message to the contract over the rows of the storage. -/
def onMessage (st : StateStorage) (env : Environment) (c : Codec) (p : CallParameters)
    (s : st.State) : Delivery st :=
  executeMessage st env { precompiled := call c env.isWasm p.data, vm := .abort } p s

variable {st : StateStorage}

theorem onMessage_settled (h : st.Lawful) {env : Environment} (c : Codec) {p : CallParameters}
    (hp : env.isPrecompiled p.codeAddress = true) (hc : p.create = false) (s : st.State) :
    (onMessage st env c p s).response =
        (settled (call c env.isWasm p.data) (st.getRow s)).1.map
          (fun r => (TransactionExecutive.precompiledEnding env p r).message) ∧
      st.getRow (onMessage st env c p s).storage =
        (settled (call c env.isWasm p.data) (st.getRow s)).2 :=
  executeMessage_precompiled h env _ s hp hc

/-- Calls whose tags are there and have no element in common give the same outputs and leave the
same rows in either order. -/
theorem onMessage_comm (h : st.Lawful) {env : Environment} (c : Codec) (r : CriticalsReader)
    {p q : CallParameters} {tags tags' : List String}
    (hp : env.isPrecompiled p.codeAddress = true) (hq : env.isPrecompiled q.codeAddress = true)
    (hcp : p.create = false) (hcq : q.create = false)
    (htags : getParallelTag (c.reader r) p.data env.isWasm = .ok tags)
    (htags' : getParallelTag (c.reader r) q.data env.isWasm = .ok tags')
    (hne : tags ≠ []) (hne' : tags' ≠ []) (hdisjoint : ∀ tag ∈ tags, tag ∉ tags')
    (s : st.State) :
    (onMessage st env c p (onMessage st env c q s).storage).response =
        (onMessage st env c p s).response ∧
      (onMessage st env c q (onMessage st env c p s).storage).response =
        (onMessage st env c q s).response ∧
      st.getRow (onMessage st env c p (onMessage st env c q s).storage).storage =
        st.getRow (onMessage st env c q (onMessage st env c p s).storage).storage := by
  obtain ⟨hlocal, hnames⟩ := local_call c env.isWasm r htags hne
  obtain ⟨hlocal', hnames'⟩ := local_call c env.isWasm r htags' hne'
  obtain ⟨hfirst, hsecond, hrows⟩ := hlocal.comm hlocal'
    (notMem_userRows hnames hnames' hdisjoint) tableRow_notMem_userRows tableRow_notMem_userRows
    (st.getRow s)
  have hsettled (s : st.State) := onMessage_settled h c hp hcp s
  have hsettled' (s : st.State) := onMessage_settled h c hq hcq s
  refine ⟨?_, ?_, ?_⟩
  · rw [(hsettled _).1, (hsettled _).1, (hsettled' s).2, hfirst]
  · rw [(hsettled' _).1, (hsettled' _).1, (hsettled s).2, hsecond]
  · rw [(hsettled _).2, (hsettled' s).2, (hsettled' _).2, (hsettled s).2, hrows]

/-- The word at the offset. -/
def wordAt (data : Bytes) (offset : Nat) : Nat :=
  ((data.drop offset).take 32).foldl (fun n b => n * 256 + b.toNat) 0

def toWord (n : Nat) : Bytes :=
  (List.range 32).map fun i => (n / 256 ^ (31 - i)).toUInt8

def stringAt (data : Bytes) (offset : Nat) : Except Exc String :=
  let start := wordAt data offset
  let size := wordAt data start
  if start + 32 + size ≤ data.length then .ok (bytesToString ((data.drop (start + 32)).take size))
  else .error (.stdException "decode")

theorem bytesToString_cppString (bytes : Bytes) : IsCppString (bytesToString bytes) := by
  intro char hchar
  unfold bytesToString at hchar
  rw [String.toList_ofList, List.mem_map] at hchar
  obtain ⟨b, _, rfl⟩ := hchar
  have hlt : b.toNat < 256 := b.toNat_lt
  have hvalid : b.toNat.isValidChar := .inl (by omega)
  unfold Char.ofNat
  rw [dif_pos hvalid]
  exact hlt

theorem stringAt_cppString {data : Bytes} {offset : Nat} {user : String}
    (h : stringAt data offset = .ok user) : IsCppString user := by
  unfold stringAt at h
  dsimp only at h
  split at h
  · cases h
    exact bytesToString_cppString _
  · cases h

/-- The codec of Solidity. -/
def abiCodec : Codec where
  getFuncSelector s :=
    if s = METHOD_ADD_STR_UINT then 0x3fe8e3f5
    else if s = METHOD_SAV_STR_UINT then 0xe555f3d9
    else if s = METHOD_DRAW_STR_UINT then 0xff2b0127
    else if s = METHOD_TRS_STR2_UINT then 0x0b37617b
    else 0x1536aedd
  decodeUserAmount _ data := do
    let user ← stringAt data 0
    return (user, BitVec.ofNat 256 (wordAt data 32))
  decodeTransfer _ data := do
    let fromUser ← stringAt data 0
    let toUser ← stringAt data 32
    return (fromUser, toUser, BitVec.ofNat 256 (wordAt data 64))
  decodeUser _ data := stringAt data 0
  encode _ code := toWord (BitVec.ofInt 256 code).toNat
  encodeBalance _ code balance := toWord (BitVec.ofInt 256 code).toNat ++ toWord balance.toNat
  str balance := ascii (toString balance.toNat)
  toU256 bytes := (bytesToString bytes).toNat?.map (BitVec.ofNat 256)
  userAmount_cppString w data user amount h := by
    cases huser : stringAt data 0 with
    | error e =>
      rw [huser] at h
      cases h
    | ok user =>
      rw [huser] at h
      cases h
      exact stringAt_cppString huser
  transfer_cppString w data fromUser toUser amount h := by
    cases hfrom : stringAt data 0 with
    | error e =>
      rw [hfrom] at h
      cases h
    | ok fromUser =>
      cases hto : stringAt data 32 with
      | error e =>
        rw [hfrom, hto] at h
        cases h
      | ok toUser =>
        rw [hfrom, hto] at h
        cases h
        exact ⟨stringAt_cppString hfrom, stringAt_cppString hto⟩

/-- One is added to the balance of the user, who has a name of one byte. -/
def saveOne (name : UInt8) : CallParameters where
  codeAddress := "100c"
  gas := 1000
  data := [0xe5, 0x55, 0xf3, 0xd9] ++ toWord 64 ++ toWord 1 ++ toWord 1 ++
    (name :: List.replicate 31 0)
  type := .message

def dagEnvironment : Environment :=
  { evmEnvironment with isPrecompiled := fun address => address == "100c" }

def solidityReader : CriticalsReader where
  isWasm := false
  getPrecompiled address := if address = "100c" then some .dagTransfer else none
  getFuncSelector := abiCodec.getFuncSelector
  getRow _ := .ok none
  getObject _ := .error (.stdException "deserialize")
  decodeUser _ data := stringAt data 0
  decodeUsers _ _ := .error (.stdException "decode")
  parser _ := .ok none
  abiOutByFuncSelector _ _ := .ok none

set_option maxRecDepth 4000 in
theorem saveOne_tags (r : CriticalsReader) :
    getParallelTag (abiCodec.reader r) (saveOne 97).data false = .ok ["a"] ∧
      getParallelTag (abiCodec.reader r) (saveOne 98).data false = .ok ["b"] :=
  ⟨rfl, rfl⟩

def savedOne (name : UInt8) (s : Rows) : Delivery undoLogStorage :=
  onMessage undoLogStorage dagEnvironment abiCodec (saveOne name) s

theorem onMessage_comm_saveOne :
    (savedOne 97 (savedOne 98 fun _ => none).storage).response =
        (savedOne 97 fun _ => none).response ∧
      (savedOne 98 (savedOne 97 fun _ => none).storage).response =
        (savedOne 98 fun _ => none).response ∧
      undoLogStorage.getRow (savedOne 97 (savedOne 98 fun _ => none).storage).storage =
        undoLogStorage.getRow (savedOne 98 (savedOne 97 fun _ => none).storage).storage := by
  obtain ⟨htags, htags'⟩ := saveOne_tags solidityReader
  have hdisjoint : ∀ tag ∈ ["a"], tag ∉ ["b"] := by decide
  have hprecompiled : dagEnvironment.isPrecompiled (saveOne 97).codeAddress = true := rfl
  have h := onMessage_comm undoLogStorage_lawful abiCodec solidityReader (p := saveOne 97)
    (q := saveOne 98) hprecompiled rfl rfl rfl htags htags'
    (List.cons_ne_nil _ _) (List.cons_ne_nil _ _) hdisjoint
  unfold savedOne
  exact h fun _ => none

end DagTransfer

end BcosExecutor
