import BcosExecutor.ContractAuth
import BcosExecutor.Runs

namespace BcosExecutor

open ContractAuth
open Runs (Always)

/-- A successful opening or closing, with the type in force when it was executed. -/
structure DeployRecord where
  account : Address
  type : Nat
  isOpen : Bool
  deriving DecidableEq, Repr

/-- The storages of the current block, and the successful operations, the latest first. -/
structure DeployChain where
  last : Option Rows
  rows : Rows
  history : List DeployRecord

inductive DeployAction
  | setDeployType (data : Bytes) (sender : String)
  | setDeployAuth (data : Bytes) (isClose : Bool) (sender : String)
  | nextBlock (keepsLast : Bool)

/-- The list that the type leads to. -/
def DeployRecord.list (r : DeployRecord) : Int :=
  if (r.type : Int) = BLACK_LIST_MODE then BLACK_LIST_MODE else WHITE_LIST_MODE

/-- The flag that the operation has stored. -/
def DeployRecord.flag (r : DeployRecord) : Bool :=
  accessOf (!r.isOpen) r.type

def deployRow (list : Int) : Bytes :=
  if list = BLACK_LIST_MODE then FS_ACL_BLACK else FS_ACL_WHITE

namespace DeployChain

variable (c : AuthCodec)

def init (rows : Rows) (keepsLast : Bool) : DeployChain :=
  ⟨if keepsLast then some rows else none, rows, []⟩

/-- The type of the block before. -/
def typeInForce (last : Option Rows) (rows : Rows) : Nat :=
  match ((getDeployAuthType c last : Script Empty Nat).onRows rows).1 with
  | some (.ok type) => type
  | _ => 0

def step (s : DeployChain) : DeployAction → DeployChain
  | .setDeployType data sender =>
    { s with rows := keptRows (ContractAuth.setDeployType c data sender) s.rows }
  | .setDeployAuth data isClose sender =>
    let program : Script Empty Int := ContractAuth.setDeployAuth c s.last data isClose sender
    { s with
      rows := keptRows program s.rows
      history :=
        if succeeded (program.onRows s.rows).1 then
          ((c.decodeDeployAccount data).map fun account =>
            ⟨account, typeInForce c s.last s.rows, !isClose⟩).toList ++ s.history
        else s.history }
  | .nextBlock keepsLast => { s with last := if keepsLast then some s.rows else none }

/-- The last entry of the account in a list. -/
def lastIn (history : List DeployRecord) (list : Int) (account : Address) : Option DeployRecord :=
  history.find? fun r => r.account = account ∧ r.list = list

/-- The last operation on the account. -/
def lastOn (history : List DeployRecord) (account : Address) : Option DeployRecord :=
  history.find? fun r => r.account = account

/-- The flag under the account in the row of a list. -/
def flagIn (rows : Rows) (list : Int) (account : Address) : Option Bool :=
  (rows ⟨"/apps", deployRow list⟩).bind fun field =>
    (readMap c.acl field).bind fun aclMap => aclMap.lookup account

def Denied (rows : Rows) (account : Address) : Prop :=
  flagIn c rows WHITE_LIST_MODE account = some false ∨
    flagIn c rows BLACK_LIST_MODE account = some true

/-- What the last operation recorded in the list of the type says. -/
def allowed (history : List DeployRecord) (type : Nat) (account : Address) : Bool :=
  type = 0 ||
    match lastIn history type account with
    | some r => r.isOpen
    | none => (type : Int) = BLACK_LIST_MODE

/-- The checks of the block that follows, and the entries of the accounts that were opened last. -/
structure Right (s : DeployChain) : Prop where
  check : ∀ (keepsLast : Bool) (account : Address),
    ((checkDeployAuth c (if keepsLast then some s.rows else none) account :
      Script Empty Bool).onRows s.rows).1 =
        some (.ok (allowed s.history (typeInForce c none s.rows) account))
  opened : ∀ account r, lastOn s.history account = some r → r.isOpen = true →
    ¬ Denied c s.rows account

/-- No entry in force was opened while the type was neither list, and no account that was opened
last has such an entry or one of a closing. -/
structure Sided (s : DeployChain) : Prop where
  check : (typeInForce c none s.rows : Int) = WHITE_LIST_MODE → ∀ account r,
    lastIn s.history WHITE_LIST_MODE account = some r → r.isOpen = true → r.type ≠ 0
  opened : ∀ account r, lastOn s.history account = some r → r.isOpen = true →
    (∀ w, lastIn s.history WHITE_LIST_MODE account = some w → w.isOpen = true ∧ w.type ≠ 0) ∧
      ∀ b, lastIn s.history BLACK_LIST_MODE account = some b → b.isOpen = true

variable {c}

/-- The deploy type that the rows hold. -/
structure TypeIs (rows : Rows) (type : Nat) : Prop where
  table : (rows ⟨sysTables, ascii "/apps"⟩).isSome = true
  field : rows ⟨"/apps", FS_ACL_TYPE⟩ = some (ascii (toString type))
  le : type ≤ 2

theorem getDeployAuthType_onRows {last : Option Rows} {rows : Rows} {type : Nat}
    (h : TypeIs (last.getD rows) type) :
    (getDeployAuthType c last : Script Empty Nat).onRows rows = (some (.ok type), rows) := by
  unfold getDeployAuthType
  rw [Script.onRows_bind, viewTable_onRows]
  dsimp only
  rw [h.table]
  simp only [Bool.not_true, Bool.false_eq_true, if_false]
  rw [Script.onRows_bind, viewRow_onRows, h.field]
  dsimp only [present]
  rw [c.lexicalCast_toString type h.le]
  rfl

theorem typeInForce_eq {last : Option Rows} {rows : Rows} {type : Nat}
    (h : TypeIs (last.getD rows) type) : typeInForce c last rows = type := by
  unfold typeInForce
  rw [getDeployAuthType_onRows h]

/-- What an opening or a closing does, given what it reads. -/
theorem setDeployAuth_onRows {last : Option Rows} {rows : Rows} {type : Nat}
    {field : Bytes} {m : StdMap Address Bool} (data : Bytes) (isClose : Bool) (sender : String)
    (htable : (rows ⟨sysTables, ascii "/apps"⟩).isSome = true)
    (ht : TypeIs (last.getD rows) type)
    (hrow : rows ⟨"/apps", deployRow type⟩ = some field) (hm : readMap c.acl field = some m) :
    (∃ account, c.decodeDeployAccount data = some account ∧
      (setDeployAuth c last data isClose sender : Script Empty Int).onRows rows =
        (some (.ok CODE_SUCCESS), Function.update rows ⟨"/apps", deployRow type⟩
          (some (c.acl.encode (m.insert account (accessOf isClose type)))))) ∨
      succeeded ((setDeployAuth c last data isClose sender : Script Empty Int).onRows rows).1 =
          false ∧
        keptRows (setDeployAuth c last data isClose sender) rows = rows := by
  unfold setDeployAuth
  cases hd : c.decodeDeployAccount data with
  | none => exact .inr ⟨rfl, rfl⟩
  | some account =>
    dsimp only
    split
    next => exact .inr ⟨rfl, rfl⟩
    next =>
      refine .inl ⟨account, rfl, ?_⟩
      have hrow' : (if (type : Int) = BLACK_LIST_MODE then FS_ACL_BLACK else FS_ACL_WHITE) =
          deployRow type := rfl
      rw [Script.onRows_bind, Script.onRows_openTable]
      dsimp only
      rw [Script.onRows_bind, getDeployAuthType_onRows ht]
      dsimp only
      rw [htable, hrow']
      simp only [Bool.not_true, Bool.false_eq_true, if_false]
      rw [Script.onRows_bind, Script.onRows_get, hrow]
      dsimp only [present]
      rcases readMap_eq hm with ⟨rfl, rfl⟩ | ⟨hne, hdecode⟩
      · rfl
      · rw [hne, hdecode]
        rfl

theorem setDeployType_onRows {rows : Rows} (data : Bytes) (sender : String)
    (htable : (rows ⟨sysTables, ascii "/apps"⟩).isSome = true) :
    keptRows (setDeployType c data sender) rows = rows ∨
      ∃ type ≤ 2, keptRows (setDeployType c data sender) rows =
        Function.update rows ⟨"/apps", FS_ACL_TYPE⟩ (some (ascii (toString type))) := by
  unfold setDeployType
  cases hd : c.decodeDeployType data with
  | none => exact .inl rfl
  | some type =>
    dsimp only
    split
    next => exact .inl rfl
    next =>
      split
      next => exact .inl rfl
      next hle =>
        refine .inr ⟨typeOf type, by omega, ?_⟩
        unfold keptRows
        rw [Script.onRows_bind, Script.onRows_openTable]
        dsimp only
        rw [htable]
        rfl

/-- The row of the list has the flags of the last entries. -/
def ListHolds (c : AuthCodec) (rows : Rows) (history : List DeployRecord) (list : Int) : Prop :=
  ∃ field m, rows ⟨"/apps", deployRow list⟩ = some field ∧ readMap c.acl field = some m ∧
    ∀ account, m.lookup account = (lastIn history list account).map DeployRecord.flag

structure Inv (c : AuthCodec) (s : DeployChain) : Prop where
  type : ∃ type, TypeIs s.rows type
  view : ∃ type, TypeIs (s.last.getD s.rows) type
  lists : ∀ list, list = WHITE_LIST_MODE ∨ list = BLACK_LIST_MODE →
    ListHolds c s.rows s.history list
  types : ∀ r ∈ s.history, r.type ≤ 2

/-- The rows of `/apps` as the chain starts with them. -/
structure Fresh (rows : Rows) : Prop where
  type : ∃ type, TypeIs rows type
  white : rows ⟨"/apps", FS_ACL_WHITE⟩ = some []
  black : rows ⟨"/apps", FS_ACL_BLACK⟩ = some []

theorem inv_init {rows : Rows} (h : Fresh rows) (keepsLast : Bool) :
    Inv c (init rows keepsLast) := by
  refine ⟨h.type, ?_, fun list hlist => ?_, nofun⟩
  · cases keepsLast <;> exact h.type
  · refine ⟨[], ∅, ?_, rfl, fun account => rfl⟩
    rcases hlist with rfl | rfl
    · exact h.white
    · exact h.black

theorem list_cases (r : DeployRecord) : r.list = WHITE_LIST_MODE ∨ r.list = BLACK_LIST_MODE := by
  unfold DeployRecord.list
  split
  · exact .inr rfl
  · exact .inl rfl

theorem deployRow_list (r : DeployRecord) : deployRow r.list = deployRow r.type := by
  unfold DeployRecord.list deployRow
  split
  · rfl
  · rw [if_neg (by decide)]

theorem deployRow_listed (type : Nat) : ∃ list,
    (list = WHITE_LIST_MODE ∨ list = BLACK_LIST_MODE) ∧ deployRow list = deployRow type := by
  by_cases h : (type : Int) = BLACK_LIST_MODE
  · exact ⟨type, .inr h, rfl⟩
  · refine ⟨WHITE_LIST_MODE, .inl rfl, ?_⟩
    unfold deployRow
    rw [if_neg h, if_neg (by decide)]

theorem deployRow_ne {list list' : Int} (h : list = WHITE_LIST_MODE ∨ list = BLACK_LIST_MODE)
    (h' : list' = WHITE_LIST_MODE ∨ list' = BLACK_LIST_MODE) (hne : list ≠ list') :
    deployRow list ≠ deployRow list' := by
  rcases h with rfl | rfl
  · rcases h' with rfl | rfl
    · exact absurd rfl hne
    · decide
  · rcases h' with rfl | rfl
    · decide
    · exact absurd rfl hne

theorem deployRow_ne_type (list : Int) : deployRow list ≠ FS_ACL_TYPE := by
  unfold deployRow
  split <;> decide

theorem typeIs_update_list {rows : Rows} {type : Nat} (h : TypeIs rows type) (list : Int)
    (entry : Option Entry) : TypeIs (Function.update rows ⟨"/apps", deployRow list⟩ entry) type := by
  refine ⟨?_, ?_, h.le⟩
  · rw [Function.update_of_ne (by simp [sysTables])]
    exact h.table
  · have hne := deployRow_ne_type list
    rw [Function.update_of_ne (by simpa using hne.symm)]
    exact h.field

theorem typeIs_update_type {rows : Rows} {type type' : Nat} (h : TypeIs rows type)
    (hle : type' ≤ 2) :
    TypeIs (Function.update rows ⟨"/apps", FS_ACL_TYPE⟩ (some (ascii (toString type')))) type' := by
  refine ⟨?_, Function.update_self _ _ _, hle⟩
  rw [Function.update_of_ne (by simp [sysTables])]
  exact h.table

theorem listHolds_update_type {rows : Rows} {history : List DeployRecord} {list : Int}
    (h : ListHolds c rows history list) (entry : Option Entry) :
    ListHolds c (Function.update rows ⟨"/apps", FS_ACL_TYPE⟩ entry) history list := by
  obtain ⟨field, m, hrow, hm, hlookup⟩ := h
  have hne := deployRow_ne_type list
  refine ⟨field, m, ?_, hm, hlookup⟩
  rw [Function.update_of_ne (by simpa using hne)]
  exact hrow

theorem lastIn_cons (r : DeployRecord) (history : List DeployRecord) (list : Int)
    (account : Address) : lastIn (r :: history) list account =
      if r.account = account ∧ r.list = list then some r else lastIn history list account := by
  unfold lastIn
  rw [List.find?_cons]
  by_cases h : r.account = account ∧ r.list = list
  · simp [h]
  · rw [if_neg h]
    simp [h]

/-- An entry is written into its own list and leaves the other one alone. -/
theorem listHolds_record {rows : Rows} {history : List DeployRecord} {list : Int}
    {r : DeployRecord} (hlist : list = WHITE_LIST_MODE ∨ list = BLACK_LIST_MODE)
    (h : ListHolds c rows history list) {field : Bytes} {m : StdMap Address Bool}
    (hrow : rows ⟨"/apps", deployRow r.type⟩ = some field) (hm : readMap c.acl field = some m) :
    ListHolds c (Function.update rows ⟨"/apps", deployRow r.type⟩
      (some (c.acl.encode (m.insert r.account r.flag)))) (r :: history) list := by
  obtain ⟨field', m', hrow', hm', hlookup⟩ := h
  by_cases heq : r.list = list
  · have hdeploy : deployRow r.type = deployRow list := by rw [← heq, deployRow_list]
    rw [hdeploy] at hrow ⊢
    have hfield := Option.some.inj (hrow.symm.trans hrow')
    subst hfield
    have hmap := Option.some.inj (hm.symm.trans hm')
    subst hmap
    refine ⟨_, _, Function.update_self _ _ _, readMap_encode _ _, fun account => ?_⟩
    rw [lastIn_cons]
    by_cases ha : r.account = account
    · subst ha
      rw [if_pos ⟨rfl, heq⟩, AList.lookup_insert]
      rfl
    · rw [if_neg fun h => ha h.1, AList.lookup_insert_ne (Ne.symm ha)]
      exact hlookup account
  · have hne := deployRow_ne hlist (list_cases r) (Ne.symm heq)
    rw [deployRow_list] at hne
    refine ⟨field', m', ?_, hm', fun account => ?_⟩
    · rw [Function.update_of_ne (by simpa using hne)]
      exact hrow'
    · rw [lastIn_cons, if_neg fun h => heq h.2]
      exact hlookup account

theorem inv_step {s : DeployChain} (h : Inv c s) (action : DeployAction) :
    Inv c (s.step c action) := by
  obtain ⟨⟨type, htype⟩, ⟨view, hview⟩, hlists, htypes⟩ := h
  cases action with
  | nextBlock keepsLast =>
    refine ⟨⟨type, htype⟩, ⟨type, ?_⟩, hlists, htypes⟩
    unfold step
    cases keepsLast <;> exact htype
  | setDeployType data sender =>
    rcases setDeployType_onRows (c := c) data sender htype.table with heq | ⟨type', hle, heq⟩
    · unfold step
      dsimp only
      rw [heq]
      exact ⟨⟨type, htype⟩, ⟨view, hview⟩, hlists, htypes⟩
    · unfold step
      dsimp only
      rw [heq]
      refine ⟨⟨type', typeIs_update_type htype hle⟩, ?_, fun list hlist =>
        listHolds_update_type (hlists list hlist) _, htypes⟩
      cases hlast : s.last with
      | none => exact ⟨type', typeIs_update_type htype hle⟩
      | some rows =>
        rw [hlast] at hview
        exact ⟨view, hview⟩
  | setDeployAuth data isClose sender =>
    obtain ⟨list, hlist, hdeploy⟩ := deployRow_listed view
    obtain ⟨field, m, hrow, hm, _⟩ := hlists list hlist
    rw [hdeploy] at hrow
    rcases setDeployAuth_onRows data isClose sender htype.table hview hrow hm with ⟨account, hd, heq⟩ | ⟨hfails, hkept⟩
    · let r : DeployRecord := ⟨account, view, !isClose⟩
      have hflag : accessOf isClose view = r.flag := by
        simp only [DeployRecord.flag, r, Bool.not_not]
      rw [hflag] at heq
      have hstep : s.step c (.setDeployAuth data isClose sender) =
          { s with
            rows := Function.update s.rows ⟨"/apps", deployRow r.type⟩
              (some (c.acl.encode (m.insert r.account r.flag)))
            history := r :: s.history } := by
        unfold step keptRows
        simp only [heq, hd, typeInForce_eq hview]
        rfl
      rw [hstep]
      refine ⟨⟨type, ?_⟩, ?_, fun list hlist => ?_, fun r' hr => ?_⟩
      · rw [← deployRow_list]
        exact typeIs_update_list htype _ _
      · cases hlast : s.last with
        | none =>
          refine ⟨type, ?_⟩
          rw [← deployRow_list]
          exact typeIs_update_list htype _ _
        | some rows =>
          rw [hlast] at hview
          exact ⟨view, hview⟩
      · exact listHolds_record hlist (hlists list hlist) hrow hm
      · rcases List.mem_cons.mp hr with rfl | hr
        · exact hview.le
        · exact htypes r' hr
    · unfold step
      dsimp only
      rw [hfails, hkept]
      exact ⟨⟨type, htype⟩, ⟨view, hview⟩, hlists, htypes⟩

/-- The answer of the check from the flag in the list of the type. -/
def answer (type : Nat) (flag : Option Bool) : Bool :=
  type = 0 ||
    match flag with
    | none => (type : Int) = BLACK_LIST_MODE
    | some access => if (type : Int) = BLACK_LIST_MODE then !access else access

theorem checkDeployAuth_onRows {last : Option Rows} {rows : Rows} {type : Nat}
    {history : List DeployRecord} (ht : TypeIs (last.getD rows) type)
    (hlists : ∀ list, list = WHITE_LIST_MODE ∨ list = BLACK_LIST_MODE →
      ListHolds c (last.getD rows) history list) (account : Address) :
    ((checkDeployAuth c last account : Script Empty Bool).onRows rows).1 =
      some (.ok (answer type ((lastIn history type account).map DeployRecord.flag))) := by
  unfold checkDeployAuth
  rw [Script.onRows_bind, viewTable_onRows]
  dsimp only
  rw [Script.onRows_bind, getDeployAuthType_onRows ht, ht.table]
  dsimp only
  by_cases hzero : type = 0
  · subst hzero
    rfl
  · rw [if_neg hzero]
    simp only [Bool.not_true, Bool.false_eq_true, if_false]
    rw [Script.onRows_bind, viewRow_onRows]
    have hside : (type : Int) = WHITE_LIST_MODE ∨ (type : Int) = BLACK_LIST_MODE := by
      have := ht.le
      unfold WHITE_LIST_MODE BLACK_LIST_MODE
      omega
    obtain ⟨field, m, hrow, hm, hlookup⟩ := hlists type hside
    have hrowName : (if (type : Int) = WHITE_LIST_MODE then FS_ACL_WHITE else FS_ACL_BLACK) =
        deployRow type := by
      unfold deployRow
      rcases hside with hwhite | hblack
      · rw [hwhite, if_pos rfl, if_neg (by decide)]
      · rw [hblack, if_pos rfl, if_neg (by decide)]
    rw [hrowName, hrow, ← hlookup account]
    dsimp only [present]
    unfold answer
    rw [decide_eq_false hzero, Bool.false_or]
    rcases readMap_eq hm with ⟨rfl, rfl⟩ | ⟨hne, hdecode⟩
    · rfl
    · rw [hne, hdecode]
      dsimp only
      cases m.lookup account with
      | none => rfl
      | some access => rfl

theorem mem_of_lastIn {history : List DeployRecord} {list : Int} {account : Address}
    {r : DeployRecord} (h : lastIn history list account = some r) : r ∈ history ∧ r.list = list := by
  have hfound := List.find?_some h
  simp only [decide_eq_true_eq] at hfound
  exact ⟨List.mem_of_find?_eq_some h, hfound.2⟩

/-- An opening is stored as a permission in the white list unless the type was neither list. -/
theorem flag_white {r : DeployRecord} (hle : r.type ≤ 2) (hlist : r.list = WHITE_LIST_MODE) :
    r.flag = true ↔ r.isOpen = true ∧ r.type ≠ 0 := by
  obtain ⟨account, type, isOpen⟩ := r
  have hne : (type : Int) ≠ BLACK_LIST_MODE := by
    intro heq
    unfold DeployRecord.list at hlist
    rw [if_pos heq] at hlist
    exact absurd hlist (by decide)
  unfold BLACK_LIST_MODE at hne
  simp only at hle
  have hone : (type : Int) = WHITE_LIST_MODE ↔ type ≠ 0 := by
    unfold WHITE_LIST_MODE
    omega
  unfold DeployRecord.flag accessOf
  cases isOpen with
  | true => simp [hone]
  | false => simp [BLACK_LIST_MODE, hne]

theorem flag_black {r : DeployRecord} (hlist : r.list = BLACK_LIST_MODE) :
    r.flag = !r.isOpen := by
  obtain ⟨account, type, isOpen⟩ := r
  have heq : (type : Int) = BLACK_LIST_MODE := by
    unfold DeployRecord.list at hlist
    by_contra hne
    rw [if_neg hne] at hlist
    exact absurd hlist (by decide)
  unfold DeployRecord.flag accessOf
  cases isOpen with
  | true => simp [heq, WHITE_LIST_MODE, BLACK_LIST_MODE]
  | false => simp [heq]

theorem flagIn_eq {rows : Rows} {history : List DeployRecord} {list : Int}
    (h : ListHolds c rows history list) (account : Address) :
    flagIn c rows list account = (lastIn history list account).map DeployRecord.flag := by
  obtain ⟨field, m, hrow, hm, hlookup⟩ := h
  unfold flagIn
  rw [hrow, Option.bind_some, hm, Option.bind_some]
  exact hlookup account

/-- The answer is that of the last operation unless this is an opening at type 0. -/
theorem answer_eq_allowed_iff {history : List DeployRecord} (htypes : ∀ r ∈ history, r.type ≤ 2)
    {type : Nat} (hle : type ≤ 2) (account : Address) :
    answer type ((lastIn history type account).map DeployRecord.flag) =
        allowed history type account ↔
      ((type : Int) = WHITE_LIST_MODE → ∀ r, lastIn history WHITE_LIST_MODE account = some r →
        r.isOpen = true → r.type ≠ 0) := by
  have hcases : type = 0 ∨ type = 1 ∨ type = 2 := by omega
  rcases hcases with rfl | rfl | rfl
  · exact iff_of_true rfl fun h => absurd h (by decide)
  · unfold answer allowed
    change (false || _) = (false || _) ↔ _
    simp only [Bool.false_or]
    cases hlast : lastIn history (1 : Nat) account with
    | none =>
      refine iff_of_true rfl fun _ r hr => ?_
      cases hlast.symm.trans hr
    | some r =>
      obtain ⟨hmem, hlist⟩ := mem_of_lastIn hlast
      have hflag := flag_white (htypes r hmem) hlist
      have hne : ((1 : Nat) : Int) ≠ BLACK_LIST_MODE := by decide
      simp only [Option.map_some, if_neg hne]
      constructor
      · intro heq _ r' hr' hopen
        have hsame := Option.some.inj (hlast.symm.trans hr')
        subst hsame
        exact (hflag.mp (heq.trans hopen)).2
      · intro h
        have hr := h rfl r hlast
        cases hopen : r.isOpen with
        | true => exact hflag.mpr ⟨hopen, hr hopen⟩
        | false =>
          rw [Bool.eq_false_iff]
          intro htrue
          rw [hopen] at hflag
          exact absurd (hflag.mp htrue).1 Bool.false_ne_true
  · refine iff_of_true ?_ fun h => absurd h (by decide)
    unfold answer allowed
    change (false || _) = (false || _)
    simp only [Bool.false_or]
    cases hlast : lastIn history (2 : Nat) account with
    | none => rfl
    | some r =>
      have hflag := flag_black (mem_of_lastIn hlast).2
      have heq : ((2 : Nat) : Int) = BLACK_LIST_MODE := rfl
      simp only [Option.map_some, if_pos heq, hflag, Bool.not_not]

theorem denied_iff {rows : Rows} {history : List DeployRecord}
    (htypes : ∀ r ∈ history, r.type ≤ 2)
    (hlists : ∀ list, list = WHITE_LIST_MODE ∨ list = BLACK_LIST_MODE →
      ListHolds c rows history list) (account : Address) :
    ¬ Denied c rows account ↔
      (∀ w, lastIn history WHITE_LIST_MODE account = some w → w.isOpen = true ∧ w.type ≠ 0) ∧
        ∀ b, lastIn history BLACK_LIST_MODE account = some b → b.isOpen = true := by
  unfold Denied
  rw [flagIn_eq (hlists _ (.inl rfl)), flagIn_eq (hlists _ (.inr rfl)), not_or]
  refine and_congr ?_ ?_
  · constructor
    · intro h w hw
      refine (flag_white (htypes w (mem_of_lastIn hw).1) (mem_of_lastIn hw).2).mp ?_
      rw [hw] at h
      simpa using h
    · intro h heq
      obtain ⟨w, hw, hflag⟩ := Option.map_eq_some_iff.mp heq
      have htrue := (flag_white (htypes w (mem_of_lastIn hw).1) (mem_of_lastIn hw).2).mpr (h w hw)
      rw [hflag] at htrue
      cases htrue
  · constructor
    · intro h b hb
      have hflag := flag_black (mem_of_lastIn hb).2
      rw [hb] at h
      cases hopen : b.isOpen with
      | true => rfl
      | false =>
        rw [hopen] at hflag
        exact absurd (congrArg some hflag) h
    · intro h heq
      obtain ⟨b, hb, hflag⟩ := Option.map_eq_some_iff.mp heq
      have hclosed := flag_black (mem_of_lastIn hb).2
      rw [hflag, h b hb] at hclosed
      cases hclosed

theorem right_iff_sided {s : DeployChain} (h : Inv c s) : s.Right c ↔ s.Sided c := by
  obtain ⟨⟨type, htype⟩, _, hlists, htypes⟩ := h
  have hforce : typeInForce c none s.rows = type := typeInForce_eq htype
  have hchecks : (∀ (keepsLast : Bool) (account : Address),
      ((checkDeployAuth c (if keepsLast then some s.rows else none) account :
        Script Empty Bool).onRows s.rows).1 =
          some (.ok (allowed s.history (typeInForce c none s.rows) account))) ↔
      ((typeInForce c none s.rows : Int) = WHITE_LIST_MODE → ∀ account r,
        lastIn s.history WHITE_LIST_MODE account = some r → r.isOpen = true → r.type ≠ 0) := by
    have hcheck (keepsLast : Bool) (account : Address) :
        ((checkDeployAuth c (if keepsLast then some s.rows else none) account :
          Script Empty Bool).onRows s.rows).1 =
            some (.ok (answer type ((lastIn s.history type account).map DeployRecord.flag))) := by
      have hview : (if keepsLast then some s.rows else none).getD s.rows = s.rows := by
        cases keepsLast <;> rfl
      exact checkDeployAuth_onRows (by rw [hview]; exact htype) (by rw [hview]; exact hlists) account
    rw [hforce]
    constructor
    · intro h hwhite account
      have heq := Except.ok.inj (Option.some.inj ((hcheck true account).symm.trans (h true account)))
      exact (answer_eq_allowed_iff htypes htype.le account).mp heq hwhite
    · intro h keepsLast account
      rw [hcheck keepsLast account]
      exact congrArg (some ∘ Except.ok)
        ((answer_eq_allowed_iff htypes htype.le account).mpr fun hwhite => h hwhite account)
  constructor
  · intro h
    refine ⟨hchecks.mp h.check, fun account r hr hopen => ?_⟩
    exact (denied_iff htypes hlists account).mp (h.opened account r hr hopen)
  · intro h
    refine ⟨hchecks.mpr h.check, fun account r hr hopen => ?_⟩
    exact (denied_iff htypes hlists account).mpr (h.opened account r hr hopen)

theorem inv_run {s : DeployChain} (h : Inv c s) (actions : List DeployAction) :
    Inv c (actions.foldl (step c) s) := by
  induction actions generalizing s with
  | nil => exact h
  | cons action actions ih => exact ih (inv_step h action)

/-- After every run the next block decides by the last operations exactly when none of those in
force was an opening at type 0, and no account opened last has one, or a closing, in a list. -/
theorem run_right_iff (c : AuthCodec) {rows : Rows} (h : Fresh rows) (keepsLast : Bool)
    (actions : List DeployAction) :
    Right c (actions.foldl (step c) (init rows keepsLast)) ↔
      Sided c (actions.foldl (step c) (init rows keepsLast)) :=
  right_iff_sided (inv_run (inv_init h keepsLast) actions)

/-- The tables after the genesis block. -/
def genesisRows : Rows := fun row =>
  if row = ⟨sysTables, ascii "/apps"⟩ then some []
  else if row.table = "/apps" then
    if row.key = FS_ACL_TYPE then some (ascii (toString 0))
    else if row.key = FS_ACL_WHITE ∨ row.key = FS_ACL_BLACK then some []
    else none
  else none

theorem fresh_genesisRows : Fresh genesisRows where
  type := ⟨0, rfl, rfl, by decide⟩
  white := rfl
  black := rfl

def accountOne : Address := ⟨List.replicate 20 1, rfl⟩

/-- The white list is filled before it is put in force. -/
def openedAtZero : List DeployAction :=
  [.setDeployAuth (List.replicate 20 1) false scaleCodec.committee,
    .setDeployType (List.replicate 31 0 ++ [1]) scaleCodec.committee, .nextBlock true]

theorem not_right_openedAtZero :
    ¬ Right scaleCodec (openedAtZero.foldl (step scaleCodec) (init genesisRows true)) := by
  intro h
  have hcheck := h.check true accountOne
  have hfalse : ((checkDeployAuth scaleCodec (some (openedAtZero.foldl (step scaleCodec)
      (init genesisRows true)).rows) accountOne : Script Empty Bool).onRows
        (openedAtZero.foldl (step scaleCodec) (init genesisRows true)).rows).1 =
      some (.ok false) := by
    rfl
  have htrue : allowed (openedAtZero.foldl (step scaleCodec) (init genesisRows true)).history
      (typeInForce scaleCodec none (openedAtZero.foldl (step scaleCodec)
        (init genesisRows true)).rows) accountOne = true := by
    rfl
  rw [htrue] at hcheck
  cases hfalse.symm.trans hcheck

theorem run_right_iff_openedAtZero :
    Right scaleCodec (openedAtZero.foldl (step scaleCodec) (init genesisRows true)) ↔
      Sided scaleCodec (openedAtZero.foldl (step scaleCodec) (init genesisRows true)) :=
  run_right_iff scaleCodec fresh_genesisRows true openedAtZero

end DeployChain

end BcosExecutor
