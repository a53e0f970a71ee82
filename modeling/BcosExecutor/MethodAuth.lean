import BcosExecutor.ContractAuth
import BcosExecutor.Runs

namespace BcosExecutor

open ContractAuth
open Runs (Always)

/-- A successful opening or closing, with the type in force of the method when it was executed. -/
structure MethodRecord where
  name : String
  func : Bytes
  account : Address
  type : Int
  isOpen : Bool
  deriving DecidableEq, Repr

/-- The flag that the operation has stored. -/
def MethodRecord.flag (r : MethodRecord) : Bool :=
  accessOf (!r.isOpen) r.type

/-- The storages of the current block, and the successful operations, the latest first. -/
structure MethodChain where
  last : Option Rows
  rows : Rows
  history : List MethodRecord

inductive MethodAction
  | setMethodAuthType (data : Bytes) (sender : String)
  | setMethodAuth (data : Bytes) (isClose : Bool) (sender : String)
  | nextBlock (keepsLast : Bool)

namespace MethodChain

/-- The type of a method in the block before. -/
def typeInForce (c : AuthCodec) (last : Option Rows) (rows : Rows) (name : String)
    (func : Bytes) : Int :=
  match ((getMethodAuthType c last (getAuthTableName name) func : Script Empty Int).onRows rows).1 with
  | some (.ok type) => type
  | _ => CODE_TABLE_NOT_EXIST

variable (c : AuthCodec)

def step (s : MethodChain) : MethodAction → MethodChain
  | .setMethodAuthType data sender =>
    { s with rows := keptRows (ContractAuth.setMethodAuthType c s.last data sender) s.rows }
  | .setMethodAuth data isClose sender =>
    let program : Script Empty Int := ContractAuth.setMethodAuth c s.last data isClose sender
    let records := (c.decodeAccount data).map fun (name, func, account) =>
      (⟨name, selectorOf func, account,
        typeInForce c s.last s.rows name (selectorOf func), !isClose⟩ : MethodRecord)
    { s with
      rows := keptRows program s.rows
      history := if succeeded (program.onRows s.rows).1 then records.toList ++ s.history
        else s.history }
  | .nextBlock keepsLast => { s with last := if keepsLast then some s.rows else none }

variable (name : String)

/-- The last operation on the account that was recorded under the type. -/
def lastUnder (history : List MethodRecord) (func : Bytes) (account : Address) (type : Int) :
    Option MethodRecord :=
  history.find? fun r =>
    r.name = name ∧ r.func = func ∧ r.account = account ∧ r.type = type

/-- What a check of the block that follows comes to. -/
def checked (s : MethodChain) (keepsLast : Bool) (func : Bytes) (account : Address) :
    Option (Except Exc Bool) :=
  ((checkMethodAuth c (if keepsLast then some s.rows else none) name func account :
    Script Empty Bool).onRows s.rows).1

def allowed (history : List MethodRecord) (func : Bytes) (account : Address) (type : Int) : Bool :=
  match lastUnder name history func account type with
  | some r => r.isOpen
  | none => type = BLACK_LIST_MODE

def IsListType (type : Int) : Prop :=
  type = WHITE_LIST_MODE ∨ type = BLACK_LIST_MODE

/-- The checks of the block that follows are decided by the last operations. -/
def Right (s : MethodChain) : Prop :=
  ∀ keepsLast func account type, IsListType type →
    typeInForce c none s.rows name func = type →
      checked c name s keepsLast func account =
        some (.ok (allowed name s.history func account type))

/-- The operation names the method or, if it opens or closes, the method and the account. -/
def Concerns (action : MethodAction) (func : Bytes) (account : Address) : Prop :=
  match action with
  | .setMethodAuthType data _ => ∃ f type, c.decodeType data = some (name, f, type) ∧
      selectorOf f = func
  | .setMethodAuth data _ _ => ∃ f, c.decodeAccount data = some (name, f, account) ∧
      selectorOf f = func
  | .nextBlock _ => False

/-- No other method and no other account is touched. -/
def Unmoved (s : MethodChain) (action : MethodAction) : Prop :=
  ∀ keepsLast func account, ¬ Concerns c name action func account →
    checked c name (s.step c action) keepsLast func account = checked c name s keepsLast func account

/-- A method in the white-list mode has an entry of its own as soon as any method has one. -/
def OwnEntries (s : MethodChain) : Prop :=
  ∀ func, typeInForce c none s.rows name func = WHITE_LIST_MODE →
    (∃ r ∈ s.history, r.name = name ∧ r.type = WHITE_LIST_MODE) →
      ∃ r ∈ s.history, r.name = name ∧ r.func = func ∧ r.type = WHITE_LIST_MODE

variable {c name}

theorem readsOnly_getMethodAuthType (last : Option Rows) (path : String) (func : Bytes) :
    (getMethodAuthType c last path func : Script Empty Int).ReadsOnly := by
  unfold getMethodAuthType
  refine Script.readsOnly_bind (readsOnly_viewTable _ _) fun opened => ?_
  cases opened with
  | false => exact True.intro
  | true =>
    refine Script.readsOnly_bind (readsOnly_viewRow _ _ _) fun entry => ?_
    cases entry with
    | none => exact True.intro
    | some field =>
      dsimp only
      split
      · exact True.intro
      · cases c.authType.decode field with
        | none => exact True.intro
        | some m =>
          dsimp only
          cases m.lookup func with
          | none => exact True.intro
          | some type => exact True.intro

theorem readsOnly_isAdmin (last : Option Rows) (path sender : String) :
    (isAdmin c last path sender : Script Empty Bool).ReadsOnly := by
  unfold isAdmin getContractAdmin
  refine Script.readsOnly_bind ?_ fun admin => ?_
  · refine Script.readsOnly_bind (readsOnly_viewTable _ _) fun opened => ?_
    cases opened with
    | false => exact True.intro
    | true => exact Script.readsOnly_bind (readsOnly_viewRow _ _ _) fun _ => True.intro
  · cases c.toAddress admin with
    | none => exact True.intro
    | some a =>
      cases c.toAddress (ascii sender) with
      | none => exact True.intro
      | some b => exact True.intro

/-- What an opening or a closing does to the rows, whatever the storage before says. -/
theorem setMethodAuth_onRows (last : Option Rows) (rows : Rows) (data : Bytes) (isClose : Bool)
    (sender : String) :
    (keptRows (setMethodAuth c last data isClose sender) rows = rows ∧
      (succeeded ((setMethodAuth c last data isClose sender : Script Empty Int).onRows rows).1 =
          true → ∀ name func account, c.decodeAccount data = some (name, func, account) →
        typeInForce c last rows name (selectorOf func) = 0)) ∨
      ∃ name func account typeRow m, c.decodeAccount data = some (name, func, account) ∧
        listRow (typeInForce c last rows name (selectorOf func)) = some typeRow ∧
        readMap c.methodAuth ((rows ⟨getAuthTableName name, typeRow⟩).getD []) = some m ∧
        (setMethodAuth c last data isClose sender : Script Empty Int).onRows rows =
          (some (.ok CODE_SUCCESS), Function.update rows ⟨getAuthTableName name, typeRow⟩
            (some (c.methodAuth.encode (MethodAuthMap.set m (selectorOf func) account
              (accessOf isClose (typeInForce c last rows name (selectorOf func))))))) := by
  unfold setMethodAuth
  cases hd : c.decodeAccount data with
  | none => exact .inl ⟨rfl, nofun⟩
  | some decoded =>
    obtain ⟨name, func, account⟩ := decoded
    have hforce : ∀ {type : Int}, ((getMethodAuthType c last (getAuthTableName name)
        (selectorOf func) : Script Empty Int).onRows rows).1 = some (.ok type) →
          typeInForce c last rows name (selectorOf func) = type := by
      intro type htype
      unfold typeInForce
      rw [htype]
    obtain ⟨typeOut, htypeOut⟩ := (readsOnly_getMethodAuthType (c := c) last
      (getAuthTableName name) (selectorOf func)).exists_out rows
    obtain ⟨adminOut, hadminOut⟩ := (readsOnly_isAdmin (c := c) last
      (getAuthTableName name) sender).exists_out rows
    rw [htypeOut] at hforce
    unfold keptRows
    dsimp only
    rw [Script.onRows_bind, Script.onRows_openTable]
    dsimp only
    cases (rows ⟨sysTables, ascii (getAuthTableName name)⟩).isSome with
    | false => exact .inl ⟨rfl, nofun⟩
    | true =>
      simp only [Bool.not_true, Bool.false_eq_true, if_false]
      rw [Script.onRows_bind, htypeOut]
      match typeOut with
      | none => exact .inl ⟨rfl, nofun⟩
      | some (.error x) => exact .inl ⟨rfl, nofun⟩
      | some (.ok authType) =>
        replace hforce := hforce rfl
        dsimp only
        by_cases hle : authType ≤ 0
        · rw [if_pos hle]
          refine .inl ⟨rfl, fun hok name' func' account' hdecoded => ?_⟩
          cases hdecoded
          rw [hforce]
          exact beq_iff_eq.mp hok
        · rw [if_neg hle, Script.onRows_bind, hadminOut]
          match adminOut with
          | none => exact .inl ⟨rfl, nofun⟩
          | some (.error x) => exact .inl ⟨rfl, nofun⟩
          | some (.ok false) => exact .inl ⟨rfl, nofun⟩
          | some (.ok true) =>
            simp only [Bool.not_true, Bool.false_eq_true, if_false]
            cases hlist : listRow authType with
            | none => exact .inl ⟨rfl, nofun⟩
            | some typeRow =>
              dsimp only
              rw [Script.onRows_bind, Script.onRows_get]
              dsimp only
              cases hempty : ((rows ⟨getAuthTableName name, typeRow⟩).getD []).isEmpty with
              | true =>
                refine .inr ⟨name, func, account, typeRow, ∅, rfl, hforce ▸ hlist, ?_, ?_⟩
                · unfold readMap
                  rw [hempty, if_pos rfl]
                · rw [hforce]
                  rfl
              | false =>
                cases hm : c.methodAuth.decode
                    ((rows ⟨getAuthTableName name, typeRow⟩).getD []) with
                | none => exact .inl ⟨rfl, nofun⟩
                | some m =>
                  refine .inr ⟨name, func, account, typeRow, m, rfl, hforce ▸ hlist, ?_, ?_⟩
                  · unfold readMap
                    rw [hempty, if_neg Bool.false_ne_true, hm]
                  · rw [hforce]
                    rfl

theorem setMethodAuthType_onRows (last : Option Rows) (rows : Rows) (data : Bytes)
    (sender : String) :
    keptRows (setMethodAuthType c last data sender) rows = rows ∨
      ∃ name func type m, c.decodeType data = some (name, func, type) ∧
        ((rows ⟨getAuthTableName name, METHOD_AUTH_TYPE⟩).bind (readMap c.authType)) = some m ∧
        keptRows (setMethodAuthType c last data sender) rows =
          Function.update rows ⟨getAuthTableName name, METHOD_AUTH_TYPE⟩
            (some (c.authType.encode (m.insert (selectorOf func) (typeOf type)))) := by
  unfold setMethodAuthType
  cases hd : c.decodeType data with
  | none => exact .inl rfl
  | some decoded =>
    obtain ⟨name, func, type⟩ := decoded
    obtain ⟨adminOut, hadminOut⟩ := (readsOnly_isAdmin (c := c) last
      (getAuthTableName name) sender).exists_out rows
    unfold keptRows
    dsimp only
    rw [Script.onRows_bind, Script.onRows_openTable]
    dsimp only
    cases (rows ⟨sysTables, ascii (getAuthTableName name)⟩).isSome with
    | false => exact .inl rfl
    | true =>
      simp only [Bool.not_true, Bool.false_eq_true, if_false]
      rw [Script.onRows_bind, hadminOut]
      match adminOut with
      | none => exact .inl rfl
      | some (.error x) => exact .inl rfl
      | some (.ok false) => exact .inl rfl
      | some (.ok true) =>
        simp only [Bool.not_true, Bool.false_eq_true, if_false]
        rw [Script.onRows_bind, Script.onRows_get]
        dsimp only
        cases hrow : rows ⟨getAuthTableName name, METHOD_AUTH_TYPE⟩ with
        | none => exact .inl rfl
        | some field =>
          dsimp only
          cases hempty : field.isEmpty with
          | true =>
            refine .inr ⟨name, func, type, ∅, rfl, ?_, rfl⟩
            rw [hrow, Option.bind_some, readMap, hempty, if_pos rfl]
          | false =>
            cases hm : c.authType.decode field with
            | none => exact .inl rfl
            | some m =>
              refine .inr ⟨name, func, type, m, rfl, ?_, rfl⟩
              rw [hrow, Option.bind_some, readMap, hempty, if_neg Bool.false_ne_true, hm]

/-- The type of a method that the map says. -/
def methodType (m : StdMap Bytes Nat) (func : Bytes) : Int :=
  match m.lookup func with
  | some type => type
  | none => CODE_TABLE_AUTH_TYPE_NOT_EXIST

/-- The types of the methods of the contract are those of the map. -/
structure TypesAre (c : AuthCodec) (name : String) (rows : Rows) (m : StdMap Bytes Nat) :
    Prop where
  table : (rows ⟨sysTables, ascii (getAuthTableName name)⟩).isSome = true
  field : (rows ⟨getAuthTableName name, METHOD_AUTH_TYPE⟩).bind (readMap c.authType) = some m

theorem getMethodAuthType_onRows {last : Option Rows} {rows : Rows} {m : StdMap Bytes Nat}
    (h : TypesAre c name (last.getD rows) m) (func : Bytes) :
    (getMethodAuthType c last (getAuthTableName name) func : Script Empty Int).onRows rows =
      (some (.ok (methodType m func)), rows) := by
  obtain ⟨field, hrow, hm⟩ := Option.bind_eq_some_iff.mp h.field
  unfold getMethodAuthType
  rw [Script.onRows_bind, viewTable_onRows]
  dsimp only
  rw [h.table]
  simp only [Bool.not_true, Bool.false_eq_true, if_false]
  rw [Script.onRows_bind, viewRow_onRows, hrow]
  dsimp only
  unfold methodType
  rcases readMap_eq hm with ⟨rfl, rfl⟩ | ⟨hne, hdecode⟩
  · rfl
  · rw [hne, hdecode, if_neg Bool.false_ne_true]
    dsimp only
    cases m.lookup func <;> rfl

theorem typeInForce_eq {last : Option Rows} {rows : Rows} {m : StdMap Bytes Nat}
    (h : TypesAre c name (last.getD rows) m) (func : Bytes) :
    typeInForce c last rows name func = methodType m func := by
  unfold typeInForce
  rw [getMethodAuthType_onRows h]

/-- Some method has an entry under the type. -/
def Used (name : String) (history : List MethodRecord) (type : Int) : Prop :=
  ∃ r ∈ history, r.name = name ∧ r.type = type

def UsedBy (name : String) (history : List MethodRecord) (func : Bytes) (type : Int) : Prop :=
  ∃ r ∈ history, r.name = name ∧ r.func = func ∧ r.type = type

/-- The row of the type has the flags of the last operations. -/
structure ListIs (c : AuthCodec) (name : String) (rows : Rows) (history : List MethodRecord)
    (type : Int) (m : MethodAuthMap) : Prop where
  field : ∀ typeRow, listRow type = some typeRow →
    ∃ field, rows ⟨getAuthTableName name, typeRow⟩ = some field ∧
      readMap c.methodAuth field = some m ∧ (field = [] ↔ ¬ Used name history type)
  listed : ∀ func, (m.lookup func).isSome = true ↔ UsedBy name history func type
  flags : ∀ func account, MethodAuthMap.flag m func account =
    (lastUnder name history func account type).map MethodRecord.flag

structure Inv (c : AuthCodec) (name : String) (s : MethodChain) : Prop where
  types : ∃ m, TypesAre c name s.rows m
  lists : ∀ type, IsListType type → ∃ m, ListIs c name s.rows s.history type m

/-- The rows of the access table of the contract, as it is created. -/
structure Fresh (name : String) (rows : Rows) : Prop where
  table : (rows ⟨sysTables, ascii (getAuthTableName name)⟩).isSome = true
  type : rows ⟨getAuthTableName name, METHOD_AUTH_TYPE⟩ = some []
  white : rows ⟨getAuthTableName name, METHOD_AUTH_WHITE⟩ = some []
  black : rows ⟨getAuthTableName name, METHOD_AUTH_BLACK⟩ = some []

theorem inv_start {rows : Rows} (h : Fresh name rows) (last : Option Rows) :
    Inv c name ⟨last, rows, []⟩ := by
  have htypes : (rows ⟨getAuthTableName name, METHOD_AUTH_TYPE⟩).bind (readMap c.authType) =
      some ∅ := by
    rw [h.type]
    rfl
  refine ⟨⟨∅, h.table, htypes⟩, fun type htype => ⟨∅, ?_, ?_, fun _ _ => rfl⟩⟩
  · intro typeRow hrow
    refine ⟨[], ?_, rfl, ?_⟩
    · rcases htype with rfl | rfl
      · cases hrow
        exact h.white
      · cases hrow
        exact h.black
    · exact iff_of_true rfl fun ⟨r, hr, _⟩ => absurd hr List.not_mem_nil
  · intro func
    exact iff_of_false Bool.false_ne_true fun ⟨r, hr, _⟩ => absurd hr List.not_mem_nil

theorem getAuthTableName_injective {a b : String} (h : getAuthTableName a = getAuthTableName b) :
    a = b := by
  have hlist := congrArg String.toList h
  unfold getAuthTableName at hlist
  simp only [String.toList_append] at hlist
  exact String.toList_injective (List.append_cancel_left (List.append_cancel_right hlist))

theorem getAuthTableName_ne (a : String) : getAuthTableName a ≠ sysTables := by
  unfold getAuthTableName
  rw [String.append_assoc]
  exact rooted_ne (rooted_append (by unfold Rooted; decide) _)

theorem isListType_of_listRow {type : Int} {typeRow : Bytes} (h : listRow type = some typeRow) :
    IsListType type := by
  unfold listRow at h
  split at h
  next hwhite => exact .inl hwhite
  next =>
    split at h
    next hblack => exact .inr hblack
    next => cases h

theorem listRow_injective {type type' : Int} {typeRow : Bytes} (h : listRow type = some typeRow)
    (h' : listRow type' = some typeRow) : type = type' := by
  have hne : METHOD_AUTH_WHITE ≠ METHOD_AUTH_BLACK := by decide
  rcases isListType_of_listRow h with rfl | rfl
  · rcases isListType_of_listRow h' with rfl | rfl
    · rfl
    · exact absurd ((Option.some.inj h).trans (Option.some.inj h').symm) hne
  · rcases isListType_of_listRow h' with rfl | rfl
    · exact absurd ((Option.some.inj h').trans (Option.some.inj h).symm) hne
    · rfl

theorem listRow_ne_type {type : Int} {typeRow : Bytes} (h : listRow type = some typeRow) :
    typeRow ≠ METHOD_AUTH_TYPE := by
  rcases isListType_of_listRow h with rfl | rfl
  · cases h
    decide
  · cases h
    decide

theorem flag_set (m : MethodAuthMap) (func func' : Bytes) (account account' : Address)
    (access : Bool) : MethodAuthMap.flag (MethodAuthMap.set m func account access) func' account' =
      if func = func' ∧ account = account' then some access
      else MethodAuthMap.flag m func' account' := by
  unfold MethodAuthMap.flag MethodAuthMap.set
  by_cases hf : func = func'
  · subst hf
    cases hm : m.lookup func with
    | some accounts =>
      dsimp only
      rw [AList.lookup_insert, Option.bind_some, Option.bind_some]
      by_cases ha : account = account'
      · subst ha
        rw [AList.lookup_insert, if_pos ⟨rfl, rfl⟩]
      · rw [AList.lookup_insert_ne (Ne.symm ha), if_neg fun h => ha h.2]
    | none =>
      dsimp only
      rw [AList.lookup_insert, Option.bind_some, Option.bind_none]
      by_cases ha : account = account'
      · subst ha
        rw [if_pos ⟨rfl, rfl⟩, ← AList.insert_empty, AList.lookup_insert]
      · rw [if_neg fun h => ha h.2, ← AList.insert_empty, AList.lookup_insert_ne (Ne.symm ha)]
        exact AList.lookup_empty _
  · rw [if_neg fun h => hf h.1]
    cases m.lookup func with
    | some accounts => rw [AList.lookup_insert_ne (Ne.symm hf)]
    | none => rw [AList.lookup_insert_ne (Ne.symm hf)]

theorem lookup_set (m : MethodAuthMap) (func func' : Bytes) (account : Address) (access : Bool) :
    ((MethodAuthMap.set m func account access).lookup func').isSome = true ↔
      func = func' ∨ (m.lookup func').isSome = true := by
  unfold MethodAuthMap.set
  by_cases hf : func = func'
  · subst hf
    refine iff_of_true ?_ (.inl rfl)
    cases m.lookup func with
    | some accounts =>
      dsimp only
      rw [AList.lookup_insert]
      rfl
    | none =>
      dsimp only
      rw [AList.lookup_insert]
      rfl
  · rw [or_iff_right hf]
    cases m.lookup func with
    | some accounts => rw [AList.lookup_insert_ne (Ne.symm hf)]
    | none => rw [AList.lookup_insert_ne (Ne.symm hf)]

theorem lastUnder_cons (r : MethodRecord) (history : List MethodRecord) (func : Bytes)
    (account : Address) (type : Int) : lastUnder name (r :: history) func account type =
      if r.name = name ∧ r.func = func ∧ r.account = account ∧ r.type = type then some r
      else lastUnder name history func account type := by
  unfold lastUnder
  rw [List.find?_cons]
  by_cases h : r.name = name ∧ r.func = func ∧ r.account = account ∧ r.type = type
  · rw [if_pos h]
    simp [h]
  · rw [if_neg h]
    simp [h]

theorem TypesAre.update {rows : Rows} {m : StdMap Bytes Nat} (h : TypesAre c name rows m)
    {row : StateRow} (entry : Option Entry) (hsys : row.table ≠ sysTables)
    (hrow : row ≠ ⟨getAuthTableName name, METHOD_AUTH_TYPE⟩) :
    TypesAre c name (Function.update rows row entry) m := by
  refine ⟨?_, ?_⟩
  · rw [Function.update_of_ne (fun heq => hsys (congrArg StateRow.table heq).symm)]
    exact h.table
  · rw [Function.update_of_ne (Ne.symm hrow)]
    exact h.field

theorem TypesAre.write {rows : Rows} {m : StdMap Bytes Nat} (h : TypesAre c name rows m)
    (m' : StdMap Bytes Nat) : TypesAre c name
      (Function.update rows ⟨getAuthTableName name, METHOD_AUTH_TYPE⟩
        (some (c.authType.encode m'))) m' := by
  refine ⟨?_, ?_⟩
  · have hne : (⟨sysTables, ascii (getAuthTableName name)⟩ : StateRow) ≠
        ⟨getAuthTableName name, METHOD_AUTH_TYPE⟩ :=
      fun heq => getAuthTableName_ne name (congrArg StateRow.table heq).symm
    rw [Function.update_of_ne hne]
    exact h.table
  · rw [Function.update_self, Option.bind_some, readMap_encode]

theorem ListIs.update {rows : Rows} {history : List MethodRecord} {type : Int} {m : MethodAuthMap}
    (h : ListIs c name rows history type m) {row : StateRow} (entry : Option Entry)
    (hrow : ∀ typeRow, listRow type = some typeRow → row ≠ ⟨getAuthTableName name, typeRow⟩) :
    ListIs c name (Function.update rows row entry) history type m := by
  refine ⟨fun typeRow htype => ?_, h.listed, h.flags⟩
  rw [Function.update_of_ne (Ne.symm (hrow typeRow htype))]
  exact h.field typeRow htype

/-- A record of another contract or under another type changes nothing for the list. -/
theorem ListIs.other {rows : Rows} {history : List MethodRecord} {type : Int} {m : MethodAuthMap}
    (h : ListIs c name rows history type m) {r : MethodRecord}
    (hr : ¬ (r.name = name ∧ r.type = type)) : ListIs c name rows (r :: history) type m := by
  have hused : Used name (r :: history) type ↔ Used name history type := by
    unfold Used
    rw [List.exists_mem_cons_iff, or_iff_right hr]
  refine ⟨fun typeRow htype => ?_, fun func => ?_, fun func account => ?_⟩
  · obtain ⟨field, hrow, hm, hempty⟩ := h.field typeRow htype
    exact ⟨field, hrow, hm, hempty.trans (not_congr hused.symm)⟩
  · rw [h.listed]
    unfold UsedBy
    rw [List.exists_mem_cons_iff, or_iff_right fun h => hr ⟨h.1, h.2.2⟩]
  · rw [lastUnder_cons, if_neg fun h => hr ⟨h.1, h.2.2.2⟩]
    exact h.flags func account

/-- The record of an entry that is written into the list. -/
theorem ListIs.record {rows : Rows} {history : List MethodRecord} {type : Int} {m : MethodAuthMap}
    (h : ListIs c name rows history type m) {r : MethodRecord} {typeRow : Bytes}
    (hname : r.name = name) (htype : r.type = type) (hrow : listRow type = some typeRow) :
    ListIs c name (Function.update rows ⟨getAuthTableName name, typeRow⟩
        (some (c.methodAuth.encode (MethodAuthMap.set m r.func r.account r.flag))))
      (r :: history) type (MethodAuthMap.set m r.func r.account r.flag) := by
  refine ⟨fun typeRow' htype' => ?_, fun func => ?_, fun func account => ?_⟩
  · cases Option.some.inj (hrow.symm.trans htype')
    refine ⟨_, Function.update_self _ _ _, readMap_encode _ _, ?_⟩
    exact iff_of_false (c.methodAuth.encode_ne_nil _)
      fun hnot => hnot ⟨r, List.mem_cons_self, hname, htype⟩
  · rw [lookup_set, h.listed]
    unfold UsedBy
    rw [List.exists_mem_cons_iff]
    exact or_congr_left ⟨fun hf => ⟨hname, hf, htype⟩, fun hr => hr.2.1⟩
  · rw [flag_set, lastUnder_cons]
    by_cases hfa : r.func = func ∧ r.account = account
    · rw [if_pos hfa, if_pos ⟨hname, hfa.1, hfa.2, htype⟩]
      rfl
    · rw [if_neg hfa, if_neg fun hr => hfa ⟨hr.2.1, hr.2.2.1⟩]
      exact h.flags func account

theorem inv_setMethodAuthType {s : MethodChain} (h : Inv c name s) (data : Bytes)
    (sender : String) : Inv c name (s.step c (.setMethodAuthType data sender)) := by
  obtain ⟨⟨m, hm⟩, hlists⟩ := h
  unfold step
  rcases setMethodAuthType_onRows (c := c) s.last s.rows data sender with
    heq | ⟨name', func, type, m', _, hm', heq⟩
  · dsimp only
    rw [heq]
    exact ⟨⟨m, hm⟩, hlists⟩
  · dsimp only
    rw [heq]
    refine ⟨?_, fun type' htype => ?_⟩
    · by_cases hname : name' = name
      · subst hname
        exact ⟨_, hm.write _⟩
      · refine ⟨m, hm.update _ (getAuthTableName_ne name') fun heq => hname ?_⟩
        exact getAuthTableName_injective (congrArg StateRow.table heq)
    · obtain ⟨list, hlist⟩ := hlists type' htype
      refine ⟨list, hlist.update _ fun typeRow hrow heq => ?_⟩
      exact listRow_ne_type hrow (congrArg StateRow.key heq).symm

theorem inv_setMethodAuth {s : MethodChain} (h : Inv c name s) (data : Bytes) (isClose : Bool)
    (sender : String) : Inv c name (s.step c (.setMethodAuth data isClose sender)) := by
  obtain ⟨⟨m, hm⟩, hlists⟩ := h
  unfold step
  dsimp only
  rcases setMethodAuth_onRows (c := c) s.last s.rows data isClose sender with
    ⟨hkept, hzero⟩ | ⟨name', func, account, typeRow, list, hd, hrow, hlist, heq⟩
  · rw [hkept]
    split
    next hok =>
      cases hd : c.decodeAccount data with
      | none => exact ⟨⟨m, hm⟩, hlists⟩
      | some decoded =>
        obtain ⟨name', func, account⟩ := decoded
        -- nothing is written at type 0, which is the type of neither list
        have hforce := hzero hok name' func account hd
        refine ⟨⟨m, hm⟩, fun type htype => ?_⟩
        obtain ⟨list, hlist⟩ := hlists type htype
        refine ⟨list, hlist.other fun hr => ?_⟩
        have htype0 : (0 : Int) = type := hforce.symm.trans hr.2
        subst htype0
        exact absurd htype (by unfold IsListType; decide)
    next => exact ⟨⟨m, hm⟩, hlists⟩
  · have hkept : keptRows (ContractAuth.setMethodAuth c s.last data isClose sender) s.rows =
        Function.update s.rows ⟨getAuthTableName name', typeRow⟩ (some (c.methodAuth.encode
          (MethodAuthMap.set list (selectorOf func) account (accessOf isClose
            (typeInForce c s.last s.rows name' (selectorOf func)))))) := by
      unfold keptRows
      rw [heq]
    rw [hkept, heq, hd]
    let r : MethodRecord := ⟨name', selectorOf func, account,
      typeInForce c s.last s.rows name' (selectorOf func), !isClose⟩
    have hflag : accessOf isClose (typeInForce c s.last s.rows name' (selectorOf func)) =
        r.flag := by
      simp only [MethodRecord.flag, r, Bool.not_not]
    rw [hflag]
    refine ⟨⟨m, hm.update _ (getAuthTableName_ne name') fun heq => ?_⟩, fun type htype => ?_⟩
    · exact listRow_ne_type hrow (congrArg StateRow.key heq)
    · obtain ⟨list', hlist'⟩ := hlists type htype
      show ∃ m, ListIs c name _ (r :: s.history) type m
      by_cases hr : r.name = name ∧ r.type = type
      · obtain ⟨hname, hrtype⟩ := hr
        have hname' : name' = name := hname
        subst hname'
        obtain ⟨field, hfield, hread, _⟩ := hlist'.field typeRow (hrtype ▸ hrow)
        rw [hfield, Option.getD_some, hread] at hlist
        cases Option.some.inj hlist
        exact ⟨_, hlist'.record hname hrtype (hrtype ▸ hrow)⟩
      · refine ⟨list', (hlist'.other hr).update _ fun typeRow' hrow' heq => hr ?_⟩
        have hkey : typeRow = typeRow' := congrArg StateRow.key heq
        subst hkey
        refine ⟨getAuthTableName_injective (congrArg StateRow.table heq), ?_⟩
        exact listRow_injective hrow hrow'

theorem inv_step {s : MethodChain} (h : Inv c name s) (action : MethodAction) :
    Inv c name (s.step c action) := by
  cases action with
  | nextBlock keepsLast => exact ⟨h.types, h.lists⟩
  | setMethodAuthType data sender => exact inv_setMethodAuthType h data sender
  | setMethodAuth data isClose sender => exact inv_setMethodAuth h data isClose sender

/-- The answer of the check from the list of the type. -/
def answer (type : Int) (isEmpty : Bool) (list : MethodAuthMap) (func : Bytes)
    (account : Address) : Bool :=
  if isEmpty then type = BLACK_LIST_MODE
  else
    match list.lookup func with
    | none => true
    | some accounts =>
      match accounts.lookup account with
      | none => type = BLACK_LIST_MODE
      | some access => if type = BLACK_LIST_MODE then !access else access

theorem getD_keepsLast (keepsLast : Bool) (rows : Rows) :
    (if keepsLast then some rows else none).getD rows = rows := by
  cases keepsLast <;> rfl

theorem checked_of_type {s : MethodChain} {m : StdMap Bytes Nat} (hm : TypesAre c name s.rows m)
    (keepsLast : Bool) (func : Bytes) (account : Address) :
    checked c name s keepsLast func account =
      if methodType m func = CODE_TABLE_AUTH_TYPE_NOT_EXIST then some (.ok true)
      else
        match listRow (methodType m func) with
        | none => some (.ok false)
        | some typeRow =>
          let field := (s.rows ⟨getAuthTableName name, typeRow⟩).getD []
          if field.isEmpty then some (.ok (methodType m func = BLACK_LIST_MODE))
          else
            match c.methodAuth.decode field with
            | none => some (.error (.stdException "decode"))
            | some list => some (.ok (answer (methodType m func) false list func account)) := by
  have hview := getD_keepsLast keepsLast s.rows
  have htypes : TypesAre c name ((if keepsLast then some s.rows else none).getD s.rows) m := by
    rw [hview]
    exact hm
  unfold checked checkMethodAuth
  rw [Script.onRows_bind, viewTable_onRows, hview]
  dsimp only
  rw [hm.table]
  simp only [Bool.not_true, Bool.false_eq_true, if_false]
  rw [Script.onRows_bind, getMethodAuthType_onRows htypes]
  dsimp only
  split
  · rfl
  · cases listRow (methodType m func) with
    | none => rfl
    | some typeRow =>
      dsimp only
      rw [Script.onRows_bind, viewRow_onRows, hview]
      dsimp only
      split
      · rfl
      · cases c.methodAuth.decode ((s.rows ⟨getAuthTableName name, typeRow⟩).getD []) with
        | none => rfl
        | some list =>
          dsimp only [answer]
          rw [if_neg Bool.false_ne_true]
          cases list.lookup func with
          | none => rfl
          | some accounts =>
            dsimp only
            cases accounts.lookup account with
            | none => rfl
            | some access => rfl

theorem listRow_exists {type : Int} (h : IsListType type) :
    ∃ typeRow, listRow type = some typeRow := by
  rcases h with rfl | rfl
  · exact ⟨_, rfl⟩
  · exact ⟨_, rfl⟩

theorem isListType_ne {type : Int} (h : IsListType type) :
    type ≠ CODE_TABLE_AUTH_TYPE_NOT_EXIST := by
  rcases h with rfl | rfl <;> decide

/-- The check of a method whose type is one of the two. -/
theorem checked_of_list {s : MethodChain} {m : StdMap Bytes Nat} {list : MethodAuthMap}
    {func : Bytes} {type : Int} (hm : TypesAre c name s.rows m) (htype : IsListType type)
    (hforce : methodType m func = type) (hlist : ListIs c name s.rows s.history type list) :
    ∃ isEmpty, (isEmpty = true ↔ ¬ Used name s.history type) ∧ ∀ keepsLast account,
      checked c name s keepsLast func account =
        some (.ok (answer type isEmpty list func account)) := by
  obtain ⟨typeRow, hrow⟩ := listRow_exists htype
  obtain ⟨field, hfield, hread, hempty⟩ := hlist.field typeRow hrow
  refine ⟨field.isEmpty, by rw [List.isEmpty_iff, hempty], fun keepsLast account => ?_⟩
  rw [checked_of_type hm, hforce, if_neg (isListType_ne htype), hrow]
  dsimp only
  rw [hfield, Option.getD_some]
  rcases readMap_eq hread with ⟨rfl, rfl⟩ | ⟨hne, hdecode⟩
  · rfl
  · rw [hne, hdecode]
    rfl

/-- The answer is that of the last operation unless the method is missing from the white list. -/
theorem answer_eq_allowed_iff {s : MethodChain} {type : Int} {list : MethodAuthMap} {func : Bytes}
    {isEmpty : Bool} (htype : IsListType type) (hlist : ListIs c name s.rows s.history type list)
    (hempty : isEmpty = true ↔ ¬ Used name s.history type) (account : Address) :
    answer type isEmpty list func account = allowed name s.history func account type ↔
      (type = WHITE_LIST_MODE → Used name s.history type → UsedBy name s.history func type) := by
  have hflag := hlist.flags func account
  have hlisted := hlist.listed func
  unfold answer allowed
  unfold MethodAuthMap.flag at hflag
  cases hlookup : list.lookup func with
  | none =>
    rw [hlookup] at hflag hlisted
    have hnone : lastUnder name s.history func account type = none :=
      Option.map_eq_none_iff.mp hflag.symm
    have hunused : ¬ UsedBy name s.history func type := fun h => absurd (hlisted.mpr h) nofun
    rw [hnone]
    dsimp only
    rcases htype with rfl | rfl
    · cases isEmpty with
      | true => exact iff_of_true rfl fun _ h => absurd h (hempty.mp rfl)
      | false =>
        have hused : Used name s.history WHITE_LIST_MODE :=
          not_not.mp fun h => Bool.false_ne_true (hempty.mpr h)
        exact iff_of_false (by decide) fun h => hunused (h rfl hused)
    · refine iff_of_true ?_ fun h => absurd h (by decide)
      cases isEmpty <;> rfl
  | some accounts =>
    rw [hlookup] at hflag hlisted
    replace hflag : accounts.lookup account = (lastUnder name s.history func account type).map
      MethodRecord.flag := hflag
    have husedBy : UsedBy name s.history func type := hlisted.mp rfl
    have hused : isEmpty = false := by
      obtain ⟨r, hr, hname, _, hrtype⟩ := husedBy
      rw [Bool.eq_false_iff]
      exact fun h => hempty.mp h ⟨r, hr, hname, hrtype⟩
    refine iff_of_true ?_ fun _ _ => husedBy
    rw [hused, if_neg Bool.false_ne_true]
    dsimp only
    rw [hflag]
    cases hlast : lastUnder name s.history func account type with
    | none => rfl
    | some r =>
      have hfound := List.find?_some hlast
      simp only [decide_eq_true_eq] at hfound
      obtain ⟨_, _, _, hrtype⟩ := hfound
      dsimp only [Option.map_some, MethodRecord.flag, accessOf]
      rw [hrtype]
      rcases htype with rfl | rfl
      · rw [if_neg (by decide)]
        cases r.isOpen <;> rfl
      · rw [if_pos rfl]
        cases r.isOpen <;> rfl

theorem right_iff_ownEntries {s : MethodChain} (h : Inv c name s) :
    s.Right c name ↔ s.OwnEntries c name := by
  obtain ⟨⟨m, hm⟩, hlists⟩ := h
  have hforce (func : Bytes) : typeInForce c none s.rows name func = methodType m func :=
    typeInForce_eq hm func
  constructor
  · intro hright func hwhite hused
    obtain ⟨list, hlist⟩ := hlists WHITE_LIST_MODE (.inl rfl)
    have htype : methodType m func = WHITE_LIST_MODE := (hforce func).symm.trans hwhite
    obtain ⟨isEmpty, hempty, hchecked⟩ := checked_of_list hm (.inl rfl) htype hlist
    let account : Address := ⟨List.replicate 20 0, rfl⟩
    have heq := hright true func account WHITE_LIST_MODE (.inl rfl) hwhite
    rw [hchecked] at heq
    have hanswer := Except.ok.inj (Option.some.inj heq)
    exact (answer_eq_allowed_iff (.inl rfl) hlist hempty account).mp hanswer rfl hused
  · intro hown keepsLast func account type htype hforced
    obtain ⟨list, hlist⟩ := hlists type htype
    have hmethod : methodType m func = type := (hforce func).symm.trans hforced
    obtain ⟨isEmpty, hempty, hchecked⟩ := checked_of_list hm htype hmethod hlist
    rw [hchecked]
    refine congrArg (some ∘ Except.ok) ?_
    refine (answer_eq_allowed_iff htype hlist hempty account).mpr fun hwhite hused => ?_
    subst hwhite
    exact hown func hforced hused

/-- The types of the methods that an operation does not name stay. -/
theorem methodType_step {s : MethodChain} {m : StdMap Bytes Nat} (hm : TypesAre c name s.rows m)
    (action : MethodAction) : ∃ m', TypesAre c name (s.step c action).rows m' ∧
      ∀ func account, ¬ Concerns c name action func account →
        methodType m' func = methodType m func := by
  cases action with
  | nextBlock keepsLast => exact ⟨m, hm, fun _ _ _ => rfl⟩
  | setMethodAuthType data sender =>
    unfold step
    dsimp only
    rcases setMethodAuthType_onRows (c := c) s.last s.rows data sender with
      heq | ⟨name', func, type, m', hd, hm', heq⟩
    · rw [heq]
      exact ⟨m, hm, fun _ _ _ => rfl⟩
    · rw [heq]
      by_cases hname : name' = name
      · subst hname
        cases Option.some.inj (hm'.symm.trans hm.field)
        refine ⟨_, hm.write _, fun func' account hnot => ?_⟩
        have hne : func' ≠ selectorOf func := fun heq => hnot ⟨func, type, hd, heq.symm⟩
        unfold methodType
        rw [AList.lookup_insert_ne hne]
      · refine ⟨m, hm.update _ (getAuthTableName_ne name') fun heq => hname ?_, fun _ _ _ => rfl⟩
        exact getAuthTableName_injective (congrArg StateRow.table heq)
  | setMethodAuth data isClose sender =>
    refine ⟨m, ?_, fun _ _ _ => rfl⟩
    unfold step
    dsimp only
    rcases setMethodAuth_onRows (c := c) s.last s.rows data isClose sender with
      ⟨hkept, _⟩ | ⟨name', func, account, typeRow, list, _, hrow, _, heq⟩
    · rw [hkept]
      exact hm
    · unfold keptRows
      rw [heq]
      refine hm.update _ (getAuthTableName_ne name') fun heq => ?_
      exact listRow_ne_type hrow (congrArg StateRow.key heq)

theorem lastUnder_step (s : MethodChain) {action : MethodAction} {func : Bytes}
    {account : Address} (hnot : ¬ Concerns c name action func account) (type : Int) :
    lastUnder name (s.step c action).history func account type =
      lastUnder name s.history func account type := by
  cases action with
  | nextBlock keepsLast => rfl
  | setMethodAuthType data sender => rfl
  | setMethodAuth data isClose sender =>
    unfold step
    dsimp only
    split
    · cases hd : c.decodeAccount data with
      | none => rfl
      | some decoded =>
        obtain ⟨name', func', account'⟩ := decoded
        refine (lastUnder_cons _ _ _ _ _).trans (if_neg fun h => hnot ?_)
        obtain ⟨rfl, rfl, rfl, _⟩ := h
        exact ⟨func', hd, rfl⟩
    · rfl

theorem unmoved_of_right {s : MethodChain} (h : Inv c name s) (action : MethodAction)
    (hbefore : s.Right c name) (hafter : (s.step c action).Right c name) :
    s.Unmoved c name action := by
  intro keepsLast func account hnot
  obtain ⟨m, hm⟩ := h.types
  obtain ⟨m', hm', hsame⟩ := methodType_step hm action
  have htype := hsame func account hnot
  by_cases hlist : IsListType (methodType m func)
  · rw [hbefore keepsLast func account _ hlist (typeInForce_eq hm func),
      hafter keepsLast func account _ hlist ((typeInForce_eq hm' func).trans htype)]
    unfold allowed
    rw [lastUnder_step s hnot]
  · have hnone : listRow (methodType m func) = none := by
      cases hrow : listRow (methodType m func) with
      | none => rfl
      | some typeRow => exact absurd (isListType_of_listRow hrow) hlist
    rw [checked_of_type hm, checked_of_type hm', htype, hnone]

/-- In every run the checks are decided by the last operations, and no operation moves another
method or account, exactly while no method of the white-list mode lacks an entry of its own that
others have. -/
theorem methodAuth_iff (c : AuthCodec) {name : String} {rows : Rows} (h : Fresh name rows)
    (last : Option Rows) (actions : List MethodAction) :
    Always (step c)
        (fun s action => s.Right c name ∧ (s.step c action).Right c name ∧ s.Unmoved c name action)
        ⟨last, rows, []⟩ actions ↔
      Always (step c)
        (fun s action => s.OwnEntries c name ∧ (s.step c action).OwnEntries c name)
        ⟨last, rows, []⟩ actions := by
  refine Runs.always_iff (Inv c name) (fun s action h => inv_step h action) ?_ (inv_start h last)
  intro s action h
  rw [← right_iff_ownEntries h, ← right_iff_ownEntries (inv_step h action)]
  exact ⟨fun hp => ⟨hp.1, hp.2.1⟩, fun hq => ⟨hq.1, hq.2, unmoved_of_right h action hq.1 hq.2⟩⟩

/-- The rows of the access table of a contract that is called `c`. -/
def createdRows : Rows := fun row =>
  if row = ⟨sysTables, ascii (getAuthTableName "c")⟩ then some []
  else if row.table = getAuthTableName "c" then
    if row.key = ADMIN_FIELD then some (ascii (toHex (List.replicate 20 1)))
    else if row.key = METHOD_AUTH_TYPE ∨ row.key = METHOD_AUTH_WHITE ∨
      row.key = METHOD_AUTH_BLACK then some []
    else none
  else none

theorem fresh_createdRows : Fresh "c" createdRows where
  table := by decide
  type := by decide
  white := by decide
  black := by decide

def adminOne : String := toHex (List.replicate 20 1)

/-- The bytes of the calls to the contract `c`, for the selector that repeats one byte. -/
def typeData (func : UInt8) (type : UInt8) : Bytes :=
  [4, 99] ++ List.replicate 32 func ++ List.replicate 31 0 ++ [type]

def accountData (func : UInt8) (account : UInt8) : Bytes :=
  [4, 99] ++ List.replicate 32 func ++ List.replicate 20 account

/-- Two methods are put in the white-list mode, and one of them is opened. -/
def otherOpened : List MethodAction :=
  [.setMethodAuthType (typeData 1 1) adminOne, .setMethodAuthType (typeData 2 1) adminOne,
    .nextBlock true, .setMethodAuth (accountData 2 7) false adminOne]

/-- The opening lets everybody call the other method. -/
theorem not_right_otherOpened : ¬ Always (step scaleCodec)
    (fun s action => s.Right scaleCodec "c" ∧ (s.step scaleCodec action).Right scaleCodec "c" ∧
      s.Unmoved scaleCodec "c" action) ⟨none, createdRows, []⟩ otherOpened := by
  rintro ⟨_, _, _, ⟨_, h, _⟩, _⟩
  have hright := h true (List.replicate 4 1) ⟨List.replicate 20 9, rfl⟩ WHITE_LIST_MODE (.inl rfl)
    (by decide +kernel)
  have htrue : allowed "c" (otherOpened.foldl (step scaleCodec) ⟨none, createdRows, []⟩).history
      (List.replicate 4 1) ⟨List.replicate 20 9, rfl⟩ WHITE_LIST_MODE = false := by
    decide +kernel
  change _ = some (Except.ok (allowed "c" (otherOpened.foldl (step scaleCodec)
    ⟨none, createdRows, []⟩).history (List.replicate 4 1) ⟨List.replicate 20 9, rfl⟩
      WHITE_LIST_MODE)) at hright
  rw [htrue] at hright
  have hpassed : checked scaleCodec "c" (otherOpened.foldl (step scaleCodec)
      ⟨none, createdRows, []⟩) true (List.replicate 4 1) ⟨List.replicate 20 9, rfl⟩ =
        some (.ok true) := by
    rfl
  cases hpassed.symm.trans hright

theorem methodAuth_iff_otherOpened :
    Always (step scaleCodec)
        (fun s action => s.Right scaleCodec "c" ∧ (s.step scaleCodec action).Right scaleCodec "c" ∧
          s.Unmoved scaleCodec "c" action) ⟨none, createdRows, []⟩ otherOpened ↔
      Always (step scaleCodec)
        (fun s action => s.OwnEntries scaleCodec "c" ∧
          (s.step scaleCodec action).OwnEntries scaleCodec "c")
        ⟨none, createdRows, []⟩ otherOpened :=
  methodAuth_iff scaleCodec fresh_createdRows none otherOpened

end MethodChain

end BcosExecutor
