import BcosExecutor.DeployAuth
import BcosExecutor.MethodAuth

namespace BcosExecutor

/-- The parameters of the calls that `AuthCodec` leaves out, and how an address is written. -/
structure AuthorityCodec extends ContractAuth.AuthCodec where
  decodePath : Bytes → Option String
  decodeReset : Bytes → Option (String × Address)
  hex : Address → Bytes

inductive AuthorityMethod
  | getAdmin | resetAdmin | setMethodAuthType | openMethodAuth | closeMethodAuth | checkMethodAuth
  | getDeployType | setDeployType | openDeployAuth | closeDeployAuth | hasDeployAuth
  deriving DecidableEq, Repr

inductive AuthorityAnswer
  | address (account : Address)
  | code (code : Int)
  | type (type : Nat)
  | access (access : Bool)
  deriving DecidableEq, Repr

namespace ContractAuth

variable {κ : Type}

theorem length_zeroAddress : (List.replicate 20 (0 : UInt8)).length = 20 := rfl

def zeroAddress : Address := ⟨List.replicate 20 0, length_zeroAddress⟩

section

variable (c : AuthorityCodec) (last : Option Rows)

def getAdmin (data : Bytes) : Script κ Address :=
  match c.decodePath data with
  | none => .throw (.stdException "decode")
  | some name => do
    let admin ← getContractAdmin last (getAuthTableName name)
    if admin.isEmpty then
      return zeroAddress
    else
      match c.toAddress admin with
      | some admin => return admin
      | none => .throw (.stdException "address")

def resetAdmin (data : Bytes) (sender : String) : Script κ Int :=
  match c.decodeReset data with
  | none => .throw (.stdException "decode")
  | some (name, admin) =>
    if sender ≠ c.committee then
      return CODE_NO_AUTHORIZED
    else do
      let path := getAuthTableName name
      let opened ← openTable path
      let row ← getRow path ADMIN_FIELD
      if !opened || row.isNone then
        .throw (.precompiledError (some "Contract address not found."))
      else do
        setRow path ADMIN_FIELD (c.hex admin)
        return CODE_SUCCESS

def checkMethodAuthOf (data : Bytes) : Script κ Bool :=
  match c.decodeAccount data with
  | none => .throw (.stdException "decode")
  | some (name, func, account) =>
    checkMethodAuth c.toAuthCodec last name (selectorOf func) account

def hasDeployAuth (data : Bytes) : Script κ Bool :=
  match c.decodeDeployAccount data with
  | none => .throw (.stdException "decode")
  | some account => checkDeployAuth c.toAuthCodec last account

def call (method : AuthorityMethod) (data : Bytes) (sender : String) : Script κ AuthorityAnswer :=
  match method with
  | .getAdmin => do return .address (← getAdmin c last data)
  | .resetAdmin => do return .code (← resetAdmin c data sender)
  | .setMethodAuthType => do
    return .code (← setMethodAuthType c.toAuthCodec last data sender)
  | .openMethodAuth => do return .code (← openMethodAuth c.toAuthCodec last data sender)
  | .closeMethodAuth => do return .code (← closeMethodAuth c.toAuthCodec last data sender)
  | .checkMethodAuth => do return .access (← checkMethodAuthOf c last data)
  | .getDeployType => do return .type (← getDeployAuthType c.toAuthCodec last)
  | .setDeployType => do return .code (← setDeployType c.toAuthCodec data sender)
  | .openDeployAuth => do return .code (← openDeployAuth c.toAuthCodec last data sender)
  | .closeDeployAuth => do return .code (← closeDeployAuth c.toAuthCodec last data sender)
  | .hasDeployAuth => do return .access (← hasDeployAuth c last data)

end

/-- There is a result, or the exception is the one of precompiled contracts. -/
def answered {α : Type} : Option (Except Exc α) → Bool
  | some (.ok _) => true
  | some (.error (.precompiledError _)) => true
  | _ => false

def Answers {α : Type} (m : Script Empty α) (rows : Rows) : Prop :=
  answered (m.onRows rows).1 = true

def Decodable (c : AuthorityCodec) (method : AuthorityMethod) (data : Bytes) : Prop :=
  match method with
  | .getAdmin => (c.decodePath data).isSome
  | .resetAdmin => (c.decodeReset data).isSome
  | .setMethodAuthType => (c.decodeType data).isSome
  | .openMethodAuth | .closeMethodAuth | .checkMethodAuth => (c.decodeAccount data).isSome
  | .getDeployType => True
  | .setDeployType => (c.decodeDeployType data).isSome
  | .openDeployAuth | .closeDeployAuth | .hasDeployAuth => (c.decodeDeployAccount data).isSome

/-- The directory of the contracts with its rows about deployment. -/
structure AppsThere (rows : Rows) : Prop where
  table : (rows ⟨sysTables, ascii "/apps"⟩).isSome
  type : (rows ⟨"/apps", FS_ACL_TYPE⟩).isSome
  white : (rows ⟨"/apps", FS_ACL_WHITE⟩).isSome
  black : (rows ⟨"/apps", FS_ACL_BLACK⟩).isSome

def adminOf (view : Rows) (path : String) : Bytes :=
  if TableThere view path then (view ⟨path, ADMIN_FIELD⟩).getD [] else []

def storedType (c : AuthCodec) (view : Rows) (path : String) (func : Bytes) : Option Nat :=
  ((view ⟨path, METHOD_AUTH_TYPE⟩).bind fun field =>
    if field.isEmpty then none else c.authType.decode field).bind fun m => m.lookup func

def deployTypeOf (c : AuthCodec) (view : Rows) : Nat :=
  ((view ⟨"/apps", FS_ACL_TYPE⟩).bind c.lexicalCast).getD 0

/-- The row, where there is one, is empty or a map. -/
def Decodes {α β : Type} (codec : Codec (StdMap α β)) (row : Option Entry) : Prop :=
  ∀ field, row = some field → (readMap codec field).isSome

/-- The sender and the admin are addresses. -/
def Comparable (c : AuthCodec) (view : Rows) (path sender : String) : Prop :=
  (c.toAddress (adminOf view path)).isSome ∧ (c.toAddress (ascii sender)).isSome

/-- A table that is managed in this block was there in the block before. -/
def InView (c : AuthorityCodec) (view rows : Rows) (method : AuthorityMethod) (data : Bytes) :
    Prop :=
  method = .openMethodAuth ∨ method = .closeMethodAuth →
    ∀ name func account, c.decodeAccount data = some (name, func, account) →
      TableThere rows (getAuthTableName name) → TableThere view (getAuthTableName name)

def Converts (c : AuthorityCodec) (view rows : Rows) (method : AuthorityMethod) (data : Bytes)
    (sender : String) : Prop :=
  match method with
  | .getAdmin => ∀ name, c.decodePath data = some name →
    adminOf view (getAuthTableName name) = [] ∨
      (c.toAddress (adminOf view (getAuthTableName name))).isSome
  | .setMethodAuthType => ∀ name func type, c.decodeType data = some (name, func, type) →
    TableThere rows (getAuthTableName name) →
      Comparable c.toAuthCodec view (getAuthTableName name) sender ∧
        (c.toAddress (adminOf view (getAuthTableName name)) = c.toAddress (ascii sender) →
          Decodes c.authType (rows ⟨getAuthTableName name, METHOD_AUTH_TYPE⟩))
  | .openMethodAuth | .closeMethodAuth => ∀ name func account,
    c.decodeAccount data = some (name, func, account) →
      TableThere rows (getAuthTableName name) →
        (∃ type, storedType c.toAuthCodec view (getAuthTableName name) (selectorOf func) =
          some type ∧ 0 < type) → Comparable c.toAuthCodec view (getAuthTableName name) sender
  | .checkMethodAuth => ∀ name func account, c.decodeAccount data = some (name, func, account) →
    TableThere view (getAuthTableName name) → ∀ type,
      storedType c.toAuthCodec view (getAuthTableName name) (selectorOf func) = some type →
        ∀ typeRow, listRow type = some typeRow →
          Decodes c.methodAuth (view ⟨getAuthTableName name, typeRow⟩)
  | .openDeployAuth | .closeDeployAuth => sender = c.committee →
    Decodes c.acl (rows ⟨"/apps", if (deployTypeOf c.toAuthCodec view : Int) = BLACK_LIST_MODE
      then FS_ACL_BLACK else FS_ACL_WHITE⟩)
  | .hasDeployAuth => deployTypeOf c.toAuthCodec view ≠ 0 →
    Decodes c.acl (view ⟨"/apps", if (deployTypeOf c.toAuthCodec view : Int) = WHITE_LIST_MODE
      then FS_ACL_WHITE else FS_ACL_BLACK⟩)
  | .resetAdmin | .getDeployType | .setDeployType => True

variable {α β γ : Type} {c : AuthorityCodec} {last : Option Rows} {rows : Rows}

theorem answers_map (m : Script Empty α) (f : α → β) (rows : Rows) :
    Answers (m >>= fun a => pure (f a)) rows ↔ Answers m rows := by
  unfold Answers
  rw [Script.onRows_bind]
  rcases m.onRows rows with ⟨_ | x | a, rows'⟩
  · exact Iff.rfl
  · cases x <;> exact Iff.rfl
  · exact Iff.rfl

theorem answers_bind_of_ok {m : Script Empty α} {rows' : Rows} {a : α}
    (h : m.onRows rows = (some (.ok a), rows')) (f : α → Script Empty β) :
    Answers (m >>= f) rows ↔ Answers (f a) rows' := by
  unfold Answers
  rw [Script.onRows_bind_of_ok h]

theorem not_answers_bind {m : Script Empty α} (h : ¬Answers m rows) (f : α → Script Empty β) :
    ¬Answers (m >>= f) rows := by
  unfold Answers at h ⊢
  rw [Script.onRows_bind]
  rcases hm : m.onRows rows with ⟨_ | x | a, rows'⟩
  · exact Bool.false_ne_true
  · rw [hm] at h
    cases x <;> exact h
  · rw [hm] at h
    exact absurd rfl h

theorem answers_of_ok {m : Script Empty α} {rows' : Rows} {a : α}
    (h : m.onRows rows = (some (.ok a), rows')) : Answers m rows := by
  unfold Answers
  rw [h]
  rfl

theorem not_answers_of_throw {m : Script Empty α} {rows' : Rows} {what : String}
    (h : m.onRows rows = (some (.error (.stdException what)), rows')) : ¬Answers m rows := by
  unfold Answers
  rw [h]
  exact Bool.false_ne_true

theorem not_answers_of_abort {m : Script Empty α} {rows' : Rows}
    (h : m.onRows rows = (none, rows')) : ¬Answers m rows := by
  unfold Answers
  rw [h]
  exact Bool.false_ne_true

theorem getContractAdmin_onRows (last : Option Rows) (path : String) (rows : Rows) :
    (getContractAdmin last path : Script Empty Bytes).onRows rows =
      (some (.ok (adminOf (last.getD rows) path)), rows) := by
  unfold getContractAdmin adminOf
  rw [Script.onRows_bind, viewTable_onRows]
  dsimp only
  by_cases htable : TableThere (last.getD rows) path
  · rw [if_pos htable, htable.guard,
      Script.onRows_bind, viewRow_onRows]
    rfl
  · rw [if_neg htable, guard_of_not_there htable]
    rfl

theorem isAdmin_onRows (c : AuthCodec) (last : Option Rows) (path sender : String) (rows : Rows) :
    (isAdmin c last path sender : Script Empty Bool).onRows rows =
      (match c.toAddress (adminOf (last.getD rows) path), c.toAddress (ascii sender) with
        | some admin, some sender => some (.ok (decide (sender = admin)))
        | _, _ => some (.error (.stdException "address")), rows) := by
  unfold isAdmin
  rw [Script.onRows_bind, getContractAdmin_onRows]
  dsimp only
  cases c.toAddress (adminOf (last.getD rows) path) with
  | none => rfl
  | some admin =>
    cases c.toAddress (ascii sender) with
    | none => rfl
    | some sender => rfl

/-- Without the table of the view there is no answer; else it is the stored type, or negative. -/
theorem getMethodAuthType_cases (c : AuthCodec) (last : Option Rows) (path : String) (func : Bytes)
    (rows : Rows) :
    ¬TableThere (last.getD rows) path ∧
        (getMethodAuthType c last path func : Script Empty Int).onRows rows = (none, rows) ∨
      TableThere (last.getD rows) path ∧ ∃ authType,
        (getMethodAuthType c last path func : Script Empty Int).onRows rows =
            (some (.ok authType), rows) ∧
          match storedType c (last.getD rows) path func with
          | some type => authType = type
          | none => authType = CODE_TABLE_AUTH_TYPE_NOT_EXIST ∨
              authType = CODE_TABLE_AUTH_TYPE_DECODE_ERROR := by
  unfold getMethodAuthType
  rw [Script.onRows_bind, viewTable_onRows]
  dsimp only
  unfold TableThere storedType
  cases ((last.getD rows) ⟨sysTables, ascii path⟩).isSome with
  | false => exact Or.inl ⟨Bool.false_ne_true, rfl⟩
  | true =>
    refine Or.inr ⟨rfl, ?_⟩
    simp only [Bool.not_true, Bool.false_eq_true, if_false]
    rw [Script.onRows_bind, viewRow_onRows]
    dsimp only
    cases (last.getD rows) ⟨path, METHOD_AUTH_TYPE⟩ with
    | none => exact ⟨_, rfl, Or.inl rfl⟩
    | some field =>
      dsimp only [Option.bind_some]
      by_cases hempty : field.isEmpty = true
      · rw [if_pos hempty, if_pos hempty]
        exact ⟨_, rfl, Or.inl rfl⟩
      · rw [if_neg hempty, if_neg hempty]
        cases c.authType.decode field with
        | none => exact ⟨_, rfl, Or.inr rfl⟩
        | some m =>
          dsimp only [Option.bind_some]
          cases m.lookup func with
          | none => exact ⟨_, rfl, Or.inl rfl⟩
          | some type => exact ⟨_, rfl, rfl⟩

theorem getDeployAuthType_apps (c : AuthCodec) (h : AppsThere (last.getD rows)) :
    (getDeployAuthType c last : Script Empty Nat).onRows rows =
      (some (.ok (deployTypeOf c (last.getD rows))), rows) := by
  obtain ⟨field, hfield⟩ := Option.isSome_iff_exists.mp h.type
  unfold getDeployAuthType deployTypeOf
  rw [Script.onRows_bind, viewTable_onRows]
  dsimp only
  rw [h.table, if_neg (by decide), Script.onRows_bind, viewRow_onRows, hfield]
  rfl

theorem answers_openTable (path : String) (f : Bool → Script Empty β) :
    Answers (openTable path >>= f) rows ↔
      Answers (f (rows ⟨sysTables, ascii path⟩).isSome) rows :=
  answers_bind_of_ok (Script.onRows_openTable path rows) f

theorem answers_pure (a : α) : Answers (pure a : Script Empty α) rows :=
  rfl

/-- A comparison of the sender with the admin. -/
theorem answers_isAdmin (c : AuthCodec) (last : Option Rows) (path sender : String)
    (f : Bool → Script Empty β) :
    Answers (isAdmin c last path sender >>= f) rows ↔
      Comparable c (last.getD rows) path sender ∧
        Answers (f (decide (c.toAddress (ascii sender) =
          c.toAddress (adminOf (last.getD rows) path)))) rows := by
  have hout := isAdmin_onRows c last path sender rows
  unfold Comparable
  cases hadmin : c.toAddress (adminOf (last.getD rows) path) with
  | none =>
    rw [hadmin] at hout
    exact iff_of_false (not_answers_bind (not_answers_of_throw hout) f)
      fun h => Bool.false_ne_true h.1.1
  | some admin =>
    cases hsender : c.toAddress (ascii sender) with
    | none =>
      rw [hadmin, hsender] at hout
      exact iff_of_false (not_answers_bind (not_answers_of_throw hout) f)
        fun h => Bool.false_ne_true h.1.2
    | some account =>
      rw [hadmin, hsender] at hout
      rw [answers_bind_of_ok hout, and_iff_right ⟨rfl, rfl⟩]
      simp only [Option.some_inj]

theorem answers_getAdmin {data : Bytes} {name : String} (hdata : c.decodePath data = some name) :
    Answers (getAdmin c last data) rows ↔
      adminOf (last.getD rows) (getAuthTableName name) = [] ∨
        (c.toAddress (adminOf (last.getD rows) (getAuthTableName name))).isSome := by
  unfold getAdmin
  simp only [hdata]
  rw [answers_bind_of_ok (getContractAdmin_onRows last _ rows)]
  by_cases hempty : adminOf (last.getD rows) (getAuthTableName name) = []
  · rw [if_pos (List.isEmpty_iff.mpr hempty)]
    exact iff_of_true (answers_pure _) (Or.inl hempty)
  · rw [if_neg (mt List.isEmpty_iff.mp hempty), or_iff_right hempty]
    cases c.toAddress (adminOf (last.getD rows) (getAuthTableName name)) with
    | none => exact iff_of_false Bool.false_ne_true Bool.false_ne_true
    | some admin => exact iff_of_true (answers_pure _) rfl

theorem answers_resetAdmin {data : Bytes} {sender : String} (hdata : (c.decodeReset data).isSome) :
    Answers (resetAdmin c data sender) rows := by
  obtain ⟨⟨name, admin⟩, hdata⟩ := Option.isSome_iff_exists.mp hdata
  unfold resetAdmin
  simp only [hdata]
  split
  · exact answers_pure _
  · rw [answers_openTable, answers_bind_of_ok (Script.onRows_get _ _ rows)]
    split
    · rfl
    · rfl

theorem readMap_eq_none {α β : Type} {codec : Codec (StdMap α β)} {field : Bytes}
    (h : readMap codec field = none) : field.isEmpty = false ∧ codec.decode field = none := by
  unfold readMap at h
  split at h
  next => cases h
  next hne => exact ⟨Bool.eq_false_iff.mpr hne, h⟩

/-- A program that reads a map, and throws where it cannot. -/
theorem answers_readMap {α β : Type} (codec : Codec (StdMap α β)) {field : Bytes}
    {m : Script Empty γ} (hempty : field = [] → Answers m rows)
    (hmap : ∀ map, field.isEmpty = false → codec.decode field = some map → Answers m rows)
    (hnone : field.isEmpty = false → codec.decode field = none → ¬Answers m rows) :
    Answers m rows ↔ (readMap codec field).isSome := by
  cases hread : readMap codec field with
  | none =>
    obtain ⟨hne, hdecode⟩ := readMap_eq_none hread
    exact iff_of_false (hnone hne hdecode) Bool.false_ne_true
  | some map =>
    obtain ⟨hfield, -⟩ | ⟨hne, hdecode⟩ := readMap_eq hread
    · exact iff_of_true (hempty hfield) rfl
    · exact iff_of_true (hmap map hne hdecode) rfl

theorem answers_setMethodAuthType {data : Bytes} {sender name : String} {func type : String32}
    (hdata : c.decodeType data = some (name, func, type)) :
    Answers (setMethodAuthType c.toAuthCodec last data sender) rows ↔
      (TableThere rows (getAuthTableName name) →
        Comparable c.toAuthCodec (last.getD rows) (getAuthTableName name) sender ∧
          (c.toAddress (adminOf (last.getD rows) (getAuthTableName name)) =
              c.toAddress (ascii sender) →
            Decodes c.authType (rows ⟨getAuthTableName name, METHOD_AUTH_TYPE⟩))) := by
  unfold setMethodAuthType
  simp only [hdata]
  rw [answers_openTable]
  by_cases htable : TableThere rows (getAuthTableName name)
  · rw [htable.guard, answers_isAdmin,
      forall_prop_of_true htable]
    refine and_congr_right fun _ => ?_
    by_cases hadmin : c.toAddress (ascii sender) =
        c.toAddress (adminOf (last.getD rows) (getAuthTableName name))
    · rw [decide_eq_true hadmin, if_neg (by decide), forall_prop_of_true hadmin.symm,
        answers_bind_of_ok (Script.onRows_get _ _ rows)]
      unfold Decodes
      cases rows ⟨getAuthTableName name, METHOD_AUTH_TYPE⟩ with
      | none => exact iff_of_true (answers_pure _) fun field h => by cases h
      | some field =>
        simp only [Option.some_inj, forall_eq']
        refine answers_readMap c.authType ?_ ?_ ?_
        · rintro rfl
          rfl
        · intro map hne hdecode
          simp only [hne, hdecode]
          rfl
        · intro hne hdecode
          simp only [hne, hdecode]
          exact not_answers_of_throw rfl
    · rw [decide_eq_false hadmin, if_pos (by decide)]
      exact iff_of_true (answers_pure _) fun h => absurd h.symm hadmin
  · rw [guard_of_not_there htable]
    exact iff_of_true (answers_pure _) fun h => absurd h htable

/-- What is done once the type is known never fails: even a list that cannot be read is answered. -/
theorem answers_setMethodAuth {data : Bytes} {sender name : String} {func : String32}
    {account : Address} (isClose : Bool)
    (hdata : c.decodeAccount data = some (name, func, account)) :
    Answers (setMethodAuth c.toAuthCodec last data isClose sender) rows ↔
      (TableThere rows (getAuthTableName name) →
        TableThere (last.getD rows) (getAuthTableName name) ∧
          ((∃ type, storedType c.toAuthCodec (last.getD rows) (getAuthTableName name)
              (selectorOf func) = some type ∧ 0 < type) →
            Comparable c.toAuthCodec (last.getD rows) (getAuthTableName name) sender)) := by
  unfold setMethodAuth
  simp only [hdata]
  rw [answers_openTable]
  by_cases htable : TableThere rows (getAuthTableName name)
  · rw [htable.guard, forall_prop_of_true htable]
    obtain ⟨hview, hout⟩ | ⟨hview, authType, hout, htype⟩ := getMethodAuthType_cases c.toAuthCodec
      last (getAuthTableName name) (selectorOf func) rows
    · exact iff_of_false (not_answers_bind (not_answers_of_abort hout) _) fun h => hview h.1
    · rw [answers_bind_of_ok hout, and_iff_right hview]
      have hpos : 0 < authType ↔ ∃ type, storedType c.toAuthCodec (last.getD rows)
          (getAuthTableName name) (selectorOf func) = some type ∧ 0 < type := by
        cases hstored : storedType c.toAuthCodec (last.getD rows) (getAuthTableName name)
            (selectorOf func) with
        | none =>
          rw [hstored] at htype
          have hneg : ¬0 < authType := by
            obtain rfl | rfl := htype
            · decide
            · decide
          refine iff_of_false hneg ?_
          rintro ⟨type, htype, -⟩
          cases htype
        | some type =>
          rw [hstored] at htype
          subst htype
          simp only [Option.some_inj, exists_eq_left']
          exact Int.natCast_pos
      rw [← hpos]
      by_cases hle : authType ≤ 0
      · rw [if_pos hle]
        exact iff_of_true (answers_pure _) fun h => absurd h (Int.not_lt.mpr hle)
      · rw [if_neg hle, answers_isAdmin, forall_prop_of_true (Int.not_le.mp hle)]
        refine and_iff_left ?_
        split
        · exact answers_pure _
        · cases listRow authType with
          | none => exact answers_pure _
          | some typeRow =>
            dsimp only
            rw [answers_bind_of_ok (Script.onRows_get _ _ rows)]
            split
            · rfl
            · cases c.methodAuth.decode ((rows ⟨getAuthTableName name, typeRow⟩).getD []) with
              | none => rfl
              | some m => rfl
  · rw [guard_of_not_there htable]
    exact iff_of_true (answers_pure _) fun h => absurd h htable

theorem answers_viewTable (path : String) (f : Bool → Script Empty β) :
    Answers (viewTable last path >>= f) rows ↔
      Answers (f ((last.getD rows) ⟨sysTables, ascii path⟩).isSome) rows :=
  answers_bind_of_ok (viewTable_onRows last path rows) f

/-- A list that cannot be read is thrown at, other than by an opening or a closing. -/
theorem answers_checkMethodAuth {data : Bytes} {name : String} {func : String32}
    {account : Address} (hdata : c.decodeAccount data = some (name, func, account)) :
    Answers (checkMethodAuthOf c last data) rows ↔
      (TableThere (last.getD rows) (getAuthTableName name) → ∀ type,
        storedType c.toAuthCodec (last.getD rows) (getAuthTableName name) (selectorOf func) =
            some type → ∀ typeRow, listRow type = some typeRow →
          Decodes c.methodAuth ((last.getD rows) ⟨getAuthTableName name, typeRow⟩)) := by
  unfold checkMethodAuthOf checkMethodAuth
  simp only [hdata]
  rw [answers_viewTable]
  obtain ⟨hview, -⟩ | ⟨hview, authType, hout, htype⟩ := getMethodAuthType_cases c.toAuthCodec last
    (getAuthTableName name) (selectorOf func) rows
  · rw [guard_of_not_there hview]
    exact iff_of_true (answers_pure _) fun h => absurd h hview
  rw [hview.guard, answers_bind_of_ok hout,
    forall_prop_of_true hview]
  cases hstored : storedType c.toAuthCodec (last.getD rows) (getAuthTableName name)
      (selectorOf func) with
  | none =>
    rw [hstored] at htype
    refine iff_of_true ?_ fun type h => by cases h
    obtain rfl | rfl := htype
    · rfl
    · rfl
  | some type =>
    rw [hstored] at htype
    subst htype
    rw [if_neg (by unfold CODE_TABLE_AUTH_TYPE_NOT_EXIST; omega)]
    simp only [Option.some_inj, forall_eq']
    cases hrow : listRow (type : Int) with
    | none => exact iff_of_true (answers_pure _) fun _ h => by cases h
    | some typeRow =>
      dsimp only
      rw [answers_bind_of_ok (viewRow_onRows last _ _ rows)]
      simp only [Option.some_inj, forall_eq']
      unfold Decodes
      cases (last.getD rows) ⟨getAuthTableName name, typeRow⟩ with
      | none => exact iff_of_true (answers_pure _) fun field h => by cases h
      | some field =>
        simp only [Option.some_inj, forall_eq', Option.getD_some]
        refine answers_readMap c.methodAuth ?_ ?_ ?_
        · rintro rfl
          exact answers_pure _
        · intro map hne hdecode
          simp only [hne, hdecode, Bool.false_eq_true, if_false]
          cases map.lookup (selectorOf func) with
          | none => exact answers_pure _
          | some accounts =>
            dsimp only
            cases accounts.lookup account with
            | none => exact answers_pure _
            | some access => exact answers_pure _
        · intro hne hdecode
          simp only [hne, hdecode, Bool.false_eq_true, if_false]
          exact not_answers_of_throw rfl

theorem answers_setDeployType {data : Bytes} {sender : String} (hrows : AppsThere rows)
    (hdata : (c.decodeDeployType data).isSome) :
    Answers (setDeployType c.toAuthCodec data sender) rows := by
  obtain ⟨type, hdata⟩ := Option.isSome_iff_exists.mp hdata
  unfold setDeployType
  simp only [hdata]
  split
  · exact answers_pure _
  · split
    · exact answers_pure _
    · rw [answers_openTable, hrows.table]
      rfl

theorem AppsThere.acl (h : AppsThere rows) (key : Bytes)
    (hkey : key = FS_ACL_WHITE ∨ key = FS_ACL_BLACK) :
    ∃ field, rows ⟨"/apps", key⟩ = some field := by
  obtain rfl | rfl := hkey
  · exact Option.isSome_iff_exists.mp h.white
  · exact Option.isSome_iff_exists.mp h.black

theorem AppsThere.acl_ite (h : AppsThere rows) (p : Prop) [Decidable p] {yes no : Bytes}
    (hyes : yes = FS_ACL_WHITE ∨ yes = FS_ACL_BLACK)
    (hno : no = FS_ACL_WHITE ∨ no = FS_ACL_BLACK) :
    ∃ field, rows ⟨"/apps", if p then yes else no⟩ = some field := by
  by_cases hp : p
  · rw [if_pos hp]
    exact h.acl yes hyes
  · rw [if_neg hp]
    exact h.acl no hno

theorem answers_setDeployAuth {data : Bytes} {sender : String} (isClose : Bool)
    (hview : AppsThere (last.getD rows)) (hrows : AppsThere rows)
    (hdata : (c.decodeDeployAccount data).isSome) :
    Answers (setDeployAuth c.toAuthCodec last data isClose sender) rows ↔
      (sender = c.committee → Decodes c.acl (rows ⟨"/apps",
        if (deployTypeOf c.toAuthCodec (last.getD rows) : Int) = BLACK_LIST_MODE
          then FS_ACL_BLACK else FS_ACL_WHITE⟩)) := by
  obtain ⟨account, hdata⟩ := Option.isSome_iff_exists.mp hdata
  unfold setDeployAuth
  simp only [hdata]
  by_cases hsender : sender = c.committee
  · rw [if_neg (not_not.mpr hsender), forall_prop_of_true hsender, answers_openTable,
      answers_bind_of_ok (getDeployAuthType_apps _ hview), hrows.table, if_neg (by decide)]
    obtain ⟨field, hfield⟩ := hrows.acl_ite
      ((deployTypeOf c.toAuthCodec (last.getD rows) : Int) = BLACK_LIST_MODE) (.inr rfl) (.inl rfl)
    rw [answers_bind_of_ok (Script.onRows_get _ _ rows), hfield]
    unfold Decodes present
    simp only [Option.some_inj, forall_eq']
    refine answers_readMap c.acl ?_ ?_ ?_
    · rintro rfl
      rfl
    · intro map hne hdecode
      simp only [hne, hdecode]
      rfl
    · intro hne hdecode
      simp only [hne, hdecode]
      exact not_answers_of_throw rfl
  · rw [if_pos hsender]
    exact iff_of_true (answers_pure _) fun h => absurd h hsender

theorem answers_hasDeployAuth {data : Bytes} (hview : AppsThere (last.getD rows))
    (hdata : (c.decodeDeployAccount data).isSome) :
    Answers (hasDeployAuth c last data) rows ↔
      (deployTypeOf c.toAuthCodec (last.getD rows) ≠ 0 → Decodes c.acl ((last.getD rows) ⟨"/apps",
        if (deployTypeOf c.toAuthCodec (last.getD rows) : Int) = WHITE_LIST_MODE
          then FS_ACL_WHITE else FS_ACL_BLACK⟩)) := by
  obtain ⟨account, hdata⟩ := Option.isSome_iff_exists.mp hdata
  unfold hasDeployAuth checkDeployAuth
  simp only [hdata]
  rw [answers_viewTable, answers_bind_of_ok (getDeployAuthType_apps _ hview)]
  by_cases htype : deployTypeOf c.toAuthCodec (last.getD rows) = 0
  · rw [if_pos htype]
    exact iff_of_true (answers_pure _) fun h => absurd htype h
  · rw [if_neg htype, forall_prop_of_true htype, hview.table, if_neg (by decide)]
    obtain ⟨field, hfield⟩ := hview.acl_ite
      ((deployTypeOf c.toAuthCodec (last.getD rows) : Int) = WHITE_LIST_MODE) (.inl rfl) (.inr rfl)
    rw [answers_bind_of_ok (viewRow_onRows last _ _ rows), hfield]
    unfold Decodes present
    simp only [Option.some_inj, forall_eq']
    refine answers_readMap c.acl ?_ ?_ ?_
    · rintro rfl
      exact answers_pure _
    · intro map hne hdecode
      simp only [hne, hdecode, Bool.false_eq_true, if_false]
      cases map.lookup account with
      | none => exact answers_pure _
      | some access => exact answers_pure _
    · intro hne hdecode
      simp only [hne, hdecode, Bool.false_eq_true, if_false]
      exact not_answers_of_throw rfl

/-- What holds of all parameters that were decoded holds of the ones that were. -/
theorem forall_decoded {decoded : Option (α × β × γ)} {a : α} {b : β} {g : γ}
    (h : decoded = some (a, b, g)) {P : α → β → γ → Prop} :
    (∀ x y z, decoded = some (x, y, z) → P x y z) ↔ P a b g := by
  subst h
  constructor
  · exact fun hall => hall a b g rfl
  · rintro hp x y z heq
    cases heq
    exact hp

/-- The openings and the closings. -/
theorem setMethodAuth_answers_iff {method : AuthorityMethod} {data : Bytes} {sender : String}
    (isClose : Bool) (hmethod : method = .openMethodAuth ∨ method = .closeMethodAuth)
    (hdata : (c.decodeAccount data).isSome) :
    Answers (setMethodAuth c.toAuthCodec last data isClose sender) rows ↔
      InView c (last.getD rows) rows method data ∧
        Converts c (last.getD rows) rows method data sender := by
  obtain ⟨⟨name, func, account⟩, hname⟩ := Option.isSome_iff_exists.mp hdata
  have hconverts : Converts c (last.getD rows) rows method data sender ↔
      (TableThere rows (getAuthTableName name) →
        (∃ type, storedType c.toAuthCodec (last.getD rows) (getAuthTableName name)
          (selectorOf func) = some type ∧ 0 < type) →
            Comparable c.toAuthCodec (last.getD rows) (getAuthTableName name) sender) := by
    obtain rfl | rfl := hmethod
    · exact forall_decoded hname
    · exact forall_decoded hname
  unfold InView
  rw [answers_setMethodAuth isClose hname, hconverts, forall_prop_of_true hmethod,
    forall_decoded hname]
  exact imp_and

/-- Which calls are answered. -/
theorem call_answers_iff (hview : AppsThere (last.getD rows)) (hrows : AppsThere rows)
    {method : AuthorityMethod} {data : Bytes} (hdata : Decodable c method data) (sender : String) :
    Answers (call c last method data sender) rows ↔
      InView c (last.getD rows) rows method data ∧
        Converts c (last.getD rows) rows method data sender := by
  have hfree (hmethod : ¬(method = .openMethodAuth ∨ method = .closeMethodAuth)) :
      InView c (last.getD rows) rows method data := fun h => absurd h hmethod
  cases method with
  | getAdmin =>
    obtain ⟨name, hname⟩ := Option.isSome_iff_exists.mp hdata
    refine (answers_map _ _ rows).trans ((answers_getAdmin hname).trans ?_)
    rw [and_iff_right (hfree (by decide)), Converts, hname]
    simp only [Option.some_inj, forall_eq']
  | resetAdmin =>
    rw [and_iff_right (hfree (by decide))]
    exact iff_of_true ((answers_map _ _ rows).mpr (answers_resetAdmin hdata)) trivial
  | setMethodAuthType =>
    obtain ⟨⟨name, func, type⟩, hname⟩ := Option.isSome_iff_exists.mp hdata
    refine (answers_map _ _ rows).trans ((answers_setMethodAuthType hname).trans ?_)
    rw [and_iff_right (hfree (by decide)), Converts, forall_decoded hname]
  | openMethodAuth =>
    exact (answers_map _ _ rows).trans (setMethodAuth_answers_iff false (Or.inl rfl) hdata)
  | closeMethodAuth =>
    exact (answers_map _ _ rows).trans (setMethodAuth_answers_iff true (Or.inr rfl) hdata)
  | checkMethodAuth =>
    obtain ⟨⟨name, func, account⟩, hname⟩ := Option.isSome_iff_exists.mp hdata
    refine (answers_map _ _ rows).trans ((answers_checkMethodAuth hname).trans ?_)
    rw [and_iff_right (hfree (by decide)), Converts, forall_decoded hname]
  | getDeployType =>
    rw [and_iff_right (hfree (by decide))]
    refine iff_of_true ((answers_map _ _ rows).mpr ?_) trivial
    exact answers_of_ok (getDeployAuthType_apps _ hview)
  | setDeployType =>
    rw [and_iff_right (hfree (by decide))]
    exact iff_of_true ((answers_map _ _ rows).mpr (answers_setDeployType hrows hdata)) trivial
  | openDeployAuth =>
    rw [and_iff_right (hfree (by decide))]
    exact (answers_map _ _ rows).trans (answers_setDeployAuth false hview hrows hdata)
  | closeDeployAuth =>
    rw [and_iff_right (hfree (by decide))]
    exact (answers_map _ _ rows).trans (answers_setDeployAuth true hview hrows hdata)
  | hasDeployAuth =>
    rw [and_iff_right (hfree (by decide))]
    exact (answers_map _ _ rows).trans (answers_hasDeployAuth hview hdata)

/-- No row or table is used that is not there. -/
def Ends (m : Script Empty α) (rows : Rows) : Prop :=
  (m.onRows rows).1.isSome

theorem ends_of_answers {m : Script Empty α} (h : Answers m rows) : Ends m rows := by
  unfold Answers at h
  unfold Ends
  cases hout : (m.onRows rows).1 with
  | none =>
    rw [hout] at h
    exact absurd h Bool.false_ne_true
  | some out => rfl

theorem ends_bind {m : Script Empty α} {f : α → Script Empty β} (hm : Ends m rows)
    (hf : ∀ a rows', Ends (f a) rows') : Ends (m >>= f) rows := by
  unfold Ends at hm hf ⊢
  rw [Script.onRows_bind]
  rcases h : m.onRows rows with ⟨_ | x | a, rows'⟩
  · rw [h] at hm
    exact hm
  · rfl
  · exact hf a rows'

theorem ends_pure (a : α) : Ends (pure a : Script Empty α) rows :=
  rfl

theorem ends_throw (x : Exc) : Ends (Script.throw x : Script Empty α) rows :=
  rfl

theorem ends_getRow (table : String) (key : Bytes) :
    Ends (getRow table key : Script Empty _) rows :=
  rfl

theorem ends_openTable (path : String) : Ends (openTable path : Script Empty Bool) rows :=
  rfl

theorem ends_isAdmin (c : AuthCodec) (last : Option Rows) (path sender : String) :
    Ends (isAdmin c last path sender : Script Empty Bool) rows := by
  unfold Ends
  rw [isAdmin_onRows]
  cases c.toAddress (adminOf (last.getD rows) path) with
  | none => rfl
  | some admin =>
    cases c.toAddress (ascii sender) with
    | none => rfl
    | some account => rfl

theorem ends_getAdmin (data : Bytes) : Ends (getAdmin c last data) rows := by
  unfold getAdmin
  cases c.decodePath data with
  | none => exact ends_throw _
  | some name =>
    refine ends_bind ?_ fun admin rows' => ?_
    · exact ends_of_answers (answers_of_ok (getContractAdmin_onRows last _ rows))
    · split
      · exact ends_pure _
      · cases c.toAddress admin with
        | none => exact ends_throw _
        | some account => exact ends_pure _

theorem ends_setMethodAuthType (data : Bytes) (sender : String) :
    Ends (setMethodAuthType c.toAuthCodec last data sender) rows := by
  unfold setMethodAuthType
  cases c.decodeType data with
  | none => exact ends_throw _
  | some decoded =>
    refine ends_bind (ends_openTable _) fun opened rows₁ => ?_
    split
    · exact ends_pure _
    · refine ends_bind (ends_isAdmin _ _ _ _) fun isAdmin rows₂ => ?_
      split
      · exact ends_pure _
      · refine ends_bind (ends_getRow _ _) fun row rows₃ => ?_
        cases row with
        | none => exact ends_pure _
        | some field =>
          dsimp only
          split
          · rfl
          · cases c.authType.decode field with
            | none => exact ends_throw _
            | some m => rfl

theorem ends_bind_of_ok {m : Script Empty α} {a : α} (h : m.onRows rows = (some (.ok a), rows))
    (f : α → Script Empty β) : Ends (m >>= f) rows ↔ Ends (f a) rows := by
  unfold Ends
  rw [Script.onRows_bind_of_ok h]

theorem ends_viewTable (path : String) (f : Bool → Script Empty β) :
    Ends (viewTable last path >>= f) rows ↔
      Ends (f ((last.getD rows) ⟨sysTables, ascii path⟩).isSome) rows :=
  ends_bind_of_ok (viewTable_onRows last path rows) f

theorem ends_setMethodAuth_iff {data : Bytes} {sender name : String} {func : String32}
    {account : Address} (isClose : Bool)
    (hdata : c.decodeAccount data = some (name, func, account)) :
    Ends (setMethodAuth c.toAuthCodec last data isClose sender) rows ↔
      (TableThere rows (getAuthTableName name) →
        TableThere (last.getD rows) (getAuthTableName name)) := by
  unfold setMethodAuth
  simp only [hdata]
  rw [ends_bind_of_ok (Script.onRows_openTable _ rows)]
  by_cases htable : TableThere rows (getAuthTableName name)
  · rw [htable.guard, forall_prop_of_true htable]
    obtain ⟨hview, hout⟩ | ⟨hview, authType, hout, -⟩ := getMethodAuthType_cases c.toAuthCodec
      last (getAuthTableName name) (selectorOf func) rows
    · refine iff_of_false (fun hends => ?_) hview
      unfold Ends at hends
      rw [Script.onRows_bind, hout] at hends
      exact Bool.false_ne_true hends
    · rw [ends_bind_of_ok hout]
      refine iff_of_true ?_ hview
      split
      · exact ends_pure _
      · refine ends_bind (ends_isAdmin _ _ _ _) fun isAdmin rows₁ => ?_
        split
        · exact ends_pure _
        · cases listRow authType with
          | none => exact ends_pure _
          | some typeRow =>
            refine ends_bind (ends_getRow _ _) fun row rows₂ => ?_
            split
            · rfl
            · cases c.methodAuth.decode (row.getD []) with
              | none => rfl
              | some m => rfl
  · rw [guard_of_not_there htable]
    exact iff_of_true (ends_pure _) fun h => absurd h htable

theorem ends_checkMethodAuth (data : Bytes) : Ends (checkMethodAuthOf c last data) rows := by
  unfold checkMethodAuthOf checkMethodAuth
  cases c.decodeAccount data with
  | none => exact ends_throw _
  | some decoded =>
    obtain ⟨name, func, account⟩ := decoded
    dsimp only
    rw [ends_viewTable]
    obtain ⟨hview, -⟩ | ⟨hview, authType, hout, -⟩ := getMethodAuthType_cases c.toAuthCodec last
      (getAuthTableName name) (selectorOf func) rows
    · rw [guard_of_not_there hview]
      exact ends_pure _
    · rw [hview.guard, ends_bind_of_ok hout]
      split
      · exact ends_pure _
      · cases listRow authType with
        | none => exact ends_pure _
        | some typeRow =>
          dsimp only
          rw [ends_bind_of_ok (viewRow_onRows last _ _ rows)]
          split
          · exact ends_pure _
          · cases c.methodAuth.decode
              (((last.getD rows) ⟨getAuthTableName name, typeRow⟩).getD []) with
            | none => exact ends_throw _
            | some m =>
              dsimp only
              cases m.lookup (selectorOf func) with
              | none => exact ends_pure _
              | some accounts =>
                dsimp only
                cases accounts.lookup account with
                | none => exact ends_pure _
                | some access => exact ends_pure _

theorem ends_setDeployAuth {data : Bytes} {sender : String} (isClose : Bool)
    (hview : AppsThere (last.getD rows)) (hrows : AppsThere rows) :
    Ends (setDeployAuth c.toAuthCodec last data isClose sender) rows := by
  unfold setDeployAuth
  cases c.decodeDeployAccount data with
  | none => exact ends_throw _
  | some account =>
    dsimp only
    split
    · exact ends_pure _
    · rw [ends_bind_of_ok (Script.onRows_openTable _ rows),
        ends_bind_of_ok (getDeployAuthType_apps _ hview), hrows.table, if_neg (by decide)]
      obtain ⟨field, hfield⟩ := hrows.acl_ite
        ((deployTypeOf c.toAuthCodec (last.getD rows) : Int) = BLACK_LIST_MODE) (.inr rfl) (.inl rfl)
      rw [ends_bind_of_ok (Script.onRows_get _ _ rows), hfield]
      unfold present
      dsimp only
      split
      · rfl
      · cases c.acl.decode field with
        | none => exact ends_throw _
        | some m => rfl

theorem ends_hasDeployAuth {data : Bytes} (hview : AppsThere (last.getD rows)) :
    Ends (hasDeployAuth c last data) rows := by
  unfold hasDeployAuth checkDeployAuth
  cases c.decodeDeployAccount data with
  | none => exact ends_throw _
  | some account =>
    dsimp only
    rw [ends_viewTable, ends_bind_of_ok (getDeployAuthType_apps _ hview)]
    split
    · exact ends_pure _
    · rw [hview.table, if_neg (by decide)]
      obtain ⟨field, hfield⟩ := hview.acl_ite
        ((deployTypeOf c.toAuthCodec (last.getD rows) : Int) = WHITE_LIST_MODE) (.inl rfl) (.inr rfl)
      rw [ends_bind_of_ok (viewRow_onRows last _ _ rows), hfield]
      unfold present
      dsimp only
      split
      · exact ends_pure _
      · cases c.acl.decode field with
        | none => exact ends_throw _
        | some m =>
          dsimp only
          cases m.lookup account with
          | none => exact ends_pure _
          | some access => exact ends_pure _

theorem ends_map {m : Script Empty α} (h : Ends m rows) (f : α → β) :
    Ends (m >>= fun a => pure (f a)) rows :=
  ends_bind h fun _ _ => ends_pure _

theorem ends_map_iff (m : Script Empty α) (f : α → β) (rows : Rows) :
    Ends (m >>= fun a => pure (f a)) rows ↔ Ends m rows := by
  refine ⟨fun h => ?_, fun h => ends_map h f⟩
  unfold Ends at h ⊢
  rw [Script.onRows_bind] at h
  rcases hm : m.onRows rows with ⟨_ | x | a, rows'⟩
  · rw [hm] at h
    exact h
  · rfl
  · rfl

/-- Which calls end without the use of what is not there. -/
theorem call_ends_iff (hview : AppsThere (last.getD rows)) (hrows : AppsThere rows)
    {method : AuthorityMethod} {data : Bytes} (hdata : Decodable c method data) (sender : String) :
    Ends (call c last method data sender) rows ↔ InView c (last.getD rows) rows method data := by
  have hfree (hmethod : ¬(method = .openMethodAuth ∨ method = .closeMethodAuth)) :
      InView c (last.getD rows) rows method data := fun h => absurd h hmethod
  cases method with
  | getAdmin => exact iff_of_true (ends_map (ends_getAdmin data) _) (hfree (by decide))
  | resetAdmin =>
    exact iff_of_true (ends_map (ends_of_answers (answers_resetAdmin hdata)) _) (hfree (by decide))
  | setMethodAuthType =>
    exact iff_of_true (ends_map (ends_setMethodAuthType data sender) _) (hfree (by decide))
  | openMethodAuth =>
    obtain ⟨⟨name, func, account⟩, hname⟩ := Option.isSome_iff_exists.mp hdata
    refine (ends_map_iff _ _ rows).trans ((ends_setMethodAuth_iff false hname).trans ?_)
    unfold InView
    rw [forall_prop_of_true (Or.inl rfl), forall_decoded hname]
  | closeMethodAuth =>
    obtain ⟨⟨name, func, account⟩, hname⟩ := Option.isSome_iff_exists.mp hdata
    refine (ends_map_iff _ _ rows).trans ((ends_setMethodAuth_iff true hname).trans ?_)
    unfold InView
    rw [forall_prop_of_true (Or.inr rfl), forall_decoded hname]
  | checkMethodAuth =>
    exact iff_of_true (ends_map (ends_checkMethodAuth data) _) (hfree (by decide))
  | getDeployType =>
    refine iff_of_true (ends_map (ends_of_answers ?_) _) (hfree (by decide))
    exact answers_of_ok (getDeployAuthType_apps _ hview)
  | setDeployType =>
    refine iff_of_true (ends_map (ends_of_answers ?_) _) (hfree (by decide))
    exact answers_setDeployType hrows hdata
  | openDeployAuth =>
    exact iff_of_true (ends_map (ends_setDeployAuth false hview hrows) _) (hfree (by decide))
  | closeDeployAuth =>
    exact iff_of_true (ends_map (ends_setDeployAuth true hview hrows) _) (hfree (by decide))
  | hasDeployAuth => exact iff_of_true (ends_map (ends_hasDeployAuth hview) _) (hfree (by decide))

/-- With the directory of the contracts in both storages, a decodable call is answered exactly
when what it manages is in the storage of the last block too and what it converts can be
converted; and the former alone decides whether something is used that is not there. -/
theorem authority_total_iff (c : AuthorityCodec) (last : Option Rows) {rows : Rows}
    (hview : AppsThere (last.getD rows)) (hrows : AppsThere rows) {method : AuthorityMethod}
    {data : Bytes} (hdata : Decodable c method data) (sender : String) :
    (Answers (call c last method data sender) rows ↔
        InView c (last.getD rows) rows method data ∧
          Converts c (last.getD rows) rows method data sender) ∧
      (Ends (call c last method data sender) rows ↔
        InView c (last.getD rows) rows method data) :=
  ⟨call_answers_iff hview hrows hdata sender, call_ends_iff hview hrows hdata sender⟩

/-- The parameters as SCALE has them while all lengths are below 64. -/
def authorityCodec : AuthorityCodec :=
  { scaleCodec with
    decodePath := fun data => (PrefixCode.byte.list.decode data).map fun (name, _) =>
      bytesToString name
    decodeReset := fun data => do
      let (name, data) ← PrefixCode.byte.list.decode data
      let (admin, _) ← (PrefixCode.byte.fixed 20).decode data
      some (bytesToString name, admin)
    hex := fun account => ascii (toHex account.val) }

theorem appsThere_genesisRows : AppsThere DeployChain.genesisRows where
  table := rfl
  type := rfl
  white := rfl
  black := rfl

/-- The rows of the block in which the contract `c` is deployed. -/
def deployedRows : Rows :=
  keptRows (TransactionExecutive.createTables
    { evmEnvironment with isWasm := true, isAuthCheck := true }
    { codeAddress := "c", origin := MethodChain.adminOne, senderAddress := MethodChain.adminOne,
      type := .message, create := true } "/apps/c") DeployChain.genesisRows

theorem appsThere_deployedRows : AppsThere deployedRows where
  table := by decide
  type := by decide
  white := by decide
  black := by decide

theorem authority_total_iff_deployed :
    (Answers (call authorityCodec (some DeployChain.genesisRows) .openMethodAuth
        (MethodChain.accountData 1 7) MethodChain.adminOne) deployedRows ↔
      InView authorityCodec DeployChain.genesisRows deployedRows .openMethodAuth
          (MethodChain.accountData 1 7) ∧
        Converts authorityCodec DeployChain.genesisRows deployedRows .openMethodAuth
          (MethodChain.accountData 1 7) MethodChain.adminOne) ∧
      (Ends (call authorityCodec (some DeployChain.genesisRows) .openMethodAuth
          (MethodChain.accountData 1 7) MethodChain.adminOne) deployedRows ↔
        InView authorityCodec DeployChain.genesisRows deployedRows .openMethodAuth
          (MethodChain.accountData 1 7)) :=
  authority_total_iff authorityCodec (some DeployChain.genesisRows) appsThere_genesisRows
    appsThere_deployedRows (by unfold Decodable; decide) _

/-- The access table of the new contract is looked for in the last block. -/
theorem not_total_deployed : ¬∀ (last : Option Rows) (rows : Rows), AppsThere (last.getD rows) →
    AppsThere rows → ∀ method data sender, Decodable authorityCodec method data →
      Answers (call authorityCodec last method data sender) rows := by
  intro h
  have hanswers := h (some DeployChain.genesisRows) deployedRows appsThere_genesisRows
    appsThere_deployedRows .openMethodAuth (MethodChain.accountData 1 7) MethodChain.adminOne
    (by unfold Decodable; decide)
  unfold Answers at hanswers
  revert hanswers
  decide

end ContractAuth

end BcosExecutor
