import BcosExecutor.AuthorityCalls

namespace BcosExecutor

open ContractAuth
open TransactionExecutive (createTables creatAuthTable getContractTableName)
open Runs (Always)

def accessTable (tableName : String) : String :=
  tableName ++ CONTRACT_SUFFIX

def InSys (tableName : String) : Bool :=
  "/sys/".toList.isPrefixOf tableName.toList

/-- The rows, the tables of the contracts that were created, which of them lie outside of `/sys`
and are from system contracts, and the admin that is due to each. -/
structure CreationState where
  rows : Rows
  created : List String
  bySys : List String
  admin : String → Option Bytes

/-- With the states that may still be gone back to. -/
structure CreationChain where
  now : CreationState
  saved : List CreationState

inductive CreationEvent
  | create (p : CallParameters)
  | resetAdmin (data : Bytes) (sender : String)
  | write (row : StateRow) (entry : Option Entry)
  | save
  | restore

namespace CreationState

variable (env : Environment) (c : AuthorityCodec)

def creator (p : CallParameters) : String :=
  getContractTableName env.toBlockContext p.senderAddress

def newTable (p : CallParameters) : String :=
  getContractTableName env.toBlockContext p.codeAddress

def creation (p : CallParameters) : Script Empty Unit :=
  createTables env p (newTable env p)

/-- Whoever creates is the origin, a system contract or a contract that has been created. -/
def CanCreate (s : CreationState) (p : CallParameters) : Prop :=
  p.senderAddress = p.origin ∨ InSys (creator env p) = true ∨ creator env p ∈ s.created

instance (s : CreationState) (p : CallParameters) : Decidable (s.CanCreate env p) :=
  inferInstanceAs (Decidable (_ ∨ _ ∨ _))

/-- The admin that is due to the new contract. -/
def dueAdmin (s : CreationState) (p : CallParameters) : Option Bytes :=
  if p.senderAddress = p.origin then some (ascii p.origin) else s.admin (creator env p)

def create (s : CreationState) (p : CallParameters) : CreationState :=
  if s.CanCreate env p then
    match (creation env p).onRows s.rows with
    | (some (.ok ()), rows) =>
      { rows
        created := newTable env p :: s.created
        bySys := if InSys (newTable env p) = false ∧ InSys (creator env p) = true then
          newTable env p :: s.bySys else s.bySys
        admin := Function.update s.admin (newTable env p) (s.dueAdmin env p) }
    | _ => s
  else s

def resetAdmin (s : CreationState) (data : Bytes) (sender : String) : CreationState :=
  let program : Script Empty Int := ContractAuth.resetAdmin c data sender
  { s with
    rows := keptRows program s.rows
    admin :=
      match c.decodeReset data with
      | some (name, admin) =>
        if succeeded (program.onRows s.rows).1 then
          Function.update s.admin ("/apps/" ++ name) (some (c.hex admin))
        else s.admin
      | none => s.admin }

/-- Anything else takes away no table and writes no admin. -/
def write (s : CreationState) (row : StateRow) (entry : Option Entry) : CreationState :=
  if (row.table = sysTables → entry.isSome) ∧
      ∀ name ∈ s.created, row ≠ ⟨accessTable name, ADMIN_FIELD⟩ then
    { s with rows := Function.update s.rows row entry }
  else s

end CreationState

namespace CreationChain

variable (env : Environment) (c : AuthorityCodec)

def start (rows : Rows) : CreationChain :=
  ⟨⟨rows, [], [], fun _ => none⟩, []⟩

def step (s : CreationChain) : CreationEvent → CreationChain
  | .create p => { s with now := s.now.create env p }
  | .resetAdmin data sender => { s with now := s.now.resetAdmin c data sender }
  | .write row entry => { s with now := s.now.write row entry }
  | .save => { s with saved := s.now :: s.saved }
  | .restore =>
    match s.saved with
    | [] => s
    | before :: saved => ⟨before, saved⟩

end CreationChain

namespace CreationState

variable (env : Environment)

/-- The access table is there, with the admin that is due. -/
structure HasAdmin (s : CreationState) (name : String) : Prop where
  table : TableThere s.rows (accessTable name)
  admin : ∃ admin, s.admin name = some admin ∧
    s.rows ⟨accessTable name, ADMIN_FIELD⟩ = some admin

/-- The admin of the creator can be looked up. -/
def LooksUp (s : CreationState) (p : CallParameters) : Prop :=
  s.CanCreate env p → ((creation env p).onRows s.rows).1.isSome

/-- The creation has left alone what is called like the access table of the new contract. -/
def NoAccessTable (s : CreationState) (p : CallParameters) : Prop :=
  ((s.create env p).rows ⟨sysTables, ascii (accessTable (newTable env p))⟩ =
      s.rows ⟨sysTables, ascii (accessTable (newTable env p))⟩) ∧
    ∀ key, (s.create env p).rows ⟨accessTable (newTable env p), key⟩ =
      s.rows ⟨accessTable (newTable env p), key⟩

end CreationState

namespace CreationChain

open CreationState

variable (env : Environment) (c : AuthorityCodec)

/-- All contracts outside of `/sys` inherit, and every lookup of an admin succeeds. -/
def AllInherit (s : CreationChain) (e : CreationEvent) : Prop :=
  (∀ p, e = .create p → s.now.LooksUp env p) ∧
    ∀ name ∈ (s.step env c e).now.created, InSys name = false →
      (s.step env c e).now.HasAdmin name

/-- All but those that system contracts create, which get no access table, inherit. -/
def Inherit (s : CreationChain) (e : CreationEvent) : Prop :=
  (∀ p, e = .create p → s.now.LooksUp env p ∧
      (InSys (creator env p) = true → s.now.NoAccessTable env p)) ∧
    ∀ name ∈ (s.step env c e).now.created, InSys name = false →
      name ∉ (s.step env c e).now.bySys → (s.step env c e).now.HasAdmin name

/-- No contract that a system contract created creates one outside of `/sys`. -/
def CreatorsManaged (s : CreationChain) (e : CreationEvent) : Prop :=
  ∀ p, e = .create p → p.senderAddress ≠ p.origin → InSys (newTable env p) = false →
    creator env p ∉ s.now.bySys

end CreationChain

namespace CreationState

variable {env : Environment} {c : AuthorityCodec} {s : CreationState} {rows : Rows}

theorem accessTable_ne (context : BlockContext) (address : String) :
    accessTable (getContractTableName context address) ≠ sysTables := by
  unfold accessTable getContractTableName
  dsimp only
  split
  · rw [String.append_assoc]
    exact rooted_ne (rooted_append (by unfold Rooted; decide) _)
  · rw [String.append_assoc]
    exact rooted_ne (rooted_append (by unfold Rooted; decide) _)

theorem accessTable_injective {a b : String} (h : accessTable a = accessTable b) : a = b := by
  have hlist := congrArg String.toList h
  unfold accessTable at hlist
  simp only [String.toList_append] at hlist
  exact String.toList_injective (List.append_cancel_right hlist)

/-- The bytes of the longer name are longer. -/
theorem ascii_accessTable_ne (name : String) : ascii (accessTable name) ≠ ascii name := by
  intro h
  have hlength := congrArg List.length h
  unfold ascii accessTable at hlength
  rw [List.length_map, List.length_map, String.toList_append, List.length_append] at hlength
  have hpos : 0 < CONTRACT_SUFFIX.toList.length := by decide
  omega

/-- The rows with a new access table. -/
def withAccessTable (rows : Rows) (table : String) (admin : Bytes) : Rows :=
  Function.update (Function.update (Function.update (Function.update (Function.update rows
    ⟨sysTables, ascii table⟩ (some (ascii STORAGE_VALUE)))
    ⟨table, ADMIN_FIELD⟩ (some admin)) ⟨table, METHOD_AUTH_TYPE⟩ (some []))
    ⟨table, METHOD_AUTH_WHITE⟩ (some [])) ⟨table, METHOD_AUTH_BLACK⟩ (some [])

theorem createTable_onRows (table fields : String) (rows : Rows) :
    (createTable table fields : Script Empty Unit).onRows rows =
      if TableThere rows table then
        (some (.error (.error (-1) ("Table already exists: " ++ table))), rows)
      else (some (.ok ()), Function.update rows ⟨sysTables, ascii table⟩ (some (ascii fields))) := by
  unfold createTable
  rw [Script.onRows_bind]
  by_cases htable : TableThere rows table
  · rw [if_pos htable, htable.onRows_openTable]
    rfl
  · rw [if_neg htable, onRows_openTable_gone htable]
    rfl

/-- Where the creation of an access table is given up, looks up no admin, or finds its name in
use or free. -/
theorem creatAuthTable_cases (context : BlockContext) (name origin sender : String)
    (rows : Rows) :
    (InSys name || InSys (getContractTableName context sender)) = true ∧
        (creatAuthTable context name origin sender : Script Empty Unit).onRows rows =
          (some (.ok ()), rows) ∨
      (InSys name || InSys (getContractTableName context sender)) = false ∧
        (sender ≠ origin ∧
            rows ⟨accessTable (getContractTableName context sender), ADMIN_FIELD⟩ = none ∧
            (creatAuthTable context name origin sender : Script Empty Unit).onRows rows =
              (none, rows) ∨
          ∃ admin, (if sender = origin then some (ascii sender)
              else rows ⟨accessTable (getContractTableName context sender), ADMIN_FIELD⟩) =
                some admin ∧
            (creatAuthTable context name origin sender : Script Empty Unit).onRows rows =
              if TableThere rows (accessTable name) then
                (some (.error (.error (-1) ("Table already exists: " ++ accessTable name))), rows)
              else (some (.ok ()), withAccessTable rows (accessTable name) admin)) := by
  have hcreate (admin : Bytes) : (do
        createTable (accessTable name) STORAGE_VALUE
        setRow (accessTable name) ADMIN_FIELD admin
        setRow (accessTable name) METHOD_AUTH_TYPE []
        setRow (accessTable name) METHOD_AUTH_WHITE []
        setRow (accessTable name) METHOD_AUTH_BLACK [] : Script Empty Unit).onRows rows =
      if TableThere rows (accessTable name) then
        (some (.error (.error (-1) ("Table already exists: " ++ accessTable name))), rows)
      else (some (.ok ()), withAccessTable rows (accessTable name) admin) := by
    rw [Script.onRows_bind, createTable_onRows]
    by_cases htable : TableThere rows (accessTable name)
    · rw [if_pos htable, if_pos htable]
    · rw [if_neg htable, if_neg htable]
      rfl
  unfold accessTable at hcreate ⊢
  unfold creatAuthTable InSys
  dsimp only
  by_cases hsys : ("/sys/".toList.isPrefixOf name.toList ||
      "/sys/".toList.isPrefixOf (getContractTableName context sender).toList) = true
  · exact Or.inl ⟨hsys, by rw [if_pos hsys]; rfl⟩
  · refine Or.inr ⟨Bool.eq_false_iff.mpr hsys, ?_⟩
    rw [if_neg hsys]
    by_cases horigin : sender = origin
    · refine Or.inr ⟨ascii sender, if_pos horigin, ?_⟩
      rw [if_neg (not_not.mpr horigin), Script.onRows_bind]
      exact hcreate _
    · rw [if_pos horigin, if_neg horigin, Script.onRows_bind, Script.onRows_get]
      dsimp only
      cases hadmin : rows ⟨getContractTableName context sender ++ CONTRACT_SUFFIX,
          ADMIN_FIELD⟩ with
      | none => exact Or.inl ⟨horigin, rfl, rfl⟩
      | some admin => exact Or.inr ⟨admin, rfl, hcreate admin⟩

/-- The rows with the table of a new contract. -/
def withContract (rows : Rows) (name : String) : Rows :=
  Function.update rows ⟨sysTables, ascii name⟩ (some (ascii STORAGE_VALUE))

theorem creation_onRows (hauth : env.isAuthCheck = true) (p : CallParameters) (rows : Rows) :
    (creation env p).onRows rows =
      if TableThere rows (newTable env p) then
        (some (.error (.error (-1) ("Table already exists: " ++ newTable env p))), rows)
      else (creatAuthTable env.toBlockContext (newTable env p) p.origin p.senderAddress :
        Script Empty Unit).onRows (withContract rows (newTable env p)) := by
  unfold creation createTables
  rw [Script.onRows_bind, createTable_onRows, hauth, if_pos rfl]
  by_cases htable : TableThere rows (newTable env p)
  · rw [if_pos htable, if_pos htable]
  · rw [if_neg htable, if_neg htable]
    rfl

theorem withContract_access (rows : Rows) (name address : String) (context : BlockContext)
    (key : Bytes) :
    withContract rows name ⟨accessTable (getContractTableName context address), key⟩ =
      rows ⟨accessTable (getContractTableName context address), key⟩ := by
  unfold withContract
  refine Function.update_of_ne (fun h => ?_) _ _
  exact accessTable_ne context address (congrArg StateRow.table h)

theorem withContract_table_access (rows : Rows) (name : String) :
    withContract rows name ⟨sysTables, ascii (accessTable name)⟩ =
      rows ⟨sysTables, ascii (accessTable name)⟩ := by
  unfold withContract
  refine Function.update_of_ne (fun h => ?_) _ _
  exact ascii_accessTable_ne name (congrArg StateRow.key h)

/-- What a creation with the authority check comes to. -/
inductive Creates (env : Environment) (rows : Rows) (p : CallParameters) :
    Option (Except Exc Unit) × Rows → Prop
  | refused (e : Exc) (rows' : Rows) : Creates env rows p (some (.error e), rows')
  | plain (hsys : (InSys (newTable env p) || InSys (creator env p)) = true)
      (hfree : ¬TableThere rows (newTable env p)) :
      Creates env rows p (some (.ok ()), withContract rows (newTable env p))
  | unknown (hsys : (InSys (newTable env p) || InSys (creator env p)) = false)
      (horigin : p.senderAddress ≠ p.origin)
      (hadmin : rows ⟨accessTable (creator env p), ADMIN_FIELD⟩ = none) (rows' : Rows) :
      Creates env rows p (none, rows')
  | managed (hsys : (InSys (newTable env p) || InSys (creator env p)) = false)
      (hfree : ¬TableThere rows (newTable env p)) (admin : Bytes)
      (hadmin : (if p.senderAddress = p.origin then some (ascii p.origin)
        else rows ⟨accessTable (creator env p), ADMIN_FIELD⟩) = some admin) :
      Creates env rows p (some (.ok ()), withAccessTable (withContract rows (newTable env p))
        (accessTable (newTable env p)) admin)

theorem creates (hauth : env.isAuthCheck = true) (p : CallParameters) (rows : Rows) :
    Creates env rows p ((creation env p).onRows rows) := by
  rw [creation_onRows hauth]
  by_cases htable : TableThere rows (newTable env p)
  · rw [if_pos htable]
    exact .refused _ _
  · rw [if_neg htable]
    obtain ⟨hsys, hout⟩ | ⟨hsys, ⟨horigin, hadmin, hout⟩ | ⟨admin, hadmin, hout⟩⟩ :=
      creatAuthTable_cases env.toBlockContext (newTable env p) p.origin p.senderAddress
        (withContract rows (newTable env p))
    · rw [hout]
      exact .plain hsys htable
    · rw [hout]
      rw [withContract_access] at hadmin
      exact .unknown hsys horigin hadmin _
    · rw [hout]
      rw [withContract_access] at hadmin
      split
      · exact .refused _ _
      · refine .managed hsys htable admin ?_
        by_cases horigin : p.senderAddress = p.origin
        · rw [if_pos horigin] at hadmin ⊢
          rw [← horigin]
          exact hadmin
        · rw [if_neg horigin] at hadmin ⊢
          exact hadmin

/-- The invariant of the chain. -/
structure Sound (s : CreationState) : Prop where
  named : ∀ name ∈ s.created, accessTable name ≠ sysTables
  tables : ∀ name ∈ s.created, TableThere s.rows name
  managed : ∀ name ∈ s.created, InSys name = false → name ∉ s.bySys → s.HasAdmin name

theorem tableThere_update {name : String} (h : TableThere rows name) (row : StateRow)
    (entry : Entry) : TableThere (Function.update rows row (some entry)) name := by
  unfold TableThere
  by_cases hrow : (⟨sysTables, ascii name⟩ : StateRow) = row
  · rw [hrow, Function.update_self]
    rfl
  · rw [Function.update_of_ne hrow]
    exact h

theorem tableThere_withContract {name : String} (h : TableThere rows name) (table : String) :
    TableThere (withContract rows table) name :=
  tableThere_update h _ _

theorem tableThere_withContract_self (rows : Rows) (table : String) :
    TableThere (withContract rows table) table := by
  unfold TableThere withContract
  rw [Function.update_self]
  rfl

theorem tableThere_withAccessTable {name : String} (h : TableThere rows name) (table : String)
    (admin : Bytes) : TableThere (withAccessTable rows table admin) name := by
  unfold withAccessTable
  iterate 4 apply tableThere_update
  exact tableThere_update h _ _

theorem tableThere_withAccessTable_self (rows : Rows) (table : String) (admin : Bytes) :
    TableThere (withAccessTable rows table admin) table := by
  unfold withAccessTable
  iterate 4 apply tableThere_update
  exact tableThere_withContract_self rows table

theorem withAccessTable_admin (rows : Rows) (table : String) (admin : Bytes) :
    withAccessTable rows table admin ⟨table, ADMIN_FIELD⟩ = some admin := by
  unfold withAccessTable
  rw [Function.update_of_ne, Function.update_of_ne, Function.update_of_ne, Function.update_self]
  · exact fun h => (by decide : ADMIN_FIELD ≠ METHOD_AUTH_TYPE) (congrArg StateRow.key h)
  · exact fun h => (by decide : ADMIN_FIELD ≠ METHOD_AUTH_WHITE) (congrArg StateRow.key h)
  · exact fun h => (by decide : ADMIN_FIELD ≠ METHOD_AUTH_BLACK) (congrArg StateRow.key h)

theorem withAccessTable_of_ne {table name : String} (hsys : name ≠ sysTables)
    (hname : name ≠ table) (rows : Rows) (admin key : Bytes) :
    withAccessTable rows table admin ⟨name, key⟩ = rows ⟨name, key⟩ := by
  have hne (key' : Bytes) : (⟨name, key⟩ : StateRow) ≠ ⟨table, key'⟩ :=
    fun h => hname (congrArg StateRow.table h)
  unfold withAccessTable
  rw [Function.update_of_ne (hne _), Function.update_of_ne (hne _), Function.update_of_ne (hne _),
    Function.update_of_ne (hne _), Function.update_of_ne fun h => hsys (congrArg StateRow.table h)]

theorem create_cases (env : Environment) (s : CreationState) (p : CallParameters) :
    s.create env p = s ∨ s.CanCreate env p ∧ ∃ rows,
      (creation env p).onRows s.rows = (some (.ok ()), rows) ∧
      s.create env p =
        { rows
          created := newTable env p :: s.created
          bySys := if InSys (newTable env p) = false ∧ InSys (creator env p) = true then
            newTable env p :: s.bySys else s.bySys
          admin := Function.update s.admin (newTable env p) (s.dueAdmin env p) } := by
  unfold create
  by_cases hcan : s.CanCreate env p
  · rw [if_pos hcan]
    split
    next rows hout => exact Or.inr ⟨hcan, rows, hout, rfl⟩
    next => exact Or.inl rfl
  · rw [if_neg hcan]
    exact Or.inl rfl

theorem resetAdmin_onRows {data : Bytes} {name : String} {admin : Address}
    (hdata : c.decodeReset data = some (name, admin)) (rows : Rows) :
    (ContractAuth.resetAdmin c data c.committee : Script Empty Int).onRows rows =
      if TableThere rows (getAuthTableName name) ∧
          (rows ⟨getAuthTableName name, ADMIN_FIELD⟩).isSome then
        (some (.ok CODE_SUCCESS),
          Function.update rows ⟨getAuthTableName name, ADMIN_FIELD⟩ (some (c.hex admin)))
      else
        (some (.error (.precompiledError (some "Contract address not found."))), rows) := by
  unfold ContractAuth.resetAdmin
  rw [hdata]
  dsimp only
  rw [if_neg (not_not.mpr rfl), Script.onRows_bind, Script.onRows_openTable]
  dsimp only
  rw [Script.onRows_bind, Script.onRows_get]
  dsimp only
  by_cases hthere : TableThere rows (getAuthTableName name) ∧
      (rows ⟨getAuthTableName name, ADMIN_FIELD⟩).isSome
  · rw [if_pos hthere, if_neg]
    · rfl
    · rw [hthere.1, Bool.not_true, Bool.false_or, Option.isNone_iff_eq_none]
      exact Option.isSome_iff_ne_none.mp hthere.2
  · rw [if_neg hthere, if_pos]
    · rfl
    · rw [Bool.or_eq_true, Bool.not_eq_true', Option.isNone_iff_eq_none,
        ← Option.not_isSome_iff_eq_none, ← Bool.not_eq_true]
      exact not_and_or.mp hthere

theorem resetAdmin_cases (s : CreationState) (data : Bytes) (sender : String) :
    s.resetAdmin c data sender = s ∨ ∃ name admin, s.resetAdmin c data sender =
      { s with
        rows := Function.update s.rows ⟨accessTable name, ADMIN_FIELD⟩ (some admin)
        admin := Function.update s.admin name (some admin) } := by
  unfold resetAdmin keptRows
  cases hdata : c.decodeReset data with
  | none =>
    left
    unfold ContractAuth.resetAdmin
    rw [hdata]
    rfl
  | some reset =>
    obtain ⟨name, admin⟩ := reset
    by_cases hsender : sender = c.committee
    · rw [hsender]
      dsimp only
      have hrun := resetAdmin_onRows hdata s.rows
      split at hrun
      · right
        refine ⟨"/apps/" ++ name, c.hex admin, ?_⟩
        simp only [hrun]
        rfl
      · left
        simp only [hrun]
        rfl
    · left
      have hrun : (ContractAuth.resetAdmin c data sender : Script Empty Int).onRows s.rows =
          (some (.ok CODE_NO_AUTHORIZED), s.rows) := by
        unfold ContractAuth.resetAdmin
        rw [hdata]
        dsimp only
        rw [if_pos hsender]
        rfl
      simp only [hrun]
      rfl

theorem hasAdmin_of_eq {s s' : CreationState} {name : String} (h : s.HasAdmin name)
    (htable : TableThere s'.rows (accessTable name)) (hadmin : s'.admin name = s.admin name)
    (hrow : s'.rows ⟨accessTable name, ADMIN_FIELD⟩ = s.rows ⟨accessTable name, ADMIN_FIELD⟩) :
    s'.HasAdmin name := by
  refine ⟨htable, ?_⟩
  rw [hadmin, hrow]
  exact h.admin

theorem dueAdmin_eq (hs : s.Sound) {p : CallParameters} (hcan : s.CanCreate env p)
    (hsys : InSys (creator env p) = false)
    (hmanaged : p.senderAddress ≠ p.origin → creator env p ∉ s.bySys) :
    ∃ admin, s.dueAdmin env p = some admin ∧
      (if p.senderAddress = p.origin then some (ascii p.origin)
        else s.rows ⟨accessTable (creator env p), ADMIN_FIELD⟩) = some admin := by
  unfold dueAdmin
  by_cases horigin : p.senderAddress = p.origin
  · rw [if_pos horigin, if_pos horigin]
    exact ⟨_, rfl, rfl⟩
  · rw [if_neg horigin, if_neg horigin]
    have hmem : creator env p ∈ s.created := by
      rcases hcan with h | h | h
      · exact absurd h horigin
      · rw [hsys] at h
        cases h
      · exact h
    exact (hs.managed _ hmem hsys (hmanaged horigin)).admin

/-- A new contract beside those that are there, whose tables and admins stay. -/
theorem sound_added (hs : s.Sound) {name : String} {bySys : List String} {due : Option Bytes}
    (hname : accessTable name ≠ sysTables) (hfree : ¬TableThere s.rows name)
    (hby : ∀ other ∈ s.bySys, other ∈ bySys) (hself : TableThere rows name)
    (hstays : ∀ other, TableThere s.rows other → TableThere rows other)
    (hkept : ∀ other ∈ s.created, other ≠ name →
      rows ⟨accessTable other, ADMIN_FIELD⟩ = s.rows ⟨accessTable other, ADMIN_FIELD⟩)
    (hnew : InSys name = false → name ∉ bySys → TableThere rows (accessTable name) ∧
      ∃ admin, due = some admin ∧ rows ⟨accessTable name, ADMIN_FIELD⟩ = some admin) :
    CreationState.Sound
      { rows
        created := name :: s.created
        bySys
        admin := Function.update s.admin name due } := by
  refine ⟨List.forall_mem_cons.mpr ⟨hname, hs.named⟩, List.forall_mem_cons.mpr ⟨hself, ?_⟩,
    List.forall_mem_cons.mpr ⟨fun hout hnotBy => ?_, ?_⟩⟩
  · exact fun other hother => hstays other (hs.tables other hother)
  · obtain ⟨htable, admin, hdue, hrow⟩ := hnew hout hnotBy
    exact ⟨htable, admin, (Function.update_self _ _ _).trans hdue, hrow⟩
  · intro other hother hout hnotBy
    have hadmin := hs.managed other hother hout fun h => hnotBy (hby other h)
    have hne : other ≠ name := fun h => hfree (h ▸ hs.tables other hother)
    exact hasAdmin_of_eq hadmin (hstays _ hadmin.table) (Function.update_of_ne hne _ _)
      (hkept other hother hne)

theorem sound_create (hauth : env.isAuthCheck = true) (hs : s.Sound) {p : CallParameters}
    (hmanaged : p.senderAddress ≠ p.origin → InSys (newTable env p) = false →
      creator env p ∉ s.bySys) : (s.create env p).Sound := by
  obtain heq | ⟨hcan, rows, hout, heq⟩ := create_cases env s p
  · rw [heq]
    exact hs
  · rw [heq]
    have hcreates := creates hauth p s.rows
    have hname : accessTable (newTable env p) ≠ sysTables := accessTable_ne _ _
    have hcontract (other : String) (hother : other ∈ s.created) :
        withContract s.rows (newTable env p) ⟨accessTable other, ADMIN_FIELD⟩ =
          s.rows ⟨accessTable other, ADMIN_FIELD⟩ :=
      Function.update_of_ne (fun h => hs.named other hother (congrArg StateRow.table h)) _ _
    rw [hout] at hcreates
    cases hcreates with
    | plain hsys hfree =>
      refine sound_added hs hname hfree (fun other hother => ?_) (tableThere_withContract_self _ _)
        (fun other h => tableThere_withContract h _) (fun other hother _ => hcontract other hother)
        fun hnew hnotBy => ?_
      · split
        · exact List.mem_cons_of_mem _ hother
        · exact hother
      · rw [hnew, Bool.false_or] at hsys
        rw [if_pos ⟨hnew, hsys⟩] at hnotBy
        exact absurd List.mem_cons_self hnotBy
    | managed hsys hfree admin hadmin =>
      obtain ⟨hnew, hcreator⟩ := Bool.or_eq_false_iff.mp hsys
      have hdue : s.dueAdmin env p = some admin := by
        obtain ⟨admin', hdue, hrow⟩ :=
          dueAdmin_eq hs hcan hcreator fun horigin => hmanaged horigin hnew
        rw [hdue, ← hrow, hadmin]
      have hnotSys : ¬(InSys (newTable env p) = false ∧ InSys (creator env p) = true) := by
        rw [hcreator]
        exact fun h => Bool.false_ne_true h.2
      rw [if_neg hnotSys]
      refine sound_added hs hname hfree (fun other hother => hother) ?_ (fun other h => ?_)
        (fun other hother hne => ?_) fun _ _ => ?_
      · exact tableThere_withAccessTable (tableThere_withContract_self _ _) _ _
      · exact tableThere_withAccessTable (tableThere_withContract h _) _ _
      · refine (withAccessTable_of_ne (hs.named other hother) ?_ _ _ _).trans
          (hcontract other hother)
        exact fun h => hne (accessTable_injective h)
      · exact ⟨tableThere_withAccessTable_self _ _ _, admin, hdue, withAccessTable_admin _ _ _⟩

theorem sound_resetAdmin (hs : s.Sound) (data : Bytes) (sender : String) :
    (s.resetAdmin c data sender).Sound := by
  obtain heq | ⟨name, admin, heq⟩ := resetAdmin_cases (c := c) s data sender
  · rw [heq]
    exact hs
  · rw [heq]
    refine ⟨hs.named, fun name' hname => tableThere_update (hs.tables name' hname) _ _, ?_⟩
    intro name' hname hout hby
    have hadmin := hs.managed name' hname hout hby
    by_cases hsame : name' = name
    · subst hsame
      refine ⟨tableThere_update hadmin.table _ _, admin, ?_, ?_⟩
      · exact Function.update_self _ _ _
      · exact Function.update_self _ _ _
    · refine hasAdmin_of_eq hadmin (tableThere_update hadmin.table _ _) ?_ ?_
      · exact Function.update_of_ne hsame _ _
      · exact Function.update_of_ne
          (fun h => hsame (accessTable_injective (congrArg StateRow.table h))) _ _

theorem sound_write (hs : s.Sound) (row : StateRow) (entry : Option Entry) :
    (s.write row entry).Sound := by
  unfold write
  split
  next hrow =>
    obtain ⟨hsys, hadmins⟩ := hrow
    have htable {name : String} (h : TableThere s.rows name) :
        TableThere (Function.update s.rows row entry) name := by
      unfold TableThere
      by_cases heq : (⟨sysTables, ascii name⟩ : StateRow) = row
      · rw [← heq, Function.update_self]
        exact hsys (congrArg StateRow.table heq.symm)
      · rw [Function.update_of_ne heq]
        exact h
    refine ⟨hs.named, fun name hname => htable (hs.tables name hname), ?_⟩
    intro name hname hout hby
    have hadmin := hs.managed name hname hout hby
    exact hasAdmin_of_eq hadmin (htable hadmin.table) rfl
      (Function.update_of_ne (hadmins name hname).symm _ _)
  next => exact hs

theorem looksUp (hauth : env.isAuthCheck = true) (hs : s.Sound) {p : CallParameters}
    (hmanaged : p.senderAddress ≠ p.origin → InSys (newTable env p) = false →
      creator env p ∉ s.bySys) : s.LooksUp env p := by
  intro hcan
  have hcreates := creates hauth p s.rows
  generalize (creation env p).onRows s.rows = out at hcreates ⊢
  cases hcreates with
  | refused e rows' => rfl
  | plain hsys hfree => rfl
  | unknown hsys horigin hadmin rows' =>
    obtain ⟨hnew, hcreator⟩ := Bool.or_eq_false_iff.mp hsys
    obtain ⟨admin, -, hrow⟩ :=
      dueAdmin_eq hs hcan hcreator fun horigin => hmanaged horigin hnew
    rw [if_neg horigin, hadmin] at hrow
    cases hrow
  | managed hsys hfree admin hadmin => rfl

theorem noAccessTable (hauth : env.isAuthCheck = true) (s : CreationState) {p : CallParameters}
    (hcreator : InSys (creator env p) = true) : s.NoAccessTable env p := by
  obtain heq | ⟨hcan, rows, hout, heq⟩ := create_cases env s p
  · unfold NoAccessTable
    rw [heq]
    exact ⟨rfl, fun key => rfl⟩
  · unfold NoAccessTable
    rw [heq]
    have hcreates := creates hauth p s.rows
    rw [hout] at hcreates
    cases hcreates with
    | plain hsys hfree =>
      exact ⟨withContract_table_access _ _, withContract_access _ _ _ _⟩
    | managed hsys hfree admin hadmin =>
      rw [hcreator, Bool.or_true] at hsys
      cases hsys

end CreationState

namespace CreationChain

variable {env : Environment} {c : AuthorityCodec} {s : CreationChain}

def Sound (s : CreationChain) : Prop :=
  s.now.Sound ∧ ∀ before ∈ s.saved, before.Sound

theorem sound_start (rows : Rows) : (start rows).Sound :=
  ⟨⟨nofun, nofun, nofun⟩, nofun⟩

theorem sound_step (hauth : env.isAuthCheck = true) (hs : s.Sound) {e : CreationEvent}
    (he : s.CreatorsManaged env e) : (s.step env c e).Sound := by
  obtain ⟨hnow, hsaved⟩ := hs
  cases e with
  | create p => exact ⟨CreationState.sound_create hauth hnow (he p rfl), hsaved⟩
  | resetAdmin data sender => exact ⟨CreationState.sound_resetAdmin hnow data sender, hsaved⟩
  | write row entry => exact ⟨CreationState.sound_write hnow row entry, hsaved⟩
  | save =>
    refine ⟨hnow, fun before hbefore => ?_⟩
    obtain rfl | hbefore := List.mem_cons.mp hbefore
    · exact hnow
    · exact hsaved before hbefore
  | restore =>
    unfold step
    cases hlist : s.saved with
    | nil => exact ⟨hnow, hsaved⟩
    | cons before saved =>
      rw [hlist] at hsaved
      exact ⟨hsaved before List.mem_cons_self,
        fun state hstate => hsaved state (List.mem_cons_of_mem before hstate)⟩

theorem inherit (hauth : env.isAuthCheck = true) (hs : s.Sound) {e : CreationEvent}
    (he : s.CreatorsManaged env e) : s.Inherit env c e := by
  refine ⟨fun p hp => ⟨?_, fun hcreator => CreationState.noAccessTable hauth s.now hcreator⟩, ?_⟩
  · exact CreationState.looksUp hauth hs.1 (he p hp)
  · exact (sound_step hauth hs he).1.managed

/-- In a chain of creations in which no contract of a system contract creates one outside of
`/sys`, the admin goes from each creator to what it creates, and every lookup of it succeeds. -/
theorem admin_inherited (env : Environment) (c : AuthorityCodec) (rows : Rows)
    (events : List CreationEvent) (hauth : env.isAuthCheck = true)
    (hcreators : Always (step env c) (CreatorsManaged env) (start rows) events) :
    Always (step env c) (Inherit env c) (start rows) events :=
  Runs.always_of_invariant Sound (fun _ _ hs he => sound_step hauth hs he)
    (fun _ _ hs he => inherit hauth hs he) (sound_start rows) hcreators

def checkedEnvironment : Environment :=
  { evmEnvironment with isAuthCheck := true }

/-- An account deploys `c1`, and `c1` creates `c2`. -/
def deployment : CallParameters :=
  { codeAddress := "c1", origin := "eoa", senderAddress := "eoa", type := .message,
    create := true }

def creationBy (creator : String) : CallParameters :=
  { codeAddress := "c2", origin := "eoa", senderAddress := creator, type := .message,
    create := true }

theorem admin_inherited_deployed :
    Always (step checkedEnvironment authorityCodec) (Inherit checkedEnvironment authorityCodec)
      (start fun _ => none) [.create deployment, .save, .create (creationBy "c1")] := by
  refine admin_inherited checkedEnvironment authorityCodec (fun _ => none) _ rfl ⟨?_, ?_, ?_, ?_⟩
  · intro p hp horigin
    cases hp
    exact absurd rfl horigin
  · intro p hp
    cases hp
  · intro p hp _ _
    cases hp
    decide
  · trivial

/-- What a system contract creates has no access table. -/
theorem not_all_inherit : ¬∀ (env : Environment) (c : AuthorityCodec) (rows : Rows)
    (events : List CreationEvent), env.isAuthCheck = true →
      Always (step env c) (AllInherit env c) (start rows) events := by
  intro h
  have hinherit := h checkedEnvironment authorityCodec (fun _ => none)
    [.create (creationBy "0000000000000000000000000000000000010001")] rfl
  have htable := (hinherit.1.2 "/apps/c2" (by decide) rfl).table
  revert htable
  decide

end CreationChain

end BcosExecutor
