import BcosExecutor.CodeFrames

namespace BcosExecutor

/-- The table that `getCode` reads. -/
def Common.getContractTableName (address : String) : String :=
  let addressLower := (toLower address).toList
  "/apps/" ++ String.ofList
    (if address.toList.head? = some '/' then addressLower.drop 1 else addressLower)

/-- The table that the ABI of the called contract is loaded from in wasm. -/
def DagExecute.abiTableName (receiveAddress : String) : String :=
  "/apps" ++ receiveAddress

def ContractAuth.getAuthTableName (name : String) : String :=
  "/apps/" ++ name ++ CONTRACT_SUFFIX

namespace TransactionExecutive

/-- The access table that comes with a contract of this address, where there is one. -/
def createdAuthTable (context : BlockContext) (address sender : String) : Option String :=
  let tableName := getContractTableName context address
  if context.isAuthCheck && !("/sys/".toList.isPrefixOf tableName.toList ||
      "/sys/".toList.isPrefixOf (getContractTableName context sender).toList) then
    some (tableName ++ CONTRACT_SUFFIX)
  else none

end TransactionExecutive

open TransactionExecutive (createdAuthTable)

/-- The places that name the table of a contract agree. -/
structure TablesAgree (context : BlockContext) (address : String) : Prop where
  getCode : Common.getContractTableName address =
    TransactionExecutive.getContractTableName context address
  abi : context.isWasm = true →
    DagExecute.abiTableName address = TransactionExecutive.getContractTableName context address
  auth : ∀ sender authTableName, createdAuthTable context address sender = some authTableName →
    ContractAuth.getAuthTableName address = authTableName

def IsSysAddress (address : String) : Prop :=
  sysAddressPrefix.isPrefixOf address.toList = true

/-- In wasm a path in lower case with its slash, and no authority check; in the EVM any address
without the check, and with it one in lower case that has no slash and is not a system address. -/
def NamedAlike (context : BlockContext) (address : String) : Prop :=
  if context.isWasm then
    context.isAuthCheck = false ∧ address.toList.head? = some '/' ∧ toLower address = address
  else
    context.isAuthCheck = true →
      ¬ IsSysAddress address ∧ address.toList.head? ≠ some '/' ∧ toLower address = address

variable {context : BlockContext} {address : String}

/-- The address without its leading slash, in lower case. -/
def lowerRest (address : String) : List Char :=
  if address.toList.head? = some '/' then (toLower address).toList.drop 1
  else (toLower address).toList

theorem toLower_toList (address : String) :
    (toLower address).toList = address.toList.map Char.toLower := by
  unfold toLower
  rw [String.toList_ofList]

theorem toLower_eq_iff : toLower address = address ↔
    address.toList.map Char.toLower = address.toList := by
  rw [← toLower_toList]
  exact ⟨congrArg String.toList, fun h => String.toList_injective h⟩

theorem common_toList (address : String) :
    (Common.getContractTableName address).toList = "/apps/".toList ++ lowerRest address := by
  unfold Common.getContractTableName lowerRest
  simp only [String.toList_append, String.toList_ofList]

theorem executive_toList_of_not_sys (h : ¬ (context.isAuthCheck = true ∧ IsSysAddress address)) :
    (TransactionExecutive.getContractTableName context address).toList =
      "/apps/".toList ++ lowerRest address := by
  have hcond : ¬ (context.isAuthCheck && sysAddressPrefix.isPrefixOf address.toList) = true := by
    rw [Bool.and_eq_true]
    exact h
  unfold TransactionExecutive.getContractTableName lowerRest
  simp only [if_neg hcond, String.toList_append, String.toList_ofList]

theorem executive_toList_of_sys (hauth : context.isAuthCheck = true) (hsys : IsSysAddress address) :
    (TransactionExecutive.getContractTableName context address).toList =
      "/sys/".toList ++ lowerRest address := by
  have hcond : (context.isAuthCheck && sysAddressPrefix.isPrefixOf address.toList) = true := by
    rw [Bool.and_eq_true]
    exact ⟨hauth, hsys⟩
  unfold TransactionExecutive.getContractTableName lowerRest
  simp only [if_pos hcond, String.toList_append, String.toList_ofList]

/-- `getCode` knows no system contracts. -/
theorem common_eq_iff : Common.getContractTableName address =
      TransactionExecutive.getContractTableName context address ↔
    ¬ (context.isAuthCheck = true ∧ IsSysAddress address) := by
  constructor
  · rintro heq ⟨hauth, hsys⟩
    have hlist := congrArg String.toList heq
    rw [common_toList, executive_toList_of_sys hauth hsys] at hlist
    have hchar : 'a' = 's' := congrArg (fun l => l.getD 1 ' ') hlist
    exact absurd hchar (by decide)
  · intro h
    apply String.toList_injective
    rw [common_toList, executive_toList_of_not_sys h]

/-- Without its slash and in lower case an address is the same only when it had no slash and was
in lower case. -/
theorem lowerRest_eq_iff : address.toList = lowerRest address ↔
    address.toList.head? ≠ some '/' ∧ toLower address = address := by
  unfold lowerRest
  rw [toLower_eq_iff, toLower_toList]
  constructor
  · intro h
    by_cases hslash : address.toList.head? = some '/'
    · rw [if_pos hslash] at h
      have hlength := congrArg List.length h
      have hpos : 0 < address.toList.length := by
        obtain ⟨rest, hrest⟩ := List.head?_eq_some_iff.mp hslash
        simp [hrest]
      rw [List.length_drop, List.length_map] at hlength
      omega
    · rw [if_neg hslash] at h
      exact ⟨hslash, h.symm⟩
  · rintro ⟨hslash, hlower⟩
    rw [if_neg hslash]
    exact hlower.symm

theorem abi_eq_iff (h : ¬ (context.isAuthCheck = true ∧ IsSysAddress address)) : DagExecute.abiTableName address =
      TransactionExecutive.getContractTableName context address ↔
    address.toList.head? = some '/' ∧ toLower address = address := by
  have hname := executive_toList_of_not_sys h
  have hiff : DagExecute.abiTableName address =
      TransactionExecutive.getContractTableName context address ↔
        address.toList = '/' :: lowerRest address := by
    rw [← String.toList_inj, hname]
    unfold DagExecute.abiTableName
    rw [String.toList_append]
    change ['/', 'a', 'p', 'p', 's'] ++ address.toList =
      ['/', 'a', 'p', 'p', 's'] ++ ('/' :: lowerRest address) ↔ _
    rw [List.append_cancel_left_eq]
  rw [hiff]
  unfold lowerRest
  rw [toLower_eq_iff, toLower_toList]
  constructor
  · intro heq
    have hslash : address.toList.head? = some '/' := by rw [heq]; rfl
    obtain ⟨rest, hrest⟩ := List.head?_eq_some_iff.mp hslash
    rw [if_pos hslash] at heq
    refine ⟨hslash, ?_⟩
    rw [hrest] at heq ⊢
    simp only [List.map_cons, List.drop_succ_cons, List.drop_zero, List.cons.injEq, true_and] at heq
    rw [List.map_cons, ← heq]
    rfl
  · rintro ⟨hslash, hlower⟩
    obtain ⟨rest, hrest⟩ := List.head?_eq_some_iff.mp hslash
    rw [if_pos hslash, hlower, hrest]
    rfl

theorem auth_eq_iff (h : ¬ (context.isAuthCheck = true ∧ IsSysAddress address)) :
    ContractAuth.getAuthTableName address =
        TransactionExecutive.getContractTableName context address ++ CONTRACT_SUFFIX ↔
      address.toList.head? ≠ some '/' ∧ toLower address = address := by
  rw [← lowerRest_eq_iff, ← String.toList_inj]
  unfold ContractAuth.getAuthTableName
  simp only [String.toList_append, executive_toList_of_not_sys h]
  rw [List.append_cancel_right_eq, List.append_cancel_left_eq]

theorem createdAuthTable_of_not_sys (hauth : context.isAuthCheck = true)
    (h : ¬ IsSysAddress address) : createdAuthTable context address "" =
      some (TransactionExecutive.getContractTableName context address ++ CONTRACT_SUFFIX) := by
  have hnot : ¬ (context.isAuthCheck = true ∧ IsSysAddress address) := fun hsys => h hsys.2
  have hempty : ¬ (context.isAuthCheck = true ∧ IsSysAddress "") :=
    fun hsys => absurd hsys.2 (by unfold IsSysAddress; decide)
  have hname := executive_toList_of_not_sys hnot
  have hsender := executive_toList_of_not_sys hempty
  unfold createdAuthTable
  simp only [hname, hsender, hauth]
  rfl

theorem createdAuthTable_of_sys (hauth : context.isAuthCheck = true) (h : IsSysAddress address)
    (sender : String) : createdAuthTable context address sender = none := by
  unfold createdAuthTable
  simp only [executive_toList_of_sys hauth h]
  rw [if_neg]
  simp

theorem auth_iff :
    (∀ sender authTableName, createdAuthTable context address sender = some authTableName →
        ContractAuth.getAuthTableName address = authTableName) ↔
      (context.isAuthCheck = true → ¬ IsSysAddress address →
        address.toList.head? ≠ some '/' ∧ toLower address = address) := by
  constructor
  · intro h hauth hsys
    have hcreated := createdAuthTable_of_not_sys hauth hsys
    exact (auth_eq_iff fun hs => hsys hs.2).mp (h "" _ hcreated)
  · intro h sender authTableName hcreated
    by_cases hauth : context.isAuthCheck = true
    · by_cases hsys : IsSysAddress address
      · rw [createdAuthTable_of_sys hauth hsys] at hcreated
        cases hcreated
      · have hnot : ¬ (context.isAuthCheck = true ∧ IsSysAddress address) := fun hs => hsys hs.2
        have hname := (auth_eq_iff hnot).mpr (h hauth hsys)
        unfold createdAuthTable at hcreated
        dsimp only at hcreated
        split at hcreated
        · exact hname.trans (Option.some.inj hcreated)
        · cases hcreated
    · unfold createdAuthTable at hcreated
      simp [hauth] at hcreated

section Frame

variable {st : StateStorage} {allowed : String → Prop} {base : Rows}

/-- Only rows of the allowed tables differ from the base. -/
def TablesKept (st : StateStorage) (allowed : String → Prop) (base : Rows) (e : Executive st) :
    Prop :=
  ∀ row, ¬ allowed row.table → st.getRow e.storage row = base row

theorem tablesKept_setRow (h : st.Lawful) {table : String} (ht : allowed table) (key : Bytes)
    (entry : Entry) :
    Keeps (TablesKept st allowed base) (setRow table key entry : Script Empty Unit) := by
  intro e he row hrow
  have hne : row ≠ ⟨table, key⟩ := fun heq => hrow (heq ▸ ht)
  show st.getRow (e.setRow ⟨table, key⟩ (some entry)).storage row = base row
  unfold Executive.setRow
  rw [h.getRow_setRow, Function.update_of_ne hne]
  exact he row hrow

theorem tablesKept_createTable (h : st.Lawful) (hsys : allowed sysTables)
    (tableName valueFields : String) :
    Keeps (TablesKept st allowed base) (createTable tableName valueFields : Script Empty Unit) := by
  refine keeps_bind (keeps_openTable _) fun opened => ?_
  cases opened with
  | true => exact keeps_throw _
  | false => exact tablesKept_setRow h hsys _ _

theorem tablesKept_creatAuthTable (h : st.Lawful) (hsys : allowed sysTables)
    (context : BlockContext) {tableName sender : String} (origin : String)
    (ht : ("/sys/".toList.isPrefixOf tableName.toList || "/sys/".toList.isPrefixOf
      (TransactionExecutive.getContractTableName context sender).toList) = false →
        allowed (tableName ++ CONTRACT_SUFFIX)) :
    Keeps (TablesKept st allowed base) (TransactionExecutive.creatAuthTable context tableName
      origin sender : Script Empty Unit) :=
  keeps_creatAuthTable origin (tablesKept_createTable h hsys _ _) fun hplain key _ entry =>
    tablesKept_setRow h (ht hplain) key entry

/-- What is created with a contract besides its own table is its access table. -/
theorem createTables_frame (h : st.Lawful) (env : Environment) (p : CallParameters)
    (e : Executive st) : TablesKept st (fun table => table = sysTables ∨
        createdAuthTable env.toBlockContext p.codeAddress p.senderAddress = some table)
      (st.getRow e.storage)
      ((TransactionExecutive.createTables env p (TransactionExecutive.getContractTableName
        env.toBlockContext p.codeAddress)).run (noCalls st) e).2 := by
  refine keeps_bind (tablesKept_createTable h (.inl rfl) _ _) (fun _ => ?_) e fun _ _ => rfl
  split
  next hauth =>
    refine tablesKept_creatAuthTable h (.inl rfl) _ _ fun hplain => .inr ?_
    unfold createdAuthTable
    dsimp only
    rw [hauth, hplain]
    rfl
  next => exact keeps_pure _

end Frame

/-- In every mode and for every address the tables are named alike under this condition only. -/
theorem tablesAgree_iff (context : BlockContext) (address : String) :
    TablesAgree context address ↔ NamedAlike context address := by
  have hparts : TablesAgree context address ↔
      ¬ (context.isAuthCheck = true ∧ IsSysAddress address) ∧
        (context.isWasm = true → DagExecute.abiTableName address =
          TransactionExecutive.getContractTableName context address) ∧
        (context.isAuthCheck = true → ¬ IsSysAddress address →
          address.toList.head? ≠ some '/' ∧ toLower address = address) := by
    rw [← common_eq_iff, ← auth_iff]
    exact ⟨fun h => ⟨h.getCode, h.abi, h.auth⟩, fun h => ⟨h.1, h.2.1, h.2.2⟩⟩
  rw [hparts]
  unfold NamedAlike
  cases hauth : context.isAuthCheck with
  | false =>
    have hnot : ¬ (context.isAuthCheck = true ∧ IsSysAddress address) := by simp [hauth]
    have habi := abi_eq_iff hnot
    cases context.isWasm <;> simp [habi]
  | true =>
    cases hw : context.isWasm with
    | false =>
      constructor
      · rintro ⟨hsys, _, hnames⟩ _
        have hsys : ¬ IsSysAddress address := fun h => hsys ⟨rfl, h⟩
        exact ⟨hsys, hnames rfl hsys⟩
      · intro h
        obtain ⟨hsys, hnames⟩ := h rfl
        exact ⟨fun hs => hsys hs.2, nofun, fun _ _ => hnames⟩
    | true =>
      -- the ABI is found only with the slash, the access table only without it
      refine iff_of_false ?_ (by simp)
      rintro ⟨hsys, habi, hnames⟩
      have hnot : ¬ (context.isAuthCheck = true ∧ IsSysAddress address) := by rwa [hauth]
      have hslash := ((abi_eq_iff hnot).mp (habi rfl)).1
      exact (hnames rfl fun h => hsys ⟨rfl, h⟩).1 hslash

/-- An address of the EVM in mixed case, as a caller may write it. -/
theorem not_tablesAgree_mixedCase :
    ¬ TablesAgree ⟨true, false, FiscoBcosScheduleV3, id⟩ "/Hello" := by
  intro h
  exact absurd (h.abi rfl) (by decide)

end BcosExecutor
