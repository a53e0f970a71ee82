import BcosExecutor.CnsRegistry

namespace BcosExecutor

namespace CNSPrecompiled

open ContractAuth (CODE_SUCCESS)

inductive Operation (isWasm : Bool)
  | insert (contractName contractVersion : Bytes) (address : InterfaceAddress isWasm)
    (contractAbi : Bytes)
  | selectByName (contractName : Bytes)
  | selectByNameAndVersion (contractName contractVersion : Bytes)
  | getContractAddress (contractName contractVersion : Bytes)

/-- A binding by its trimmed name and version. -/
structure Binding (isWasm : Bool) where
  name : Bytes
  version : Bytes
  address : InterfaceAddress isWasm
  abi : Bytes

variable (x : Context)

namespace Operation

def program : Operation x.isWasm → Script Empty (Reply x.isWasm)
  | insert contractName contractVersion address contractAbi => do
    let code ← CNSPrecompiled.insert x contractName contractVersion address contractAbi
    return .code code
  | selectByName contractName => do
    let infos ← CNSPrecompiled.selectByName x contractName
    return .listed infos
  | selectByNameAndVersion contractName contractVersion =>
    CNSPrecompiled.selectByNameAndVersion x contractName contractVersion
  | getContractAddress contractName contractVersion =>
    CNSPrecompiled.getContractAddress x contractName contractVersion

def reply (rows : Rows) (operation : Operation x.isWasm) :
    Option (Except Exc (Reply x.isWasm)) :=
  ((operation.program x).onRows rows).1

def step (rows : Rows) (operation : Operation x.isWasm) : Rows :=
  keptRows (operation.program x) rows

/-- The code of success came back. -/
def succeeds (rows : Rows) (operation : Operation x.isWasm) : Bool :=
  match operation.reply x rows with
  | some (.ok (.code code)) => code = CODE_SUCCESS
  | _ => false

/-- The binding that an operation enters. -/
def accepts (rows : Rows) (operation : Operation x.isWasm) : List (Binding x.isWasm) :=
  match operation with
  | insert contractName contractVersion address contractAbi =>
    if operation.succeeds x rows then
      [⟨trim contractName, trim contractVersion, address, contractAbi⟩]
    else []
  | _ => []

end Operation

def after (rows : Rows) (operations : List (Operation x.isWasm)) : Rows :=
  operations.foldl (Operation.step x) rows

/-- The bindings that were accepted, in their order. -/
def accepted : Rows → List (Operation x.isWasm) → List (Binding x.isWasm)
  | _, [] => []
  | rows, operation :: operations =>
    operation.accepts x rows ++ accepted (operation.step x rows) operations

def firstOf (bindings : List (Binding x.isWasm)) (name version : Bytes) :
    Option (Binding x.isWasm) :=
  bindings.find? fun binding => binding.name = name ∧ binding.version = version

/-- The first binding that was accepted for the name and the version, up to blanks. -/
def firstAccepted (rows : Rows) (operations : List (Operation x.isWasm))
    (contractName contractVersion : Bytes) : Option (Binding x.isWasm) :=
  firstOf x (accepted x rows operations) (trim contractName) (trim contractVersion)

/-- What is registered under a name. -/
def infosAt (rows : Rows) (name : Bytes) : Option CNSInfoMap :=
  match rows ⟨SYS_CNS, name⟩ with
  | none => some ∅
  | some entry => x.cnsInfo.decode entry

def bindingReply : Option (Binding x.isWasm) → Reply x.isWasm
  | none => .binding .none []
  | some binding => .binding binding.address binding.abi

def addressReply : Option (Binding x.isWasm) → Reply x.isWasm
  | none => .binding .none []
  | some binding => .address binding.address

def stored (binding : Binding x.isWasm) : Bytes × Bytes :=
  (binding.address.stored, binding.abi)

variable {x} {rows : Rows}

theorem getContractStatus_onRows (tableName : String) (rows : Rows) :
    ∃ status, (getContractStatus x tableName : Script Empty ContractStatus).onRows rows =
      (some (.ok status), rows) := by
  unfold getContractStatus
  rw [Script.onRows_bind, Script.onRows_openTable]
  dsimp only
  split
  · rw [Script.onRows_bind, Script.onRows_get]
    cases rows ⟨tableName, ACCOUNT_CODE_HASH⟩ with
    | none => exact ⟨_, rfl⟩
    | some codeHash =>
      dsimp only
      split
      · exact ⟨_, rfl⟩
      · rw [Script.onRows_bind, Script.onRows_get]
        dsimp only
        split
        · exact ⟨_, rfl⟩
        · exact ⟨_, rfl⟩
  · exact ⟨_, rfl⟩

theorem checkNames_code {name version abi : Bytes} {code : Int}
    (h : checkNames name version abi = .ok code) : code < 0 ∨ code = CODE_SUCCESS := by
  unfold checkNames at h
  split at h
  · cases h
    exact .inl (by decide)
  · split at h
    · cases h
      exact .inl (by decide)
    · unfold checkLengthValidate at h
      split at h
      · cases h
      · split at h
        · cases h
        · cases h
          exact .inr rfl

theorem withFoundTable_info (rows : Rows) (name : Bytes) :
    withFoundTable SYS_CNS SYS_VALUE_FIELDS rows ⟨SYS_CNS, name⟩ = rows ⟨SYS_CNS, name⟩ :=
  have hne : SYS_CNS ≠ sysTables := by decide
  Function.update_of_ne (fun h => hne (congrArg StateRow.table h)) _ _

/-- The row of a name is read behind the look for the table, which leaves it as it is. -/
theorem foundRow_onRows {α : Type} (name : Bytes) (f : Option Entry → Script Empty α) :
    (foundTable SYS_CNS SYS_VALUE_FIELDS >>= fun _ =>
        getRow SYS_CNS name >>= f).onRows rows =
      (f (rows ⟨SYS_CNS, name⟩)).onRows (withFoundTable SYS_CNS SYS_VALUE_FIELDS rows) := by
  rw [Script.onRows_bind, Script.foundTable_onRows]
  dsimp only
  rw [Script.onRows_bind, Script.onRows_get, withFoundTable_info]

theorem infosAt_eq_some {name : Bytes} {infos : CNSInfoMap}
    (h : infosAt x rows name = some infos) :
    (rows ⟨SYS_CNS, name⟩ = none ∧ infos = ∅) ∨
      ∃ entry, rows ⟨SYS_CNS, name⟩ = some entry ∧ x.cnsInfo.decode entry = some infos := by
  unfold infosAt at h
  cases hrow : rows ⟨SYS_CNS, name⟩ with
  | none =>
    rw [hrow] at h
    exact .inl ⟨rfl, (Option.some.inj h).symm⟩
  | some entry =>
    rw [hrow] at h
    exact .inr ⟨entry, rfl, h⟩

/-- The rows with one more binding under a name. -/
def withBinding (x : Context) (rows : Rows) (name : Bytes) (infos : CNSInfoMap)
    (version : Bytes) (info : Bytes × Bytes) : Rows :=
  Function.update (withFoundTable SYS_CNS SYS_VALUE_FIELDS rows) ⟨SYS_CNS, name⟩
    (some (x.cnsInfo.encode (infos.insertNew version info)))

theorem infosAt_withBinding (rows : Rows) (name : Bytes) (infos : CNSInfoMap) (version : Bytes)
    (info : Bytes × Bytes) (name' : Bytes) :
    infosAt x (withBinding x rows name infos version info) name' =
      if name' = name then some (infos.insertNew version info) else infosAt x rows name' := by
  unfold infosAt withBinding
  by_cases h : name' = name
  · rw [if_pos h, h, Function.update_self]
    exact x.cnsInfo.decode_encode _
  · rw [if_neg h, Function.update_of_ne fun hrow => h (congrArg StateRow.key hrow),
      withFoundTable_info]

/-- The ways in which an insert ends. -/
theorem insert_cases {name version : Bytes} (address : InterfaceAddress x.isWasm) (abi : Bytes)
    {infos : CNSInfoMap} (hread : infosAt x rows (trim name) = some infos) :
    (∃ e, (insert x name version address abi).onRows rows = (some (.error e), rows)) ∨
    (∃ code, code ≠ CODE_SUCCESS ∧
      (insert x name version address abi).onRows rows = (some (.ok code), rows)) ∨
    (∃ info, infos.lookup (trim version) = some info ∧
      (insert x name version address abi).onRows rows =
        (some (.ok CODE_ADDRESS_AND_VERSION_EXIST), withFoundTable SYS_CNS SYS_VALUE_FIELDS rows)) ∨
    (infos.lookup (trim version) = none ∧
      (insert x name version address abi).onRows rows = (some (.ok CODE_SUCCESS),
        withBinding x rows (trim name) infos (trim version) (address.stored, abi))) := by
  obtain ⟨status, hstatus⟩ := getContractStatus_onRows (x := x)
    (FileSystem.USER_APPS_PREFIX ++ bytesToString address.stored) rows
  unfold insert
  cases hcheck : checkNames (trim name) (trim version) abi with
  | error e =>
    refine .inl ⟨e, ?_⟩
    unfold checkCNSParam
    dsimp only
    rw [Script.onRows_bind, Script.onRows_bind, hstatus]
    dsimp only
    rw [hcheck]
    rfl
  | ok code =>
    have hparam : (checkCNSParam x address.stored name version abi).onRows rows =
        (some (.ok (code, trim name, trim version)), rows) := by
      unfold checkCNSParam
      dsimp only
      rw [Script.onRows_bind, hstatus]
      dsimp only
      rw [hcheck]
      rfl
    rw [Script.onRows_bind, hparam]
    dsimp only
    rcases checkNames_code hcheck with hneg | rfl
    · rw [if_pos hneg]
      exact .inr (.inl ⟨_, by decide, rfl⟩)
    · rw [if_neg (by decide), foundRow_onRows]
      obtain ⟨hrow, rfl⟩ | ⟨entry, hrow, hdecode⟩ := infosAt_eq_some hread
      · rw [hrow]
        exact .inr (.inr (.inr ⟨rfl, rfl⟩))
      · rw [hrow]
        dsimp only
        rw [hdecode]
        dsimp only
        cases hlookup : infos.lookup (trim version) with
        | none =>
          rw [if_neg (AList.lookup_eq_none.mp hlookup)]
          exact .inr (.inr (.inr ⟨rfl, rfl⟩))
        | some info =>
          rw [if_pos (AList.lookup_isSome.mp (by rw [hlookup]; rfl))]
          exact .inr (.inr (.inl ⟨info, rfl, rfl⟩))

theorem selectByName_onRows {name : Bytes} {infos : CNSInfoMap}
    (hread : infosAt x rows name = some infos) :
    (selectByName x name).onRows rows =
      (some (.ok (infos.entries.map fun info => ⟨name, info.1, info.2.1, info.2.2⟩)),
        withFoundTable SYS_CNS SYS_VALUE_FIELDS rows) := by
  unfold selectByName
  rw [foundRow_onRows]
  obtain ⟨hrow, rfl⟩ | ⟨entry, hrow, hdecode⟩ := infosAt_eq_some hread
  · rw [hrow]
    rfl
  · rw [hrow]
    dsimp only
    rw [hdecode]
    rfl

theorem selectVersion_onRows (found : InterfaceAddress x.isWasm → Bytes → Reply x.isWasm)
    {name : Bytes} (version : Bytes) {infos : CNSInfoMap}
    (hread : infosAt x rows (trim name) = some infos) :
    (selectVersion x found name version).onRows rows =
      (some (.ok ((infos.lookup (trim version)).elim (.binding .none []) fun info =>
        found (x.readAddress x.isWasm info.1) info.2)),
        withFoundTable SYS_CNS SYS_VALUE_FIELDS rows) := by
  unfold selectVersion
  rw [foundRow_onRows]
  obtain ⟨hrow, rfl⟩ | ⟨entry, hrow, hdecode⟩ := infosAt_eq_some hread
  · rw [hrow]
    rfl
  · rw [hrow]
    dsimp only
    rw [hdecode]
    dsimp only
    cases infos.lookup (trim version) with
    | none => rfl
    | some info => rfl

/-- The rows hold what was accepted, the first binding of a name and a version. -/
structure Registered (x : Context) (rows : Rows) (bindings : List (Binding x.isWasm)) : Prop where
  trimmed : ∀ binding ∈ bindings, trim binding.name = binding.name
  table : bindings ≠ [] → (rows ⟨sysTables, ascii SYS_CNS⟩).isSome = true
  infos : ∀ name, ∃ infos, infosAt x rows name = some infos ∧ ∀ version,
    infos.lookup version = (firstOf x bindings name version).map (stored x)

variable {bindings : List (Binding x.isWasm)}

theorem registered_nil (h : ∀ name, rows ⟨SYS_CNS, name⟩ = none) : Registered x rows [] where
  trimmed := nofun
  table h := absurd rfl h
  infos name := by
    refine ⟨∅, ?_, fun version => rfl⟩
    unfold infosAt
    rw [h name]

theorem isSome_withFoundTable (rows : Rows) :
    (withFoundTable SYS_CNS SYS_VALUE_FIELDS rows ⟨sysTables, ascii SYS_CNS⟩).isSome = true := by
  unfold withFoundTable
  rw [Function.update_self]
  cases rows ⟨sysTables, ascii SYS_CNS⟩ with
  | none => rfl
  | some entry => rfl

theorem withFoundTable_of_isSome (h : (rows ⟨sysTables, ascii SYS_CNS⟩).isSome = true) :
    withFoundTable SYS_CNS SYS_VALUE_FIELDS rows = rows := by
  obtain ⟨entry, hentry⟩ := Option.isSome_iff_exists.mp h
  unfold withFoundTable
  rw [hentry, Option.some_or, ← hentry, Function.update_eq_self]

/-- Looking for the table changes nothing that is registered. -/
theorem Registered.found (h : Registered x rows bindings) :
    Registered x (withFoundTable SYS_CNS SYS_VALUE_FIELDS rows) bindings where
  trimmed := h.trimmed
  table _ := isSome_withFoundTable rows
  infos name := by
    obtain ⟨infos, hread, hlookup⟩ := h.infos name
    refine ⟨infos, ?_, hlookup⟩
    unfold infosAt at hread ⊢
    rw [withFoundTable_info]
    exact hread

theorem firstOf_append (binding : Binding x.isWasm) (name version : Bytes) :
    firstOf x (bindings ++ [binding]) name version = (firstOf x bindings name version).or
      (if binding.name = name ∧ binding.version = version then some binding else none) := by
  unfold firstOf
  rw [List.find?_append, List.find?_singleton]
  simp only [decide_eq_true_eq]

theorem lookup_insertNew {infos : CNSInfoMap} {version : Bytes} (h : infos.lookup version = none)
    (info : Bytes × Bytes) (version' : Bytes) :
    (infos.insertNew version info).lookup version' =
      if version = version' then some info else infos.lookup version' := by
  unfold StdMap.insertNew
  rw [if_neg (AList.lookup_eq_none.mp h)]
  split
  next heq =>
    subst heq
    exact AList.lookup_insert infos
  next hne => exact AList.lookup_insert_ne fun heq => hne heq.symm

theorem Registered.entered (h : Registered x rows bindings) {name version : Bytes}
    {infos : CNSInfoMap} (hread : infosAt x rows (trim name) = some infos)
    (hnone : infos.lookup (trim version) = none) (address : InterfaceAddress x.isWasm)
    (abi : Bytes) :
    Registered x
      (withBinding x rows (trim name) infos (trim version) (address.stored, abi))
      (bindings ++ [⟨trim name, trim version, address, abi⟩]) where
  trimmed := by
    intro binding hbinding
    rcases List.mem_append.mp hbinding with hbinding | hbinding
    · exact h.trimmed binding hbinding
    · rw [List.mem_singleton.mp hbinding, trim_trim]
  table _ := by
    have hne : sysTables ≠ SYS_CNS := by decide
    unfold withBinding
    rw [Function.update_of_ne fun heq => hne (congrArg StateRow.table heq)]
    exact isSome_withFoundTable rows
  infos name' := by
    obtain ⟨infos', hread', hlookup'⟩ := h.infos name'
    rw [infosAt_withBinding]
    by_cases hname : name' = trim name
    · subst hname
      cases hread.symm.trans hread'
      rw [if_pos rfl]
      refine ⟨_, rfl, fun version' => ?_⟩
      rw [lookup_insertNew hnone, firstOf_append]
      dsimp only
      split
      next hversion =>
        subst hversion
        have hfirst := hlookup' (trim version)
        rw [hnone, eq_comm, Option.map_eq_none_iff] at hfirst
        rw [hfirst, if_pos ⟨rfl, rfl⟩]
        rfl
      next hversion =>
        rw [if_neg fun hboth => hversion hboth.2, Option.or_none]
        exact hlookup' version'
    · rw [if_neg hname]
      refine ⟨infos', hread', fun version' => ?_⟩
      rw [firstOf_append, if_neg fun hboth => hname hboth.1.symm, Option.or_none]
      exact hlookup' version'

namespace Operation

/-- What a program comes to on the rows is the reply, and the rows are kept. -/
theorem run_of_ok {operation : Operation x.isWasm} {reply : Reply x.isWasm} {rows' : Rows}
    (h : (operation.program x).onRows rows = (some (.ok reply), rows')) :
    operation.reply x rows = some (.ok reply) ∧ operation.step x rows = rows' := by
  unfold Operation.reply step keptRows
  rw [h]
  exact ⟨rfl, rfl⟩

theorem insert_step {name version : Bytes} {address : InterfaceAddress x.isWasm} {abi : Bytes}
    {rows' : Rows} {code : Int}
    (h : (CNSPrecompiled.insert x name version address abi).onRows rows =
      (some (.ok code), rows')) :
    (insert name version address abi).reply x rows = some (.ok (.code code)) ∧
      (insert name version address abi).step x rows = rows' :=
  run_of_ok (Script.onRows_bind_of_ok h _)

theorem insert_throws {name version : Bytes} {address : InterfaceAddress x.isWasm} {abi : Bytes}
    {rows' : Rows} {e : Exc}
    (h : (CNSPrecompiled.insert x name version address abi).onRows rows =
      (some (.error e), rows')) :
    (insert name version address abi).reply x rows = some (.error e) ∧
      (insert name version address abi).step x rows = rows := by
  have hprogram : ((insert name version address abi).program x).onRows rows =
      (some (.error e), rows') := Script.onRows_bind_of_error h _
  unfold reply step keptRows
  rw [hprogram]
  exact ⟨rfl, rfl⟩

theorem selectByName_run {name : Bytes} {infos : CNSInfoMap}
    (hread : infosAt x rows name = some infos) :
    (selectByName name).reply x rows =
        some (.ok (.listed (infos.entries.map fun info => ⟨name, info.1, info.2.1, info.2.2⟩))) ∧
      (selectByName name).step x rows = withFoundTable SYS_CNS SYS_VALUE_FIELDS rows :=
  run_of_ok (Script.onRows_bind_of_ok (selectByName_onRows hread) _)

/-- The binding that was found in the registry is the one that was stored. -/
theorem found_eq (found : InterfaceAddress x.isWasm → Bytes → Reply x.isWasm)
    (binding : Option (Binding x.isWasm)) :
    ((binding.map (stored x)).elim (.binding .none []) fun info =>
        found (x.readAddress x.isWasm info.1) info.2) =
      binding.elim (.binding .none []) fun binding => found binding.address binding.abi := by
  cases binding with
  | none => rfl
  | some binding =>
    dsimp only [Option.map_some, Option.elim_some, stored]
    rw [x.readAddress_stored]

theorem selectByNameAndVersion_run {name version : Bytes}
    (h : Registered x rows bindings) :
    (selectByNameAndVersion name version).reply x rows =
        some (.ok (bindingReply x (firstOf x bindings (trim name) (trim version)))) ∧
      (selectByNameAndVersion name version).step x rows =
        withFoundTable SYS_CNS SYS_VALUE_FIELDS rows := by
  obtain ⟨infos, hread, hlookup⟩ := h.infos (trim name)
  have hprogram := selectVersion_onRows .binding version hread
  rw [hlookup, found_eq .binding] at hprogram
  have hreply (binding : Option (Binding x.isWasm)) : bindingReply x binding =
      binding.elim (.binding .none []) fun binding => .binding binding.address binding.abi := by
    cases binding <;> rfl
  rw [hreply]
  exact run_of_ok hprogram

theorem getContractAddress_run {name version : Bytes} (h : Registered x rows bindings) :
    (getContractAddress name version).reply x rows =
        some (.ok (addressReply x (firstOf x bindings (trim name) (trim version)))) ∧
      (getContractAddress name version).step x rows =
        withFoundTable SYS_CNS SYS_VALUE_FIELDS rows := by
  obtain ⟨infos, hread, hlookup⟩ := h.infos (trim name)
  have hprogram := selectVersion_onRows
    (fun address _ => .address address) version hread
  rw [hlookup, found_eq fun address _ => .address address] at hprogram
  have hreply (binding : Option (Binding x.isWasm)) : addressReply x binding =
      binding.elim (.binding .none []) fun binding => .address binding.address := by
    cases binding <;> rfl
  rw [hreply]
  exact run_of_ok hprogram

/-- One call keeps the registry to what was accepted. -/
theorem step_registered (h : Registered x rows bindings) (operation : Operation x.isWasm) :
    Registered x (operation.step x rows) (bindings ++ operation.accepts x rows) := by
  cases operation with
  | insert name version address abi =>
    obtain ⟨infos, hread, hlookup⟩ := h.infos (trim name)
    unfold accepts succeeds
    rcases insert_cases address abi hread with ⟨e, hrun⟩ | ⟨code, hcode, hrun⟩ |
      ⟨info, hinfo, hrun⟩ | ⟨hnone, hrun⟩
    · obtain ⟨hreply, hstep⟩ := insert_throws hrun
      rw [hreply, hstep]
      exact (List.append_nil bindings).symm ▸ h
    · obtain ⟨hreply, hstep⟩ := insert_step hrun
      rw [hreply, hstep]
      dsimp only
      rw [if_neg (by simpa using hcode), List.append_nil]
      exact h
    · obtain ⟨hreply, hstep⟩ := insert_step hrun
      rw [hreply, hstep]
      exact (List.append_nil bindings).symm ▸ h.found
    · obtain ⟨hreply, hstep⟩ := insert_step hrun
      rw [hreply, hstep]
      exact h.entered hread hnone address abi
  | selectByName name =>
    obtain ⟨infos, hread, -⟩ := h.infos name
    rw [(selectByName_run hread).2]
    exact (List.append_nil bindings).symm ▸ h.found
  | selectByNameAndVersion name version =>
    rw [(selectByNameAndVersion_run h).2]
    exact (List.append_nil bindings).symm ▸ h.found
  | getContractAddress name version =>
    rw [(getContractAddress_run h).2]
    exact (List.append_nil bindings).symm ▸ h.found

end Operation

theorem registered_after (h : Registered x rows bindings) (operations : List (Operation x.isWasm)) :
    Registered x (after x rows operations) (bindings ++ accepted x rows operations) := by
  induction operations generalizing rows bindings with
  | nil =>
    unfold accepted
    rw [List.append_nil]
    exact h
  | cons operation operations ih =>
    unfold accepted
    rw [← List.append_assoc]
    exact ih (Operation.step_registered h operation)

end CNSPrecompiled

end BcosExecutor
