import BcosExecutor.FileOperations

namespace BcosExecutor

namespace Script

variable {α β : Type} {W : StateRow → Option Entry → Prop}

/-- Whatever the storage has, every write is one of these. -/
def Writes (W : StateRow → Option Entry → Prop) : Script Empty α → Prop
  | pure _ | throw _ | abort => True
  | getRow _ k => ∀ entry, (k entry).Writes W
  | setRow row entry k => W row entry ∧ k.Writes W
  | externalCall callee _ _ => callee.elim

theorem writes_pure (a : α) : (Pure.pure a : Script Empty α).Writes W := trivial

theorem writes_ite {p : Prop} [Decidable p] {m m' : Script Empty α} (h : m.Writes W)
    (h' : m'.Writes W) : (if p then m else m').Writes W := by
  split
  · exact h
  · exact h'

theorem writes_bind {m : Script Empty α} {f : α → Script Empty β} (hm : m.Writes W)
    (hf : ∀ a, (f a).Writes W) : (m >>= f).Writes W := by
  show (m.bind f).Writes W
  induction m with
  | pure a => exact hf a
  | throw x => trivial
  | abort => trivial
  | getRow row k ih => exact fun entry => ih entry (hm entry)
  | setRow row entry k ih => exact ⟨hm.1, ih hm.2⟩
  | externalCall callee => exact callee.elim

theorem Writes.attempt {m : Script Empty α} (hm : m.Writes W) : m.attempt.Writes W := by
  induction m with
  | pure a => trivial
  | throw x => trivial
  | abort => trivial
  | getRow row k ih => exact fun entry => ih entry (hm entry)
  | setRow row entry k ih => exact ⟨hm.1, ih hm.2⟩
  | externalCall callee => exact callee.elim

/-- What every write keeps, a program keeps. -/
theorem Writes.invariant {Inv : Rows → Prop}
    (hstep : ∀ s row entry, Inv s → W row entry → Inv (Function.update s row entry))
    {m : Script Empty α} (hm : m.Writes W) {s : Rows} (hs : Inv s) : Inv (m.onRows s).2 := by
  induction m generalizing s with
  | pure a => exact hs
  | throw x => exact hs
  | abort => exact hs
  | getRow row k ih => exact ih _ (hm _) hs
  | setRow row entry k ih => exact ih hm.2 (hstep s row entry hs hm.1)
  | externalCall callee => exact callee.elim

end Script

/-- The writes of a contract to its own table, other than one that makes a directory of it. -/
def OwnWrite (tableName : String) (row : StateRow) (entry : Option Entry) : Prop :=
  row.table = tableName ∧ ¬(row.key = FS_KEY_TYPE ∧ entry = some FS_TYPE_DIR)

theorem ConstructorCode.Plain.writes {code : ConstructorCode} (h : code.Plain) (host : HostContext) :
    (code.run host).Writes (OwnWrite host.tableName) := by
  induction code with
  | done result => trivial
  | throw e => trivial
  | get key k ih => exact fun entry => ih _ (h _)
  | set key value k ih =>
    refine ⟨⟨rfl, fun heq => h.1 ⟨heq.1, Option.some.inj heq.2⟩⟩, ih h.2⟩

namespace TransactionExecutive

variable {env : Environment} {b : Behaviour Empty} {host : HostContext}

theorem caught_writes {W : StateRow → Option Entry → Prop} (p : CallParameters) (e : Exc) :
    (caught p e : Script Empty Ending).Writes W := by
  cases e <;> trivial

theorem setCode_writes (context : BlockContext) (code : Bytes) :
    (host.setCode context code : Script Empty Bool).Writes (OwnWrite host.tableName) := by
  have hkeys : ACCOUNT_CODE_HASH ≠ FS_KEY_TYPE ∧ ACCOUNT_CODE ≠ FS_KEY_TYPE := by decide
  unfold HostContext.setCode
  refine Script.writes_bind (fun _ => trivial) fun there => ?_
  split
  · exact ⟨⟨rfl, fun heq => hkeys.1 heq.1⟩, ⟨rfl, fun heq => hkeys.2 heq.1⟩, trivial⟩
  · trivial

theorem depositCode_writes (p : CallParameters) (abi : Bytes) (ret : Result) :
    (depositCode env host p abi ret : Script Empty Ending).Writes (OwnWrite host.tableName) := by
  have hkey : ACCOUNT_ABI ≠ FS_KEY_TYPE := by decide
  have hcode (code : Bytes) : (host.setCodeAndAbi env.toBlockContext code abi :
      Script Empty Unit).Writes (OwnWrite host.tableName) := by
    unfold HostContext.setCodeAndAbi
    refine Script.writes_bind (setCode_writes _ _) fun there => ?_
    exact Script.writes_ite ⟨⟨rfl, fun heq => hkey heq.1⟩, trivial⟩ (Script.writes_pure ())
  unfold depositCode
  dsimp only
  by_cases hlarge : env.evmSchedule.maxCodeSize < ret.output.length
  · rw [if_pos hlarge]
    trivial
  by_cases hdear : codeDepositTooDear env.evmSchedule p.gas ret.output
  · rw [if_neg hlarge, if_pos hdear]
    trivial
  rw [if_neg hlarge, if_neg hdear]
  split
  · trivial
  split
  · exact Script.writes_bind (hcode _) fun _ => trivial
  · exact Script.writes_bind (setCode_writes _ _) fun _ => trivial

theorem concludeCreate_writes (p : CallParameters) (abi : Bytes) (out : Except Exc Result) :
    (concludeCreate env host abi p out : Script Empty Ending).Writes
      (OwnWrite host.tableName) := by
  match out with
  | .error e => exact caught_writes p e
  | .ok ret =>
    unfold concludeCreate
    dsimp only
    split
    · trivial
    · exact Script.writes_ite (Script.writes_pure _) (depositCode_writes _ abi ret)

theorem go_writes (hcreate : host.isCreate = true)
    (hvm : b.vm.Writes (OwnWrite host.tableName)) (abi : Bytes) :
    (go env b host abi).Writes (OwnWrite host.tableName) := by
  unfold go
  dsimp only
  rw [if_pos hcreate]
  exact Script.writes_bind hvm.attempt fun out => concludeCreate_writes _ abi out

end TransactionExecutive

section

open FilePaths FileCodec TransactionExecutive

variable {c : FileCodec} {rows : Rows}

/-- The tree is in order, and the table of the contract is no directory. -/
def ContractFiled (c : FileCodec) (tableName : String) (rows : Rows) : Prop :=
  c.Filed none rows ∧ ¬IsDirectory rows tableName

theorem ContractFiled.write {tableName : String} (hpath : IsPath tableName) (s : Rows)
    (row : StateRow) (entry : Option Entry) (h : ContractFiled c tableName s)
    (hwrite : OwnWrite tableName row entry) :
    ContractFiled c tableName (Function.update s row entry) := by
  obtain ⟨hfiled, hplain⟩ := h
  obtain ⟨htable, hkey⟩ := hwrite
  have hunrelated : Unrelated c s row entry := by
    refine ⟨?_, fun htype => ?_, fun _ hdir => ?_⟩
    · rw [htable]
      exact path_ne_sysTables hpath
    · rw [htable]
      exact iff_of_false (fun hentry => hkey ⟨htype, hentry⟩) hplain
    · rw [htable] at hdir
      exact (hplain hdir).elim
  exact ⟨hfiled.write hunrelated, fun hdir => hplain ((hunrelated.directory _).mp hdir)⟩

theorem createTables_onRows {env : Environment} {p : CallParameters} {tableName : String}
    (htable : tableName = getContractTableName env.toBlockContext p.codeAddress)
    (hauth : createdAuthTable env.toBlockContext p.codeAddress p.senderAddress = none)
    (hnew : ¬TableThere rows tableName) :
    (createTables env p tableName : Script Empty Unit).onRows rows = (some (.ok ()),
      Function.update rows ⟨sysTables, ascii tableName⟩ (some (ascii STORAGE_VALUE))) := by
  have hgone : (rows ⟨sysTables, ascii tableName⟩).isSome = false := Bool.eq_false_iff.mpr hnew
  have hcreate : (createTable tableName STORAGE_VALUE : Script Empty Unit).onRows rows =
      (some (.ok ()),
        Function.update rows ⟨sysTables, ascii tableName⟩ (some (ascii STORAGE_VALUE))) := by
    unfold createTable
    rw [Script.onRows_bind, Script.onRows_openTable, hgone]
    rfl
  unfold createTables
  rw [Script.onRows_bind_of_ok hcreate]
  by_cases hcheck : env.isAuthCheck = true
  · unfold createdAuthTable at hauth
    dsimp only at hauth
    rw [← htable, hcheck, Bool.true_and] at hauth
    rw [if_pos hcheck]
    unfold creatAuthTable
    dsimp only
    split at hauth
    next => cases hauth
    next hsys =>
      rw [Bool.not_eq_true, Bool.not_eq_false'] at hsys
      rw [if_pos hsys]
      rfl
  · rw [if_neg hcheck]
    rfl

theorem buildBfsPath_pathOf (env : Environment) {parts : List String} (hne : parts ≠ [])
    (hparts : ∀ part ∈ parts, IsFileName part) :
    (buildBfsPath env (pathOf parts) : Script Empty Bool) = buildDirs env "/" parts := by
  have hempty : (pathOf parts).isEmpty = false := by
    rw [Bool.eq_false_iff, ne_eq, String.isEmpty_iff]
    intro hempty
    have hchars := pathOf_toList hne hparts
    rw [hempty] at hchars
    cases hchars
  unfold buildBfsPath
  rw [hempty, if_neg Bool.false_ne_true]
  show buildDirs env "/" (dirList (pathOf parts)) = _
  rw [dirList_pathOf hne hparts]

/-- The creation goes on with the table listed, or is undone. -/
inductive Created (c : FileCodec) (p : CallParameters) (tableName : String) (rows : Rows) :
    Option (Except Exc (Settled (HostContext × Bytes × Bytes))) × Rows → Prop
  | undone (ending : Ending) (h : ending.reverted = true) (s : Rows) :
    Created c p tableName rows (some (.ok (.ends ending)), s)
  | listed (hnew : ¬TableThere rows tableName) (params abi : Bytes) (s : Rows)
    (h : ContractFiled c tableName s) :
    Created c p tableName rows (some (.ok (.goOn (⟨p, tableName⟩, params, abi))), s)

theorem createContract_onRows {env : Environment} {b : Behaviour Empty} {p : CallParameters}
    {tableName : String} (h : c.Filed none rows)
    (htable : tableName = getContractTableName env.toBlockContext p.codeAddress)
    (hproper : TableThere rows tableName ∨ IsCleanPath tableName ∧
      createdAuthTable env.toBlockContext p.codeAddress p.senderAddress = none)
    (params abi : Bytes) :
    Created c p tableName rows ((createContract (c.environment env) b p params abi).onRows rows) := by
  unfold createContract
  split
  next => exact .undone _ rfl rows
  next =>
    dsimp only
    rw [show getContractTableName (c.environment env).toBlockContext p.codeAddress = tableName from
      htable.symm, Script.onRows_bind, Script.onRows_attempt]
    by_cases hthere : TableThere rows tableName
    · have hthrow : (createTables (c.environment env) p tableName : Script Empty Unit).onRows rows =
          (some (.error (.error (-1) ("Table already exists: " ++ tableName))), rows) := by
        unfold createTables createTable
        simp only [Script.onRows_bind, Script.onRows_openTable,
          show (rows ⟨sysTables, ascii tableName⟩).isSome = true from hthere, ↓reduceIte,
          Script.onRows_throw]
      rw [hthrow]
      exact .undone _ rfl rows
    · obtain ⟨⟨parts, hne, hparts, hpath⟩, hauth⟩ := hproper.resolve_left hthere
      have hisPath : IsPath tableName := hpath ▸ isPath_foldl hparts isPath_root
      have hcreated : (createTables (c.environment env) p tableName : Script Empty Unit).onRows
          rows = _ := createTables_onRows htable hauth hthere
      have hhidden := h.hide hisPath hthere (ascii STORAGE_VALUE)
      have hnow : TableThere (Function.update rows ⟨sysTables, ascii tableName⟩
          (some (ascii STORAGE_VALUE))) tableName := (there_update hisPath _ hisPath).mpr (.inr rfl)
      have hroot : IsDirectory (Function.update rows ⟨sysTables, ascii tableName⟩
          (some (ascii STORAGE_VALUE))) "/" := hhidden.wellListed.root_mem
      obtain ⟨built, s, hrun, hbuilt⟩ :=
        buildDirs_onRows env hhidden hnow hroot hparts hne hpath.symm
      rw [hcreated]
      dsimp only [Option.map]
      rw [show (c.environment env).isWasm = true from rfl, Bool.not_true, if_neg Bool.false_ne_true,
        hpath, buildBfsPath_pathOf _ hne hparts, ← hpath, Script.onRows_bind, hrun]
      cases built with
      | false => exact .undone _ rfl s
      | true => exact .listed hthere params abi s (hbuilt rfl)

theorem settleRows_filed {out : Option (Except Exc Ending)} {s : Rows} (h : c.Filed none rows)
    (hs : c.Filed none s) : c.Filed none (settleRows rows (out, s)).2 := by
  match out with
  | none => exact hs
  | some (.error _) => exact hs
  | some (.ok ending) =>
    show c.Filed none (if ending.reverted then rows else s)
    split
    · exact h
    · exact hs

theorem go_filed {env : Environment} {b : Behaviour Empty} {p : CallParameters}
    {tableName : String} {s : Rows} (hcreate : p.create = true) (hpath : IsPath tableName)
    (hs : ContractFiled c tableName s) (hvm : b.vm.Writes (OwnWrite tableName)) (abi : Bytes) :
    c.Filed none ((go env b ⟨p, tableName⟩ abi).onRows s).2 := by
  have hhost : (⟨p, tableName⟩ : HostContext).isCreate = true := hcreate
  have hwrites : (go env b ⟨p, tableName⟩ abi).Writes (OwnWrite tableName) :=
    go_writes hhost hvm abi
  exact (hwrites.invariant (ContractFiled.write hpath) hs).1

/-- What follows the checks of the code. -/
theorem createContract_filed {env : Environment} {b : Behaviour Empty} {p : CallParameters}
    {tableName : String} (h : c.Filed none rows) (hcreate : p.create = true)
    (htable : tableName = getContractTableName env.toBlockContext p.codeAddress)
    (hproper : TableThere rows tableName ∨ IsCleanPath tableName ∧
      createdAuthTable env.toBlockContext p.codeAddress p.senderAddress = none ∧
      b.vm.Writes (OwnWrite tableName)) (params abi : Bytes)
    {f : Settled (HostContext × Bytes × Bytes) → Script Empty Ending}
    (hends : ∀ ending, f (.ends ending) = pure ending)
    (hgoOn : ∀ host params abi, f (.goOn (host, params, abi)) = go (c.environment env) b host abi) :
    c.Filed none (settleRows rows
      ((createContract (c.environment env) b p params abi >>= f).onRows rows)).2 := by
  have hcontract := createContract_onRows (b := b) h htable
    (hproper.imp id fun hall => ⟨hall.1, hall.2.1⟩) params abi
  rw [Script.onRows_bind]
  generalize (createContract (c.environment env) b p params abi).onRows rows = r at hcontract
  cases hcontract with
  | undone ending hreverted s =>
    dsimp only
    rw [hends]
    show c.Filed none (if ending.reverted then rows else s)
    rw [if_pos hreverted]
    exact h
  | listed hnew params abi s hs =>
    obtain ⟨⟨parts, -, hparts, hpath⟩, -, hvm⟩ := hproper.resolve_left hnew
    have hisPath : IsPath tableName := hpath ▸ isPath_foldl hparts isPath_root
    dsimp only
    rw [hgoOn]
    exact settleRows_filed h (go_filed hcreate hisPath hs hvm abi)

/-- The creation of a contract keeps the tree. -/
theorem create_filed {env : Environment} {b : Behaviour Empty} {p : CallParameters}
    {tableName : String} (h : c.Filed none rows) (hcreate : p.create = true)
    (htable : tableName = getContractTableName env.toBlockContext p.codeAddress)
    (hproper : TableThere rows tableName ∨ IsCleanPath tableName ∧
      createdAuthTable env.toBlockContext p.codeAddress p.senderAddress = none ∧
      b.vm.Writes (OwnWrite tableName)) :
    c.Filed none (settleRows rows ((execute (c.environment env) b p).onRows rows)).2 := by
  unfold execute prepare create decodeInput
  rw [if_pos hcreate, show (c.environment env).isWasm = true from rfl, Bool.not_true,
    if_neg Bool.false_ne_true]
  cases (c.environment env).decode p.data with
  | none => exact h
  | some input =>
    obtain ⟨⟨code, params⟩, abi⟩ := input
    dsimp only
    split
    next => exact h
    next =>
      cases (c.environment env).injectMeter code with
      | none => exact h
      | some byteCode =>
        exact createContract_filed (p := { p with data := byteCode }) h hcreate htable hproper
          params abi (fun _ => rfl) fun _ _ _ => rfl

end

end BcosExecutor
