import BcosExecutor.AbiCache
import BcosExecutor.CnsRegistry
import BcosExecutor.LastWrites
import BcosExecutor.PrefixCode

namespace BcosExecutor

namespace ParallelConfigPrecompiled

open CNSPrecompiled (InterfaceAddress)

def PARA_CONFIG_REGISTER_METHOD_ADDR_STR_UINT : String :=
  "registerParallelFunctionInternal(address,string,uint256)"

def PARA_CONFIG_REGISTER_METHOD_STR_STR_UINT : String :=
  "registerParallelFunctionInternal(string,string,uint256)"

def PARA_CONFIG_UNREGISTER_METHOD_ADDR_STR : String :=
  "unregisterParallelFunctionInternal(address,string)"

def PARA_CONFIG_UNREGISTER_METHOD_STR_STR : String :=
  "unregisterParallelFunctionInternal(string,string)"

def PARA_VALUE_NAMES : String := "functionName,criticalSize"

/-- The chain, the selectors that the hash gives, the codec of the parameters and the results, and
the codec of an entry. -/
structure Context where
  isWasm : Bool
  getFuncSelector : String → UInt32
  decodeRegister : Bytes → Except Exc (InterfaceAddress isWasm × String × U256)
  decodeUnregister : Bytes → Except Exc (InterfaceAddress isWasm × String)
  encode : U256 → Bytes
  parallelConfig : Codec ParallelConfig

/-- The name of a contract, written as an address where the parameter is one. -/
def contractOf {isWasm : Bool} (address : InterfaceAddress isWasm) : String :=
  bytesToString address.stored

def getTableName (contractName : String) : String :=
  PARA_CONFIG_TABLE_PREFIX_SHORT ++ contractName

def rowOf (contractName : String) (selector : UInt32) : StateRow :=
  ⟨getTableName contractName, ascii (toString selector.toNat)⟩

variable {κ : Type} (x : Context)

/-- Nobody is asked for a permission. -/
def registerParallelFunction (data : Bytes) : Script κ Bytes := do
  let (contractName, functionName, criticalSize) ← DagTransfer.ofExcept (x.decodeRegister data)
  foundTable (getTableName (contractOf contractName)) PARA_VALUE_NAMES
  let row := rowOf (contractOf contractName) (x.getFuncSelector functionName)
  setRow row.table row.key (x.parallelConfig.encode ⟨functionName, criticalSize.toNat⟩)
  return x.encode 0

def unregisterParallelFunction (data : Bytes) : Script κ Bytes := do
  let (contractAddress, functionName) ← DagTransfer.ofExcept (x.decodeUnregister data)
  if ← openTable (getTableName (contractOf contractAddress)) then
    .setRow (rowOf (contractOf contractAddress) (x.getFuncSelector functionName)) none
      (.pure (x.encode 0))
  else return []

def isRegister (func : UInt32) : Bool :=
  func = x.getFuncSelector PARA_CONFIG_REGISTER_METHOD_ADDR_STR_UINT ||
    func = x.getFuncSelector PARA_CONFIG_REGISTER_METHOD_STR_STR_UINT

def isUnregister (func : UInt32) : Bool :=
  func = x.getFuncSelector PARA_CONFIG_UNREGISTER_METHOD_ADDR_STR ||
    func = x.getFuncSelector PARA_CONFIG_UNREGISTER_METHOD_STR_STR

def dispatch (func : UInt32) (data : Bytes) : Script κ Bytes :=
  if isRegister x func then registerParallelFunction x data
  else if isUnregister x func then unregisterParallelFunction x data
  else return []

def call (param : Bytes) : Script κ PrecompiledExecResult :=
  match getParamFunc param with
  | .ok func => do
    let execResult ← dispatch x func (getParamData param)
    return DagTransfer.priced execResult
  | .error (.thrown e) => .throw e
  | .error .assertion | .error .undefined => .abort

/-- The configurations as `getTxCriticals` reads them. -/
def reader (r : CriticalsReader) (rows : Rows) : CriticalsReader :=
  { r with
    getRow := fun row => .ok (rows row)
    getObject := fun entry =>
      match x.parallelConfig.decode entry with
      | some config => .ok config
      | none => .error (.stdException "getObject") }

/-- The names that a call can give. -/
abbrev ContractName :=
  {name : String // DagTransfer.IsCppString name}

def nameOf {isWasm : Bool} (address : InterfaceAddress isWasm) : ContractName :=
  ⟨contractOf address, DagTransfer.bytesToString_cppString _⟩

/-- What a call makes of the configuration of a function. -/
def written (param : Bytes) :
    Option ((ContractName × UInt32) × Except Exc (Option ParallelConfig)) :=
  match getParamFunc param with
  | .ok func =>
    if isRegister x func then
      match x.decodeRegister (getParamData param) with
      | .ok (contractName, functionName, criticalSize) =>
        some ((nameOf contractName, x.getFuncSelector functionName),
          .ok (some ⟨functionName, criticalSize.toNat⟩))
      | .error _ => none
    else if isUnregister x func then
      match x.decodeUnregister (getParamData param) with
      | .ok (contractAddress, functionName) =>
        some ((nameOf contractAddress, x.getFuncSelector functionName), .ok none)
      | .error _ => none
    else none
  | .error _ => none

def store (r : CriticalsReader) : LastWrites.Store Rows Bytes (ContractName × UInt32)
    (Except Exc (Option ParallelConfig)) where
  step rows param := keptRows (call x param) rows
  read rows function := (reader x r rows).getParallelConfig function.1.val function.2
  write _ := written x

variable {x} {r : CriticalsReader} {rows : Rows}

theorem toList_toString (n : Nat) : (toString n).toList = Nat.toDigits 10 n :=
  Nat.toList_repr

theorem ascii_toString_injective {m n : Nat} (h : ascii (toString m) = ascii (toString n)) :
    m = n := by
  have hdigits (n : Nat) : ∀ c ∈ (toString n).toList, c.toNat < 256 := by
    intro c hc
    rw [toList_toString] at hc
    have hdigit := Nat.isDigit_of_mem_toDigits (by decide) (by decide) hc
    simp only [Char.isDigit, Bool.and_eq_true, decide_eq_true_eq] at hdigit
    have hle : c.toNat ≤ 57 := hdigit.2
    omega
  have hstring := AbiCaching.ascii_injective (hdigits m) (hdigits n) h
  have hlist := congrArg String.toList hstring
  rw [toList_toString, toList_toString] at hlist
  have hback (n : Nat) : Nat.ofDigitChars 10 (Nat.toDigits 10 n) 0 = n :=
    Nat.ofDigitChars_toDigits (by decide) (by decide)
  rw [← hback m, ← hback n, hlist]

theorem getTableName_injective {name name' : String} (h : getTableName name = getTableName name') :
    name = name' := by
  have hlist := congrArg String.toList h
  unfold getTableName at hlist
  rw [String.toList_append, String.toList_append] at hlist
  exact String.toList_injective (List.append_cancel_left hlist)

theorem rowOf_injective {name name' : String} {selector selector' : UInt32}
    (h : rowOf name selector = rowOf name' selector') : name = name' ∧ selector = selector' := by
  obtain ⟨htable, hkey⟩ := StateRow.mk.inj h
  exact ⟨getTableName_injective htable, UInt32.toNat_inj.mp (ascii_toString_injective hkey)⟩

theorem getTableName_ne (name : String) : getTableName name ≠ sysTables := by
  intro h
  have hhead := congrArg (fun s => s.toList.head?) h
  simp only [getTableName, String.toList_append] at hhead
  cases hhead

theorem isCppString_of_all {s : String} (h : s.toList.all (·.toNat < 256) = true) :
    DagTransfer.IsCppString s :=
  fun c hc => of_decide_eq_true (List.all_eq_true.mp h c hc)

theorem getTableName_cppString (name : ContractName) :
    DagTransfer.IsCppString (getTableName name.val) := by
  intro c hc
  unfold getTableName at hc
  rw [String.toList_append] at hc
  have hshort : DagTransfer.IsCppString PARA_CONFIG_TABLE_PREFIX_SHORT :=
    isCppString_of_all (by decide)
  exact (List.mem_append.mp hc).elim (hshort c) (name.property c)

/-- The configuration as it is found in the rows. -/
theorem getParallelConfig_eq (rows : Rows) (name : String) (selector : UInt32) :
    (reader x r rows).getParallelConfig name selector =
      match rows ⟨sysTables, ascii (getTableName name)⟩ with
      | none => .ok none
      | some _ =>
        match rows (rowOf name selector) with
        | none => .ok none
        | some entry => some <$> (reader x r rows).getObject entry := by
  unfold CriticalsReader.getParallelConfig
  show (match rows ⟨sysTables, ascii (getTableName name)⟩ with | none => _ | some _ => _) = _
  cases rows ⟨sysTables, ascii (getTableName name)⟩ with
  | none => rfl
  | some _ =>
    show (match rows (rowOf name selector) with | none => _ | some entry => _) = _
    cases rows (rowOf name selector) <;> rfl

def registered (rows : Rows) (name : ContractName) (selector : UInt32) (config : ParallelConfig) :
    Rows :=
  Function.update (withFoundTable (getTableName name.val) PARA_VALUE_NAMES rows)
    (rowOf name.val selector) (some (x.parallelConfig.encode config))

def unregistered (rows : Rows) (name : ContractName) (selector : UInt32) : Rows :=
  if TableThere rows (getTableName name.val) then
    Function.update rows (rowOf name.val selector) none
  else rows

theorem tableRow_ne {name : ContractName} {selector : UInt32} (key : Bytes) :
    (⟨sysTables, key⟩ : StateRow) ≠ rowOf name.val selector :=
  fun heq => getTableName_ne name.val (congrArg StateRow.table heq).symm

theorem tableKey_injective {name name' : ContractName}
    (h : ascii (getTableName name.val) = ascii (getTableName name'.val)) : name = name' :=
  Subtype.ext (getTableName_injective (AbiCaching.ascii_injective
    (getTableName_cppString name) (getTableName_cppString name') h))

theorem rowOf_ne {name name' : ContractName} {selector selector' : UInt32}
    (h : (name', selector') ≠ (name, selector)) :
    rowOf name'.val selector' ≠ rowOf name.val selector := by
  intro heq
  obtain ⟨hname, rfl⟩ := rowOf_injective heq
  exact h (congrArg (·, selector') (Subtype.ext hname))

/-- No configuration is outside of a table. -/
def Founded (rows : Rows) : Prop :=
  ∀ (name : ContractName) selector, (rows (rowOf name.val selector)).isSome →
    TableThere rows (getTableName name.val)

theorem read_registered (h : Founded rows) (name : ContractName) (selector : UInt32)
    (config : ParallelConfig) : (store x r).read (registered (x := x) rows name selector config) =
      Function.update ((store x r).read rows) (name, selector) (.ok (some config)) := by
  funext ⟨name', selector'⟩
  show (reader x r _).getParallelConfig name'.val selector' = _
  rw [getParallelConfig_eq, registered, Function.update_of_ne (tableRow_ne _)]
  unfold withFoundTable
  by_cases hfunction : (name', selector') = (name, selector)
  · cases hfunction
    rw [Function.update_self, Function.update_self, Function.update_self]
    have hsome : ∃ info, (rows ⟨sysTables, ascii (getTableName name.val)⟩).or
        (some (ascii PARA_VALUE_NAMES)) = some info := by
      cases rows ⟨sysTables, ascii (getTableName name.val)⟩ <;> exact ⟨_, rfl⟩
    obtain ⟨info, hinfo⟩ := hsome
    rw [hinfo]
    show some <$> (match x.parallelConfig.decode (x.parallelConfig.encode config) with
      | some config => Except.ok config | none => _) = _
    rw [x.parallelConfig.decode_encode]
    rfl
  · rw [Function.update_of_ne hfunction, Function.update_of_ne (rowOf_ne hfunction),
      Function.update_of_ne (tableRow_ne _).symm]
    show _ = (reader x r rows).getParallelConfig name'.val selector'
    rw [getParallelConfig_eq]
    by_cases hname : name' = name
    · subst hname
      have hfounded := h name' selector'
      unfold TableThere at hfounded
      rw [Function.update_self]
      cases htable : rows ⟨sysTables, ascii (getTableName name'.val)⟩ with
      | some info => rfl
      | none =>
        rw [htable] at hfounded
        have hrow : rows (rowOf name'.val selector') = none :=
          Option.not_isSome_iff_eq_none.mp fun hsome => Bool.false_ne_true (hfounded hsome)
        rw [hrow]
        rfl
    · rw [Function.update_of_ne fun heq => hname (tableKey_injective (congrArg StateRow.key heq))]
      rfl

theorem read_unregistered (name : ContractName) (selector : UInt32) :
    (store x r).read (unregistered rows name selector) =
      Function.update ((store x r).read rows) (name, selector) (.ok none) := by
  funext ⟨name', selector'⟩
  show (reader x r _).getParallelConfig name'.val selector' = _
  unfold unregistered
  by_cases hthere : TableThere rows (getTableName name.val)
  · rw [if_pos hthere, getParallelConfig_eq, Function.update_of_ne (tableRow_ne _)]
    by_cases hfunction : (name', selector') = (name, selector)
    · cases hfunction
      rw [Function.update_self, Function.update_self]
      cases rows ⟨sysTables, ascii (getTableName name.val)⟩ <;> rfl
    · rw [Function.update_of_ne hfunction, Function.update_of_ne (rowOf_ne hfunction)]
      exact (getParallelConfig_eq rows name'.val selector').symm
  · rw [if_neg hthere]
    by_cases hfunction : (name', selector') = (name, selector)
    · cases hfunction
      have hnone : rows ⟨sysTables, ascii (getTableName name.val)⟩ = none :=
        Option.not_isSome_iff_eq_none.mp hthere
      rw [Function.update_self, getParallelConfig_eq, hnone]
    · rw [Function.update_of_ne hfunction]
      rfl

theorem founded_registered (h : Founded rows) (name : ContractName) (selector : UInt32)
    (config : ParallelConfig) : Founded (registered (x := x) rows name selector config) := by
  intro name' selector' hsome
  unfold TableThere registered
  rw [Function.update_of_ne (tableRow_ne _)]
  unfold withFoundTable
  by_cases hname : name' = name
  · subst hname
    rw [Function.update_self]
    cases rows ⟨sysTables, ascii (getTableName name'.val)⟩ <;> rfl
  · rw [Function.update_of_ne fun heq => hname (tableKey_injective (congrArg StateRow.key heq))]
    refine h name' selector' ?_
    unfold registered withFoundTable at hsome
    rwa [Function.update_of_ne (rowOf_ne fun heq => hname (Prod.mk.inj heq).1),
      Function.update_of_ne (tableRow_ne _).symm] at hsome

theorem founded_unregistered (h : Founded rows) (name : ContractName) (selector : UInt32) :
    Founded (unregistered rows name selector) := by
  intro name' selector' hsome
  unfold unregistered at hsome ⊢
  split
  next hthere =>
    rw [if_pos hthere] at hsome
    unfold TableThere
    rw [Function.update_of_ne (tableRow_ne _)]
    refine h name' selector' ?_
    by_cases hfunction : (name', selector') = (name, selector)
    · cases hfunction
      rw [Function.update_self] at hsome
      cases hsome
    · rwa [Function.update_of_ne (rowOf_ne hfunction)] at hsome
  next hthere =>
    rw [if_neg hthere] at hsome
    exact h name' selector' hsome

theorem registerParallelFunction_onRows {data : Bytes} {contractName : InterfaceAddress x.isWasm}
    {functionName : String} {criticalSize : U256}
    (h : x.decodeRegister data = .ok (contractName, functionName, criticalSize)) (rows : Rows) :
    (registerParallelFunction x data : Script Empty Bytes).onRows rows =
      (some (.ok (x.encode 0)), registered (x := x) rows (nameOf contractName)
        (x.getFuncSelector functionName) ⟨functionName, criticalSize.toNat⟩) := by
  unfold registerParallelFunction
  rw [h]
  show (do
    foundTable (getTableName (contractOf contractName)) PARA_VALUE_NAMES
    setRow (rowOf (contractOf contractName) (x.getFuncSelector functionName)).table
      (rowOf (contractOf contractName) (x.getFuncSelector functionName)).key
      (x.parallelConfig.encode ⟨functionName, criticalSize.toNat⟩)
    return x.encode 0 : Script Empty Bytes).onRows rows = _
  rw [Script.onRows_bind_of_ok (Script.foundTable_onRows _ _ rows)]
  rfl

theorem unregisterParallelFunction_onRows {data : Bytes}
    {contractAddress : InterfaceAddress x.isWasm} {functionName : String}
    (h : x.decodeUnregister data = .ok (contractAddress, functionName)) (rows : Rows) :
    ∃ out, (unregisterParallelFunction x data : Script Empty Bytes).onRows rows =
      (some (.ok out), unregistered rows (nameOf contractAddress)
        (x.getFuncSelector functionName)) := by
  unfold unregisterParallelFunction unregistered
  rw [h]
  show ∃ out, (do
    if ← openTable (getTableName (contractOf contractAddress)) then
      Script.setRow (rowOf (contractOf contractAddress) (x.getFuncSelector functionName)) none
        (.pure (x.encode 0))
    else return [] : Script Empty Bytes).onRows rows = _
  rw [Script.onRows_bind, Script.onRows_openTable]
  dsimp only
  by_cases hthere : TableThere rows (getTableName (nameOf contractAddress).val)
  · have hsome : (rows ⟨sysTables, ascii (getTableName (contractOf contractAddress))⟩).isSome =
        true := hthere
    rw [if_pos hthere, hsome, if_pos rfl]
    exact ⟨_, rfl⟩
  · have hnone : (rows ⟨sysTables, ascii (getTableName (contractOf contractAddress))⟩).isSome =
        false := Bool.eq_false_of_not_eq_true hthere
    rw [if_neg hthere, hnone, if_neg Bool.false_ne_true]
    exact ⟨_, rfl⟩

/-- A call registers, or it unregisters, or it changes nothing. -/
theorem step_eq (rows : Rows) (param : Bytes) :
    (∃ name selector config, written x param = some ((name, selector), .ok (some config)) ∧
      (store x r).step rows param = registered (x := x) rows name selector config) ∨
    (∃ name selector, written x param = some ((name, selector), .ok none) ∧
      (store x r).step rows param = unregistered rows name selector) ∨
    written x param = none ∧ (store x r).step rows param = rows := by
  show (∃ name selector config, _ ∧ keptRows (call x param) rows = _) ∨
    (∃ name selector, _ ∧ keptRows (call x param) rows = _) ∨ _ ∧ keptRows (call x param) rows = _
  unfold keptRows call written
  cases getParamFunc param with
  | error fault => cases fault <;> exact .inr (.inr ⟨rfl, rfl⟩)
  | ok func =>
    dsimp only
    unfold dispatch
    cases hregister : isRegister x func with
    | true =>
      rw [if_pos rfl, if_pos rfl, Script.onRows_bind]
      cases hdecode : x.decodeRegister (getParamData param) with
      | error e =>
        unfold registerParallelFunction
        rw [hdecode]
        exact .inr (.inr ⟨rfl, rfl⟩)
      | ok parameters =>
        refine .inl ⟨_, _, _, rfl, ?_⟩
        rw [registerParallelFunction_onRows hdecode]
        rfl
    | false =>
      rw [if_neg Bool.false_ne_true, if_neg Bool.false_ne_true]
      cases hunregister : isUnregister x func with
      | true =>
        rw [if_pos rfl, if_pos rfl, Script.onRows_bind]
        cases hdecode : x.decodeUnregister (getParamData param) with
        | error e =>
          unfold unregisterParallelFunction
          rw [hdecode]
          exact .inr (.inr ⟨rfl, rfl⟩)
        | ok parameters =>
          refine .inr (.inl ⟨_, _, rfl, ?_⟩)
          obtain ⟨out, hout⟩ := unregisterParallelFunction_onRows hdecode rows
          rw [hout]
          rfl
      | false => exact .inr (.inr ⟨rfl, rfl⟩)

theorem store_faithful : (store x r).Faithful Founded where
  keep rows param h := by
    obtain ⟨name, selector, config, _, hstep⟩ | ⟨name, selector, _, hstep⟩ | ⟨_, hstep⟩ :=
      step_eq (x := x) (r := r) rows param
    · rw [hstep]
      exact founded_registered h name selector config
    · rw [hstep]
      exact founded_unregistered h name selector
    · rw [hstep]
      exact h
  written rows param h function config hwritten := by
    obtain ⟨name, selector, config', hw, hstep⟩ | ⟨name, selector, hw, hstep⟩ | ⟨hw, -⟩ :=
      step_eq (x := x) (r := r) rows param
    · cases hw.symm.trans hwritten
      rw [hstep]
      exact read_registered h name selector config'
    · cases hw.symm.trans hwritten
      rw [hstep]
      exact read_unregistered name selector
    · cases hw.symm.trans hwritten
  unwritten rows param h hwritten := by
    obtain ⟨name, selector, config', hw, -⟩ | ⟨name, selector, hw, -⟩ | ⟨-, hstep⟩ :=
      step_eq (x := x) (r := r) rows param
    · cases hw.symm.trans hwritten
    · cases hw.symm.trans hwritten
    · rw [hstep]

/-- The keys that what is found for a function gives a call of a contract. -/
def criticalsOf (r : CriticalsReader) (params : CallParameters)
    (found : Except Exc (Option ParallelConfig)) : Checked (List String) :=
  (fun res => (res.getD []).map (· ++ params.receiveAddress)) <$> do
    match ← orThrow found with
    | none => return none
    | some config => orThrow (r.decodeCriticals params.data config)

theorem getTxCriticals_eq {params : CallParameters}
    (hname : DagTransfer.IsCppString params.receiveAddress) (hcreate : params.create = false)
    (hplain : r.getPrecompiled params.receiveAddress = none) {func : UInt32}
    (hfunc : getParamFunc params.data = .ok func) :
    (reader x r rows).getTxCriticals params =
      criticalsOf r params ((store x r).read rows
        (⟨params.receiveAddress, hname⟩, func)) := by
  have hnone : (reader x r rows).getPrecompiled params.receiveAddress = none := hplain
  unfold CriticalsReader.getTxCriticals CriticalsReader.getParallelCriticals
  rw [hcreate, if_neg Bool.false_ne_true, hnone, hfunc]
  rfl

/-- After any calls the transactions that call a function of a contract conflict as the function
was registered or unregistered last, and without a call about it as before. -/
theorem getTxCriticals_run (x : Context) (r : CriticalsReader) {rows : Rows} (h : Founded rows)
    (calls : List Bytes) {params : CallParameters}
    (hname : DagTransfer.IsCppString params.receiveAddress) (hcreate : params.create = false)
    (hplain : r.getPrecompiled params.receiveAddress = none) {func : UInt32}
    (hfunc : getParamFunc params.data = .ok func) :
    (reader x r ((store x r).run rows calls)).getTxCriticals params =
      criticalsOf r params
        ((LastWrites.lastOf (calls.filterMap (written x))
          (⟨params.receiveAddress, hname⟩, func)).getD
          ((reader x r rows).getParallelConfig params.receiveAddress func)) := by
  have hread := (store_faithful (x := x) (r := r)).read_run_filterMap (fun _ _ => rfl) calls h
    (⟨params.receiveAddress, hname⟩, func)
  rw [getTxCriticals_eq hname hcreate hplain hfunc, hread]
  rfl

def testContext : Context where
  isWasm := true
  getFuncSelector name :=
    if name = PARA_CONFIG_REGISTER_METHOD_STR_STR_UINT then 1
    else if name = PARA_CONFIG_UNREGISTER_METHOD_STR_STR then 2
    else UInt32.ofNat (name.length + 2)
  decodeRegister data :=
    match (PrefixCode.byte.list.pair (PrefixCode.byte.list.pair PrefixCode.byte)).decode data with
    | some ((name, function, size), _) => .ok (name, bytesToString function, size.toNat)
    | none => .error (.stdException "decode")
  decodeUnregister data :=
    match (PrefixCode.byte.list.pair PrefixCode.byte.list).decode data with
    | some ((name, function), _) => .ok (name, bytesToString function)
    | none => .error (.stdException "decode")
  encode code := [UInt8.ofNat code.toNat]
  parallelConfig := (PrefixCode.ofInjection (PrefixCode.length.pair PrefixCode.string)
    (fun config : ParallelConfig => (config.criticalSize, config.functionName))
    (fun p => some ⟨p.2, p.1⟩) (fun _ => rfl)).toCodec fun config h =>
      PrefixCode.length_encode_ne_nil config.criticalSize (List.append_eq_nil_iff.mp h).1

/-- Every argument is a letter. -/
def testReader : CriticalsReader where
  isWasm := true
  getPrecompiled _ := none
  getFuncSelector := testContext.getFuncSelector
  getRow _ := .ok none
  getObject _ := .error (.stdException "getObject")
  decodeUser _ _ := .error (.stdException "decode")
  decodeUsers _ _ := .error (.stdException "decode")
  parser _ := .ok (some ["string", "string"])
  abiOutByFuncSelector data types :=
    .ok (some ((data.take types.length).map fun letter => bytesToString [letter]))

def registerCall (size : UInt8) : Bytes :=
  [0, 0, 0, 1] ++ (PrefixCode.byte.list.pair (PrefixCode.byte.list.pair PrefixCode.byte)).encode
    (ascii "c", ascii "f", size)

def unregisterCall : Bytes :=
  [0, 0, 0, 2] ++ (PrefixCode.byte.list.pair PrefixCode.byte.list).encode (ascii "c", ascii "f")

/-- The transaction calls the registered function of the contract with two letters. -/
def callLetters : CallParameters where
  receiveAddress := "c"
  data := [0, 0, 0, 3] ++ ascii "xy"
  type := .message

theorem getTxCriticals_run_letters :
    (reader testContext testReader ((store testContext testReader).run (fun _ => none)
        [registerCall 2, unregisterCall, registerCall 1])).getTxCriticals callLetters =
      .ok ["xc"] ∧
    (reader testContext testReader ((store testContext testReader).run (fun _ => none)
        [registerCall 2, registerCall 1, unregisterCall])).getTxCriticals callLetters =
      .ok [] := by
  have hfounded : Founded fun _ => none := fun _ _ h => Bool.noConfusion h
  have hname : DagTransfer.IsCppString callLetters.receiveAddress :=
    isCppString_of_all (by decide)
  exact ⟨getTxCriticals_run testContext testReader hfounded _ hname rfl rfl rfl,
    getTxCriticals_run testContext testReader hfounded _ hname rfl rfl rfl⟩

end ParallelConfigPrecompiled

end BcosExecutor
