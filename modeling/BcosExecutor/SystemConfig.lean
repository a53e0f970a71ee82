import BcosExecutor.DagTransfer
import BcosExecutor.LastWrites
import BcosExecutor.PrefixCode
import BcosExecutor.RowRuns

namespace BcosExecutor

namespace SystemConfigPrecompiled

def SYSCONFIG_METHOD_SET_STR : String := "setValueByKey(string,string)"

def SYSCONFIG_METHOD_GET_STR : String := "getValueByKey(string)"

def TX_GAS_LIMIT_MIN : Int := 100000

def TX_COUNT_LIMIT_MIN : Int := 1

def CODE_INVALID_CONFIGURATION_VALUES : Int := -51300

/-- The names that the framework gives, the codec of the parameters and the results, and the codec
of an entry. -/
structure Context where
  SYS_CONFIG : String
  SYSTEM_KEY_TX_GAS_LIMIT : Bytes
  SYSTEM_KEY_CONSENSUS_LEADER_PERIOD : Bytes
  SYSTEM_KEY_TX_COUNT_LIMIT : Bytes
  getFuncSelector : String → UInt32
  decodeSet : Bytes → Except Exc (Bytes × Bytes)
  decodeGet : Bytes → Except Exc Bytes
  encodeCode : Int → Bytes
  encodeConfig : Bytes → U256 → Bytes
  systemConfigEntry : Codec (Bytes × Int)
  sysTables_ne : SYS_CONFIG ≠ sysTables

/-- `boost::to_lower`. -/
def toLower (s : Bytes) : Bytes :=
  s.map fun byte => if 65 ≤ byte ∧ byte ≤ 90 then byte + 32 else byte

def digits (s : Bytes) : Option Nat :=
  if s ≠ [] ∧ s.all fun byte => 48 ≤ byte && byte ≤ 57 then
    some (s.foldl (fun n byte => 10 * n + (byte.toNat - 48)) 0)
  else none

/-- `boost::lexical_cast<int64_t>`: a sign and digits, of a number that fits. -/
def lexicalCast (value : Bytes) : Option Int :=
  match value with
  -- '-'
  | 45 :: s => (digits s).bind fun n => if n ≤ 2 ^ 63 then some (-n) else none
  -- '+'
  | 43 :: s => (digits s).bind fun n => if n < 2 ^ 63 then some n else none
  | s => (digits s).bind fun n => if n < 2 ^ 63 then some n else none

/-- The answer where there is no configuration. -/
def noConfig : Bytes × Int :=
  ([], -1)

variable {κ : Type} (x : Context)

/-- A map: of two equal keys the first one is entered. -/
def sysValueCmp : List (Bytes × (Int → Bool)) :=
  [(x.SYSTEM_KEY_TX_GAS_LIMIT, fun v => TX_GAS_LIMIT_MIN < v),
    (x.SYSTEM_KEY_CONSENSUS_LEADER_PERIOD, fun v => 1 ≤ v),
    (x.SYSTEM_KEY_TX_COUNT_LIMIT, fun v => TX_COUNT_LIMIT_MIN ≤ v)]

def checkValueValid (key value : Bytes) : Bool :=
  if value = [] then false
  else
    match lexicalCast value, (sysValueCmp x).lookup key with
    | some configuredValue, some cmp => cmp configuredValue
    | _, _ => false

/-- The table is used as it is opened. -/
def setValueByKey (number : Int) (configKey configValue : Bytes) :
    Script κ PrecompiledExecResult :=
  let configKey := toLower configKey
  if checkValueValid x configKey configValue then do
    if ← openTable x.SYS_CONFIG then
      setRow x.SYS_CONFIG configKey (x.systemConfigEntry.encode (configValue, number + 1))
      return DagTransfer.priced (x.encodeCode 0)
    else .abort
  -- an early return, before there is a price
  else return ⟨x.encodeCode CODE_INVALID_CONFIGURATION_VALUES, 0⟩

def getSysConfigByKey (key : Bytes) : Script κ (Bytes × Int) := do
  if ← openTable x.SYS_CONFIG then
    match ← getRow x.SYS_CONFIG key with
    | some entry => return (x.systemConfigEntry.decode entry).getD noConfig
    | none => return noConfig
  else .abort

def getValueByKey (configKey : Bytes) : Script κ PrecompiledExecResult := do
  let (value, number) ← getSysConfigByKey x (toLower configKey)
  return DagTransfer.priced (x.encodeConfig value (BitVec.ofInt 256 number))

/-- A call in the block of a number. -/
def call (number : Int) (param : Bytes) : Script κ PrecompiledExecResult :=
  match getParamFunc param with
  | .ok func =>
    if func = x.getFuncSelector SYSCONFIG_METHOD_SET_STR then do
      let (configKey, configValue) ← DagTransfer.ofExcept (x.decodeSet (getParamData param))
      setValueByKey x number configKey configValue
    else if func = x.getFuncSelector SYSCONFIG_METHOD_GET_STR then do
      let configKey ← DagTransfer.ofExcept (x.decodeGet (getParamData param))
      getValueByKey x configKey
    else return DagTransfer.priced []
  | .error (.thrown e) => .throw e
  | .error .assertion | .error .undefined => .abort

/-- A call of the contract in the block of a number. -/
structure Operation where
  number : Int
  param : Bytes

def step (rows : Rows) (operation : Operation) : Rows :=
  keptRows (call x operation.number operation.param) rows

/-- The configuration under a key, as it is stored. -/
def configOf (rows : Rows) (key : Bytes) : Bytes × Int :=
  match rows ⟨x.SYS_CONFIG, key⟩ with
  | some entry => (x.systemConfigEntry.decode entry).getD noConfig
  | none => noConfig

/-- The configuration that a call sets: a valid value, from the next block on. -/
def accepted (operation : Operation) : Option (Bytes × (Bytes × Int)) :=
  match getParamFunc operation.param with
  | .ok func =>
    if func = x.getFuncSelector SYSCONFIG_METHOD_SET_STR then
      match x.decodeSet (getParamData operation.param) with
      | .ok (configKey, configValue) =>
        if checkValueValid x (toLower configKey) configValue then
          some (toLower configKey, (configValue, operation.number + 1))
        else none
      | .error _ => none
    else none
  | .error _ => none

def store : LastWrites.Store Rows Operation Bytes (Bytes × Int) where
  step := step x
  read := configOf x
  write _ := accepted x

variable {x} {rows : Rows}

theorem setValueByKey_onRows (h : TableThere rows x.SYS_CONFIG) (number : Int)
    (configKey configValue : Bytes) :
    (setValueByKey x number configKey configValue : Script Empty _).onRows rows =
      if checkValueValid x (toLower configKey) configValue then
        (some (.ok (DagTransfer.priced (x.encodeCode 0))),
          Function.update rows ⟨x.SYS_CONFIG, toLower configKey⟩
            (some (x.systemConfigEntry.encode (configValue, number + 1))))
      else (some (.ok ⟨x.encodeCode CODE_INVALID_CONFIGURATION_VALUES, 0⟩), rows) := by
  unfold setValueByKey
  dsimp only
  split
  · rw [Script.onRows_bind, h.onRows_openTable]
    rfl
  · rfl

theorem getValueByKey_onRows (h : TableThere rows x.SYS_CONFIG) (configKey : Bytes) :
    (getValueByKey x configKey : Script Empty _).onRows rows =
      (some (.ok (DagTransfer.priced (x.encodeConfig (configOf x rows (toLower configKey)).1
        (BitVec.ofInt 256 (configOf x rows (toLower configKey)).2)))), rows) := by
  unfold getValueByKey getSysConfigByKey configOf
  rw [Script.onRows_bind, Script.onRows_bind, h.onRows_openTable]
  dsimp only
  rw [if_pos rfl, Script.onRows_bind, Script.onRows_get]
  dsimp only
  cases rows ⟨x.SYS_CONFIG, toLower configKey⟩ <;> rfl

/-- A call writes the configuration that it sets, and nothing else. -/
theorem step_eq (h : TableThere rows x.SYS_CONFIG) (operation : Operation) :
    step x rows operation =
      match accepted x operation with
      | some (key, config) =>
        Function.update rows ⟨x.SYS_CONFIG, key⟩ (some (x.systemConfigEntry.encode config))
      | none => rows := by
  unfold step keptRows call accepted
  cases getParamFunc operation.param with
  | error fault => cases fault <;> rfl
  | ok func =>
    dsimp only
    by_cases hset : func = x.getFuncSelector SYSCONFIG_METHOD_SET_STR
    · rw [if_pos hset, if_pos hset]
      cases x.decodeSet (getParamData operation.param) with
      | error e => rfl
      | ok config =>
        obtain ⟨configKey, configValue⟩ := config
        rw [Script.onRows_bind, DagTransfer.ofExcept, show
          (Script.pure (configKey, configValue) : Script Empty _).onRows rows =
            (some (.ok (configKey, configValue)), rows) from rfl]
        dsimp only
        rw [setValueByKey_onRows h]
        cases checkValueValid x (toLower configKey) configValue <;> rfl
    · rw [if_neg hset, if_neg hset]
      by_cases hget : func = x.getFuncSelector SYSCONFIG_METHOD_GET_STR
      · rw [if_pos hget]
        cases x.decodeGet (getParamData operation.param) with
        | error e => rfl
        | ok configKey =>
          rw [Script.onRows_bind, DagTransfer.ofExcept, show
            (Script.pure configKey : Script Empty _).onRows rows =
              (some (.ok configKey), rows) from rfl]
          dsimp only
          rw [getValueByKey_onRows h]
      · rw [if_neg hget]
        rfl

theorem configOf_update (rows : Rows) (key : Bytes) (config : Bytes × Int) :
    configOf x (Function.update rows ⟨x.SYS_CONFIG, key⟩
      (some (x.systemConfigEntry.encode config))) =
      Function.update (configOf x rows) key config := by
  funext key'
  by_cases hkey : key' = key
  · subst hkey
    rw [Function.update_self, configOf, Function.update_self]
    dsimp only
    rw [x.systemConfigEntry.decode_encode]
    rfl
  · have hrow : (⟨x.SYS_CONFIG, key'⟩ : StateRow) ≠ ⟨x.SYS_CONFIG, key⟩ :=
      fun heq => hkey (congrArg StateRow.key heq)
    rw [Function.update_of_ne hkey, configOf, Function.update_of_ne hrow]
    rfl

theorem step_other (h : TableThere rows x.SYS_CONFIG) (operation : Operation) {row : StateRow}
    (hrow : row.table ≠ x.SYS_CONFIG) : step x rows operation row = rows row := by
  rw [step_eq h]
  cases accepted x operation with
  | none => rfl
  | some w => exact Function.update_of_ne (fun heq => hrow (congrArg StateRow.table heq)) _ _

theorem store_faithful : (store x).Faithful fun rows => TableThere rows x.SYS_CONFIG where
  keep rows operation h := by
    show (step x rows operation ⟨sysTables, ascii x.SYS_CONFIG⟩).isSome = true
    rw [step_other h operation x.sysTables_ne.symm]
    exact h
  written rows operation h key config hw := by
    show configOf x (step x rows operation) = _
    rw [step_eq h, show accepted x operation = some (key, config) from hw]
    exact configOf_update rows key config
  unwritten rows operation h hw := by
    show configOf x (step x rows operation) = _
    rw [step_eq h, show accepted x operation = none from hw]
    rfl

theorem run_other (h : TableThere rows x.SYS_CONFIG) (operations : List Operation)
    {row : StateRow} (hrow : row.table ≠ x.SYS_CONFIG) :
    (store x).run rows operations row = rows row := by
  induction operations generalizing rows with
  | nil => rfl
  | cons operation operations ih =>
    exact (ih (store_faithful.keep rows operation h)).trans (step_other h operation hrow)

/-- What a call sets has a valid value, and a number behind that of its block. -/
theorem accepted_spec {operation : Operation} {w : Bytes × (Bytes × Int)}
    (h : accepted x operation = some w) :
    checkValueValid x w.1 w.2.1 = true ∧ w.2.2 = operation.number + 1 := by
  unfold accepted at h
  split at h
  · split at h
    · split at h
      · split at h
        · cases h
          exact ⟨‹_›, rfl⟩
        · cases h
      · cases h
    · cases h
  · cases h

/-- After any calls a key has the configuration that was set last, whose value is valid for the
key and which holds from the block behind its own, or the one it had; a call that sets nothing
changes nothing, and no other table is touched. -/
theorem getValueByKey_run (x : Context) {rows : Rows} (h : TableThere rows x.SYS_CONFIG)
    (operations : List Operation) (configKey : Bytes) :
    let writes := operations.filterMap (accepted x)
    let after := (store x).run rows operations
    let config := (LastWrites.lastOf writes (toLower configKey)).getD
      (configOf x rows (toLower configKey))
    (getValueByKey x configKey : Script Empty _).onRows after =
        (some (.ok (DagTransfer.priced (x.encodeConfig config.1 (BitVec.ofInt 256 config.2)))),
          after) ∧
      (∀ w ∈ writes, checkValueValid x w.1 w.2.1 = true ∧
        ∃ operation ∈ operations, w.2.2 = operation.number + 1) ∧
      ∀ row, row.table ≠ x.SYS_CONFIG → after row = rows row := by
  have hread : configOf x ((store x).run rows operations) (toLower configKey) =
      (LastWrites.lastOf (operations.filterMap (accepted x)) (toLower configKey)).getD
        (configOf x rows (toLower configKey)) :=
    store_faithful.read_run_filterMap (fun _ _ => rfl) operations h (toLower configKey)
  refine ⟨?_, fun w hw => ?_, fun row hrow => run_other h operations hrow⟩
  · rw [getValueByKey_onRows (store_faithful.run operations h), hread]
  · obtain ⟨operation, hmem, haccepted⟩ := List.mem_filterMap.mp hw
    obtain ⟨hvalid, hnumber⟩ := accepted_spec haccepted
    exact ⟨hvalid, operation, hmem, hnumber⟩

def testContext : Context where
  SYS_CONFIG := "s_config"
  SYSTEM_KEY_TX_GAS_LIMIT := ascii "tx_gas_limit"
  SYSTEM_KEY_CONSENSUS_LEADER_PERIOD := ascii "consensus_leader_period"
  SYSTEM_KEY_TX_COUNT_LIMIT := ascii "tx_count_limit"
  getFuncSelector name := if name = SYSCONFIG_METHOD_SET_STR then 1 else 2
  decodeSet data :=
    match (PrefixCode.byte.list.pair PrefixCode.byte.list).decode data with
    | some (config, _) => .ok config
    | none => .error (.stdException "decode")
  decodeGet data := .ok data
  encodeCode code := [if code = 0 then 0 else 1]
  encodeConfig value number := UInt8.ofNat number.toNat :: value
  systemConfigEntry := (PrefixCode.byte.list.pair PrefixCode.int).toCodec
    (PrefixCode.pair_list_encode_ne_nil _ _)
  sysTables_ne := by decide

/-- A call that sets a configuration. -/
def setCall (number : Int) (configKey configValue : String) : Operation where
  number
  param := [0, 0, 0, 1] ++ (PrefixCode.byte.list.pair PrefixCode.byte.list).encode
    (ascii configKey, ascii configValue)

/-- The key in capitals is the same, and a limit of zero is not set. -/
theorem getValueByKey_run_limits : ∃ after : Rows,
    (getValueByKey testContext (ascii "tx_count_limit") : Script Empty _).onRows after =
      (some (.ok (DagTransfer.priced (9 :: ascii "20"))), after) := by
  have hthere : TableThere (fun row => if row.table = sysTables then some [] else none)
      testContext.SYS_CONFIG := rfl
  obtain ⟨hget, -⟩ := getValueByKey_run testContext hthere
    [setCall 5 "tx_count_limit" "10", setCall 8 "TX_COUNT_LIMIT" "20",
      setCall 9 "tx_count_limit" "0"] (ascii "tx_count_limit")
  exact ⟨_, hget⟩

end SystemConfigPrecompiled

end BcosExecutor
