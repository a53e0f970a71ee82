import BcosExecutor.DagFilling
import BcosExecutor.DagSchedule

namespace BcosExecutor

theorem getElem?_taskPositions {txs : List (Option (List ConflictField))} {i : Nat}
    {fields : List ConflictField} (h : txs[i]? = some (some fields)) :
    (taskPositions txs)[taskIndex txs i]? = some i := by
  have hlt : i < txs.length := (List.getElem?_eq_some_iff.mp h).1
  have hcount (n : Nat) : ((List.range n).filter fun j => (txs.getD j none).isSome).length =
      ((txs.take n).filterMap id).length := by
    induction n with
    | zero => rfl
    | succ n ih =>
      rw [List.range_succ, List.filter_append, List.length_append, ih, List.take_add_one,
        List.filterMap_append, List.length_append]
      cases hn : txs[n]? with
      | none => simp [hn]
      | some tx => cases tx <;> simp [hn]
  have hsplit : List.range txs.length = List.range i ++ i :: List.range' (i + 1) (txs.length - i - 1) := by
    rw [List.range_eq_range', List.range_eq_range', ← List.range'_succ]
    rw [show txs.length = i + (txs.length - i - 1 + 1) by omega, List.range'_append_1.symm]
    simp
  unfold taskPositions
  rw [hsplit, List.filter_append, List.filter_cons_of_pos (by simp [h]),
    List.getElem?_append_right (by rw [hcount]; exact Nat.le_refl _), hcount, taskIndex,
    Nat.sub_self]
  rfl

theorem position_eq_some {txs : List (Option (List ConflictField))} {v : Node} {i : Nat}
    {fields : List ConflictField} (h : txs[i]? = some (some fields)) :
    v.position txs = some i ↔ v = .task (taskIndex txs i) := by
  constructor
  · intro hv
    cases v with
    | start => cases hv
    | task index =>
      have hnodup : (taskPositions txs).Nodup := List.nodup_range.filter _
      obtain ⟨hlt, hget⟩ := List.getElem?_eq_some_iff.mp hv
      obtain ⟨hlt', hget'⟩ := List.getElem?_eq_some_iff.mp (getElem?_taskPositions h)
      rw [(hnodup.getElem_inj_iff).mp (hget.trans hget'.symm)]
  · intro hv
    rw [hv]
    exact getElem?_taskPositions h

namespace DagExecutor

variable {Abi : Type} (x : DagExecutor Abi) (o : DagOutcome Abi)

/-- The hashes in the order in which they were appended. -/
def appendedHashes (inputs : List ExecutionMessage) (order : List Nat) : List Hash :=
  (txInputs inputs order).map fun entry => entry.2.transactionHash

/-- A transaction with criticals does not throw, and the hash at the position of one that is
sent back is its own. -/
def KeepsIdentityForEvm (inputs : List ExecutionMessage) (order : List Nat) (i : Nat)
    (input : ExecutionMessage) (params : CallParameters) : Prop :=
  if (x.getTxCriticals params).isEmpty then
    input.type = .txHash →
      (appendedHashes inputs order).getD i x.createExecutionMessage.transactionHash =
        input.transactionHash
  else ∃ output, o.start i = .ok output

def batchFields (inputs : List ExecutionMessage) : List (Option (List ConflictField)) :=
  inputs.mapIdx fun i input => (x.paramsOf input).bind (x.conflictFields o i)

/-- The new message of the factory would do wherever it, or its hash, is what is left. -/
def KeepsIdentityForWasm (inputs : List ExecutionMessage) (i : Nat) (input : ExecutionMessage)
    (params : CallParameters) : Prop :=
  if params.create || (o.functionAbi i).isNone then
    input.type = .txHash → x.createExecutionMessage.transactionHash = input.transactionHash
  else if (x.conflictFields o i params).isNone then
    ExecutionMessage.Identifies { x.createExecutionMessage with type := .sendBack } input
  else
    (Blocked (x.batchFields o inputs) i → x.createExecutionMessage.Identifies input) ∧
    (¬ Blocked (x.batchFields o inputs) i → (∃ output, o.start i = .ok output) ∨
      x.createExecutionMessage.contextID = input.contextID ∧
        x.createExecutionMessage.seq = input.seq)

def KeepsIdentity (inputs : List ExecutionMessage) (order : List Nat) : Prop :=
  ∀ (i : Nat) input params, inputs[i]? = some input → x.paramsOf input = some params →
    if x.isWasm then x.KeepsIdentityForWasm o inputs i input params
    else x.KeepsIdentityForEvm o inputs order i input params

variable {x o}

theorem results_of_evm {params : List CallParameters} {txHashList : List Hash}
    {results : List (Option ExecutionMessage)} (h : x.ExecutesForEvm o params txHashList results) :
    results = Slots.run (x.executeTx o params)
      ((List.range params.length).filter (DagRun.hasCriticals (params.map x.getTxCriticals)))
      (params.mapIdx (x.criticalsResult txHashList)) := by
  obtain ⟨m, reach, hleft, rfl⟩ := h
  obtain ⟨edges, c, hsim, hforward, hordered⟩ := reachable_simulates reach
  have hpos : 0 < x.dagThreadNum := Nat.lt_of_lt_of_le Nat.zero_lt_one (Nat.le_max_right _ _)
  have hf : m.hasFinished := hsim.wiring.left ⟨0, hpos⟩ (hleft ⟨0, hpos⟩)
  have hstate := state_of_hasFinished hsim hforward hordered hf
    fun i j _ _ _ s => Slots.modify_comm (x.executeTx o params) s
  rw [List.length_map] at hstate
  exact hstate

theorem toExecutiveResult_identifies {fresh input : ExecutionMessage} {contextID seq : Int}
    {output : CallParameters} (hc : contextID = input.contextID) (hs : seq = input.seq) :
    (toExecutiveResult fresh contextID seq output).Identifies input :=
  ⟨hc, hs, fun ht => absurd ht toExecutionResult_type⟩

theorem evm_result {params : List CallParameters} {txHashList : List Hash}
    {results : List (Option ExecutionMessage)} (h : x.ExecutesForEvm o params txHashList results)
    {i : Nat} {p : CallParameters} (hi : params[i]? = some p) :
    results[i]? = some (if (x.getTxCriticals p).isEmpty then
        some { x.sendBack p with
          transactionHash := txHashList.getD i x.createExecutionMessage.transactionHash }
      else x.executeTx o params i none) := by
  have hlt : i < params.length := (List.getElem?_eq_some_iff.mp hi).1
  have hkeyed : DagRun.hasCriticals (params.map x.getTxCriticals) i =
      !(x.getTxCriticals p).isEmpty := by
    simp [DagRun.hasCriticals, hi]
  rw [results_of_evm h, Slots.getElem?_run _ (List.nodup_range.filter _)]
  simp only [List.mem_filter, List.mem_range, List.getElem?_mapIdx, hi, hkeyed, hlt, true_and,
    Option.map_some, criticalsResult]
  cases hempty : (x.getTxCriticals p).isEmpty with
  | true =>
    cases hh : txHashList[i]? with
    | none => simp [hh, sendBack, List.getD_eq_getElem?_getD]
    | some hash => simp [hh, List.getD_eq_getElem?_getD]
  | false => rfl

theorem evm_identified {params : List CallParameters} {txHashList : List Hash}
    {results : List (Option ExecutionMessage)} (h : x.ExecutesForEvm o params txHashList results)
    {i : Nat} {p : CallParameters} {input : ExecutionMessage} (hi : params[i]? = some p)
    (hids : p.contextID = input.contextID ∧ p.seq = input.seq) :
    (∃ message : ExecutionMessage, results[i]? = some (some message) ∧
        message.Identifies input) ↔
      if (x.getTxCriticals p).isEmpty then
        input.type = .txHash →
          txHashList.getD i x.createExecutionMessage.transactionHash = input.transactionHash
      else ∃ output, o.start i = .ok output := by
  rw [evm_result h hi]
  split
  next =>
    constructor
    · rintro ⟨message, hm, hid⟩
      cases hm
      exact hid.2.2 rfl
    · exact fun hhash => ⟨_, rfl, hids.1, hids.2, fun _ => hhash⟩
  next =>
    rw [executeTx, hi]
    cases hs : o.start i with
    | ok output =>
      exact ⟨fun _ => ⟨output, rfl⟩,
        fun _ => ⟨_, rfl, toExecutiveResult_identifies hids.1 hids.2⟩⟩
    | error exc =>
      constructor
      · rintro ⟨message, hm, _⟩
        cases hm
      · rintro ⟨output, hout⟩
        cases hout

theorem executed_iff {txs : List (Option (List ConflictField))} {c : Countdown.State Node}
    (reach : Countdown.Reach (flowNet txs) c) (rest : c.ready + c.running + c.sending = 0)
    {i : Nat} {fields : List ConflictField} (hi : txs[i]? = some (some fields)) :
    i ∈ (Countdown.finishes c.log).reverse.filterMap (Node.position txs) ↔ ¬ Blocked txs i := by
  rw [← task_finished_iff reach rest hi, ← Countdown.mem_finishes, List.mem_filterMap]
  constructor
  · rintro ⟨v, hv, hpos⟩
    rw [position_eq_some hi] at hpos
    exact hpos ▸ List.mem_reverse.mp hv
  · exact fun hv => ⟨_, List.mem_reverse.mpr hv, (position_eq_some hi).mpr rfl⟩

theorem position_some {txs : List (Option (List ConflictField))} {v : Node} {i : Nat}
    (h : v.position txs = some i) : ∃ fields, txs[i]? = some (some fields) := by
  cases v with
  | start => cases h
  | task index =>
    have hmem := (List.mem_filter.mp (List.mem_of_getElem? h)).2
    rw [List.getD_eq_getElem?_getD] at hmem
    cases hi : txs[i]? with
    | none => simp [hi] at hmem
    | some tx =>
      cases tx with
      | none => simp [hi] at hmem
      | some fields => exact ⟨fields, rfl⟩

theorem executed_nodup {txs : List (Option (List ConflictField))} {c : Countdown.State Node}
    (reach : Countdown.Reach (flowNet txs) c) :
    ((Countdown.finishes c.log).reverse.filterMap (Node.position txs)).Nodup := by
  have hnodup := List.nodup_reverse.mpr (Countdown.finishes_nodup (Countdown.reach_inv reach))
  refine hnodup.filterMap fun v w i hv hw => ?_
  obtain ⟨fields, hi⟩ := position_some hv
  rw [(position_eq_some hi).mp hv, (position_eq_some hi).mp hw]

theorem wasm_result {params : List CallParameters} {results : List (Option ExecutionMessage)}
    (h : x.ExecutesForWasm o params results) {i : Nat} {p : CallParameters}
    (hi : params[i]? = some p) :
    ((x.conflictFields o i p = none ∨ Blocked (params.mapIdx (x.conflictFields o)) i) →
      results[i]? = some (some (x.analysisResult o i p))) ∧
    (∀ fields, x.conflictFields o i p = some fields →
      ¬ Blocked (params.mapIdx (x.conflictFields o)) i →
      results[i]? = some (x.executeTask o params i (some (x.analysisResult o i p)))) := by
  obtain ⟨c, reach, rest, rfl⟩ := h
  have hfields : (params.mapIdx (x.conflictFields o))[i]? = some (x.conflictFields o i p) := by
    rw [List.getElem?_mapIdx, hi]
    rfl
  simp only [Slots.getElem?_run _ (executed_nodup reach), List.getElem?_mapIdx, hi,
    Option.map_some]
  constructor
  · intro hskip
    refine if_neg fun hmem => ?_
    obtain ⟨v, _, hv⟩ := List.mem_filterMap.mp hmem
    obtain ⟨fields, hf⟩ := position_some hv
    rcases hskip with hnone | hblocked
    · rw [hfields, hnone] at hf
      cases hf
    · exact (executed_iff reach rest hf).mp hmem hblocked
  · intro fields hsome hfree
    exact if_pos ((executed_iff reach rest (hfields.trans (congrArg some hsome))).mpr hfree)

theorem sendBack_identifies {p : CallParameters} {input : ExecutionMessage}
    (hids : p.contextID = input.contextID ∧ p.seq = input.seq) :
    (x.sendBack p).Identifies input ↔
      (input.type = .txHash → x.createExecutionMessage.transactionHash = input.transactionHash) := by
  have hhash : (x.sendBack p).transactionHash = x.createExecutionMessage.transactionHash :=
    toExecutionResult_transactionHash
  unfold ExecutionMessage.Identifies
  rw [hhash]
  exact ⟨fun hid => hid.2.2 rfl, fun h => ⟨hids.1, hids.2, fun _ => h⟩⟩

/-- A transaction without conflict fields keeps the message of the first loop. -/
theorem analysisResult_identifies {inputs : List ExecutionMessage} {i : Nat} {p : CallParameters}
    {input : ExecutionMessage} (hids : p.contextID = input.contextID ∧ p.seq = input.seq)
    (hnone : x.conflictFields o i p = none) :
    (x.analysisResult o i p).Identifies input ↔ x.KeepsIdentityForWasm o inputs i input p := by
  unfold KeepsIdentityForWasm analysisResult
  rw [hnone]
  unfold conflictFields at hnone
  cases hc : p.create with
  | true => simpa using sendBack_identifies hids
  | false =>
    cases ha : o.functionAbi i with
    | none => simpa using sendBack_identifies hids
    | some abi =>
      have hd : x.decodeConflictFields abi p = none := by simpa [hc, ha] using hnone
      simp [hd]

theorem analysisResult_of_fields {i : Nat} {p : CallParameters} {fields : List ConflictField}
    (h : x.conflictFields o i p = some fields) :
    p.create = false ∧ (o.functionAbi i).isNone = false ∧
      x.analysisResult o i p = x.createExecutionMessage := by
  unfold conflictFields at h
  cases hc : p.create with
  | true => simp [hc] at h
  | false =>
    cases ha : o.functionAbi i with
    | none => simp [ha] at h
    | some abi =>
      have hd : x.decodeConflictFields abi p = some fields := by simpa [hc, ha] using h
      exact ⟨rfl, rfl, by simp [analysisResult, hc, ha, hd]⟩

theorem executeTask_identifies {params : List CallParameters} {i : Nat} {p : CallParameters}
    {input fresh : ExecutionMessage} (hi : params[i]? = some p)
    (hids : p.contextID = input.contextID ∧ p.seq = input.seq) :
    (∃ message : ExecutionMessage, x.executeTask o params i (some fresh) = some message ∧
        message.Identifies input) ↔
      (∃ output, o.start i = .ok output) ∨
        fresh.contextID = input.contextID ∧ fresh.seq = input.seq := by
  rw [executeTask, hi]
  cases hs : o.start i with
  | ok output =>
    exact ⟨fun _ => .inl ⟨output, rfl⟩,
      fun _ => ⟨_, rfl, toExecutiveResult_identifies hids.1 hids.2⟩⟩
  | error exc =>
    constructor
    · rintro ⟨message, hm, hid⟩
      cases hm
      exact .inr ⟨hid.1, hid.2.1⟩
    · rintro (⟨output, hout⟩ | ⟨hctx, hseq⟩)
      · cases hout
      · exact ⟨_, rfl, hctx, hseq, nofun⟩

theorem wasm_identified {params : List CallParameters}
    {results : List (Option ExecutionMessage)} (h : x.ExecutesForWasm o params results)
    {inputs : List ExecutionMessage}
    (hbatch : x.batchFields o inputs = params.mapIdx (x.conflictFields o)) {i : Nat}
    {p : CallParameters} {input : ExecutionMessage} (hi : params[i]? = some p)
    (hids : p.contextID = input.contextID ∧ p.seq = input.seq) :
    (∃ message : ExecutionMessage, results[i]? = some (some message) ∧
        message.Identifies input) ↔ x.KeepsIdentityForWasm o inputs i input p := by
  obtain ⟨hskip, hrun⟩ := wasm_result h hi
  rw [← hbatch] at hskip hrun
  have hresult {result : Option ExecutionMessage} (hr : results[i]? = some result) :
      (∃ message : ExecutionMessage, results[i]? = some (some message) ∧
        message.Identifies input) ↔
      ∃ message : ExecutionMessage, result = some message ∧ message.Identifies input := by
    simp only [hr, Option.some.injEq]
  cases hf : x.conflictFields o i p with
  | none =>
    rw [hresult (hskip (.inl hf)), ← analysisResult_identifies hids hf]
    simp
  | some fields =>
    obtain ⟨hc, ha, hfresh⟩ := analysisResult_of_fields hf
    rw [hfresh] at hskip hrun
    unfold KeepsIdentityForWasm
    rw [hf, hc, ha]
    by_cases hb : Blocked (x.batchFields o inputs) i
    · rw [hresult (hskip (.inr hb))]
      simp [hb]
    · rw [hresult (hrun fields hf hb), executeTask_identifies hi hids]
      simp [hb]

theorem batchFields_eq {inputs : List ExecutionMessage} {params : List CallParameters}
    (hlen : params.length = inputs.length)
    (hparams : ∀ (i : Nat) input, inputs[i]? = some input →
      (params[i]?).map some = some (x.paramsOf input)) :
    x.batchFields o inputs = params.mapIdx (x.conflictFields o) := by
  refine List.ext_getElem? fun i => ?_
  simp only [batchFields, List.getElem?_mapIdx]
  cases hi : inputs[i]? with
  | none =>
    have hle := List.getElem?_eq_none_iff.mp hi
    rw [List.getElem?_eq_none (hlen ▸ hle)]
    rfl
  | some input =>
    obtain ⟨p, hp, heq⟩ := Option.map_eq_some_iff.mp (hparams i input hi)
    rw [hp, Option.map_some, Option.map_some, ← heq]
    rfl

theorem length_of_executes {inputs : List ExecutionMessage} {params : List CallParameters}
    {txHashList : List Hash} {results : List (Option ExecutionMessage)}
    (hlen : params.length = inputs.length)
    (h : if x.isWasm then x.ExecutesForWasm o params results
      else x.ExecutesForEvm o params txHashList results) : results.length = inputs.length := by
  split at h
  next =>
    obtain ⟨c, _, _, rfl⟩ := h
    simp [hlen]
  next =>
    rw [results_of_evm h]
    simp [hlen]

end DagExecutor

/-- Whatever the order of the appends and the outcome of the executions, the results are those
of the inputs exactly when no position is left with a message, or a hash, of another one. -/
theorem resultsIdentified_iff {Abi : Type} (x : DagExecutor Abi) (o : DagOutcome Abi)
    {inputs : List ExecutionMessage} {order : List Nat} {results : List (Option ExecutionMessage)}
    (htypes : ∀ input ∈ inputs, input.type = .txHash ∨ input.type = .message)
    (horder : order.Perm (List.range inputs.length)) (h : x.Executes o inputs order results) :
    ResultsIdentified inputs results ↔ x.KeepsIdentity o inputs order := by
  obtain ⟨params, hfill, hrun⟩ := h
  have hlen : params.length = inputs.length := by
    simpa using DagExecutor.length_fillBlock hfill
  have hparams (i : Nat) (input : ExecutionMessage) (hi : inputs[i]? = some input) :
      (params[i]?).map some = some (x.paramsOf input) := by
    rw [← List.getElem?_map]
    exact DagExecutor.fillBlock_getElem? htypes horder hfill hi
  have hslot {i : Nat} {input : ExecutionMessage} {p : CallParameters}
      (hp : params[i]? = some p) (hi : inputs[i]? = some input)
      (hids : p.contextID = input.contextID ∧ p.seq = input.seq) :
      (∃ message : ExecutionMessage, results[i]? = some (some message) ∧
        message.Identifies input) ↔
      if x.isWasm then x.KeepsIdentityForWasm o inputs i input p
      else x.KeepsIdentityForEvm o inputs order i input p := by
    cases hw : x.isWasm with
    | true =>
      rw [if_pos hw] at hrun
      exact DagExecutor.wasm_identified hrun (DagExecutor.batchFields_eq hlen hparams) hp hids
    | false =>
      rw [if_neg (by simp [hw]), DagExecutor.txHashes_collect] at hrun
      exact DagExecutor.evm_identified hrun hp hids
  constructor
  · intro hresults i input p hi hp
    have hget := hparams i input hi
    rw [hp] at hget
    obtain ⟨p', hp', heq⟩ := Option.map_eq_some_iff.mp hget
    cases heq
    exact (hslot hp' hi (DagExecutor.paramsOf_ids hp)).mp (hresults.2 i input hi)
  · intro hkeeps
    refine ⟨DagExecutor.length_of_executes hlen hrun, fun i input hi => ?_⟩
    obtain ⟨p, hp, heq⟩ := Option.map_eq_some_iff.mp (hparams i input hi)
    exact (hslot hp hi (DagExecutor.paramsOf_ids heq.symm)).mpr (hkeeps i input p hi heq.symm)

/-- An executor whose contracts have no parallel functions. -/
def serialExecutor : DagExecutor Empty where
  isWasm := false
  hardwareConcurrency := 1
  createExecutionMessage :=
    { type := .txHash, transactionHash := [], contextID := 0, seq := 0, origin := "",
      fromAddress := "", toAddress := "", create := false, data := [], gasAvailable := 0,
      staticCall := false, createSalt := none, newEVMContractAddress := "", status := .none,
      message := "", logEntries := [], keyLocks := [], keyLockAcquired := "" }
  txpool _ := some ⟨[], []⟩
  getPrecompiled _ := none
  getParallelCriticals _ := none
  decodeConflictFields abi _ := nomatch abi

def throwingOutcome : DagOutcome Empty where
  functionAbi _ := none
  start _ := .error (.stdException "")

def hashInput : ExecutionMessage :=
  { serialExecutor.createExecutionMessage with transactionHash := [7], contextID := 2 }

def messageInput : ExecutionMessage :=
  { serialExecutor.createExecutionMessage with type := .message, contextID := 1 }

def hashParams : CallParameters :=
  createTxCallParameters hashInput ⟨[], []⟩

def messageParams : CallParameters :=
  { contextID := 1, type := .message }

def onlyWorker : Fin serialExecutor.dagThreadNum :=
  ⟨0, Nat.le_refl 1⟩

theorem resultsIdentified_iff_hash : ∃ results,
    serialExecutor.Executes throwingOutcome [hashInput] [0] results ∧
      ResultsIdentified [hashInput] results := by
  have start : DagRun.Reachable (ι := Fin serialExecutor.dagThreadNum)
    (fun i results => results.modify i (serialExecutor.executeTx throwingOutcome [hashParams] i))
    ([hashParams].map serialExecutor.getTxCriticals)
    ([hashParams].mapIdx (serialExecutor.criticalsResult [[7]])) _ := .refl
  have run := (((((((start.tail ⟨onlyWorker, .enter rfl (Nat.not_succ_le_zero 0)⟩).tail
    ⟨onlyWorker, .pop rfl rfl⟩).tail ⟨onlyWorker, .skip rfl rfl⟩).tail ⟨onlyWorker, .consumeLast rfl⟩).tail
    ⟨onlyWorker, .miss rfl rfl⟩).tail ⟨onlyWorker, .drained rfl (by decide)⟩).tail ⟨onlyWorker, .publish rfl⟩).tail
    ⟨onlyWorker, .leave rfl (Nat.le_refl 1)⟩
  have h : serialExecutor.Executes throwingOutcome [hashInput] [0] _ :=
    ⟨[hashParams], rfl, _, run, fun i => by
      obtain ⟨i, hi⟩ := i
      cases Nat.lt_one_iff.mp hi
      rfl, rfl⟩
  refine ⟨_, h, (resultsIdentified_iff _ _ ?_ (.refl _) h).mpr fun i input params hi hp => ?_⟩
  · exact fun input hi => .inl (List.mem_singleton.mp hi ▸ rfl)
  · cases i with
    | zero =>
      cases hi
      cases hp
      exact fun _ => rfl
    | succ i => cases hi

theorem not_resultsIdentified_message_then_hash :
    ¬ ∀ results, serialExecutor.Executes throwingOutcome [messageInput, hashInput] [0, 1] results →
      ResultsIdentified [messageInput, hashInput] results := by
  intro hall
  have start : DagRun.Reachable (ι := Fin serialExecutor.dagThreadNum)
    (fun i results => results.modify i
      (serialExecutor.executeTx throwingOutcome [messageParams, hashParams] i))
    ([messageParams, hashParams].map serialExecutor.getTxCriticals)
    ([messageParams, hashParams].mapIdx (serialExecutor.criticalsResult [[7]])) _ := .refl
  have run := ((((((((((start.tail ⟨onlyWorker, .enter rfl (Nat.not_succ_le_zero 1)⟩).tail
    ⟨onlyWorker, .pop rfl rfl⟩).tail ⟨onlyWorker, .skip rfl rfl⟩).tail ⟨onlyWorker, .consumeLast rfl⟩).tail
    ⟨onlyWorker, .pop rfl rfl⟩).tail ⟨onlyWorker, .skip rfl rfl⟩).tail ⟨onlyWorker, .consumeLast rfl⟩).tail
    ⟨onlyWorker, .miss rfl rfl⟩).tail ⟨onlyWorker, .drained rfl (by decide)⟩).tail ⟨onlyWorker, .publish rfl⟩).tail
    ⟨onlyWorker, .leave rfl (Nat.le_refl 2)⟩
  have h : serialExecutor.Executes throwingOutcome [messageInput, hashInput] [0, 1] _ :=
    ⟨[messageParams, hashParams], rfl, _, run, fun i => by
      obtain ⟨i, hi⟩ := i
      cases Nat.lt_one_iff.mp hi
      rfl, rfl⟩
  obtain ⟨message, hm, hid⟩ := (hall _ h).2 1 hashInput rfl
  cases hm
  exact absurd (hid.2.2 rfl rfl) (by decide)

end BcosExecutor
