import BcosExecutor.ConflictKeys
import BcosExecutor.ReadableAbi
import Mathlib.Data.List.Perm.Basic

namespace BcosExecutor

open ExceptRuns

/-- What the analysis of a batch reads: the block, the parser, the hashes and the storage. -/
structure WasmReader extends KeyContext, AbiReader where
  getRow : StateRow → Except Exc (Option Entry)

/-- What the first loop of `dagExecuteTransactionsForWasm` makes of a transaction. -/
inductive Analysis
  | conflictFields (fields : List ConflictField)
  | sendBack
  deriving DecidableEq

namespace WasmReader

variable (w : WasmReader)

def selector (params : CallParameters) : Bytes :=
  getCroppedData params.data 0 4

def abiTable (params : CallParameters) : String :=
  "/apps" ++ params.receiveAddress

/-- The ABI of the called function, for a pair that the cache does not have. -/
def loadAbi (params : CallParameters) : Checked (Option FunctionAbi) := do
  let info ← orThrow (w.getRow ⟨sysTables, ascii (abiTable params)⟩)
  assertThat info.isSome
  match ← orThrow (w.getRow ⟨abiTable params, ACCOUNT_ABI⟩) with
  | some abiStr => FunctionAbi.deserialize w.toAbiReader abiStr (selector params)
  | none => .error .undefined

def analyseWith (functionAbi : FunctionAbi) (params : CallParameters) : Checked Analysis := do
  match ← w.decodeConflictFields functionAbi params with
  | some fields => return .conflictFields fields
  | none => return .sendBack

/-- `cached` is what the look-up in the cache returned. -/
def analyseTx (cached : Option FunctionAbi) (params : CallParameters) : Checked Analysis :=
  if params.create then .ok .sendBack
  else
    match cached with
    | some functionAbi => w.analyseWith functionAbi params
    | none => do
      match ← w.loadAbi params with
      | some functionAbi => w.analyseWith functionAbi params
      | none => return .sendBack

/-- One body of the loop. -/
def analyseInput (cached : Nat → Option FunctionAbi) (inputs : List CallParameters)
    (results : List (Option Analysis)) (i : Nat) : Checked (List (Option Analysis)) :=
  match inputs[i]? with
  | some params => do
    let analysis ← w.analyseTx (cached i) params
    return results.set i (some analysis)
  | none => .ok results

/-- The bodies in the order in which they run. -/
def analyse (cached : Nat → Option FunctionAbi) (inputs : List CallParameters)
    (order : List Nat) : Checked (List (Option Analysis)) :=
  order.foldlM (w.analyseInput cached inputs) (List.replicate inputs.length none)

/-- There is a selector, and the table and the row of an ABI that can be read. -/
structure Loadable (params : CallParameters) : Prop where
  selector : 4 ≤ params.data.length
  table : ∃ info, w.getRow ⟨sysTables, ascii (abiTable params)⟩ = .ok (some info)
  abi : ∃ abiStr, w.getRow ⟨abiTable params, ACCOUNT_ABI⟩ = .ok (some abiStr) ∧
    FunctionAbi.Readable w.toAbiReader abiStr (WasmReader.selector params)

/-- The ABI can be loaded where it is not cached, and everything that it makes the code read of
the data lies inside of it. -/
structure Analysable (cached : Option FunctionAbi) (params : CallParameters) : Prop where
  loadable : params.create = false → cached = none → w.Loadable params
  inside : params.create = false → ∀ functionAbi,
    cached = some functionAbi ∨ cached = none ∧ w.loadAbi params = .ok (some functionAbi) →
      w.KeysInside functionAbi.inputs params functionAbi.conflictFields

variable {w}

theorem loadAbi_iff {params : CallParameters} {found : Option FunctionAbi} :
    w.loadAbi params = .ok found ↔
      (∃ info, w.getRow ⟨sysTables, ascii (abiTable params)⟩ = .ok (some info)) ∧
        ∃ abiStr, w.getRow ⟨abiTable params, ACCOUNT_ABI⟩ = .ok (some abiStr) ∧
          FunctionAbi.deserialize w.toAbiReader abiStr (selector params) = .ok found := by
  unfold loadAbi
  cases hinfo : w.getRow ⟨sysTables, ascii (abiTable params)⟩ with
  | error e => exact ⟨nofun, fun ⟨⟨_, h⟩, _⟩ => nomatch h⟩
  | ok info =>
    cases info with
    | none => exact ⟨nofun, fun ⟨⟨_, h⟩, _⟩ => nomatch h⟩
    | some info =>
      cases habi : w.getRow ⟨abiTable params, ACCOUNT_ABI⟩ with
      | error e => exact ⟨nofun, fun ⟨_, _, h, _⟩ => nomatch h⟩
      | ok entry =>
        cases entry with
        | none => exact ⟨nofun, fun ⟨_, _, h, _⟩ => nomatch h⟩
        | some abiStr =>
          refine ⟨fun h => ⟨⟨info, rfl⟩, abiStr, rfl, h⟩, ?_⟩
          rintro ⟨_, abiStr', habiStr, h⟩
          cases habiStr
          exact h

theorem le_length_of_selector {params : CallParameters} (h : (selector params).length = 4) :
    4 ≤ params.data.length := by
  unfold selector at h
  rw [length_getCroppedData] at h
  split at h
  · assumption
  · cases h

theorem loadAbi_eq_ok {params : CallParameters} :
    (∃ functionAbi, w.loadAbi params = .ok functionAbi) ↔ w.Loadable params := by
  simp only [loadAbi_iff]
  constructor
  · rintro ⟨found, hinfo, abiStr, habi, h⟩
    have hreadable := FunctionAbi.deserialize_eq_ok.mp ⟨found, h⟩
    exact ⟨le_length_of_selector hreadable.selector, hinfo, abiStr, habi, hreadable⟩
  · rintro ⟨_, hinfo, abiStr, habi, hreadable⟩
    obtain ⟨found, h⟩ := FunctionAbi.deserialize_eq_ok.mpr hreadable
    exact ⟨found, hinfo, abiStr, habi, h⟩

theorem analyseWith_eq_ok {functionAbi : FunctionAbi} {params : CallParameters} :
    (∃ analysis, w.analyseWith functionAbi params = .ok analysis) ↔
      w.KeysInside functionAbi.inputs params functionAbi.conflictFields := by
  unfold analyseWith
  rw [ok_bind_iff, ← KeyContext.decodeConflictFields_eq_ok]
  constructor
  · rintro ⟨keys, hkeys, _⟩
    exact ⟨keys, hkeys⟩
  · rintro ⟨keys, hkeys⟩
    refine ⟨keys, hkeys, ?_⟩
    cases keys with
    | none => exact ⟨.sendBack, rfl⟩
    | some fields => exact ⟨.conflictFields fields, rfl⟩

theorem analyseTx_eq_ok {cached : Option FunctionAbi} {params : CallParameters} :
    (∃ analysis, w.analyseTx cached params = .ok analysis) ↔ w.Analysable cached params := by
  unfold analyseTx
  cases hc : params.create with
  | true => exact ⟨fun _ => ⟨by simp [hc], by simp [hc]⟩, fun _ => ⟨.sendBack, rfl⟩⟩
  | false =>
    cases cached with
    | some functionAbi =>
      refine analyseWith_eq_ok.trans ⟨fun h => ⟨fun _ => nofun, fun _ found hfound => ?_⟩, ?_⟩
      · rcases hfound with hfound | ⟨hnone, _⟩
        · cases hfound
          exact h
        · cases hnone
      · exact fun h => h.inside hc functionAbi (Or.inl rfl)
    | none =>
      simp only [Bool.false_eq_true, if_false]
      rw [ok_bind_iff]
      constructor
      · rintro ⟨loaded, hloaded, h⟩
        refine ⟨fun _ _ => loadAbi_eq_ok.mp ⟨loaded, hloaded⟩, fun _ functionAbi hfound => ?_⟩
        rcases hfound with hnone | ⟨_, hfound⟩
        · cases hnone
        · cases hloaded.symm.trans hfound
          exact analyseWith_eq_ok.mp h
      · intro h
        obtain ⟨loaded, hloaded⟩ := loadAbi_eq_ok.mpr (h.loadable hc rfl)
        refine ⟨loaded, hloaded, ?_⟩
        cases loaded with
        | none => exact ⟨.sendBack, rfl⟩
        | some functionAbi =>
          exact analyseWith_eq_ok.mpr (h.inside hc functionAbi (Or.inr ⟨rfl, hloaded⟩))

theorem analyseInput_eq_ok {cached : Nat → Option FunctionAbi} {inputs : List CallParameters}
    {results : List (Option Analysis)} {i : Nat} :
    (∃ results', w.analyseInput cached inputs results i = .ok results') ↔
      ∀ params, inputs[i]? = some params → w.Analysable (cached i) params := by
  unfold analyseInput
  cases hi : inputs[i]? with
  | none => exact ⟨fun _ _ h => absurd h (Option.some_ne_none _).symm, fun _ => ⟨results, rfl⟩⟩
  | some params =>
    simp only [Option.some.injEq, forall_eq', ← analyseTx_eq_ok, ok_bind_iff]
    exact ⟨fun ⟨analysis, h, _⟩ => ⟨analysis, h⟩, fun ⟨analysis, h⟩ => ⟨analysis, h, _, rfl⟩⟩

/-- The transaction has been given one of the two. -/
def Analysed (results : List (Option Analysis)) (i : Nat) : Prop :=
  ∃ analysis : Analysis, results[i]? = some (some analysis)

theorem analyseInput_analysed {cached : Nat → Option FunctionAbi} {inputs : List CallParameters}
    {results results' : List (Option Analysis)} {i : Nat} (hlen : results.length = inputs.length)
    (h : w.analyseInput cached inputs results i = .ok results') :
    results'.length = inputs.length ∧
      ∀ j < inputs.length, j = i ∨ Analysed results j → Analysed results' j := by
  unfold analyseInput at h
  cases hi : inputs[i]? with
  | none =>
    rw [hi] at h
    cases h
    refine ⟨hlen, fun j hj hdone => hdone.resolve_left fun hji => ?_⟩
    subst hji
    exact absurd hj (Nat.not_lt.mpr (List.getElem?_eq_none_iff.mp hi))
  | some params =>
    simp only [hi] at h
    cases ha : w.analyseTx (cached i) params with
    | error fault => rw [ha] at h; cases h
    | ok analysis =>
      rw [ha] at h
      cases h
      refine ⟨(List.length_set ..).trans hlen, fun j hj hdone => ?_⟩
      by_cases hji : j = i
      · subst hji
        have hlt : j < results.length := by omega
        exact ⟨analysis, List.getElem?_set_self hlt⟩
      · obtain ⟨found, hfound⟩ := hdone.resolve_left hji
        exact ⟨found, (List.getElem?_set_ne (Ne.symm hji)).trans hfound⟩

theorem foldlM_eq_ok {cached : Nat → Option FunctionAbi} {inputs : List CallParameters}
    {order : List Nat} {results : List (Option Analysis)} :
    (∃ results', order.foldlM (w.analyseInput cached inputs) results = .ok results') ↔
      ∀ i ∈ order, ∀ params, inputs[i]? = some params → w.Analysable (cached i) params := by
  induction order generalizing results with
  | nil => exact ⟨fun _ => nofun, fun _ => ⟨results, rfl⟩⟩
  | cons i order ih =>
    rw [List.forall_mem_cons]
    exact bind_eq_ok_and analyseInput_eq_ok fun _ _ => ih

theorem foldlM_analysed {cached : Nat → Option FunctionAbi} {inputs : List CallParameters}
    {order : List Nat} {results results' : List (Option Analysis)}
    (hlen : results.length = inputs.length)
    (h : order.foldlM (w.analyseInput cached inputs) results = .ok results') :
    results'.length = inputs.length ∧
      ∀ j < inputs.length, j ∈ order ∨ Analysed results j → Analysed results' j := by
  induction order generalizing results with
  | nil =>
    cases h
    exact ⟨hlen, fun j _ hdone => hdone.resolve_left List.not_mem_nil⟩
  | cons i order ih =>
    rw [List.foldlM_cons] at h
    cases hi : w.analyseInput cached inputs results i with
    | error fault => rw [hi] at h; cases h
    | ok next =>
      rw [hi] at h
      obtain ⟨hnextLen, hnext⟩ := analyseInput_analysed hlen hi
      obtain ⟨hlen', hdone'⟩ := ih hnextLen h
      refine ⟨hlen', fun j hj hdone => hdone' j hj ?_⟩
      rcases hdone with hmem | hdone
      · rcases List.mem_cons.mp hmem with hji | hmem
        · exact Or.inr (hnext j hj (Or.inl hji))
        · exact Or.inl hmem
      · exact Or.inr (hnext j hj (Or.inr hdone))

/-- In every order of the bodies, each transaction is given its keys or is sent back exactly when
each of them can be analysed. -/
theorem analyse_total_iff (w : WasmReader) (cached : Nat → Option FunctionAbi)
    (inputs : List CallParameters) (order : List Nat)
    (horder : order.Perm (List.range inputs.length)) :
    (∃ results, w.analyse cached inputs order = .ok results ∧
      results.length = inputs.length ∧ ∀ i < inputs.length, Analysed results i) ↔
      ∀ i params, inputs[i]? = some params → w.Analysable (cached i) params := by
  have hmem (i : Nat) : i ∈ order ↔ i < inputs.length :=
    horder.mem_iff.trans List.mem_range
  constructor
  · rintro ⟨results, h, _⟩ i params hi
    have hlt : i < inputs.length := (List.getElem?_eq_some_iff.mp hi).1
    exact foldlM_eq_ok.mp ⟨results, h⟩ i ((hmem i).mpr hlt) params hi
  · intro h
    obtain ⟨results, hresults⟩ := foldlM_eq_ok.mpr fun i (_ : i ∈ order) => h i
    obtain ⟨hlen, hdone⟩ := foldlM_analysed List.length_replicate hresults
    exact ⟨results, hresults, hlen, fun i hi => hdone i hi (Or.inl ((hmem i).mpr hi))⟩

/-- A block in which every row is there and no ABI has a function. -/
def emptyAbiReader : WasmReader where
  hasher _ := 0
  compactLen _ := 1
  timestamp := 0
  number := 1
  parse _ := .ok (some (.array []))
  hash _ := [1, 2, 3, 4]
  getRow _ := .ok (some [])

/-- A function whose key is its caller. -/
def callerAbi : FunctionAbi :=
  ⟨"f", [], [⟨2, [0], false, 0⟩]⟩

def callInput (data : Bytes) : CallParameters :=
  { type := .message, data }

def createInput : CallParameters :=
  { type := .message, create := true }

theorem analyse_total_caller : [2, 0, 1].Perm (List.range 3) ∧
    ∃ results, emptyAbiReader.analyse (fun i => if i = 1 then some callerAbi else none)
      [createInput, callInput [1, 2, 3, 4], callInput [5, 6, 7, 8]] [2, 0, 1] = .ok results ∧
        results.length = 3 ∧ ∀ i < 3, Analysed results i := by
  have horder : [2, 0, 1].Perm (List.range 3) := by decide
  refine ⟨horder, (analyse_total_iff emptyAbiReader (fun i => if i = 1 then some callerAbi else none)
    [createInput, callInput [1, 2, 3, 4], callInput [5, 6, 7, 8]] [2, 0, 1] horder).mpr ?_⟩
  intro i params hi
  match i with
  | 0 => cases hi; exact analyseTx_eq_ok.mp ⟨.sendBack, rfl⟩
  | 1 => cases hi; exact analyseTx_eq_ok.mp ⟨.conflictFields [⟨List.replicate 8 0, by decide⟩], rfl⟩
  | 2 => cases hi; exact analyseTx_eq_ok.mp ⟨.sendBack, rfl⟩
  | i + 3 => cases hi

/-- With three bytes there is no selector. -/
theorem not_analyse_total_shortData :
    ¬ ∃ results, emptyAbiReader.analyse (fun _ => none) [callInput [1, 2, 3]] [0] = .ok results ∧
      results.length = 1 ∧ ∀ i < 1, Analysed results i := by
  rintro ⟨results, h, _⟩
  cases h

end WasmReader

end BcosExecutor
