import BcosExecutor.DagProgress
import BcosExecutor.DagResults
import BcosExecutor.TxCriticals

namespace BcosExecutor

/-- The executor of a batch, with the criticals as they are where they can be computed. -/
def CriticalsReader.dagExecutor {Abi : Type} (r : CriticalsReader) (x : DagExecutor Abi) :
    DagExecutor Abi :=
  { x with
    isWasm := r.isWasm
    getPrecompiled := fun address => (r.getPrecompiled address).map fun p =>
      { isParallelPrecompiled := p.isParallelPrecompiled
        getParallelTag := fun data isWasm =>
          (DagTransfer.getParallelTag r data isWasm).toOption.getD [] }
    getParallelCriticals := fun params => (r.getParallelCriticals params).toOption.join }

/-- Where `dagExecuteTransactionsForEvm` stands: the bodies of its first loop run in any
order, and a fault in one of them ends it. -/
inductive EvmPhase (ι : Type)
  | analysing (todo : List Nat)
  | failed (fault : Fault)
  | executing (m : DagRun ι (List (Option ExecutionMessage)))
  | returned

structure EvmBatch (ι : Type) where
  phase : EvmPhase ι
  callbacks : List (List (Option ExecutionMessage))

namespace EvmBatch

section

variable {Abi : Type} (r : CriticalsReader) (x : DagExecutor Abi) (o : DagOutcome Abi)
  (inputs : List CallParameters) (txHashList : List Hash)

abbrev Thread : Type :=
  Fin (r.dagExecutor x).dagThreadNum

/-- The results before the transactions of the DAG run. -/
def firstResults : List (Option ExecutionMessage) :=
  inputs.mapIdx ((r.dagExecutor x).criticalsResult txHashList)

def txsCriticals : List (List String) :=
  inputs.map (r.dagExecutor x).getTxCriticals

def execTx (i : Nat) (results : List (Option ExecutionMessage)) :
    List (Option ExecutionMessage) :=
  results.modify i ((r.dagExecutor x).executeTx o inputs i)

abbrev Executing (m : DagRun (Thread r x) (List (Option ExecutionMessage))) : Prop :=
  DagRun.Reachable (execTx r x o inputs) (txsCriticals r x inputs)
    (firstResults r x inputs txHashList) m

inductive Step : EvmBatch (Thread r x) → EvmBatch (Thread r x) → Prop
  | analyse {todo callbacks i p keys} : i ∈ todo → inputs[i]? = some p →
      r.getTxCriticals p = .ok keys →
      Step ⟨.analysing todo, callbacks⟩ ⟨.analysing (todo.erase i), callbacks⟩
  | fail {todo callbacks i p fault} : i ∈ todo → inputs[i]? = some p →
      r.getTxCriticals p = .error fault →
      Step ⟨.analysing todo, callbacks⟩ ⟨.failed fault, callbacks⟩
  | init {callbacks} : Step ⟨.analysing [], callbacks⟩ ⟨.executing
      (DagRun.init (txsCriticals r x inputs) (firstResults r x inputs txHashList)), callbacks⟩
  | work {m m' callbacks} : DagRun.AnyStep (execTx r x o inputs) m m' →
      Step ⟨.executing m, callbacks⟩ ⟨.executing m', callbacks⟩
  | callback {m callbacks} : (∀ i, m.workers i = .left) →
      Step ⟨.executing m, callbacks⟩ ⟨.returned, m.state :: callbacks⟩

def start : EvmBatch (Thread r x) :=
  ⟨.analysing (List.range inputs.length), []⟩

def Reachable : EvmBatch (Thread r x) → Prop :=
  Relation.ReflTransGen (Step r x o inputs txHashList) (start r x inputs)

/-- What is known where the function stands. -/
def Sound : EvmBatch (Thread r x) → Prop
  | ⟨.analysing todo, callbacks⟩ => callbacks = [] ∧ (∀ i ∈ todo, i < inputs.length) ∧
      ∀ i p, inputs[i]? = some p → i ∉ todo → ∃ keys, r.getTxCriticals p = .ok keys
  | ⟨.failed fault, callbacks⟩ =>
      callbacks = [] ∧ ∃ p ∈ inputs, r.getTxCriticals p = .error fault
  | ⟨.executing m, callbacks⟩ => callbacks = [] ∧ Executing r x o inputs txHashList m
  | ⟨.returned, callbacks⟩ => ∃ m, Executing r x o inputs txHashList m ∧
      (∀ i, m.workers i = .left) ∧ callbacks = [m.state]

end

variable {Abi : Type} {r : CriticalsReader} {x : DagExecutor Abi} {o : DagOutcome Abi}
  {inputs : List CallParameters} {txHashList : List Hash} {b b' : EvmBatch (Thread r x)}

theorem sound_start : Sound r x o inputs txHashList (start r x inputs) := by
  refine ⟨rfl, fun i hi => List.mem_range.mp hi, fun i p hp hi => ?_⟩
  exact absurd (List.mem_range.mpr (List.getElem?_eq_some_iff.mp hp).1) hi

theorem sound_step (h : Sound r x o inputs txHashList b)
    (step : Step r x o inputs txHashList b b') : Sound r x o inputs txHashList b' := by
  cases step with
  | @analyse todo callbacks i p keys hi hp hkeys =>
    obtain ⟨hnone, hlt, hdone⟩ := h
    refine ⟨hnone, fun j hj => hlt j (List.mem_of_mem_erase hj), fun j q hq hj => ?_⟩
    by_cases hji : j = i
    · subst hji
      cases hp.symm.trans hq
      exact ⟨_, hkeys⟩
    · exact hdone j q hq fun hmem => hj ((List.mem_erase_of_ne hji).mpr hmem)
  | fail hi hp hfault => exact ⟨h.1, _, List.mem_of_getElem? hp, hfault⟩
  | init => exact ⟨h.1, .refl⟩
  | work step => exact ⟨h.1, h.2.tail step⟩
  | callback hleft =>
    obtain ⟨rfl, hreach⟩ := h
    exact ⟨_, hreach, hleft, rfl⟩

instance : Nonempty (Thread r x) :=
  ⟨⟨0, Nat.lt_of_lt_of_le Nat.zero_lt_one (Nat.le_max_right _ _)⟩⟩

end EvmBatch

end BcosExecutor
