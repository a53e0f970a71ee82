import BcosExecutor.Dag
import BcosExecutor.Countdown
import Mathlib.Data.Finset.Sum

namespace BcosExecutor

/-- Where a worker of the DAG execution stands. The first number is the `exeCnt` of its
current `executeUnit`, the second the vertex it has in hand. -/
inductive Worker
  | deciding
  | waiting (exeCnt : Nat)
  | missed (exeCnt : Nat)
  | holding (exeCnt id : Nat)
  | executing (exeCnt id : Nat)
  | consuming (exeCnt id : Nat) (outEdge : List Nat) (producedNum : Nat) (nextId : Option Nat)
  | pushing (exeCnt id : Nat) (outEdge : List Nat) (producedNum : Nat) (nextId : Option Nat)
      (top : Nat)
  | leaving (exeCnt : Nat)
  | left

/-- The shared state of `dagExecuteTransactionsForEvm`. The histories `handed` and `log`,
newest first, record which vertices were handed out and which executions began and ended. -/
structure DagRun (ι σ : Type*) where
  dag : DAG
  exeCnt : Nat
  allCallParameters : Nat → Bool
  workers : ι → Worker
  handed : List Nat
  log : List (Countdown.Event Nat)
  state : σ

namespace DagRun

variable {ι σ K : Type*} [DecidableEq ι]

/-- Transactions without criticals have no executive and no call parameters. -/
def hasCriticals (txsCriticals : List (List K)) (id : Nat) : Bool :=
  !(txsCriticals.getD id []).isEmpty

def init [DecidableEq K] (txsCriticals : List (List K)) (state : σ) : DagRun ι σ :=
  ⟨TxDAG.init txsCriticals, 0, hasCriticals txsCriticals, fun _ => .deciding, [], [], state⟩

def move (m : DagRun ι σ) (i : ι) (w : Worker) : DagRun ι σ :=
  { m with workers := Function.update m.workers i w }

/-- `m_exeCnt >= m_totalParaTxs`; nothing in this execution sets `m_stop`. -/
def hasFinished (m : DagRun ι σ) : Prop :=
  m.dag.totalVtxs ≤ m.exeCnt

/-- One atomic step of worker `i`. -/
inductive Step (exec : Nat → σ → σ) (i : ι) : DagRun ι σ → DagRun ι σ → Prop
  -- `while (!hasFinished())`
  | enter {m} : m.workers i = .deciding → ¬ m.hasFinished → Step exec i m (m.move i (.waiting 0))
  | leave {m} : m.workers i = .deciding → m.hasFinished → Step exec i m (m.move i .left)
  -- the predicate of `waitPop`: a queue that looked empty is looked at again after a wake-up,
  -- or given up when everything is consumed or the ten milliseconds are over
  | pop {m k id q} : m.workers i = .waiting k → m.dag.topLevel = id :: q →
      Step exec i m { m.move i (.holding k id) with
        dag := { m.dag with topLevel := q }, handed := id :: m.handed }
  | miss {m k} : m.workers i = .waiting k → m.dag.topLevel = [] →
      Step exec i m (m.move i (.missed k))
  | drained {m k} : m.workers i = .missed k → m.dag.totalVtxs ≤ m.dag.totalConsume →
      Step exec i m (m.move i (.leaving k))
  | retry {m k} : m.workers i = .missed k → m.dag.totalConsume < m.dag.totalVtxs →
      Step exec i m (m.move i (.waiting k))
  | timeout {m k} : m.workers i = .missed k → m.dag.totalConsume < m.dag.totalVtxs →
      Step exec i m (m.move i (.leaving k))
  -- `m_exeCnt += exeCnt` at the end of `executeUnit`
  | publish {m k} : m.workers i = .leaving k →
      Step exec i m { m.move i .deciding with exeCnt := m.exeCnt + k }
  -- `f_executeTx`, which takes the call parameters with it
  | skip {m k id} : m.workers i = .holding k id → m.allCallParameters id = false →
      Step exec i m (m.move i (.consuming (k + 1) id (m.dag.outEdge id) 0 none))
  | begin {m k id} : m.workers i = .holding k id → m.allCallParameters id = true →
      Step exec i m { m.move i (.executing (k + 1) id) with
        allCallParameters := Function.update m.allCallParameters id false
        log := .start id :: m.log }
  | finish {m k id} : m.workers i = .executing k id →
      Step exec i m { m.move i (.consuming k id (m.dag.outEdge id) 0 none) with
        log := .finish id :: m.log
        state := exec id m.state }
  -- `DAG::consume`: the first vertex that comes down to zero is kept, the others are pushed
  | decrement {m k id t es p next} : m.workers i = .consuming k id (t :: es) p next →
      m.dag.inDegree t ≠ 1 →
      Step exec i m { m.move i (.consuming k id es p next) with dag := m.dag.decrement t }
  | keep {m k id t es next} : m.workers i = .consuming k id (t :: es) 0 next →
      m.dag.inDegree t = 1 →
      Step exec i m { m.move i (.consuming k id es 1 (some t)) with dag := m.dag.decrement t }
  | produce {m k id t es p next} : m.workers i = .consuming k id (t :: es) (p + 1) next →
      m.dag.inDegree t = 1 →
      Step exec i m { m.move i (.pushing k id es (p + 2) next t) with dag := m.dag.decrement t }
  | push {m k id es p next t} : m.workers i = .pushing k id es p next t →
      Step exec i m { m.move i (.consuming k id es p next) with
        dag := { m.dag with topLevel := m.dag.topLevel ++ [t] } }
  | consumeLast {m k id p} : m.workers i = .consuming k id [] p none →
      Step exec i m { m.move i (.waiting k) with
        dag := { m.dag with totalConsume := m.dag.totalConsume + 1 } }
  | consumeNext {m k id p n} : m.workers i = .consuming k id [] p (some n) →
      Step exec i m { m.move i (.holding k n) with
        dag := { m.dag with totalConsume := m.dag.totalConsume + 1 }, handed := n :: m.handed }

/-- Some worker makes a step. -/
def AnyStep (exec : Nat → σ → σ) (m m' : DagRun ι σ) : Prop :=
  ∃ i, Step exec i m m'

def Reachable [DecidableEq K] (exec : Nat → σ → σ) (txsCriticals : List (List K)) (state : σ) :
    DagRun ι σ → Prop :=
  Relation.ReflTransGen (AnyStep exec) (init txsCriticals state)

end DagRun

end BcosExecutor
