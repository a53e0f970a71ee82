import BcosExecutor.DagSchedule
import BcosExecutor.Runs
import Mathlib.Data.Prod.Lex
import Mathlib.Order.WellFounded

namespace BcosExecutor

namespace Worker

/-- How much a worker still has to do with the vertex in its hands, or until it asks for one. -/
def work (outEdge : Nat → List Nat) : Worker → Nat
  | left => 0
  | waiting _ => 1
  | deciding | missed _ => 2
  | leaving _ => 3
  | consuming _ _ es _ _ => 2 * es.length + 2
  | pushing _ _ es _ _ _ => 2 * es.length + 3
  | executing _ id => 2 * (outEdge id).length + 3
  | holding _ id => 2 * (outEdge id).length + 4

end Worker

variable {ι σ K : Type*} [DecidableEq ι] [Fintype ι] [DecidableEq K] {exec : Nat → σ → σ} {s₀ : σ}
  {txs : List (List K)} {m m' : DagRun ι σ}

namespace DagRun

/-- The vertices that nobody has taken yet come first. -/
def remaining (n : Nat) (m : DagRun ι σ) : Nat ×ₗ Nat :=
  toLex (n - m.handed.length, ∑ i, (m.workers i).work m.dag.outEdge)

end DagRun

end BcosExecutor
