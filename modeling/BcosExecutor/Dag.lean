import Mathlib.Data.List.Basic
import Mathlib.Logic.Function.Basic

namespace BcosExecutor

/-- Vertices and transactions are numbered; `INVALID_ID` is `none`. -/
structure Vertex where
  inDegree : Nat
  outEdge : List Nat

/-- `topLevel` is the queue of vertices whose in-degree has come down to zero. -/
structure DAG where
  vtxs : List Vertex
  topLevel : List Nat
  totalVtxs : Nat
  totalConsume : Nat

namespace DAG

def init (maxSize : Nat) : DAG :=
  ⟨List.replicate maxSize ⟨0, []⟩, [], maxSize, 0⟩

def addEdge (dag : DAG) (f t : Nat) : DAG :=
  if dag.vtxs.length ≤ f ∧ dag.vtxs.length ≤ t then dag
  else
    let vtxs := dag.vtxs.modify f fun vtx => { vtx with outEdge := vtx.outEdge ++ [t] }
    { dag with vtxs := vtxs.modify t fun vtx => { vtx with inDegree := vtx.inDegree + 1 } }

def inDegree (dag : DAG) (id : Nat) : Nat :=
  (dag.vtxs[id]?.map Vertex.inDegree).getD 0

def outEdge (dag : DAG) (id : Nat) : List Nat :=
  (dag.vtxs[id]?.map Vertex.outEdge).getD []

def generate (dag : DAG) : DAG :=
  { dag with
    topLevel := dag.topLevel ++
      (List.range dag.vtxs.length).filter fun id => dag.inDegree id = 0 }

/-- `vtx->inDegree.fetch_sub(1)` without the returned value. -/
def decrement (dag : DAG) (id : Nat) : DAG :=
  { dag with vtxs := dag.vtxs.modify id fun vtx => { vtx with inDegree := vtx.inDegree - 1 } }

end DAG

variable {K : Type*} [DecidableEq K]

structure CriticalField (K : Type*) where
  criticals : K → Option Nat
  criticalAll : Option Nat

namespace CriticalField

def empty : CriticalField K :=
  ⟨fun _ => none, none⟩

def get (field : CriticalField K) (c : K) : Option Nat :=
  match field.criticals c with
  | none => field.criticalAll
  | some id => some id

def update (field : CriticalField K) (c : K) (id : Nat) : CriticalField K :=
  { field with criticals := Function.update field.criticals c (some id) }

end CriticalField

namespace TxDAG

/-- One round of the loop of `init`: edges from the latest user of every critical, then the
transaction becomes the latest user of each of them. -/
def link (st : DAG × CriticalField K) (tx : List K × Nat) : DAG × CriticalField K :=
  let (dag, latestCriticals) := st
  let (criticals, id) := tx
  if criticals.isEmpty then st
  else
    (criticals.foldl (fun dag c =>
        match latestCriticals.get c with
        | some pId => dag.addEdge pId id
        | none => dag) dag,
      criticals.foldl (fun field c => field.update c id) latestCriticals)

def init (txsCriticals : List (List K)) : DAG :=
  (txsCriticals.zipIdx.foldl link (DAG.init txsCriticals.length, .empty)).1.generate

end TxDAG

example : ((TxDAG.init [["a"], ["b"], ["a", "b", "a"]]).vtxs.map Vertex.inDegree,
    (TxDAG.init [["a"], ["b"], ["a", "b", "a"]]).topLevel) = ([0, 0, 3], [0, 1]) := by
  decide

end BcosExecutor
