import BcosExecutor.CountdownOrder
import Mathlib.Data.List.AList

namespace BcosExecutor

/-- A decoded conflict key: eight bytes of slot, followed by more when it is not the key of the
whole slot. -/
abbrev ConflictField := { bytes : List UInt8 // 8 ≤ bytes.length }

namespace ConflictField

/-- `*(size_t*)conflictField.data()`, the first eight bytes in little-endian order. -/
def slot (field : ConflictField) : Nat :=
  (field.val.take 8).foldr (fun b n => b.toNat + 256 * n) 0

def isWhole (field : ConflictField) : Prop :=
  field.val.length = 8

instance (field : ConflictField) : Decidable field.isWhole :=
  inferInstanceAs (Decidable (field.val.length = 8))

end ConflictField

inductive Node
  | start
  | task (index : Nat)
  deriving DecidableEq

/-- The variables of the task loop of `dagExecuteTransactionsForWasm`. -/
structure FlowGraph where
  tasks : Nat
  edges : List (Node × Node)
  dependencies : AList fun _ : ConflictField => List Nat
  slotUsage : AList fun _ : Nat => Nat
  noDeps : Bool

namespace FlowGraph

def init : FlowGraph :=
  ⟨0, [], ∅, ∅, true⟩

def makeEdge (g : FlowGraph) (f t : Nat) : FlowGraph :=
  { g with edges := g.edges ++ [(.task f, .task t)], noDeps := false }

def visitSlot (g : FlowGraph) (slot index : Nat) : FlowGraph :=
  match g.slotUsage.lookup slot with
  | some prevIndex => if prevIndex ≠ index then g.makeEdge prevIndex index else g
  | none => g

def visitKey (g : FlowGraph) (conflictField : ConflictField) (index : Nat) : FlowGraph :=
  match g.dependencies.lookup conflictField with
  | some prevIndices =>
    if prevIndices.getLastD index ≠ index then
      { g.makeEdge (prevIndices.getLastD index) index with
        dependencies := g.dependencies.insert conflictField (prevIndices ++ [index]) }
    else { g with dependencies := g.dependencies.insert conflictField [index] }
  | none => { g with dependencies := g.dependencies.insert conflictField [index] }

/-- The tasks in `dependencies` under a key of the slot. -/
def slotIndices (g : FlowGraph) (slot : Nat) : List Nat :=
  (g.dependencies.entries.filter fun entry => entry.1.slot = slot).flatMap Sigma.snd

def visitWhole (g : FlowGraph) (slot index : Nat) : FlowGraph :=
  { (g.slotIndices slot).foldl (fun g prevIndex => g.makeEdge prevIndex index) g with
    slotUsage := g.slotUsage.insert slot index }

def visitField (index : Nat) (g : FlowGraph) (conflictField : ConflictField) : FlowGraph :=
  let g := g.visitSlot conflictField.slot index
  if conflictField.isWhole then g.visitWhole conflictField.slot index
  else g.visitKey conflictField index

/-- One round of the task loop; a transaction without conflict fields is sent back. -/
def addTask (g : FlowGraph) (conflictFields : Option (List ConflictField)) : FlowGraph :=
  match conflictFields with
  | none => g
  | some fields =>
    let index := g.tasks
    let g := fields.foldl (visitField index) { g with tasks := index + 1, noDeps := true }
    if g.noDeps then { g with edges := g.edges ++ [(.start, .task index)] } else g

def build (allConflictFields : List (Option (List ConflictField))) : FlowGraph :=
  allConflictFields.foldl addTask init

def Edge (g : FlowGraph) (u v : Node) : Prop :=
  (u, v) ∈ g.edges

def makeEdges (g : FlowGraph) (new : List Nat) (index : Nat) : FlowGraph :=
  new.foldl (fun g f => g.makeEdge f index) g

theorem makeEdges_eq (g : FlowGraph) (new : List Nat) (index : Nat) :
    g.makeEdges new index = { g with
      edges := g.edges ++ new.map fun f => (.task f, .task index)
      noDeps := g.noDeps && new.isEmpty } := by
  induction new generalizing g with
  | nil => simp [makeEdges]
  | cons f new ih =>
    change (g.makeEdge f index).makeEdges new index = _
    rw [ih]
    simp [makeEdge]

/-- The latest user of a key or slot, unless it is the task itself. -/
def others (index : Nat) : Option Nat → List Nat
  | some prevIndex => if prevIndex ≠ index then [prevIndex] else []
  | none => []

theorem mem_others {index u : Nat} {prev : Option Nat} :
    u ∈ others index prev ↔ prev = some u ∧ u ≠ index := by
  cases prev with
  | none => simp [others]
  | some p =>
    by_cases hp : p = index
    · subst p
      simp [others, eq_comm]
    · simp only [others, ne_eq, hp, not_false_eq_true, if_true, List.mem_singleton,
        Option.some.injEq]
      constructor
      · rintro rfl; exact ⟨rfl, hp⟩
      · exact fun h => h.1.symm

/-- The tasks that get an edge to task `index` when it uses a key. -/
def sources (g : FlowGraph) (index : Nat) (field : ConflictField) : List Nat :=
  others index (g.slotUsage.lookup field.slot) ++
    if field.isWhole then g.slotIndices field.slot
    else others index ((g.dependencies.lookup field).map (·.getLastD index))

/-- What is stored under a key when task `index` uses it. -/
def storedIndices (g : FlowGraph) (index : Nat) (field : ConflictField) : List Nat :=
  match g.dependencies.lookup field with
  | some prevIndices =>
    if prevIndices.getLastD index ≠ index then prevIndices ++ [index] else [index]
  | none => [index]

theorem visitSlot_eq (g : FlowGraph) (slot index : Nat) :
    g.visitSlot slot index = g.makeEdges (others index (g.slotUsage.lookup slot)) index := by
  unfold visitSlot
  cases g.slotUsage.lookup slot with
  | none => rfl
  | some u =>
    simp only [others]
    split <;> rfl

theorem visitKey_eq (g : FlowGraph) (field : ConflictField) (index : Nat) :
    g.visitKey field index =
      { g.makeEdges (others index ((g.dependencies.lookup field).map (·.getLastD index))) index
        with dependencies := g.dependencies.insert field (g.storedIndices index field) } := by
  unfold visitKey storedIndices
  cases g.dependencies.lookup field with
  | none => rfl
  | some prev =>
    simp only [others, Option.map_some]
    split <;> rfl

/-- All that the use of a key changes. -/
theorem visitField_eq (g : FlowGraph) (index : Nat) (field : ConflictField) :
    visitField index g field = { g with
      edges := g.edges ++ (g.sources index field).map fun f => (.task f, .task index)
      noDeps := g.noDeps && (g.sources index field).isEmpty
      dependencies := if field.isWhole then g.dependencies
        else g.dependencies.insert field (g.storedIndices index field)
      slotUsage := if field.isWhole then g.slotUsage.insert field.slot index
        else g.slotUsage } := by
  have hmerge (a b : List Nat) :
      ((g.noDeps && a.isEmpty) && b.isEmpty) = (g.noDeps && (a ++ b).isEmpty) := by
    cases a <;> cases b <;> simp
  unfold visitField sources
  by_cases hw : field.isWhole
  · have hvisit (g : FlowGraph) : g.visitWhole field.slot index =
        { g.makeEdges (g.slotIndices field.slot) index with
          slotUsage := g.slotUsage.insert field.slot index } := rfl
    simp only [hw, if_true, hvisit, visitSlot_eq, makeEdges_eq, hmerge, List.map_append,
      List.append_assoc]
    rfl
  · simp only [hw, if_false, visitSlot_eq, visitKey_eq, makeEdges_eq, hmerge, List.map_append,
      List.append_assoc]
    rfl

end FlowGraph

end BcosExecutor
