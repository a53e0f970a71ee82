import BcosExecutor.MeterSound
import BcosExecutor.WasmSimulation
import Mathlib.Data.Prod.Lex

namespace BcosExecutor

namespace Control

/-- Every list that is gone on with begins a segment. -/
def Fresh (table : InstructionTable) : Control → Prop
  | block _ rest | function _ rest => rest.Fresh table
  | loop _ body rest => body.Fresh table ∧ rest.Fresh table

def size : Control → Nat
  | block _ rest | loop _ _ rest | function _ rest => rest.size + 1

end Control

theorem cost_pos_of_endsSegment (defined : UInt8 → Bool) {i : Instr} (h : i.endsSegment = true) :
    0 < i.cost (GetInstructionTable defined) := by
  cases i with
  | br _ => exact branch_cost_pos defined _ _ (List.mem_singleton_self _)
  | brIf _ => exact branch_cost_pos defined _ _ (List.mem_singleton_self _)
  | brTable _ _ => exact branch_cost_pos defined _ _ List.mem_cons_self
  | «return» =>
    have hcost : instructionCosts.lookup Instruction.Return = some 2 := by decide
    simp [Instr.cost, Instr.code, GetInstructionTable, hcost]
  | call _ =>
    have hcost : instructionCosts.lookup Instruction.Call = some 3 := by decide
    simp [Instr.cost, Instr.code, GetInstructionTable, hcost]
  | callIndirect _ _ =>
    have hcost : instructionCosts.lookup Instruction.CallIndirect = some 2 := by decide
    simp [Instr.cost, Instr.code, GetInstructionTable, hcost]
  | _ => cases h

namespace WasmHost

variable {ρ : Type} {host : WasmHost ρ} {table : InstructionTable}

def size (c : WasmConfig ρ) : Nat :=
  c.cur.size + (c.controls.map Control.size).sum

/-- Execution stands in balanced code. -/
structure Paid (table : InstructionTable) (c : WasmConfig ρ) : Prop where
  balanced : c.cur.Balanced table
  controls : ∀ k ∈ c.controls, k.Fresh table

/-- A turn after which less is prepaid, or no more of it and less is left to do. -/
def Ahead (table : InstructionTable) (prepaid left : Nat) : WasmTurn ρ → Prop
  | .inl c => Paid table c ∧ (c.cur.prepaid table < prepaid ∨
      c.cur.prepaid table ≤ prepaid ∧ size c < left)
  | .inr _ => True

variable {cur rest : Metered} {controls : List Control} {s : WasmStore ρ} {prepaid left : Nat}

theorem ahead_of_fresh (hcur : cur.Fresh table) (hcontrols : ∀ k ∈ controls, k.Fresh table)
    (h : 0 < prepaid ∨ cur.size + (controls.map Control.size).sum < left) :
    Ahead table prepaid left (.inl ⟨cur, controls, s⟩) := by
  refine ⟨⟨hcur.2, hcontrols⟩, ?_⟩
  show cur.prepaid table < prepaid ∨ cur.prepaid table ≤ prepaid ∧ _
  rw [hcur.1]
  exact h.imp_right fun h => ⟨Nat.zero_le _, h⟩

theorem proceed_ahead {o : Option (WasmStore ρ)} (hcur : cur.Fresh table)
    (hcontrols : ∀ k ∈ controls, k.Fresh table)
    (h : 0 < prepaid ∨ cur.size + (controls.map Control.size).sum < left) :
    Ahead table prepaid left (proceed cur controls o) := by
  cases o with
  | none => trivial
  | some s => exact ahead_of_fresh hcur hcontrols h

theorem resume_ahead {r : WasmStop ρ} (hcur : cur.Fresh table)
    (hcontrols : ∀ k ∈ controls, k.Fresh table)
    (h : 0 < prepaid ∨ cur.size + (controls.map Control.size).sum < left) :
    Ahead table prepaid left (resume cur controls r) := by
  cases r with
  | done s => exact ahead_of_fresh hcur hcontrols h
  | trap | outOfGas => trivial

theorem jump_ahead (n : Nat) (hcontrols : ∀ k ∈ controls, k.Fresh table) (h : 0 < prepaid) :
    Ahead table prepaid left (host.jump n controls s) := by
  induction controls generalizing n with
  | nil => cases n <;> trivial
  | cons k controls ih =>
    obtain ⟨hk, htail⟩ := List.forall_mem_cons.mp hcontrols
    cases k with
    | function index rest => cases n <;> exact proceed_ahead hk htail (.inl h)
    | block label rest =>
      cases n with
      | zero => exact ahead_of_fresh hk htail (.inl h)
      | succ n => exact ih n htail
    | loop label body rest =>
      cases n with
      | zero => exact ahead_of_fresh hk.1 hcontrols (.inl h)
      | succ n => exact ih n htail

theorem returns_ahead (hcontrols : ∀ k ∈ controls, k.Fresh table) (h : 0 < prepaid) :
    Ahead table prepaid left (host.returns controls s) := by
  induction controls with
  | nil => trivial
  | cons k controls ih =>
    obtain ⟨hk, htail⟩ := List.forall_mem_cons.mp hcontrols
    cases k with
    | function index rest => exact proceed_ahead hk htail (.inl h)
    | block label rest => exact ih htail
    | loop label body rest => exact ih htail

theorem leaves_ahead (hcontrols : ∀ k ∈ controls, k.Fresh table) :
    Ahead table 0 (controls.map Control.size).sum (host.leaves controls s) := by
  cases controls with
  | nil => trivial
  | cons k controls =>
    obtain ⟨hk, htail⟩ := List.forall_mem_cons.mp hcontrols
    rw [List.map_cons, List.sum_cons]
    cases k with
    | function index rest =>
      exact proceed_ahead hk htail (.inr (Nat.add_lt_add_right (Nat.lt_succ_self _) _))
    | block label rest =>
      exact ahead_of_fresh hk htail (.inr (Nat.add_lt_add_right (Nat.lt_succ_self _) _))
    | loop label body rest =>
      exact ahead_of_fresh hk.2 htail (.inr (Nat.add_lt_add_right (Nat.lt_succ_self _) _))

section

variable {gas : UInt32} {funcs : UInt32 → Option Metered}

theorem invoke_ahead (hfuncs : ∀ index body, funcs index = some body → body.Fresh table)
    (index : UInt32) (hrest : rest.Fresh table) (hcontrols : ∀ k ∈ controls, k.Fresh table)
    (h : 0 < prepaid) : Ahead table prepaid left (host.invoke funcs index rest controls s) := by
  unfold invoke
  cases hbody : funcs index with
  | none => exact resume_ahead hrest hcontrols (.inl h)
  | some body =>
    have hfunction : ∀ k ∈ Control.function index rest :: controls, k.Fresh table :=
      List.forall_mem_cons.mpr ⟨hrest, hcontrols⟩
    exact proceed_ahead (hfuncs index body hbody) hfunction (.inl h)

/-- After an instruction that ends its segment nothing is prepaid. -/
theorem instrTurn_ahead_of_ends
    (hfuncs : ∀ index body, funcs index = some body → body.Fresh table) {i : Instr}
    (hi : i.endsSegment = true) (hrest : rest.Fresh table)
    (hcontrols : ∀ k ∈ controls, k.Fresh table) (h : 0 < prepaid) :
    Ahead table prepaid left (host.instrTurn funcs i rest controls s) := by
  cases i with
  | br label => exact jump_ahead label hcontrols h
  | brIf label =>
    unfold instrTurn
    dsimp only
    split
    · split
      · exact jump_ahead label hcontrols h
      · exact ahead_of_fresh hrest hcontrols (.inl h)
    · trivial
  | brTable targets defaultTarget =>
    unfold instrTurn
    dsimp only
    split
    · exact jump_ahead _ hcontrols h
    · trivial
  | «return» => exact returns_ahead hcontrols h
  | call index => exact invoke_ahead hfuncs index hrest hcontrols h
  | callIndirect type tbl =>
    unfold instrTurn
    dsimp only
    split
    · exact invoke_ahead hfuncs _ hrest hcontrols h
    · trivial
  | _ => cases hi

/-- Any other instruction goes on in its segment. -/
theorem instrTurn_ahead_of_goesOn {i : Instr} (hi : i.endsSegment = false)
    (hrest : rest.Balanced table) (hcontrols : ∀ k ∈ controls, k.Fresh table)
    (hprepaid : rest.prepaid table ≤ prepaid)
    (hleft : rest.size + (controls.map Control.size).sum < left) :
    Ahead table prepaid left (host.instrTurn funcs i rest controls s) := by
  have hgo : Ahead table prepaid left (proceed rest controls (host.exec i s)) := by
    cases host.exec i s with
    | none => trivial
    | some s => exact ⟨⟨hrest, hcontrols⟩, .inr ⟨hprepaid, hleft⟩⟩
  cases i with
  | br label | brIf label | brTable targets defaultTarget | «return» | call index
  | callIndirect type tbl => cases hi
  | unreachable => trivial
  | _ => exact hgo

/-- No step but that of a charge adds to what is prepaid, and one that takes nothing off it comes
nearer to the end of the code. -/
theorem step_ahead (positive : ∀ i : Instr, i.endsSegment = true → 0 < i.cost table)
    (hfuncs : ∀ index body, funcs index = some body → body.Fresh table) {c : WasmConfig ρ}
    (hpaid : Paid table c) (hcharge : ∀ cost rest, c.cur ≠ .charge cost rest) :
    Ahead table (c.cur.prepaid table) (size c) (host.step gas funcs c) := by
  obtain ⟨cur, controls, s⟩ := c
  obtain ⟨hbalanced, hcontrols⟩ := hpaid
  dsimp only at hbalanced hcontrols hcharge
  cases cur with
  | nil =>
    have hsize : size (⟨.nil, controls, s⟩ : WasmConfig ρ) = (controls.map Control.size).sum :=
      Nat.zero_add _
    rw [hsize]
    exact leaves_ahead hcontrols
  | charge cost rest => exact absurd rfl (hcharge cost rest)
  | instr i rest =>
    obtain ⟨hends, hrest⟩ := hbalanced
    show Ahead table (i.cost table + _) _ (host.instrTurn funcs i rest controls s)
    cases hi : i.endsSegment with
    | true =>
      exact instrTurn_ahead_of_ends hfuncs hi ⟨hends hi, hrest⟩ hcontrols
        (Nat.lt_of_lt_of_le (positive i hi) (Nat.le_add_right _ _))
    | false =>
      refine instrTurn_ahead_of_goesOn hi hrest hcontrols ?_ ?_
      · rw [if_neg Bool.false_ne_true]
        exact Nat.le_add_left _ _
      · exact Nat.add_lt_add_right (Nat.lt_succ_self _) _
  | block sig body rest =>
    obtain ⟨hbody, hrest⟩ := hbalanced
    refine ahead_of_fresh hbody (List.forall_mem_cons.mpr ⟨hrest, hcontrols⟩) (.inr ?_)
    simp only [size, Metered.size, List.map_cons, List.sum_cons, Control.size]
    omega
  | loop sig body rest =>
    obtain ⟨hbody, hrest⟩ := hbalanced
    refine ahead_of_fresh hbody (List.forall_mem_cons.mpr ⟨⟨hbody, hrest⟩, hcontrols⟩) (.inr ?_)
    simp only [size, Metered.size, List.map_cons, List.sum_cons, Control.size]
    omega
  | ifElse sig true_ false_ rest =>
    obtain ⟨htrue, hfalse, hrest⟩ := hbalanced
    unfold step
    dsimp only
    split
    · refine ahead_of_fresh ?_ (List.forall_mem_cons.mpr ⟨hrest, hcontrols⟩) (.inr ?_)
      · split
        · exact htrue
        · exact hfalse
      · simp only [size, Metered.size, List.map_cons, List.sum_cons, Control.size]
        split <;> omega
    · trivial

end

end WasmHost

end BcosExecutor
