import BcosExecutor.Metered
import BcosExecutor.ExceptRuns

namespace BcosExecutor

open ExceptRuns

namespace Instr

/-- The entry of the cost table an instruction is charged by. -/
def code : Instr → UInt8
  | binary op | compare op | convert op | unary op | load op _ _ | store op _ _ => op.code
  | const .i32 _ => Instruction.I32Const
  | const _ _ => Instruction.I64Const
  | drop => Instruction.Drop
  | nop => Instruction.Nop
  | select => Instruction.Select
  | unreachable => Instruction.Unreachable
  | memorySize => Instruction.MemorySize
  | memoryGrow => 0x40
  | .return => Instruction.Return
  | br _ => Instruction.Br
  | brIf _ => Instruction.BrIf
  | brTable _ _ => Instruction.BrTable
  | call _ => Instruction.Call
  | callIndirect _ _ => Instruction.CallIndirect
  | globalGet _ => Instruction.GlobalGet
  | globalSet _ => Instruction.GlobalSet
  | localGet _ => Instruction.LocalGet
  | localSet _ => Instruction.LocalSet
  | localTee _ => Instruction.LocalTee
  | other _ => Instruction.Unreachable

/-- `memory.grow` is not charged for now. -/
def cost (table : InstructionTable) (i : Instr) : Nat :=
  if i = memoryGrow then 0 else (table i.code).toNat

/-- A branch, a return or a call. -/
def endsSegment : Instr → Bool
  | br _ | brIf _ | brTable _ _ | .return | call _ | callIndirect _ _ => true
  | _ => false

def reindex (info : ImportsInfo) : Instr → Instr
  | call index => call (GasInjector.shiftCall info index)
  | globalGet index => globalGet (index + 1)
  | globalSet index => globalSet (index + 1)
  | i => i

/-- The labels an instruction can branch to. -/
def targets : Instr → List Nat
  | br label | brIf label => [label]
  | brTable labels label => label :: labels
  | _ => []

/-- Whether the next instruction can be executed after this one. -/
def falls : Instr → Bool
  | br _ | brTable _ _ | .return | unreachable => false
  | _ => true

end Instr

def ExprList.reindex (info : ImportsInfo) : ExprList → ExprList
  | nil => nil
  | instr i rest => instr (i.reindex info) (rest.reindex info)
  | block sig body rest => block sig (body.reindex info) (rest.reindex info)
  | loop sig body rest => loop sig (body.reindex info) (rest.reindex info)
  | ifElse sig true_ false_ rest =>
    ifElse sig (true_.reindex info) (false_.reindex info) (rest.reindex info)

theorem ExprList.reindex_eq_nil {info : ImportsInfo} {l : ExprList} :
    l.reindex info = nil ↔ l = nil := by
  cases l <;> simp [ExprList.reindex]

namespace GasInjector

variable {table : InstructionTable} {info : ImportsInfo}

theorem visitInstr_spec {i : Instr} {r : Instr × Nat × Bool}
    (h : visitInstr table info i = .ok r) :
    r = (i.reindex info, (i.reindex info).cost table, (i.reindex info).endsSegment) := by
  cases i with
  | binary op | compare op | convert op | unary op =>
    simp only [visitInstr, visitOpcode] at h
    split at h
    · cases h
    · cases h; simp [Instr.reindex, Instr.cost, Instr.code, Instr.endsSegment]
  | const type value =>
    cases type <;> simp only [visitInstr, visitConst, reduceCtorEq, Except.ok.injEq] at h <;>
      subst h <;> simp [Instr.reindex, Instr.cost, Instr.code, Instr.endsSegment]
  | other type => cases h
  | _ => cases h; simp [Instr.reindex, Instr.cost, Instr.code, Instr.endsSegment]

end GasInjector

namespace Metered

variable (table : InstructionTable)

def elseCost (false_ : Metered) : Nat :=
  if false_.original ≠ .nil then (table Instruction.Else).toNat else 0

/-- The cost of what is left of the segment that execution is in. -/
def prepaid : Metered → Nat
  | instr i rest => i.cost table + if i.endsSegment then 0 else rest.prepaid
  | ifElse _ _ false_ _ => elseCost table false_
  | _ => 0

/-- Every charge is the cost of the segment after it, and every segment with a cost has one. -/
def Balanced : Metered → Prop
  | nil => True
  | charge gas rest => gas = rest.prepaid table ∧ rest.Balanced
  | instr i rest => (i.endsSegment = true → rest.prepaid table = 0) ∧ rest.Balanced
  | block _ body rest | loop _ body rest =>
    (body.prepaid table = 0 ∧ body.Balanced) ∧ rest.prepaid table = 0 ∧ rest.Balanced
  | ifElse _ true_ false_ rest =>
    (true_.prepaid table = 0 ∧ true_.Balanced) ∧ (false_.prepaid table = 0 ∧ false_.Balanced) ∧
      rest.prepaid table = 0 ∧ rest.Balanced

/-- Balanced, and at the beginning of a segment. -/
def Fresh (m : Metered) : Prop :=
  m.prepaid table = 0 ∧ m.Balanced table

end Metered

namespace GasInjector

variable {table : InstructionTable} {info : ImportsInfo}

theorem openSegment_original (s : Nat × Metered) : (openSegment s).original = s.2.original := by
  unfold openSegment
  split <;> rfl

theorem openSegment_fresh {s : Nat × Metered} (h : s.1 = s.2.prepaid table)
    (hb : s.2.Balanced table) : (openSegment s).Fresh table := by
  unfold openSegment
  split
  · exact ⟨rfl, h, hb⟩
  · exact ⟨by omega, hb⟩

/-- What the annotated list of a list of expressions looks like. -/
structure SegmentOf (table : InstructionTable) (info : ImportsInfo) (l : ExprList)
    (s : Nat × Metered) : Prop where
  original : s.2.original = l.reindex info
  cost : s.1 = s.2.prepaid table
  balanced : s.2.Balanced table

theorem SegmentOf.fresh {l : ExprList} {s : Nat × Metered} (h : SegmentOf table info l s) :
    (openSegment s).Fresh table :=
  openSegment_fresh h.cost h.balanced

theorem meterSegment_spec {l : ExprList} {s : Nat × Metered}
    (h : meterSegment table info l = .ok s) : SegmentOf table info l s := by
  induction l generalizing s with
  | nil => cases h; exact ⟨rfl, rfl, trivial⟩
  | instr i rest ih =>
    obtain ⟨r, hr, h⟩ := bind_eq_ok.mp h
    obtain ⟨s', hs', h⟩ := bind_eq_ok.mp h
    have hrest := ih hs'
    rw [visitInstr_spec hr] at h
    simp only at h
    split at h
    next hflush =>
      cases h
      refine ⟨?_, ?_, fun _ => hrest.fresh.1, hrest.fresh.2⟩
      · simp only [Metered.original, openSegment_original, hrest.original, ExprList.reindex]
      · simp only [Metered.prepaid, hflush, if_true, Nat.add_zero]
    next hflush =>
      cases h
      refine ⟨?_, ?_, fun hf => absurd hf hflush, hrest.balanced⟩
      · simp only [Metered.original, hrest.original, ExprList.reindex]
      · simp only [Metered.prepaid, hflush, hrest.cost]; rfl
  | block sig body rest ihb ih | loop sig body rest ihb ih =>
    obtain ⟨b, hb, h⟩ := bind_eq_ok.mp h
    obtain ⟨s', hs', h⟩ := bind_eq_ok.mp h
    cases h
    refine ⟨?_, rfl, (ihb hb).fresh, (ih hs').fresh⟩
    simp only [Metered.original, openSegment_original, (ihb hb).original, (ih hs').original,
      ExprList.reindex]
  | ifElse sig true_ false_ rest iht ihf ih =>
    obtain ⟨t, ht, h⟩ := bind_eq_ok.mp h
    obtain ⟨f, hf, h⟩ := bind_eq_ok.mp h
    obtain ⟨s', hs', h⟩ := bind_eq_ok.mp h
    cases h
    refine ⟨?_, ?_, (iht ht).fresh, (ihf hf).fresh, (ih hs').fresh⟩
    · simp only [Metered.original, openSegment_original, (iht ht).original, (ihf hf).original,
        (ih hs').original, ExprList.reindex]
    · simp only [Metered.prepaid, Metered.elseCost, openSegment_original, (ihf hf).original, ne_eq,
        ExprList.reindex_eq_nil]

theorem meter_spec {l : ExprList} {m : Metered} (h : meter table info l = .ok m) :
    m.original = l.reindex info ∧ m.Fresh table := by
  unfold meter at h
  cases hs : meterSegment table info l with
  | error e => rw [hs] at h; cases h
  | ok s =>
    rw [hs] at h
    cases h
    have hspec := meterSegment_spec hs
    exact ⟨(openSegment_original s).trans hspec.original, hspec.fresh⟩

end GasInjector

end BcosExecutor
