import BcosExecutor.MeterSegments
import BcosExecutor.MeterStack
import Mathlib.Logic.Relation

namespace BcosExecutor

/-- What follows the body that execution is in. -/
inductive Frame
  | block (rest : Metered)
  | loop (body rest : Metered)
  deriving DecidableEq

def Frame.rest : Frame → Metered
  | block rest | loop _ rest => rest

/-- Where execution stands in a metered list, with what has been subtracted from the gas and
what the executed instructions cost. -/
structure Position where
  cur : Metered
  frames : List Frame

structure Path where
  pos : Position
  charged : Nat
  executed : Nat

namespace Path

/-- A branch goes on after a block or an if, and at the beginning of a loop. The label outside
all of them is the end of the function. -/
def branch (label : Nat) (frames : List Frame) : Position :=
  match frames.drop label with
  | .block rest :: outer => ⟨rest, outer⟩
  | .loop body rest :: outer => ⟨body, .loop body rest :: outer⟩
  | [] => ⟨.nil, []⟩

def start (m : Metered) : Path :=
  ⟨⟨m, []⟩, 0, 0⟩

/-- One step along any path: both ways at a condition, every target of a branch. A call is
executed as one instruction. -/
inductive Step (table : InstructionTable) : Path → Path → Prop
  | charge {gas rest fs c e} :
    Step table ⟨⟨.charge gas rest, fs⟩, c, e⟩ ⟨⟨rest, fs⟩, c + gas, e⟩
  | next {i : Instr} {rest fs c e} : i.falls = true →
    Step table ⟨⟨.instr i rest, fs⟩, c, e⟩ ⟨⟨rest, fs⟩, c, e + i.cost table⟩
  | jump {i : Instr} {label rest fs c e} : label ∈ i.targets →
    Step table ⟨⟨.instr i rest, fs⟩, c, e⟩ ⟨branch label fs, c, e + i.cost table⟩
  | exit {rest fs c e} :
    Step table ⟨⟨.instr .return rest, fs⟩, c, e⟩
      ⟨⟨.nil, []⟩, c, e + Instr.cost table .return⟩
  | block {sig body rest fs c e} :
    Step table ⟨⟨.block sig body rest, fs⟩, c, e⟩ ⟨⟨body, .block rest :: fs⟩, c, e⟩
  | loop {sig body rest fs c e} :
    Step table ⟨⟨.loop sig body rest, fs⟩, c, e⟩ ⟨⟨body, .loop body rest :: fs⟩, c, e⟩
  | ifTrue {sig true_ false_ rest fs c e} :
    Step table ⟨⟨.ifElse sig true_ false_ rest, fs⟩, c, e⟩
      ⟨⟨true_, .block rest :: fs⟩, c, e + Metered.elseCost table false_⟩
  | ifFalse {sig true_ false_ rest fs c e} :
    Step table ⟨⟨.ifElse sig true_ false_ rest, fs⟩, c, e⟩
      ⟨⟨false_, .block rest :: fs⟩, c, e + Metered.elseCost table false_⟩
  | leave {f : Frame} {fs c e} :
    Step table ⟨⟨.nil, f :: fs⟩, c, e⟩ ⟨⟨f.rest, fs⟩, c, e⟩

def Reach (table : InstructionTable) (m : Metered) : Path → Prop :=
  Relation.ReflTransGen (Step table) (start m)

variable {table : InstructionTable}

/-- Every list that execution can continue with begins a segment. -/
def Frame.Fresh (table : InstructionTable) : Frame → Prop
  | .block rest => rest.Fresh table
  | .loop body rest => body.Fresh table ∧ rest.Fresh table

/-- What has been subtracted is what the executed instructions cost and what is prepaid for the
rest of the segment. -/
structure Inv (table : InstructionTable) (p : Path) : Prop where
  balanced : p.pos.cur.Balanced table
  frames : ∀ f ∈ p.pos.frames, Frame.Fresh table f
  paid : p.charged = p.executed + p.pos.cur.prepaid table

theorem Frame.Fresh.rest {f : Frame} (h : Frame.Fresh table f) : f.rest.Fresh table := by
  cases f with
  | block rest => exact h
  | loop body rest => exact h.2

theorem branch_fresh (label : Nat) {fs : List Frame} (h : ∀ f ∈ fs, Frame.Fresh table f) :
    (branch label fs).cur.Fresh table ∧ ∀ f ∈ (branch label fs).frames, Frame.Fresh table f := by
  have hdrop : ∀ f ∈ fs.drop label, Frame.Fresh table f := fun f hf => h f (List.mem_of_mem_drop hf)
  unfold branch
  split
  next rest outer heq =>
    rw [heq] at hdrop
    exact ⟨hdrop _ List.mem_cons_self, fun f hf => hdrop f (List.mem_cons_of_mem _ hf)⟩
  next body rest outer heq =>
    rw [heq] at hdrop
    exact ⟨(hdrop _ List.mem_cons_self).1, hdrop⟩
  next => exact ⟨⟨rfl, trivial⟩, by simp⟩

theorem endsSegment_of_target {i : Instr} {label : Nat} (h : label ∈ i.targets) :
    i.endsSegment = true := by
  cases i <;> simp_all [Instr.targets, Instr.endsSegment]

theorem inv_of_fresh {p : Path} (hcur : p.pos.cur.Fresh table)
    (hframes : ∀ f ∈ p.pos.frames, Frame.Fresh table f) (hpaid : p.charged = p.executed) :
    Inv table p :=
  ⟨hcur.2, hframes, by rw [hcur.1, hpaid, Nat.add_zero]⟩

theorem inv_step {p p' : Path} (h : Inv table p) (step : Step table p p') : Inv table p' := by
  obtain ⟨hb, hf, hpaid⟩ := h
  cases step with
  | charge =>
    obtain ⟨rfl, hb⟩ := hb
    refine ⟨hb, hf, ?_⟩
    simp only [Metered.prepaid] at hpaid ⊢
    omega
  | @next i rest fs c e _ =>
    refine ⟨hb.2, hf, ?_⟩
    simp only [Metered.prepaid] at hpaid ⊢
    cases hi : i.endsSegment with
    | true =>
      have := hb.1 hi
      simp only [hi, if_true] at hpaid
      omega
    | false =>
      simp only [hi, Bool.false_eq_true, if_false] at hpaid
      omega
  | jump hl =>
    obtain ⟨hcur, hframes⟩ := branch_fresh _ hf
    refine inv_of_fresh hcur hframes ?_
    simp only [Metered.prepaid, endsSegment_of_target hl, if_true] at hpaid
    exact hpaid
  | exit => exact inv_of_fresh ⟨rfl, trivial⟩ (by simp) hpaid
  | block =>
    obtain ⟨hbody, hrest⟩ := hb
    exact inv_of_fresh hbody (List.forall_mem_cons.mpr ⟨hrest, hf⟩) hpaid
  | loop =>
    obtain ⟨hbody, hrest⟩ := hb
    exact inv_of_fresh hbody (List.forall_mem_cons.mpr ⟨⟨hbody, hrest⟩, hf⟩) hpaid
  | ifTrue =>
    obtain ⟨htrue, _, hrest⟩ := hb
    exact inv_of_fresh htrue (List.forall_mem_cons.mpr ⟨hrest, hf⟩) hpaid
  | ifFalse =>
    obtain ⟨_, hfalse, hrest⟩ := hb
    exact inv_of_fresh hfalse (List.forall_mem_cons.mpr ⟨hrest, hf⟩) hpaid
  | leave =>
    obtain ⟨hhead, hrest⟩ := List.forall_mem_cons.mp hf
    exact inv_of_fresh hhead.rest hrest hpaid

theorem reach_inv {m : Metered} {p : Path} (hm : m.Fresh table) (reach : Reach table m p) :
    Inv table p := by
  induction reach with
  | refl => exact inv_of_fresh hm (by simp [start]) rfl
  | tail _ step ih => exact inv_step ih step

end Path

end BcosExecutor
