import BcosExecutor.MeterHalts
import BcosExecutor.References

namespace BcosExecutor

/-- Every instruction of a list is one of these, and no charge is negative for the counter. -/
def Metered.All (ok : Instr → Prop) : Metered → Prop
  | nil => True
  | charge cost rest => cost < 2 ^ 63 ∧ rest.All ok
  | instr i rest => ok i ∧ rest.All ok
  | block _ body rest | loop _ body rest => body.All ok ∧ rest.All ok
  | ifElse _ true_ false_ rest => true_.All ok ∧ false_.All ok ∧ rest.All ok

namespace WasmStore

variable {ρ : Type}

def gasLeft (gas : UInt32) (s : WasmStore ρ) : Nat :=
  match s.machine.globals gas with
  | .i64 left => left.toNat
  | .i32 _ => 0

/-- The counter is a 64-bit one. -/
def GasAtMost (gas : UInt32) (bound : Nat) (s : WasmStore ρ) : Prop :=
  ∃ left, s.machine.globals gas = .i64 left ∧ left.toNat ≤ bound

theorem gasLeft_eq {gas : UInt32} {s : WasmStore ρ} {left : BitVec 64}
    (h : s.machine.globals gas = .i64 left) : s.gasLeft gas = left.toNat := by
  rw [gasLeft, h]

theorem GasAtMost.gasLeft_le {gas : UInt32} {bound : Nat} {s : WasmStore ρ}
    (h : s.GasAtMost gas bound) : s.gasLeft gas ≤ bound := by
  obtain ⟨left, hleft, hle⟩ := h
  rwa [gasLeft_eq hleft]

theorem GasAtMost.self {gas : UInt32} {bound : Nat} {s : WasmStore ρ}
    (h : s.GasAtMost gas bound) : s.GasAtMost gas (s.gasLeft gas) := by
  obtain ⟨left, hleft, _⟩ := h
  exact ⟨left, hleft, Nat.le_of_eq (gasLeft_eq hleft).symm⟩

theorem setGas_gas (s : WasmStore ρ) (gas : UInt32) (left : BitVec 64) :
    (s.setGas gas left).machine.globals gas = .i64 left :=
  Function.update_self ..

end WasmStore

/-- A charge that leaves something has been paid. -/
theorem toNat_sub_of_positive {left : BitVec 64} {cost : Nat} (hleft : left.toNat < 2 ^ 63)
    (hcost : cost < 2 ^ 63) (h : (left - BitVec.ofNat 64 cost).sle 0 = false) :
    (left - BitVec.ofNat 64 cost).toNat + cost = left.toNat := by
  have hlt : cost < 2 ^ 64 := by omega
  have hsub : (left - BitVec.ofNat 64 cost).toNat = (2 ^ 64 - cost + left.toNat) % 2 ^ 64 := by
    rw [BitVec.toNat_sub, BitVec.toNat_ofNat, Nat.mod_eq_of_lt hlt]
  have hpos : 0 < (left - BitVec.ofNat 64 cost).toInt := by
    rw [BitVec.sle_eq_decide, decide_eq_false_iff_not] at h
    exact Int.not_le.mp h
  rw [BitVec.toInt_eq_toNat_cond] at hpos
  split at hpos <;> omega

namespace WasmHost

open Halting

variable {ρ : Type}

/-- What held of the store before holds of it after. -/
structure Keeps (host : WasmHost ρ) (ok : Instr → Prop) (P : WasmStore ρ → Prop) : Prop where
  withStack : ∀ {s} stack, P s → P (s.withStack stack)
  exec : ∀ {i s t}, ok i → P s → host.exec i s = some t → P t
  resolve : ∀ {type table s p}, P s → host.resolve type table s = some p → P p.2
  external : ∀ {index s t}, P s → host.external index s = .done t → P t
  enter : ∀ {index s t}, P s → host.enter index s = some t → P t
  leave : ∀ {index s t}, P s → host.leave index s = some t → P t

theorem rel_self {α : Type} {R : α → α → Prop} {o : Option α} (h : ∀ a, o = some a → R a a) :
    Option.Rel R o o := by
  cases o with
  | none => exact .none
  | some a => exact .some (h a rfl)

theorem Keeps.respects {host : WasmHost ρ} {ok : Instr → Prop} {P : WasmStore ρ → Prop}
    (h : host.Keeps ok P) : host.Respects host .same ok fun s s' => s = s' ∧ P s where
  stack := by
    rintro s s' ⟨rfl, -⟩
    rfl
  withStack := by
    rintro s s' stack ⟨rfl, hs⟩
    exact ⟨rfl, h.withStack stack hs⟩
  exec := by
    rintro i s s' hi ⟨rfl, hs⟩
    rw [Renaming.instr_same]
    exact rel_self fun t ht => ⟨rfl, h.exec hi hs ht⟩
  resolve := by
    rintro type table s s' ⟨rfl, hs⟩
    exact rel_self fun p hp => ⟨rfl, rfl, h.resolve hs hp⟩
  external := by
    rintro index s s' ⟨rfl, hs⟩
    show StopRel _ (host.external index s) (host.external index s)
    cases hstop : host.external index s with
    | done t => exact .done ⟨rfl, h.external hs hstop⟩
    | trap => exact .trap
    | outOfGas => exact .outOfGas
  enter := by
    rintro index s s' ⟨rfl, hs⟩
    exact rel_self fun t ht => ⟨rfl, h.enter hs ht⟩
  leave := by
    rintro index s s' ⟨rfl, hs⟩
    exact rel_self fun t ht => ⟨rfl, h.leave hs ht⟩

/-- The machine does not add to the gas. -/
def Frugal (host : WasmHost ρ) (gas : UInt32) : Prop :=
  ∀ bound, host.Keeps (fun i => gas ∉ i.globalOperand) (WasmStore.GasAtMost gas bound)

/-- Code of which nothing but charges touches the gas, and a store that keeps a property. -/
def Within (gas : UInt32) (P : WasmStore ρ → Prop) (c : WasmConfig ρ) : Prop :=
  Related .same (fun m m' => m = m' ∧ m.All fun i => gas ∉ i.globalOperand)
    (fun s s' => s = s' ∧ P s) c c

theorem alike_self {ok : Instr → Prop} {m : Metered} (h : m.All ok)
    (hcharge : ∀ cost rest, m ≠ .charge cost rest) :
    Alike .same ok (fun m m' => m = m' ∧ m.All ok) m m := by
  cases m with
  | nil => exact .nil
  | charge cost rest => exact absurd rfl (hcharge cost rest)
  | instr i rest =>
    have hinstr : Alike .same ok (fun m m' => m = m' ∧ m.All ok) (.instr i rest)
        (.instr (Renaming.same.instr i) rest) := .instr h.1 ⟨rfl, h.2⟩
    rwa [Renaming.instr_same] at hinstr
  | block sig body rest => exact .block ⟨rfl, h.1⟩ ⟨rfl, h.2⟩
  | loop sig body rest => exact .loop ⟨rfl, h.1⟩ ⟨rfl, h.2⟩
  | ifElse sig true_ false_ rest => exact .ifElse ⟨rfl, h.1⟩ ⟨rfl, h.2.1⟩ ⟨rfl, h.2.2⟩

variable {host : WasmHost ρ} {gas : UInt32} {funcs : UInt32 → Option Metered}
  {table : InstructionTable} {bound : Nat} {c c' : WasmConfig ρ}

/-- What is not a charge leaves no more gas than there was. -/
theorem turn_within (hfrugal : host.Frugal gas)
    (hfuncs : ∀ index body, funcs index = some body → body.All fun i => gas ∉ i.globalOperand)
    (hc : Within gas (WasmStore.GasAtMost gas bound) c)
    (hcharge : ∀ cost rest, c.cur ≠ .charge cost rest) :
    TurnRel .same (fun m m' => m = m' ∧ m.All fun i => gas ∉ i.globalOperand)
      (fun s s' => s = s' ∧ WasmStore.GasAtMost gas (c.store.gasLeft gas) s)
      (host.step gas funcs c) (host.step gas funcs c) := by
  have hsame : ∀ index, Option.Rel (fun m m' => m = m' ∧ m.All fun i => gas ∉ i.globalOperand)
      (funcs index) (funcs index) :=
    fun index => rel_self fun body hbody => ⟨rfl, hfuncs index body hbody⟩
  have hself : Within gas (WasmStore.GasAtMost gas (c.store.gasLeft gas)) c :=
    ⟨hc.cur, hc.controls, rfl, hc.store.2.self⟩
  exact step_rel (hfrugal _).respects hsame hself (alike_self hc.cur.2 hcharge)

theorem step_within (hfrugal : host.Frugal gas)
    (hfuncs : ∀ index body, funcs index = some body → body.All fun i => gas ∉ i.globalOperand)
    (hc : Within gas (WasmStore.GasAtMost gas bound) c)
    (hcharge : ∀ cost rest, c.cur ≠ .charge cost rest)
    (hstep : host.step gas funcs c = .inl c') :
    Within gas (WasmStore.GasAtMost gas (c.store.gasLeft gas)) c' := by
  have hturn := turn_within hfrugal hfuncs hc hcharge
  rw [hstep] at hturn
  cases hturn with
  | next hnext => exact hnext

/-- A charge that goes on takes its cost off the gas. -/
theorem charge_within {cost : Nat} {rest : Metered} (hbound : bound < 2 ^ 63)
    (hc : Within gas (WasmStore.GasAtMost gas bound) c) (hcur : c.cur = .charge cost rest)
    (hstep : host.step gas funcs c = .inl c') :
    Within gas (WasmStore.GasAtMost gas bound) c' ∧ c'.cur = rest ∧ c'.controls = c.controls ∧
      c'.store.gasLeft gas + cost = c.store.gasLeft gas := by
  obtain ⟨cur, controls, s⟩ := c
  dsimp only at hcur
  subst hcur
  obtain ⟨⟨-, hcost, hrest⟩, hcontrols, -, left, hleft, hle⟩ := hc
  dsimp only at hleft
  simp only [step, chargeTurn, hleft] at hstep
  split at hstep
  · cases hstep
  · next hpositive =>
    obtain rfl := Sum.inl.inj hstep
    have htoNat := toNat_sub_of_positive (Nat.lt_of_le_of_lt hle hbound) hcost
      (Bool.eq_false_of_not_eq_true hpositive)
    refine ⟨⟨⟨rfl, hrest⟩, hcontrols, rfl, _, s.setGas_gas gas _, by omega⟩, rfl, rfl, ?_⟩
    rw [WasmStore.gasLeft_eq (s.setGas_gas gas _), WasmStore.gasLeft_eq hleft, htoNat]

/-- The gas with what is prepaid, and what is left to do. -/
def rank (gas : UInt32) (table : InstructionTable) (c : WasmConfig ρ) : Nat ×ₗ Nat :=
  toLex (c.store.gasLeft gas + c.cur.prepaid table, size c)

theorem rank_lt {d : WasmConfig ρ} (hgas : d.store.gasLeft gas + d.cur.prepaid table ≤
      c.store.gasLeft gas + c.cur.prepaid table)
    (h : d.store.gasLeft gas + d.cur.prepaid table < c.store.gasLeft gas + c.cur.prepaid table ∨
      size d < size c) : rank gas table d < rank gas table c := by
  rw [rank, rank, Prod.Lex.toLex_lt_toLex]
  rcases Nat.lt_or_eq_of_le hgas with hlt | heq
  · exact .inl hlt
  · exact .inr ⟨heq, h.resolve_left fun hlt => Nat.ne_of_lt hlt heq⟩

/-- What the bodies of metered functions are. -/
structure MeteredBody (table : InstructionTable) (gas : UInt32) (body : Metered) : Prop where
  fresh : body.Fresh table
  all : body.All fun i => gas ∉ i.globalOperand

/-- Metered functions on a machine that does not add to the gas. -/
structure MeteredRun (host : WasmHost ρ) (table : InstructionTable) (gas : UInt32)
    (funcs : UInt32 → Option Metered) (bound : Nat) : Prop where
  positive : ∀ i : Instr, i.endsSegment = true → 0 < i.cost table
  frugal : host.Frugal gas
  bodies : ∀ index body, funcs index = some body → MeteredBody table gas body
  bound_lt : bound < 2 ^ 63

/-- Execution in metered code with some gas. -/
structure Ready (table : InstructionTable) (gas : UInt32) (bound : Nat) (c : WasmConfig ρ) :
    Prop where
  paid : Paid table c
  within : Within gas (WasmStore.GasAtMost gas bound) c

/-- A step of metered code keeps it balanced and comes nearer to a stop. -/
theorem step_ready (h : host.MeteredRun table gas funcs bound) (hc : Ready table gas bound c)
    (hstep : host.step gas funcs c = .inl c') :
    Ready table gas bound c' ∧ rank gas table c' < rank gas table c := by
  by_cases hcharge : ∀ cost rest, c.cur ≠ .charge cost rest
  · have hwithin := step_within h.frugal (fun index body hbody => (h.bodies index body hbody).all)
      hc.within hcharge hstep
    have hahead : Ahead table _ _ (host.step gas funcs c) :=
      step_ahead h.positive (fun index body hbody => (h.bodies index body hbody).fresh) hc.paid
        hcharge
    rw [hstep] at hahead
    obtain ⟨hpaid', hnear⟩ := hahead
    have hle := hwithin.store.2.gasLeft_le
    have hbelow := hc.within.store.2.gasLeft_le
    obtain ⟨hcur', hcontrols', -, left, hleft, hleft_le⟩ := hwithin
    refine ⟨⟨hpaid', hcur', hcontrols', rfl, left, hleft, hleft_le.trans hbelow⟩, ?_⟩
    refine rank_lt ?_ ?_ <;> omega
  · simp only [not_forall, not_not] at hcharge
    obtain ⟨cost, rest, hcur⟩ := hcharge
    obtain ⟨hwithin, hcur', hcontrols', hgas⟩ := charge_within h.bound_lt hc.within hcur hstep
    obtain ⟨hbalanced, hcontrols⟩ := hc.paid
    rw [hcur] at hbalanced
    obtain ⟨rfl, hrest⟩ := hbalanced
    have hprepaid : c.cur.prepaid table = 0 := by rw [hcur]; rfl
    have hsize : size c' < size c := by
      rw [size, size, hcur, hcur', hcontrols']
      exact Nat.add_lt_add_right (Nat.lt_succ_self _) _
    refine ⟨⟨⟨hcur' ▸ hrest, hcontrols' ▸ hcontrols⟩, hwithin⟩, rank_lt ?_ (.inr hsize)⟩
    rw [hprepaid, hcur', hgas, Nat.add_zero]

/-- Metered code stops. -/
theorem Ready.exists_evaluates (h : host.MeteredRun table gas funcs bound)
    (hc : Ready table gas bound c) : ∃ r, Evaluates (host.step gas funcs) c r :=
  Halting.exists_evaluates (Ready table gas bound) (InvImage.wf (rank gas table) wellFounded_lt)
    (fun _ _ => step_ready h) c hc

end WasmHost

end BcosExecutor
