import BcosExecutor.MeterWritten

namespace BcosExecutor

open GasInjector Halting

/-- What the injector makes of the indices. -/
def reindexing (info : ImportsInfo) : Renaming :=
  ⟨shiftCall info, (· + 1)⟩

theorem reindex_eq (info : ImportsInfo) (i : Instr) :
    i.reindex info = (reindexing info).instr i := by
  cases i <;> rfl

/-- The second list is the first with updated indices and with charges. -/
def Meters (info : ImportsInfo) (l m : Metered) : Prop :=
  ∃ exprs : ExprList, l = exprs.plain ∧ m.original = exprs.reindex info ∧
    m.All fun i => info.globalGasIndex ∉ i.globalOperand

theorem meters_charge {info : ImportsInfo} {l rest : Metered} {cost : Nat}
    (h : Meters info l (.charge cost rest)) : Meters info l rest := by
  obtain ⟨exprs, rfl, horiginal, -, hrest⟩ := h
  exact ⟨exprs, rfl, horiginal, hrest⟩

/-- Between the charges the lists agree. -/
theorem meters_alike {info : ImportsInfo} {l m : Metered} (h : Meters info l m)
    (hcharge : ∀ cost rest, m ≠ .charge cost rest) :
    Alike (reindexing info) (fun i => info.globalGasIndex ∉ (i.reindex info).globalOperand)
      (Meters info) l m := by
  obtain ⟨exprs, rfl, horiginal, hall⟩ := h
  cases m with
  | charge cost rest => exact absurd rfl (hcharge cost rest)
  | nil =>
    obtain rfl := ExprList.reindex_eq_nil.mp horiginal.symm
    exact .nil
  | instr i rest =>
    cases exprs with
    | instr j exprs =>
      obtain ⟨rfl, hrest⟩ := ExprList.instr.inj horiginal
      rw [reindex_eq]
      exact .instr hall.1 ⟨exprs, rfl, hrest, hall.2⟩
    | nil | block _ _ _ | loop _ _ _ | ifElse _ _ _ _ => cases horiginal
  | block sig body rest =>
    cases exprs with
    | block _ body' exprs =>
      obtain ⟨rfl, hbody, hrest⟩ := ExprList.block.inj horiginal
      exact .block ⟨body', rfl, hbody, hall.1⟩ ⟨exprs, rfl, hrest, hall.2⟩
    | nil | instr _ _ | loop _ _ _ | ifElse _ _ _ _ => cases horiginal
  | loop sig body rest =>
    cases exprs with
    | loop _ body' exprs =>
      obtain ⟨rfl, hbody, hrest⟩ := ExprList.loop.inj horiginal
      exact .loop ⟨body', rfl, hbody, hall.1⟩ ⟨exprs, rfl, hrest, hall.2⟩
    | nil | instr _ _ | block _ _ _ | ifElse _ _ _ _ => cases horiginal
  | ifElse sig true_ false_ rest =>
    cases exprs with
    | ifElse _ true_' false_' exprs =>
      obtain ⟨rfl, htrue, hfalse, hrest⟩ := ExprList.ifElse.inj horiginal
      exact .ifElse ⟨true_', rfl, htrue, hall.1⟩ ⟨false_', rfl, hfalse, hall.2.1⟩
        ⟨exprs, rfl, hrest, hall.2.2⟩
    | nil | instr _ _ | block _ _ _ | loop _ _ _ => cases horiginal

namespace WasmHost

variable {ρ : Type}

/-- The machine of the output does what the machine of the contract does on stores that differ in
the gas, except that it may run out of gas in an imported function. -/
structure SameBut (host host' : WasmHost ρ) (info : ImportsInfo)
    (R : WasmStore ρ → WasmStore ρ → Prop) : Prop where
  respects : host.Respects host' (reindexing info)
    (fun i => info.globalGasIndex ∉ (i.reindex info).globalOperand) R
  blind : ∀ {s s'} left, R s s' → R s (s'.setGas info.globalGasIndex left)

variable {host host' : WasmHost ρ} {info : ImportsInfo} {R : WasmStore ρ → WasmStore ρ → Prop}
  {plain funcs : UInt32 → Option Metered} {c o : WasmConfig ρ}

theorem step_original (hsame : host.SameBut host' info R)
    (hfuncs : ∀ index, Option.Rel (Meters info) (plain index) (funcs (shiftCall info index)))
    (hsim : Related (reindexing info) (Meters info) R o c)
    (hcharge : ∀ cost rest, c.cur ≠ .charge cost rest) :
    TurnRel (reindexing info) (Meters info) R (host.step info.globalGasIndex plain o)
      (host'.step info.globalGasIndex funcs c) :=
  step_rel hsame.respects hfuncs hsim (meters_alike hsim.cur hcharge)

/-- The code stands still where a charge is made. -/
theorem charge_original (hsame : host.SameBut host' info R)
    (hsim : Related (reindexing info) (Meters info) R o c) {cost : Nat} {rest : Metered}
    (hcur : c.cur = .charge cost rest) {left : BitVec 64}
    (hleft : c.store.machine.globals info.globalGasIndex = .i64 left) :
    host'.step info.globalGasIndex funcs c = .inr .outOfGas ∨
      ∃ c', host'.step info.globalGasIndex funcs c = .inl c' ∧
        Related (reindexing info) (Meters info) R o c' := by
  obtain ⟨cur, controls, s⟩ := c
  obtain ⟨hmeters, hcontrols, hR⟩ := hsim
  dsimp only at hcur hleft hmeters
  subst hcur
  simp only [step, chargeTurn, hleft]
  split
  · exact .inl rfl
  · exact .inr ⟨_, rfl, meters_charge hmeters, hcontrols, hsame.blind _ hR⟩

variable {table : InstructionTable} {bound : Nat}

/-- A step of metered code is a charge that goes on, or it is a step of the code. -/
theorem next_original (hsame : host.SameBut host' info R)
    (hfuncs : ∀ index, Option.Rel (Meters info) (plain index) (funcs (shiftCall info index)))
    (hc : Ready table info.globalGasIndex bound c)
    (hsim : Related (reindexing info) (Meters info) R o c) {c' : WasmConfig ρ}
    (hstep : host'.step info.globalGasIndex funcs c = .inl c') :
    (∃ cost rest, c.cur = .charge cost rest ∧ Related (reindexing info) (Meters info) R o c') ∨
      (∀ cost rest, c.cur ≠ .charge cost rest) ∧
        ∃ o', host.step info.globalGasIndex plain o = .inl o' ∧
          Related (reindexing info) (Meters info) R o' c' := by
  by_cases hcharge : ∀ cost rest, c.cur ≠ .charge cost rest
  · have hturn := step_original hsame hfuncs hsim hcharge
    rw [hstep] at hturn
    generalize ho : host.step info.globalGasIndex plain o = t at hturn
    cases hturn with
    | next hnext => exact .inr ⟨hcharge, _, rfl, hnext⟩
  · simp only [not_forall, not_not] at hcharge
    obtain ⟨cost, rest, hcur⟩ := hcharge
    obtain ⟨left, hleft, _⟩ := hc.within.store.2
    rcases charge_original hsame hsim hcur hleft with hstop | ⟨c'', hnext, hsim'⟩
    · cases hstop.symm.trans hstep
    · obtain rfl := Sum.inl.inj (hnext.symm.trans hstep)
      exact .inl ⟨cost, rest, hcur, hsim'⟩

theorem stop_original (hsame : host.SameBut host' info R)
    (hfuncs : ∀ index, Option.Rel (Meters info) (plain index) (funcs (shiftCall info index)))
    (hc : Ready table info.globalGasIndex bound c)
    (hsim : Related (reindexing info) (Meters info) R o c) {r : WasmStop ρ}
    (hstep : host'.step info.globalGasIndex funcs c = .inr r) :
    r = .outOfGas ∨ (∀ cost rest, c.cur ≠ .charge cost rest) ∧
      ∃ r', host.step info.globalGasIndex plain o = .inr r' ∧ StopRel R r' r := by
  by_cases hcharge : ∀ cost rest, c.cur ≠ .charge cost rest
  · have hturn := step_original hsame hfuncs hsim hcharge
    rw [hstep] at hturn
    generalize ho : host.step info.globalGasIndex plain o = t at hturn
    cases hturn with
    | stop hstop => exact .inr ⟨hcharge, _, rfl, hstop⟩
    | outOfGas => exact .inl rfl
  · simp only [not_forall, not_not] at hcharge
    obtain ⟨cost, rest, hcur⟩ := hcharge
    obtain ⟨left, hleft, _⟩ := hc.within.store.2
    rcases charge_original hsame hsim hcur hleft with hstop | ⟨c', hnext, _⟩
    · exact .inl (Sum.inr.inj (hstep.symm.trans hstop))
    · cases hnext.symm.trans hstep

/-- Metered code does what the code does, unless it runs out of gas. -/
theorem evaluates_original
    (hsame : host.SameBut host' info R)
    (hrun : host'.MeteredRun table info.globalGasIndex funcs bound)
    (hfuncs : ∀ index, Option.Rel (Meters info) (plain index) (funcs (shiftCall info index)))
    (hc : Ready table info.globalGasIndex bound c)
    (hsim : Related (reindexing info) (Meters info) R o c) {r : WasmStop ρ}
    (h : Evaluates (host'.step info.globalGasIndex funcs) c r) :
    r = .outOfGas ∨ ∃ r', Evaluates (host.step info.globalGasIndex plain) o r' ∧
      StopRel R r' r := by
  refine h.transfer (host.step info.globalGasIndex plain)
    (fun c o => Ready table info.globalGasIndex bound c ∧
      Related (reindexing info) (Meters info) R o c)
    (fun r o => r = .outOfGas ∨ ∃ r', Evaluates (host.step info.globalGasIndex plain) o r' ∧
      StopRel R r' r) ?_ ?_ ?_ ⟨hc, hsim⟩
  · rintro r o o' hnext (hgas | ⟨r', hr', hrel⟩)
    · exact .inl hgas
    · exact .inr ⟨r', .next hnext hr', hrel⟩
  · rintro c o c' ⟨hc, hsim⟩ hstep
    obtain ⟨hkept, _⟩ := step_ready hrun hc hstep
    refine .inl ?_
    rcases next_original hsame hfuncs hc hsim hstep with ⟨_, _, _, hsim'⟩ | ⟨-, o', ho, hsim'⟩
    · exact ⟨o, .refl, hkept, hsim'⟩
    · exact ⟨o', .single ho, hkept, hsim'⟩
  · rintro c o r ⟨hc, hsim⟩ hstep
    rcases stop_original hsame hfuncs hc hsim hstep with hgas | ⟨-, r', ho, hstop⟩
    · exact .inl hgas
    · exact .inr ⟨r', .stop ho, hstop⟩

end WasmHost

end BcosExecutor
