import BcosExecutor.MeterGas

namespace BcosExecutor

open GasInjector Halting
open Relation (ReflTransGen)

/-- The instructions of the inserted logic that are no control. -/
def Instr.Inserted (gas : UInt32) (i : Instr) : Prop :=
  i = .globalGet gas ∨ i = .globalSet gas ∨ i = .binary I64Sub ∨ i = .binary I64LeS ∨
    ∃ value, i = .const .i64 value

/-- The output as a list to run. -/
def Metered.written (info : ImportsInfo) (m : Metered) : Metered :=
  (m.emit info).plain

namespace WasmHost

variable {ρ : Type}

/-- The machine executes the inserted instructions as WebAssembly says, and `outOfGas` does not
return. -/
structure Links (host : WasmHost ρ) (info : ImportsInfo) : Prop where
  exec : ∀ {i s m}, Instr.Inserted info.globalGasIndex i → s.machine.step i = .done m →
    host.exec i s = some ⟨m, s.rest⟩
  outOfGas : ∀ s, host.external info.gasFuncIndex s = .outOfGas

variable {host : WasmHost ρ} {info : ImportsInfo} {funcs : UInt32 → Option Metered}

theorem exec_next (h : host.Links info) (gas : UInt32) {i : Instr}
    (hi : i.Inserted info.globalGasIndex) (rest : Metered) (controls : List Control) {s : WasmStore ρ} {m : Machine}
    (hm : s.machine.step i = .done m) :
    Next (host.step gas funcs) ⟨.instr i rest, controls, s⟩ ⟨rest, controls, ⟨m, s.rest⟩⟩ := by
  have hexec := h.exec hi hm
  have hproceed : proceed rest controls (host.exec i s) = .inl ⟨rest, controls, ⟨m, s.rest⟩⟩ := by
    rw [hexec]
    rfl
  rcases hi with rfl | rfl | rfl | rfl | ⟨value, rfl⟩ <;> exact hproceed

/-- The inserted logic comes to its check with the cost taken off the counter. -/
theorem useGas_reach (h : host.Links info) (funcs : UInt32 → Option Metered) (gas : UInt32)
    (cost : Nat) (rest : ExprList) (controls : List Control) {s : WasmStore ρ} {left : BitVec 64}
    (hleft : s.machine.globals info.globalGasIndex = .i64 left) : ∃ label,
    ReflTransGen (Next (host.step gas funcs)) ⟨(useGas info cost ++ rest).plain, controls, s⟩
      ⟨if (left - BitVec.ofNat 64 cost).sle 0 then .instr (.call info.gasFuncIndex) .nil else .nil,
        .block label rest.plain :: controls,
        s.setGas info.globalGasIndex (left - BitVec.ofNat 64 cost)⟩ := by
  have hget : Instr.Inserted info.globalGasIndex (.globalGet info.globalGasIndex) := .inl rfl
  have hset : Instr.Inserted info.globalGasIndex (.globalSet info.globalGasIndex) := .inr (.inl rfl)
  have hsub : Instr.Inserted info.globalGasIndex (.binary I64Sub) := .inr (.inr (.inl rfl))
  have hle : Instr.Inserted info.globalGasIndex (.binary I64LeS) := .inr (.inr (.inr (.inl rfl)))
  have hconst (value : Nat) : Instr.Inserted info.globalGasIndex (.const .i64 value) :=
    .inr (.inr (.inr (.inr ⟨value, rfl⟩)))
  have hnow : (Function.update s.machine.globals info.globalGasIndex
      (.i64 (left - BitVec.ofNat 64 cost))) info.globalGasIndex =
      .i64 (left - BitVec.ofNat 64 cost) := Function.update_self ..
  refine ⟨s.label 0 0, ?_⟩
  refine .head (exec_next h gas hget _ _ rfl) ?_
  rw [hleft]
  refine .head (exec_next h gas (hconst cost) _ _ rfl) ?_
  refine .head (exec_next h gas hsub _ _ rfl) ?_
  refine .head (exec_next h gas hset _ _ rfl) ?_
  refine .head (exec_next h gas hget _ _ rfl) ?_
  dsimp only
  rw [hnow]
  refine .head (exec_next h gas (hconst 0) _ _ rfl) ?_
  refine .head (exec_next h gas hle _ _ rfl) ?_
  refine .single ?_
  cases hpositive : (left - BitVec.ofNat 64 cost).sle 0 <;>
    simp [Next, step, WasmStore.popI32, WasmStore.withStack, WasmStore.setGas, WasmStore.label,
      ExprList.append, ExprList.plain]

theorem written_alike (info : ImportsInfo) (m : Metered)
    (hcharge : ∀ cost rest, m ≠ .charge cost rest) :
    Alike .same (fun _ => True) (fun m m' => m' = m.written info) m (m.written info) := by
  cases m with
  | nil => exact .nil
  | charge cost rest => exact absurd rfl (hcharge cost rest)
  | instr i rest =>
    have hinstr : Alike .same (fun _ => True) (fun m m' => m' = m.written info) (.instr i rest)
        (.instr (Renaming.same.instr i) (rest.written info)) := .instr trivial rfl
    rwa [Renaming.instr_same] at hinstr
  | block sig body rest => exact .block rfl rfl
  | loop sig body rest => exact .loop rfl rfl
  | ifElse sig true_ false_ rest => exact .ifElse rfl rfl rfl

theorem keeps_true (host : WasmHost ρ) : host.Keeps (fun _ => True) fun _ => True where
  withStack _ _ := trivial
  exec _ _ _ := trivial
  resolve _ _ := trivial
  external _ _ := trivial
  enter _ _ := trivial
  leave _ _ := trivial

/-- The second configuration stands in the output where the first stands in the metered code. -/
def Written (info : ImportsInfo) : WasmConfig ρ → WasmConfig ρ → Prop :=
  Related .same (fun m m' => m' = m.written info) fun s s' => s = s' ∧ True

def writtenFuncs (info : ImportsInfo) (funcs : UInt32 → Option Metered) : UInt32 → Option Metered :=
  fun index => (funcs index).map (Metered.written info)

variable {c d c' : WasmConfig ρ}

theorem step_written (host : WasmHost ρ) (funcs : UInt32 → Option Metered)
    (hsim : Written info c d) (hcharge : ∀ cost rest, c.cur ≠ .charge cost rest) :
    TurnRel .same (fun m m' => m' = m.written info) (fun s s' => s = s' ∧ True)
      (host.step info.globalGasIndex funcs c)
      (host.step info.globalGasIndex (writtenFuncs info funcs) d) := by
  have hfuncs : ∀ index, Option.Rel (fun m m' => m' = m.written info) (funcs index)
      (writtenFuncs info funcs index) := by
    intro index
    unfold writtenFuncs
    cases funcs index with
    | none => exact .none
    | some body => exact .some rfl
  have halike := written_alike info c.cur hcharge
  rw [← hsim.cur] at halike
  exact step_rel (keeps_true host).respects hfuncs hsim halike

/-- Where a charge goes on the output comes to the same place. -/
theorem charge_written (h : host.Links info) {cost : Nat} {rest : Metered}
    (hsim : Written info c d) (hcur : c.cur = .charge cost rest) {left : BitVec 64}
    (hleft : c.store.machine.globals info.globalGasIndex = .i64 left)
    (hstep : host.step info.globalGasIndex funcs c = .inl c') : ∃ d',
    ReflTransGen (Next (host.step info.globalGasIndex (writtenFuncs info funcs))) d d' ∧
      Written info c' d' := by
  obtain ⟨cur, controls, s⟩ := c
  obtain ⟨cur', controls', s'⟩ := d
  obtain ⟨rfl, hcontrols, rfl, -⟩ := hsim
  dsimp only at hcur hleft hcontrols
  subst hcur
  obtain ⟨label, reach⟩ := useGas_reach h (writtenFuncs info funcs) info.globalGasIndex cost
    (rest.emit info) controls' hleft
  simp only [step, chargeTurn, hleft] at hstep
  split at hstep
  · cases hstep
  · next hpositive =>
    obtain rfl := Sum.inl.inj hstep
    rw [if_neg hpositive] at reach
    exact ⟨_, reach.tail rfl, rfl, hcontrols, rfl, trivial⟩

/-- Where a charge stops the output calls `outOfGas`. -/
theorem charge_outOfGas (h : host.Links info) (himport : funcs info.gasFuncIndex = none)
    {cost : Nat} {rest : Metered} (hsim : Written info c d) (hcur : c.cur = .charge cost rest)
    {left : BitVec 64} (hleft : c.store.machine.globals info.globalGasIndex = .i64 left)
    {r : WasmStop ρ} (hstep : host.step info.globalGasIndex funcs c = .inr r) :
    Evaluates (host.step info.globalGasIndex (writtenFuncs info funcs)) d .outOfGas := by
  obtain ⟨cur, controls, s⟩ := c
  obtain ⟨cur', controls', s'⟩ := d
  obtain ⟨rfl, hcontrols, rfl, -⟩ := hsim
  dsimp only at hcur hleft
  subst hcur
  obtain ⟨label, reach⟩ := useGas_reach h (writtenFuncs info funcs) info.globalGasIndex cost
    (rest.emit info) controls' hleft
  have hnone : writtenFuncs info funcs info.gasFuncIndex = none := by
    rw [writtenFuncs, himport]
    rfl
  simp only [step, chargeTurn, hleft] at hstep
  split at hstep
  · next hpositive =>
    rw [if_pos hpositive] at reach
    refine .of_reach reach (.stop ?_)
    simp only [step, instrTurn, invoke, hnone, h.outOfGas, resume]
  · cases hstep

/-- The output does what the metered code does, or it runs out of gas. -/
theorem evaluates_written {table : InstructionTable} {bound : Nat} (hlinks : host.Links info)
    (hrun : host.MeteredRun table info.globalGasIndex funcs bound)
    (himport : funcs info.gasFuncIndex = none) (hc : Ready table info.globalGasIndex bound c)
    (hsim : Written info c d) {r : WasmStop ρ}
    (h : Evaluates (host.step info.globalGasIndex funcs) c r) : ∃ r',
    Evaluates (host.step info.globalGasIndex (writtenFuncs info funcs)) d r' ∧
      (r' = .outOfGas ∨ r' = r) := by
  refine h.transfer (host.step info.globalGasIndex (writtenFuncs info funcs))
    (fun c d => Ready table info.globalGasIndex bound c ∧ Written info c d)
    (fun r d => ∃ r', Evaluates (host.step info.globalGasIndex (writtenFuncs info funcs)) d r' ∧
      (r' = .outOfGas ∨ r' = r)) ?_ ?_ ?_ ⟨hc, hsim⟩
  · rintro r d d' hnext ⟨r', hr', hsame⟩
    exact ⟨r', .next hnext hr', hsame⟩
  · rintro c d c' ⟨hc, hsim⟩ hstep
    obtain ⟨hkept, _⟩ := step_ready hrun hc hstep
    by_cases hcharge : ∀ cost rest, c.cur ≠ .charge cost rest
    · have hturn := step_written host funcs hsim hcharge
      rw [hstep] at hturn
      generalize hd : host.step info.globalGasIndex (writtenFuncs info funcs) d = t at hturn
      cases hturn with
      | next hnext => exact .inl ⟨_, .single hd, hkept, hnext⟩
      | outOfGas => exact .inr fun r => ⟨.outOfGas, .stop hd, .inl rfl⟩
    · simp only [not_forall, not_not] at hcharge
      obtain ⟨cost, rest, hcur⟩ := hcharge
      obtain ⟨left, hleft, _⟩ := hc.within.store.2
      obtain ⟨d', reach, hsim'⟩ := charge_written hlinks hsim hcur hleft hstep
      exact .inl ⟨d', reach, hkept, hsim'⟩
  · rintro c d r ⟨hc, hsim⟩ hstep
    by_cases hcharge : ∀ cost rest, c.cur ≠ .charge cost rest
    · have hturn := step_written host funcs hsim hcharge
      rw [hstep] at hturn
      generalize hd : host.step info.globalGasIndex (writtenFuncs info funcs) d = t at hturn
      cases hturn with
      | outOfGas => exact ⟨.outOfGas, .stop hd, .inl rfl⟩
      | stop hstop =>
        cases hstop with
        | done hE => exact ⟨_, .stop hd, .inr (congrArg WasmStop.done hE.1.symm)⟩
        | trap => exact ⟨_, .stop hd, .inr rfl⟩
        | outOfGas => exact ⟨_, .stop hd, .inl rfl⟩
    · simp only [not_forall, not_not] at hcharge
      obtain ⟨cost, rest, hcur⟩ := hcharge
      obtain ⟨left, hleft, _⟩ := hc.within.store.2
      exact ⟨.outOfGas, charge_outOfGas hlinks himport hsim hcur hleft hstep, .inl rfl⟩

end WasmHost

end BcosExecutor
