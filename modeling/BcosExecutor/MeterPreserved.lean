import BcosExecutor.MeteredContracts

namespace BcosExecutor

open GasInjector Halting WasmHost

theorem spinModule_bounded : 1 < 2 ^ 32 - 1 := by
  decide

theorem spinModule_globals_bounded : 0 < 2 ^ 32 - 1 := by
  decide

/-- A module without imports whose function never ends. -/
def spinModule : ReadModule where
  types := [some ⟨[], []⟩]
  imports := []
  funcs := [⟨0, [], .loop ⟨[], []⟩ (.instr (.br 0) .nil) .nil⟩]
  globals := []
  memories := [⟨1, 0, false⟩]
  exports := [⟨"main", .func, 0⟩]
  elemSegments := []
  dataOffsets := []
  starts := []
  funcs_bounded := spinModule_bounded
  globals_bounded := spinModule_globals_bounded

/-- A machine without memory, whose only import is `outOfGas`. -/
def stackHost : WasmHost Unit where
  exec i s :=
    match s.machine.step i with
    | .done m => some ⟨m, s.rest⟩
    | _ => none
  resolve _ _ _ := none
  external _ _ := .outOfGas
  enter _ s := some s
  leave _ s := some s

theorem stackHost_globals {i : Instr} {s : WasmStore Unit} {m : Machine}
    (hi : 0 ∉ i.globalOperand) (hm : s.machine.step i = .done m) :
    m.globals 0 = s.machine.globals 0 := by
  unfold Machine.step at hm
  split at hm
  · cases hm
    rfl
  · cases hm
    exact Function.update_of_ne (fun h => hi (List.mem_singleton.mpr h)) _ _
  · cases hm
    rfl
  · split at hm
    · cases hm
      rfl
    · split at hm
      · cases hm
        rfl
      · cases hm
  · cases hm
  · cases hm

theorem stackHost_runsMetered (out : Module ExprList) : stackHost.RunsMetered out where
  exec := by
    intro i s m hi hm
    simp only [stackHost, hm]
  outOfGas _ _ _ := rfl
  frugal bound :=
    { withStack := fun _ hs => hs
      exec := by
        rintro i s t hi ⟨left, hleft, hle⟩ ht
        simp only [stackHost] at ht
        split at ht
        next m hm =>
          cases ht
          exact ⟨left, (stackHost_globals hi hm).trans hleft, hle⟩
        · cases ht
      resolve := fun _ hp => nomatch hp
      external := fun _ ht => nomatch ht
      enter := by
        rintro index s t hs ht
        cases ht
        exact hs
      leave := by
        rintro index s t hs ht
        cases ht
        exact hs }

theorem spinModule_meterable : spinModule.toModule.Meterable where
  imports := by decide
  globals := fun _ hi => absurd hi List.not_mem_nil
  bodies := by decide

def gasStore : WasmStore Unit :=
  ⟨⟨fun _ => .i64 1000, []⟩, ()⟩

theorem gasStore_gas : gasStore.GasAtMost 0 1000 :=
  ⟨1000, rfl, by decide⟩

/-- The metered code of a module: it runs on the machine of the output, function by function it
meters the code of the contract, and a call that comes to a stop in it comes to the same one in the
output, or out of gas. -/
structure MeteredCode {ρ : Type} (table : InstructionTable) (m out : Module ExprList)
    (host : WasmHost ρ) (bound : Nat) (funcs : UInt32 → Option Metered) : Prop where
  run : host.MeteredRun table 0 funcs bound
  meters : ∀ index, Option.Rel (Meters (importsInfo m)) (m.code ExprList.plain index)
    (funcs (shiftCall (importsInfo m) index))
  written : ∀ {index s r}, s.GasAtMost 0 bound →
    Evaluates (host.step 0 funcs) ⟨.instr (.call index) .nil, [], s⟩ r →
    ∃ r', out.Runs host index s r' ∧ (r' = .outOfGas ∨ r' = r)

theorem exists_meteredCode (defined : UInt8 → Bool) {m : ReadModule} {out : Module ExprList}
    (h : injectMeter (GetInstructionTable defined) m.toModule = .success out)
    (hm : m.toModule.Meterable) {ρ : Type} {host : WasmHost ρ} (hhost : host.RunsMetered out)
    {bound : Nat} (hbound : bound < 2 ^ 63) :
    ∃ funcs, MeteredCode (GetInstructionTable defined) m.toModule out host bound funcs := by
  obtain ⟨marked, hmarked, rfl⟩ := meterModule_of_injectMeter h
  have hinfo := globalGasIndex_importsInfo m.toModule
  have hrun := meteredRun_marked defined hmarked hm hhost.frugal hbound
  have hlinks := links_of_runsMetered hmarked hm.imports hhost
  obtain ⟨-, himport⟩ := gasFunction_marked hmarked hm.imports
  refine ⟨marked.code id, hinfo ▸ hrun, fun index => ?_, fun {index s r} hs hr => ?_⟩
  · have hrel := code_marked hmarked hm.imports index
    generalize m.toModule.code ExprList.plain index = o at hrel ⊢
    generalize marked.code id _ = o' at hrel ⊢
    cases hrel with
    | some hfrom => exact .some (meters_of_meteredFrom hm hfrom).2
    | none => exact .none
  · rw [← hinfo] at hs hr
    have hready : Ready (GetInstructionTable defined) _ _ _ := ready_call index hs
    obtain ⟨r', hr', hstop⟩ := evaluates_written hlinks hrun himport hready
      ⟨rfl, .nil, rfl, trivial⟩ hr
    rw [hinfo] at hr'
    refine ⟨r', ?_, hstop⟩
    unfold Module.Runs
    rwa [code_mapBodies]

/-- A call stops in the metered code, and in the output it comes to the same or out of gas. -/
theorem MeteredCode.exists_runs {ρ : Type} {table : InstructionTable} {m out : Module ExprList}
    {host : WasmHost ρ} {bound : Nat} {funcs : UInt32 → Option Metered}
    (h : MeteredCode table m out host bound funcs) (index : UInt32) {s : WasmStore ρ}
    (hs : s.GasAtMost 0 bound) :
    ∃ r r', Evaluates (host.step 0 funcs) ⟨.instr (.call index) .nil, [], s⟩ r ∧
      out.Runs host index s r' ∧ (r' = .outOfGas ∨ r' = r) := by
  have hready : Ready table _ _ _ := ready_call index hs
  obtain ⟨r, hr⟩ := hready.exists_evaluates h.run
  obtain ⟨r', hr', hstop⟩ := h.written hs hr
  exact ⟨r, r', hr, hr', hstop⟩

/-- What `InjectMeter` puts out stops: whatever the contract does, it ends or it runs out of gas. -/
theorem injectMeter_halts (defined : UInt8 → Bool) (m : ReadModule) {out : Module ExprList}
    (h : injectMeter (GetInstructionTable defined) m.toModule = .success out)
    (hm : m.toModule.Meterable) {ρ : Type} {host : WasmHost ρ} (hhost : host.RunsMetered out)
    (index : UInt32) {s : WasmStore ρ} {bound : Nat} (hbound : bound < 2 ^ 63)
    (hs : s.GasAtMost 0 bound) : ∃ r, out.Runs host index s r := by
  obtain ⟨funcs, hcode⟩ := exists_meteredCode defined h hm hhost hbound
  obtain ⟨-, r, -, hr, -⟩ := hcode.exists_runs index hs
  exact ⟨r, hr⟩

theorem injectMeter_halts_spin : ∃ out r,
    injectMeter (GetInstructionTable fun _ => false) spinModule.toModule = .success out ∧
      out.Runs stackHost 1 gasStore r := by
  obtain ⟨out, hout⟩ : ∃ out, injectMeter (GetInstructionTable fun _ => false)
    spinModule.toModule = .success out := ⟨_, rfl⟩
  obtain ⟨r, hr⟩ := injectMeter_halts _ spinModule hout spinModule_meterable
    (stackHost_runsMetered out) 1 (by decide) gasStore_gas
  exact ⟨out, r, hout, hr⟩

/-- The globals of the contract are those behind the gas counter. -/
def Shifted (s s' : WasmStore Unit) : Prop :=
  s'.machine.stack = s.machine.stack ∧
    ∀ i : UInt32, i + 1 ≠ 0 → s'.machine.globals (i + 1) = s.machine.globals i

theorem stackHost_exec (info : ImportsInfo) {i : Instr} {s s' : WasmStore Unit}
    (hi : 0 ∉ (i.reindex info).globalOperand) (h : Shifted s s') :
    Option.Rel Shifted (stackHost.exec i s) (stackHost.exec ((reindexing info).instr i) s') := by
  obtain ⟨⟨globals, stack⟩, rest⟩ := s
  obtain ⟨⟨globals', stack'⟩, rest'⟩ := s'
  obtain ⟨hstack, hglobals⟩ := h
  dsimp only at hstack hglobals
  subst hstack
  cases i with
  | globalGet index =>
    have hne : index + 1 ≠ 0 := fun hzero => hi (List.mem_singleton.mpr hzero.symm)
    refine .some ⟨?_, hglobals⟩
    exact congrArg (· :: stack') (hglobals index hne)
  | globalSet index =>
    cases stack' with
    | nil => exact .none
    | cons v stack =>
      refine .some ⟨rfl, fun j hj => ?_⟩
      show Function.update globals' (index + 1) v (j + 1) = Function.update globals index v j
      by_cases heq : j = index
      · rw [heq, Function.update_self, Function.update_self]
      · have hnext : j + 1 ≠ index + 1 := fun h => heq ((UInt32.add_left_inj 1).mp h)
        rw [Function.update_of_ne heq, Function.update_of_ne hnext]
        exact hglobals j hj
  | const type value =>
    cases type
    case i64 => exact .some ⟨rfl, hglobals⟩
    all_goals exact .none
  | binary opcode =>
    rcases stack' with _ | ⟨b | b, _ | ⟨a | a, stack⟩⟩
    case cons.i64.cons.i64 =>
      simp only [stackHost, Renaming.instr, Machine.step]
      by_cases hsub : opcode.code = 0x7d
      · simp only [if_pos hsub]
        exact .some ⟨rfl, hglobals⟩
      · by_cases hle : opcode.code = 0x57
        · simp only [if_neg hsub, if_pos hle]
          exact .some ⟨rfl, hglobals⟩
        · simp only [if_neg hsub, if_neg hle]
          exact .none
    all_goals exact .none
  | _ => exact .none

theorem stackHost_sameBut (info : ImportsInfo) (hinfo : info.globalGasIndex = 0) :
    stackHost.SameBut stackHost info Shifted where
  respects :=
    { stack := fun h => h.1
      withStack := fun _ h => ⟨rfl, h.2⟩
      exec := fun {i} _ _ hi h => stackHost_exec info (hinfo ▸ hi) h
      resolve := fun _ _ _ _ _ => .none
      external := fun _ => .outOfGas
      enter := fun h => .some h
      leave := fun h => .some h }
  blind := by
    rintro s s' left ⟨hstack, hglobals⟩
    refine ⟨hstack, fun i hi => ?_⟩
    rw [hinfo]
    exact (Function.update_of_ne hi _ _).trans (hglobals i hi)

/-- What `InjectMeter` puts out does what the contract does, or it runs out of gas. -/
theorem injectMeter_preserves (defined : UInt8 → Bool) (m : ReadModule) {out : Module ExprList}
    (h : injectMeter (GetInstructionTable defined) m.toModule = .success out)
    (hm : m.toModule.Meterable) {ρ : Type} {host host' : WasmHost ρ}
    (hhost : host'.RunsMetered out) {R : WasmStore ρ → WasmStore ρ → Prop}
    (hsame : host.SameBut host' (importsInfo m.toModule) R) (index : UInt32) {s s' : WasmStore ρ}
    {bound : Nat} (hbound : bound < 2 ^ 63) (hs' : s'.GasAtMost 0 bound) (hR : R s s') :
    ∃ r, out.Runs host' (shiftCall (importsInfo m.toModule) index) s' r ∧
      (r = .outOfGas ∨ ∃ r', m.toModule.Runs host index s r' ∧ StopRel R r' r) := by
  obtain ⟨funcs, hcode⟩ := exists_meteredCode defined h hm hhost hbound
  have hinfo := globalGasIndex_importsInfo m.toModule
  have hready : Ready (GetInstructionTable defined) _ _ _ :=
    ready_call (shiftCall (importsInfo m.toModule) index) hs'
  obtain ⟨r₁, r₂, hr₁, hr₂, hstop⟩ :=
    hcode.exists_runs (shiftCall (importsInfo m.toModule) index) hs'
  refine ⟨r₂, hr₂, ?_⟩
  rcases hstop with hgas | rfl
  · exact .inl hgas
  have hrun := hcode.run
  rw [← hinfo] at hready hrun hr₁
  have horiginal := evaluates_original hsame hrun hcode.meters hready (related_call index hR) hr₁
  rwa [hinfo] at horiginal

theorem injectMeter_preserves_spin : ∃ out r,
    injectMeter (GetInstructionTable fun _ => false) spinModule.toModule = .success out ∧
      out.Runs stackHost 1 gasStore r ∧
      (r = .outOfGas ∨ ∃ r', spinModule.toModule.Runs stackHost 0 gasStore r' ∧
        StopRel Shifted r' r) := by
  obtain ⟨out, hout⟩ : ∃ out, injectMeter (GetInstructionTable fun _ => false)
    spinModule.toModule = .success out := ⟨_, rfl⟩
  have hshifted : Shifted gasStore gasStore := ⟨rfl, fun _ _ => rfl⟩
  obtain ⟨r, hr, hsame⟩ := injectMeter_preserves _ spinModule hout spinModule_meterable
    (stackHost_runsMetered out) (stackHost_sameBut _ rfl) 0 (by decide) gasStore_gas hshifted
  exact ⟨out, r, hout, hr, hsame⟩

end BcosExecutor
