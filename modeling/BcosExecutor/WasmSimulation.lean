import BcosExecutor.WasmRuns
import Mathlib.Data.Option.Defs

namespace BcosExecutor

/-- How the indices of the functions and the globals change. -/
structure Renaming where
  func : UInt32 → UInt32
  global : UInt32 → UInt32

namespace Renaming

def instr (ren : Renaming) : Instr → Instr
  | .call index => .call (ren.func index)
  | .globalGet index => .globalGet (ren.global index)
  | .globalSet index => .globalSet (ren.global index)
  | i => i

def same : Renaming :=
  ⟨id, id⟩

theorem instr_same (i : Instr) : same.instr i = i := by
  cases i <;> rfl

end Renaming

/-- Two lists that begin alike and go on with lists of a relation. -/
inductive Alike (ren : Renaming) (ok : Instr → Prop) (Code : Metered → Metered → Prop) :
    Metered → Metered → Prop
  | nil : Alike ren ok Code .nil .nil
  | instr {i rest rest'} : ok i → Code rest rest' →
    Alike ren ok Code (.instr i rest) (.instr (ren.instr i) rest')
  | block {sig body body' rest rest'} : Code body body' → Code rest rest' →
    Alike ren ok Code (.block sig body rest) (.block sig body' rest')
  | loop {sig body body' rest rest'} : Code body body' → Code rest rest' →
    Alike ren ok Code (.loop sig body rest) (.loop sig body' rest')
  | ifElse {sig true_ true_' false_ false_' rest rest'} : Code true_ true_' →
    Code false_ false_' → Code rest rest' →
    Alike ren ok Code (.ifElse sig true_ false_ rest) (.ifElse sig true_' false_' rest')

inductive ControlRel (ren : Renaming) (Code : Metered → Metered → Prop) : Control → Control → Prop
  | block {label rest rest'} : Code rest rest' →
    ControlRel ren Code (.block label rest) (.block label rest')
  | loop {label body body' rest rest'} : Code body body' → Code rest rest' →
    ControlRel ren Code (.loop label body rest) (.loop label body' rest')
  | function {index rest rest'} : Code rest rest' →
    ControlRel ren Code (.function index rest) (.function (ren.func index) rest')

namespace WasmHost

variable {ρ : Type}

/-- What comes back to the second may be that there is no gas. -/
inductive StopRel (E : WasmStore ρ → WasmStore ρ → Prop) : WasmStop ρ → WasmStop ρ → Prop
  | done {s s'} : E s s' → StopRel E (.done s) (.done s')
  | trap : StopRel E .trap .trap
  | outOfGas {r} : StopRel E r .outOfGas

/-- On related stores two machines do the same, but that the second may run out of gas. -/
structure Respects (host host' : WasmHost ρ) (ren : Renaming) (ok : Instr → Prop)
    (E : WasmStore ρ → WasmStore ρ → Prop) : Prop where
  stack : ∀ {s s'}, E s s' → s'.machine.stack = s.machine.stack
  withStack : ∀ {s s'} stack, E s s' → E (s.withStack stack) (s'.withStack stack)
  exec : ∀ {i s s'}, ok i → E s s' → Option.Rel E (host.exec i s) (host'.exec (ren.instr i) s')
  resolve : ∀ type table {s s'}, E s s' →
    Option.Rel (fun p p' => p'.1 = ren.func p.1 ∧ E p.2 p'.2) (host.resolve type table s)
      (host'.resolve type table s')
  external : ∀ {index s s'}, E s s' →
    StopRel E (host.external index s) (host'.external (ren.func index) s')
  enter : ∀ {index s s'}, E s s' →
    Option.Rel E (host.enter index s) (host'.enter (ren.func index) s')
  leave : ∀ {index s s'}, E s s' →
    Option.Rel E (host.leave index s) (host'.leave (ren.func index) s')

structure Related (ren : Renaming) (Code : Metered → Metered → Prop)
    (E : WasmStore ρ → WasmStore ρ → Prop) (c d : WasmConfig ρ) : Prop where
  cur : Code c.cur d.cur
  controls : List.Forall₂ (ControlRel ren Code) c.controls d.controls
  store : E c.store d.store

inductive TurnRel (ren : Renaming) (Code : Metered → Metered → Prop)
    (E : WasmStore ρ → WasmStore ρ → Prop) : WasmTurn ρ → WasmTurn ρ → Prop
  | next {c d} : Related ren Code E c d → TurnRel ren Code E (.inl c) (.inl d)
  | stop {r r'} : StopRel E r r' → TurnRel ren Code E (.inr r) (.inr r')
  | outOfGas {t} : TurnRel ren Code E t (.inr .outOfGas)

variable {host host' : WasmHost ρ} {ren : Renaming} {ok : Instr → Prop}
  {Code : Metered → Metered → Prop} {E : WasmStore ρ → WasmStore ρ → Prop} {s s' : WasmStore ρ}
  {cur cur' rest rest' : Metered} {controls controls' : List Control}

theorem proceed_rel {o o' : Option (WasmStore ρ)} (hcur : Code cur cur')
    (hcontrols : List.Forall₂ (ControlRel ren Code) controls controls') (h : Option.Rel E o o') :
    TurnRel ren Code E (proceed cur controls o) (proceed cur' controls' o') := by
  cases h with
  | some h => exact .next ⟨hcur, hcontrols, h⟩
  | none => exact .stop .trap

theorem resume_rel {r r' : WasmStop ρ} (hcur : Code cur cur')
    (hcontrols : List.Forall₂ (ControlRel ren Code) controls controls') (h : StopRel E r r') :
    TurnRel ren Code E (resume cur controls r) (resume cur' controls' r') := by
  cases h with
  | done h => exact .next ⟨hcur, hcontrols, h⟩
  | trap => exact .stop .trap
  | outOfGas => exact .outOfGas

theorem Respects.cut (h : host.Respects host' ren ok E) (hE : E s s') (label : Label) :
    E (s.cut label) (s'.cut label) := by
  unfold WasmStore.cut
  rw [h.stack hE]
  exact h.withStack _ hE

theorem Respects.label (h : host.Respects host' ren ok E) (hE : E s s') (arity params : Nat) :
    s'.label arity params = s.label arity params := by
  unfold WasmStore.label
  rw [h.stack hE]

/-- Related stores have one operand on top, and go on related. -/
theorem Respects.popI32 (h : host.Respects host' ren ok E) (hE : E s s') :
    (s.popI32 = none ∧ s'.popI32 = none) ∨
      ∃ v t t', s.popI32 = some (v, t) ∧ s'.popI32 = some (v, t') ∧ E t t' := by
  unfold WasmStore.popI32
  rw [h.stack hE]
  split
  · exact .inr ⟨_, _, _, rfl, rfl, h.withStack _ hE⟩
  · exact .inl ⟨rfl, rfl⟩

theorem jump_rel (h : host.Respects host' ren ok E) (n : Nat)
    (hcontrols : List.Forall₂ (ControlRel ren Code) controls controls') (hE : E s s') :
    TurnRel ren Code E (host.jump n controls s) (host'.jump n controls' s') := by
  induction hcontrols generalizing n with
  | nil => cases n <;> exact .stop (.done hE)
  | cons hk htail ih =>
    cases hk with
    | function hrest => cases n <;> exact proceed_rel hrest htail (h.leave hE)
    | block hrest =>
      cases n with
      | zero => exact .next ⟨hrest, htail, h.cut hE _⟩
      | succ n => exact ih n
    | loop hbody hrest =>
      cases n with
      | zero => exact .next ⟨hbody, .cons (.loop hbody hrest) htail, h.cut hE _⟩
      | succ n => exact ih n

theorem returns_rel (h : host.Respects host' ren ok E)
    (hcontrols : List.Forall₂ (ControlRel ren Code) controls controls') (hE : E s s') :
    TurnRel ren Code E (host.returns controls s) (host'.returns controls' s') := by
  induction hcontrols with
  | nil => exact .stop (.done hE)
  | cons hk htail ih =>
    cases hk with
    | function hrest => exact proceed_rel hrest htail (h.leave hE)
    | block hrest => exact ih
    | loop hbody hrest => exact ih

theorem leaves_rel (h : host.Respects host' ren ok E)
    (hcontrols : List.Forall₂ (ControlRel ren Code) controls controls') (hE : E s s') :
    TurnRel ren Code E (host.leaves controls s) (host'.leaves controls' s') := by
  cases hcontrols with
  | nil => exact .stop (.done hE)
  | cons hk htail =>
    cases hk with
    | function hrest => exact proceed_rel hrest htail (h.leave hE)
    | block hrest => exact .next ⟨hrest, htail, hE⟩
    | loop hbody hrest => exact .next ⟨hrest, htail, hE⟩

section

variable {gas gas' : UInt32} {funcs funcs' : UInt32 → Option Metered}

theorem invoke_rel (h : host.Respects host' ren ok E)
    (hfuncs : ∀ index, Option.Rel Code (funcs index) (funcs' (ren.func index))) (index : UInt32)
    (hrest : Code rest rest') (hcontrols : List.Forall₂ (ControlRel ren Code) controls controls')
    (hE : E s s') : TurnRel ren Code E (host.invoke funcs index rest controls s)
      (host'.invoke funcs' (ren.func index) rest' controls' s') := by
  have hbody := hfuncs index
  unfold invoke
  generalize funcs index = o at hbody ⊢
  generalize funcs' (ren.func index) = o' at hbody ⊢
  cases hbody with
  | none => exact resume_rel hrest hcontrols (h.external hE)
  | some hbody => exact proceed_rel hbody (.cons (.function hrest) hcontrols) (h.enter hE)

theorem instrTurn_rel (h : host.Respects host' ren ok E)
    (hfuncs : ∀ index, Option.Rel Code (funcs index) (funcs' (ren.func index))) {i : Instr}
    (hi : ok i) (hrest : Code rest rest')
    (hcontrols : List.Forall₂ (ControlRel ren Code) controls controls') (hE : E s s') :
    TurnRel ren Code E (host.instrTurn funcs i rest controls s)
      (host'.instrTurn funcs' (ren.instr i) rest' controls' s') := by
  cases i with
  | br label => exact jump_rel h label hcontrols hE
  | brIf label =>
    unfold instrTurn
    dsimp only [Renaming.instr]
    rcases h.popI32 hE with ⟨hs, hs'⟩ | ⟨v, t, t', hs, hs', ht⟩
    · rw [hs, hs']
      exact .stop .trap
    · rw [hs, hs']
      dsimp only
      split
      · exact jump_rel h label hcontrols ht
      · exact .next ⟨hrest, hcontrols, ht⟩
  | brTable targets defaultTarget =>
    unfold instrTurn
    dsimp only [Renaming.instr]
    rcases h.popI32 hE with ⟨hs, hs'⟩ | ⟨v, t, t', hs, hs', ht⟩
    · rw [hs, hs']
      exact .stop .trap
    · rw [hs, hs']
      exact jump_rel h _ hcontrols ht
  | «return» => exact returns_rel h hcontrols hE
  | unreachable => exact .stop .trap
  | call index => exact invoke_rel h hfuncs index hrest hcontrols hE
  | callIndirect type table =>
    have hresolve := h.resolve type table hE
    unfold instrTurn
    dsimp only [Renaming.instr]
    generalize host.resolve type table s = o at hresolve ⊢
    generalize host'.resolve type table s' = o' at hresolve ⊢
    cases hresolve with
    | none => exact .stop .trap
    | @some p p' hp =>
      obtain ⟨index, t⟩ := p
      obtain ⟨index', t'⟩ := p'
      obtain ⟨rfl, ht⟩ := hp
      exact invoke_rel h hfuncs index hrest hcontrols ht
  | _ => exact proceed_rel hrest hcontrols (h.exec hi hE)

/-- Lists that begin alike go on to related lists. -/
theorem step_rel (h : host.Respects host' ren ok E)
    (hfuncs : ∀ index, Option.Rel Code (funcs index) (funcs' (ren.func index)))
    {c d : WasmConfig ρ} (hsim : Related ren Code E c d)
    (halike : Alike ren ok Code c.cur d.cur) :
    TurnRel ren Code E (host.step gas funcs c) (host'.step gas' funcs' d) := by
  obtain ⟨cur, controls, s⟩ := c
  obtain ⟨cur', controls', s'⟩ := d
  obtain ⟨-, hcontrols, hE⟩ := hsim
  dsimp only at halike hcontrols hE
  cases halike with
  | nil => exact leaves_rel h hcontrols hE
  | instr hi hrest => exact instrTurn_rel h hfuncs hi hrest hcontrols hE
  | block hbody hrest =>
    unfold step
    dsimp only
    rw [h.label hE]
    exact .next ⟨hbody, .cons (.block hrest) hcontrols, hE⟩
  | loop hbody hrest =>
    unfold step
    dsimp only
    rw [h.label hE]
    exact .next ⟨hbody, .cons (.loop hbody hrest) hcontrols, hE⟩
  | ifElse htrue hfalse hrest =>
    unfold step
    dsimp only
    rcases h.popI32 hE with ⟨hs, hs'⟩ | ⟨v, t, t', hs, hs', ht⟩
    · rw [hs, hs']
      exact .stop .trap
    · rw [hs, hs']
      dsimp only
      rw [h.label ht]
      refine .next ⟨?_, .cons (.block hrest) hcontrols, ht⟩
      dsimp only
      split
      · exact htrue
      · exact hfalse

end

end WasmHost

end BcosExecutor
