import BcosExecutor.GoOutcome

namespace BcosExecutor

namespace Go

variable {α β : Type}

/-- A message comes back, and it says how the execution ended. -/
def Returns (x : Go CallParameters) (held : Option CallParameters) : Prop :=
  ∃ p held', x held = .ok (.ok p, held') ∧ (p.type = .finished ∨ p.type = .revert)

/-- The parameters of the host context stay where they are. -/
def Still (x : Go α) : Prop :=
  ∀ held out held', x held = .ok (out, held') → held' = held

@[simp] theorem pure_apply (x : α) (held : Option CallParameters) :
    (pure x : Go α) held = .ok (.ok x, held) := rfl

@[simp] theorem throw_apply (e : Thrown) (held : Option CallParameters) :
    (throw e : Go α) held = .ok (.error e, held) := rfl

@[simp] theorem stop_apply (s : Stop) (held : Option CallParameters) :
    (stop s : Go α) held = .error s := rfl

theorem bind_apply (x : Go α) (f : α → Go β) (held : Option CallParameters) :
    (x >>= f) held =
      match x held with
      | .ok (.ok a, held') => f a held'
      | .ok (.error e, held') => .ok (.error e, held')
      | .error s => .error s := by
  show (StateT.bind x (ExceptT.bindCont f)) held = _
  unfold StateT.bind
  show (Except.bind (x held) _) = _
  rcases x held with s | ⟨out, held'⟩
  · rfl
  · cases out <;> rfl

theorem bind_of_ok {x : Go α} {held held' : Option CallParameters} {v : α}
    (h : x held = .ok (.ok v, held')) (f : α → Go β) : (x >>= f) held = f v held' := by
  rw [bind_apply, h]

theorem bind_of_thrown {x : Go α} {held held' : Option CallParameters} {e : Thrown}
    (h : x held = .ok (.error e, held')) (f : α → Go β) :
    (x >>= f) held = .ok (.error e, held') := by
  rw [bind_apply, h]

theorem bind_of_stop {x : Go α} {held : Option CallParameters} {s : Stop}
    (h : x held = .error s) (f : α → Go β) : (x >>= f) held = .error s := by
  rw [bind_apply, h]

theorem tryCatch_apply (x : Go α) (handler : Thrown → Go α) (held : Option CallParameters) :
    (tryCatch x handler) held =
      match x held with
      | .ok (.ok a, held') => .ok (.ok a, held')
      | .ok (.error e, held') => handler e held'
      | .error s => .error s := by
  show (ExceptT.tryCatch x handler) held = _
  unfold ExceptT.tryCatch ExceptT.mk
  show (StateT.bind x _) held = _
  unfold StateT.bind
  show (Except.bind (x held) _) = _
  rcases x held with s | ⟨out, held'⟩
  · rfl
  · cases out <;> rfl


theorem returns_bind_of_ok {x : Go α} {held held' : Option CallParameters} {v : α}
    (h : x held = .ok (.ok v, held')) (f : α → Go CallParameters) :
    Returns (x >>= f) held ↔ Returns (f v) held' := by
  unfold Returns
  rw [bind_of_ok h]

theorem not_returns_of_thrown {x : Go CallParameters} {held held' : Option CallParameters}
    {e : Thrown} (h : x held = .ok (.error e, held')) : ¬ Returns x held := by
  rintro ⟨p, held'', hp, _⟩
  cases h.symm.trans hp

theorem not_returns_of_stop {x : Go CallParameters} {held : Option CallParameters} {s : Stop}
    (h : x held = .error s) : ¬ Returns x held := by
  rintro ⟨p, held', hp, _⟩
  cases h.symm.trans hp

theorem still_pure (v : α) : Still (pure v : Go α) := by
  intro held out held' h
  cases h
  rfl

theorem still_throw (e : Thrown) : Still (throw e : Go α) := by
  intro held out held' h
  cases h
  rfl

theorem still_stop (s : Stop) : Still (stop s : Go α) := by
  intro held out held' h
  cases h

theorem still_answered (x : Except Thrown α) : Still (answered x) := by
  cases x with
  | ok v => exact still_pure v
  | error e => exact still_throw e

theorem still_bind {x : Go α} {f : α → Go β} (hx : Still x) (hf : ∀ v, Still (f v)) :
    Still (x >>= f) := by
  intro held out held' h
  rw [bind_apply] at h
  rcases hrun : x held with s | ⟨out', held''⟩
  · rw [hrun] at h
    cases h
  · have hsame := hx held out' held'' hrun
    rw [hrun] at h
    cases out' with
    | ok v => exact (hf v held'' out held' h).trans hsame
    | error e =>
      cases h
      exact hsame

theorem still_ite {c : Prop} [Decidable c] {x y : Go α} (hx : Still x) (hy : Still y) :
    Still (if c then x else y) := by
  split
  · exact hx
  · exact hy

theorem still_assertThat (condition : Bool) : Still (assertThat condition) := by
  cases condition with
  | true => exact still_pure ()
  | false => exact still_stop _

/-- A step that lets `go` on exactly where the condition holds, and else ends the process, if only in
a catch clause. -/
def Gate (P : Prop) (x : Go α) : Prop :=
  P ∧ (∀ held, ∃ v, x held = .ok (.ok v, held)) ∨
    ¬ P ∧ ∀ held, (∃ s, x held = .error s) ∨ x held = .ok (.error .stdException, held)

variable {P Q : Prop}

theorem Gate.congr {x : Go α} (h : Gate P x) (hPQ : P ↔ Q) : Gate Q x := by
  unfold Gate
  rwa [← hPQ]

theorem gate_assertThat {condition : Bool} : Gate (condition = true) (assertThat condition) := by
  cases condition with
  | true => exact .inl ⟨rfl, fun held => ⟨(), rfl⟩⟩
  | false => exact .inr ⟨Bool.false_ne_true, fun held => .inl ⟨.assertion, rfl⟩⟩

theorem gate_toEvmC {address : Bytes} : Gate (20 ≤ address.length) (toEvmC address) := by
  unfold toEvmC
  by_cases h : address.length < 20
  · rw [if_pos h]
    exact .inr ⟨Nat.not_le_of_lt h, fun held => .inl ⟨.outOfBounds, rfl⟩⟩
  · rw [if_neg h]
    exact .inl ⟨Nat.le_of_not_lt h, fun held => ⟨_, rfl⟩⟩

theorem Gate.and {x : Go α} {y : Go β} (hx : Gate P x) (hy : Gate Q y) :
    Gate (P ∧ Q) (x >>= fun _ => y) := by
  rcases hx with ⟨hP, hx⟩ | ⟨hP, hx⟩
  · have heq (held : Option CallParameters) : (x >>= fun _ => y) held = y held := by
      obtain ⟨v, hv⟩ := hx held
      exact bind_of_ok hv _
    rcases hy with ⟨hQ, hy⟩ | ⟨hQ, hy⟩
    · exact .inl ⟨⟨hP, hQ⟩, fun held => by rw [heq]; exact hy held⟩
    · exact .inr ⟨fun h => hQ h.2, fun held => by rw [heq]; exact hy held⟩
  · refine .inr ⟨fun h => hP h.1, fun held => ?_⟩
    rcases hx held with ⟨s, hs⟩ | hthrown
    · exact .inl ⟨s, bind_of_stop hs _⟩
    · exact .inr (bind_of_thrown hthrown _)

theorem gate_unhex {s : String} {R : Bytes → Prop} {f : Bytes → Go β}
    (hf : ∀ bytes, Gate (R bytes) (f bytes)) :
    Gate (∃ bytes, BcosExecutor.unhex s = some bytes ∧ R bytes) (unhex s >>= f) := by
  unfold unhex
  cases h : BcosExecutor.unhex s with
  | none => exact .inr ⟨nofun, fun held => .inr rfl⟩
  | some bytes =>
    refine (hf bytes).congr ⟨fun h => ⟨bytes, rfl, h⟩, ?_⟩
    rintro ⟨bytes', heq, h⟩
    cases heq
    exact h

end Go

end BcosExecutor
