import BcosExecutor.ExecutiveAtomic

namespace BcosExecutor

/-- The table is there afterwards. -/
def foundTable {κ : Type} (tableName valueFields : String) : Script κ Unit := do
  if !(← openTable tableName) then
    createTable tableName valueFields

/-- The rows after a table was looked for. -/
def withFoundTable (tableName valueFields : String) (s : Rows) : Rows :=
  Function.update s ⟨sysTables, ascii tableName⟩
    ((s ⟨sysTables, ascii tableName⟩).or (some (ascii valueFields)))

namespace Script

variable {α β : Type}

/-- What a program that calls nobody comes to over the rows of a storage. -/
def onRows : Script Empty α → Rows → Option (Except Exc α) × Rows
  | pure a, s => (some (.ok a), s)
  | throw x, s => (some (.error x), s)
  | abort, s => (none, s)
  | getRow row k, s => (k (s row)).onRows s
  | setRow row entry k, s => k.onRows (Function.update s row entry)
  | externalCall callee _ _, _ => callee.elim

@[simp] theorem onRows_pure (a : α) (s : Rows) :
    (Pure.pure a : Script Empty α).onRows s = (some (.ok a), s) := rfl

@[simp] theorem onRows_throw (x : Exc) (s : Rows) :
    (throw x : Script Empty α).onRows s = (some (.error x), s) := rfl

@[simp] theorem onRows_abort (s : Rows) : (abort : Script Empty α).onRows s = (none, s) := rfl

@[simp] theorem onRows_get (table : String) (key : Bytes) (s : Rows) :
    (BcosExecutor.getRow table key : Script Empty _).onRows s =
      (some (.ok (s ⟨table, key⟩)), s) := rfl

@[simp] theorem onRows_set (table : String) (key : Bytes) (entry : Entry) (s : Rows) :
    (BcosExecutor.setRow table key entry : Script Empty _).onRows s =
      (some (.ok ()), Function.update s ⟨table, key⟩ (some entry)) := rfl

theorem onRows_bind (m : Script Empty α) (f : α → Script Empty β) (s : Rows) :
    (m >>= f).onRows s =
      match m.onRows s with
      | (some (.ok a), s') => (f a).onRows s'
      | (some (.error x), s') => (some (.error x), s')
      | (none, s') => (none, s') := by
  show (m.bind f).onRows s = _
  induction m generalizing s with
  | pure a => rfl
  | throw x => rfl
  | abort => rfl
  | getRow row k ih => exact ih _ s
  | setRow row entry k ih => exact ih _
  | externalCall callee => exact callee.elim

theorem onRows_bind_of_ok {m : Script Empty α} {s s' : Rows} {a : α}
    (h : m.onRows s = (some (.ok a), s')) (f : α → Script Empty β) :
    (m >>= f).onRows s = (f a).onRows s' := by
  rw [onRows_bind, h]

theorem onRows_bind_of_error {m : Script Empty α} {s s' : Rows} {x : Exc}
    (h : m.onRows s = (some (.error x), s')) (f : α → Script Empty β) :
    (m >>= f).onRows s = (some (.error x), s') := by
  rw [onRows_bind, h]

theorem onRows_attempt (m : Script Empty α) (s : Rows) :
    m.attempt.onRows s = ((m.onRows s).1.map Except.ok, (m.onRows s).2) := by
  induction m generalizing s with
  | pure a => rfl
  | throw x => rfl
  | abort => rfl
  | getRow row k ih => exact ih _ s
  | setRow row entry k ih => exact ih _
  | externalCall callee => exact callee.elim

@[simp] theorem onRows_openTable (tableName : String) (s : Rows) :
    (openTable tableName : Script Empty Bool).onRows s =
      (some (.ok (s ⟨sysTables, ascii tableName⟩).isSome), s) := rfl

theorem foundTable_onRows (tableName valueFields : String) (s : Rows) :
    (foundTable tableName valueFields : Script Empty Unit).onRows s =
      (some (.ok ()), withFoundTable tableName valueFields s) := by
  unfold foundTable withFoundTable
  rw [onRows_bind, onRows_openTable]
  dsimp only
  cases hrow : s ⟨sysTables, ascii tableName⟩ with
  | some entry =>
    rw [Option.isSome_some, Option.some_or, ← hrow, Function.update_eq_self]
    rfl
  | none =>
    unfold createTable
    rw [Option.isSome_none, Bool.not_false, if_pos rfl, onRows_bind, onRows_openTable]
    dsimp only
    rw [hrow]
    rfl

/-- A program that writes nothing and calls nobody. -/
def ReadsOnly : Script Empty α → Prop
  | pure _ | throw _ | abort => True
  | getRow _ k => ∀ entry, (k entry).ReadsOnly
  | setRow _ _ _ | externalCall _ _ _ => False

theorem readsOnly_bind {m : Script Empty α} {f : α → Script Empty β} (hm : m.ReadsOnly)
    (hf : ∀ a, (f a).ReadsOnly) : (m >>= f).ReadsOnly := by
  show (m.bind f).ReadsOnly
  induction m with
  | pure a => exact hf a
  | throw x => trivial
  | abort => trivial
  | getRow row k ih => exact fun entry => ih entry (hm entry)
  | setRow row entry k => exact hm.elim
  | externalCall callee => exact callee.elim

theorem ReadsOnly.onRows {m : Script Empty α} (h : m.ReadsOnly) (s : Rows) :
    (m.onRows s).2 = s := by
  induction m with
  | pure a => rfl
  | throw x => rfl
  | abort => rfl
  | getRow row k ih => exact ih _ (h _)
  | setRow row entry k => exact h.elim
  | externalCall callee => exact callee.elim

theorem ReadsOnly.exists_out {m : Script Empty α} (h : m.ReadsOnly) (s : Rows) :
    ∃ out, m.onRows s = (out, s) :=
  ⟨_, Prod.ext rfl (h.onRows s)⟩

variable {st : StateStorage}

/-- Over a lawful storage a program does what it does over the rows. -/
theorem run_eq_onRows (h : st.Lawful) (m : Script Empty α) (e : Executive st) :
    ((m.run (noCalls st) e).1, st.getRow (m.run (noCalls st) e).2.storage) =
      m.onRows (st.getRow e.storage) := by
  induction m generalizing e with
  | pure a => rfl
  | throw x => rfl
  | abort => rfl
  | getRow row k ih => exact ih _ e
  | setRow row entry k ih =>
    have hset := h.getRow_setRow e.storage e.recoder row entry
    have hrest := ih (e.setRow row entry)
    unfold Executive.setRow at hrest
    rw [hset] at hrest
    exact hrest
  | externalCall callee => exact callee.elim

end Script

/-- The message and the rows that are left when an executive over these rows ends. -/
def settleRows (before : Rows) :
    Option (Except Exc Ending) × Rows → Option CallParameters × Rows
  | (some (.ok ending), s) => (some ending.message, if ending.reverted then before else s)
  | (some (.error _), s) | (none, s) => (none, s)

variable {st : StateStorage}

theorem executeMessage_rows (h : st.Lawful) (env : Environment) (b : Behaviour Empty)
    (p : CallParameters) (s : st.State) :
    ((executeMessage st env b p s).response, st.getRow (executeMessage st env b p s).storage) =
      settleRows (st.getRow s) ((TransactionExecutive.execute env b p).onRows (st.getRow s)) := by
  have hrun := Script.run_eq_onRows h (TransactionExecutive.execute env b p) (Executive.start s)
  have hundone := undone_run h (TransactionExecutive.execute env b p) (Executive.start s)
  unfold executeMessage
  change _ = (TransactionExecutive.execute env b p).onRows (st.getRow s) at hrun
  generalize (TransactionExecutive.execute env b p).run (noCalls st) (Executive.start s) = r at *
  obtain ⟨out, e⟩ := r
  rw [← hrun]
  match out with
  | some (.ok ending) =>
    refine Prod.ext rfl ?_
    show st.getRow (if ending.reverted then _ else _) = if ending.reverted then _ else _
    split
    · rw [h.getRow_rollback]
      exact hundone.trans (h.undone_newRecoder s)
    · rfl
  | some (.error x) => rfl
  | none => rfl

namespace TransactionExecutive

/-- The message that `callPrecompiled` makes of what the precompiled contract comes to. -/
def precompiledEnding (env : Environment) (p : CallParameters) :
    Except Exc PrecompiledExecResult → Ending
  | .ok precompiledResult =>
    let p := { p with type := .finished }
    if p.gas < precompiledResult.gas then
      ⟨{ p with type := .revert, status := .outOfGas }, false⟩
    else
      ⟨{ p with
        gas := p.gas - precompiledResult.gas
        status := .none
        data := precompiledResult.execResult }, false⟩
  | .error (.precompiledError comment) =>
    ⟨{ p with
      data := env.writeErrInfoToOutput
        (comment.getD "error occurs in precompiled, but error_info is empty")
      type := .revert
      status := .precompiledError }, true⟩
  | .error _ =>
    ⟨{ p with
      data := env.writeErrInfoToOutput "error occurs in precompiled, but error_info is empty"
      type := .revert
      status := .precompiledError }, true⟩

theorem execPrecompiled_onRows (b : Behaviour Empty) (s : Rows) :
    (execPrecompiled b).onRows s =
      match b.precompiled.onRows s with
      | (some (.ok r), s') => (some (.ok r), s')
      | (some (.error (.precompiledError c)), s') => (some (.error (.precompiledError c)), s')
      | (some (.error _), s') => (some (.error (.precompiledError none)), s')
      | (none, s') => (none, s') := by
  unfold execPrecompiled
  rw [Script.onRows_bind, Script.onRows_attempt]
  rcases b.precompiled.onRows s with ⟨out, s'⟩
  match out with
  | none => rfl
  | some (.ok r) => rfl
  | some (.error x) => cases x <;> rfl

theorem callPrecompiled_onRows (env : Environment) (b : Behaviour Empty) (p : CallParameters)
    (s : Rows) : (callPrecompiled env b p).onRows s =
      ((b.precompiled.onRows s).1.map fun r => .ok (precompiledEnding env p r),
        (b.precompiled.onRows s).2) := by
  unfold callPrecompiled
  dsimp only
  rw [Script.onRows_bind, Script.onRows_attempt, execPrecompiled_onRows]
  rcases b.precompiled.onRows s with ⟨out, s'⟩
  match out with
  | none => rfl
  | some (.ok r) =>
    dsimp only [Option.map, precompiledEnding]
    split <;> rfl
  | some (.error x) => cases x <;> rfl

/-- A message to a precompiled contract runs nothing else. -/
theorem execute_precompiled_onRows (env : Environment) (b : Behaviour Empty) (p : CallParameters)
    (s : Rows) (hp : env.isPrecompiled p.codeAddress = true) (hc : p.create = false) :
    (execute env b p).onRows s = (callPrecompiled env b p).onRows s := by
  unfold execute prepare call
  rw [hc, if_neg Bool.false_ne_true, if_pos hp, Script.onRows_bind, Script.onRows_bind]
  rcases (callPrecompiled env b p).onRows s with ⟨out, s'⟩
  match out with
  | none => rfl
  | some (.ok r) => rfl
  | some (.error x) => rfl

end TransactionExecutive

def TableThere (rows : Rows) (tableName : String) : Prop :=
  (rows ⟨sysTables, ascii tableName⟩).isSome

instance (rows : Rows) (tableName : String) : Decidable (TableThere rows tableName) :=
  inferInstanceAs (Decidable (_ = true))

theorem TableThere.onRows_openTable {rows : Rows} {tableName : String}
    (h : TableThere rows tableName) :
    (openTable tableName : Script Empty Bool).onRows rows = (some (.ok true), rows) := by
  rw [Script.onRows_openTable, show (rows ⟨sysTables, ascii tableName⟩).isSome = true from h]

theorem onRows_openTable_gone {rows : Rows} {tableName : String} (h : ¬TableThere rows tableName) :
    (openTable tableName : Script Empty Bool).onRows rows = (some (.ok false), rows) := by
  rw [Script.onRows_openTable,
    show (rows ⟨sysTables, ascii tableName⟩).isSome = false from Bool.eq_false_iff.mpr h]

theorem TableThere.guard {α : Type} {rows : Rows} {tableName : String}
    (h : TableThere rows tableName) (a b : α) :
    (if !(rows ⟨sysTables, ascii tableName⟩).isSome then a else b) = b := by
  rw [show (rows ⟨sysTables, ascii tableName⟩).isSome = true from h]
  exact if_neg Bool.false_ne_true

theorem guard_of_not_there {α : Type} {rows : Rows} {tableName : String}
    (h : ¬TableThere rows tableName) (a b : α) :
    (if !(rows ⟨sysTables, ascii tableName⟩).isSome then a else b) = a := by
  rw [show (rows ⟨sysTables, ascii tableName⟩).isSome = false from Bool.eq_false_iff.mpr h]
  exact if_pos rfl

/-- The rows that a precompiled contract leaves: those before where it throws. -/
def keptRows {α : Type} (m : Script Empty α) (s : Rows) : Rows :=
  match m.onRows s with
  | (some (.ok _), s') => s'
  | (some (.error _), _) => s
  | (none, s') => s'

theorem settleRows_precompiled (env : Environment) (p : CallParameters) (m : Script Empty
    PrecompiledExecResult) (s : Rows) :
    settleRows s ((m.onRows s).1.map fun r => .ok (TransactionExecutive.precompiledEnding env p r),
        (m.onRows s).2) =
      ((m.onRows s).1.map fun r => (TransactionExecutive.precompiledEnding env p r).message,
        keptRows m s) := by
  unfold keptRows
  rcases m.onRows s with ⟨out, s'⟩
  match out with
  | none => rfl
  | some (.ok r) =>
    refine Prod.ext rfl ?_
    show (if (TransactionExecutive.precompiledEnding env p (.ok r)).reverted then s else s') = s'
    rw [if_neg]
    unfold TransactionExecutive.precompiledEnding
    dsimp only
    split <;> simp
  | some (.error x) => cases x <;> rfl

/-- The message and the rows that follow a message to a precompiled contract. -/
theorem executeMessage_precompiled (h : st.Lawful) (env : Environment) (b : Behaviour Empty)
    {p : CallParameters} (s : st.State) (hp : env.isPrecompiled p.codeAddress = true)
    (hc : p.create = false) :
    (executeMessage st env b p s).response =
        (b.precompiled.onRows (st.getRow s)).1.map
          (fun r => (TransactionExecutive.precompiledEnding env p r).message) ∧
      st.getRow (executeMessage st env b p s).storage = keptRows b.precompiled (st.getRow s) := by
  have hrows := executeMessage_rows h env b p s
  rw [TransactionExecutive.execute_precompiled_onRows env b p _ hp hc,
    TransactionExecutive.callPrecompiled_onRows, settleRows_precompiled] at hrows
  exact Prod.mk.inj hrows

end BcosExecutor
