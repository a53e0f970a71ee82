import BcosExecutor.ExecutiveAtomic
import BcosExecutor.WrappedExecutive

namespace BcosExecutor

open SyncStorageWrapper

namespace Access

variable {κ α β : Type}

/-- The first access goes by a table; what returns before it satisfies the predicate. -/
def Begins (Q : α → Prop) : Access κ α → Prop
  | pure a => Q a
  | throw _ | abort => True
  | access way _ _ _ => way = .table
  | externalCall _ _ k => ∀ response, (k response).Begins Q

theorem Begins.bind {Q : α → Prop} {Q' : β → Prop} {m : Access κ α} {f : α → Access κ β}
    (hm : m.Begins Q) (hf : ∀ a, Q a → (f a).Begins Q') : (m >>= f).Begins Q' := by
  show (m.bind f).Begins Q'
  induction m with
  | pure a => exact hf a hm
  | throw e => trivial
  | abort => trivial
  | access way operation row k => exact hm
  | externalCall callee request k ih => exact fun response => ih response (hm response)

theorem Begins.attempt {Q : α → Prop} {m : Access κ α} (hm : m.Begins Q) :
    m.attempt.Begins fun _ => True := by
  induction m with
  | pure a => trivial
  | throw e => trivial
  | abort => trivial
  | access way operation row k => exact hm
  | externalCall callee request k ih => exact fun response => ih response (hm response)

/-- Every access is of this way. -/
def Only (way : Way) : Access κ α → Prop
  | pure _ | throw _ | abort => True
  | access way' _ _ k => way' = way ∧ ∀ answer, (k answer).Only way
  | externalCall _ _ k => ∀ response, (k response).Only way

theorem Only.bind {way : Way} {m : Access κ α} {f : α → Access κ β} (hm : m.Only way)
    (hf : ∀ a, (f a).Only way) : (m >>= f).Only way := by
  show (m.bind f).Only way
  induction m with
  | pure a => exact hf a
  | throw e => trivial
  | abort => trivial
  | access way' operation row k ih => exact ⟨hm.1, fun answer => ih answer (hm.2 answer)⟩
  | externalCall callee request k ih => exact fun response => ih response (hm response)

theorem Only.attempt {way : Way} {m : Access κ α} (hm : m.Only way) : m.attempt.Only way := by
  induction m with
  | pure a => trivial
  | throw e => trivial
  | abort => trivial
  | access way' operation row k ih => exact ⟨hm.1, fun answer => ih answer (hm.2 answer)⟩
  | externalCall callee request k ih => exact fun response => ih response (hm response)

theorem Only.begins {m : Access κ α} (hm : m.Only .table) : m.Begins fun _ => True := by
  induction m with
  | pure a => trivial
  | throw e => trivial
  | abort => trivial
  | access way operation row k => exact hm.1
  | externalCall callee request k ih => exact fun response => ih response (hm response)

end Access

open Access

namespace LockRun

variable {κ α : Type} {m : Access κ α} {w : SyncStorageWrapper} {es : List LockEvent}

theorem first_access {Q : α → Prop} (h : LockRun m w es) (hm : m.Begins Q) :
    (∀ way row, .accessed way row ∉ es) ∨
      ∃ before row after, es = before ++ .accessed .table row :: after ∧
        ∀ key, .locked key ∉ before := by
  induction h with
  | sofar => exact .inl (by simp)
  | table answer h => exact .inr ⟨[], _, _, rfl, by simp⟩
  | wrapper hlock answer h => exact nomatch hm
  | refused hlock h => exact nomatch hm
  | externalCall response h ih =>
    rcases ih (hm response) with hnone | ⟨before, row, after, hes, hlocked⟩
    · exact .inl fun way row => by simpa using hnone way row
    · exact .inr ⟨_ :: before, row, after, by rw [hes, List.cons_append],
        fun key => by simpa using hlocked key⟩

/-- What begins with a table is covered as long as it has reached nothing. -/
theorem begins_covered_iff {Q : α → Prop} (h : LockRun m w es) (hm : m.Begins Q) :
    Covered es ↔ ∀ way row, .accessed way row ∉ es := by
  constructor
  · intro hcovered
    rcases h.first_access hm with hnone | ⟨before, row, after, hes, hlocked⟩
    · exact hnone
    · exact (hlocked row.key (hcovered before .table row after hes).1).elim
  · intro hnone before way row after hes
    exact (hnone way row (by rw [hes]; simp)).elim

theorem only_wrapper (h : LockRun m w es) (hm : m.Only .wrapper) (row : StateRow) :
    .accessed .table row ∉ es := by
  induction h with
  | sofar => simp
  | table answer h ih => exact nomatch hm.1
  | wrapper hlock answer h ih =>
    intro hmem
    rcases List.mem_append.mp hmem with hmem | hmem
    · exact hlock.not_accessed _ _ hmem
    · exact ih (hm.2 _) (by simpa using hmem)
  | refused hlock h ih =>
    intro hmem
    rcases List.mem_append.mp hmem with hmem | hmem
    · exact hlock.not_accessed _ _ hmem
    · exact ih (hm.2 _) hmem
  | externalCall response h ih => simpa using ih (hm response)

theorem only_covered (h : LockRun m w es) (hm : m.Only .wrapper) : Covered es := by
  refine h.covered_iff.mpr fun before row after hes => ?_
  exact (h.only_wrapper hm row (by rw [hes]; simp)).elim

end LockRun

namespace Access

open TransactionExecutive

variable {κ : Type} (env : Environment) (b : WrappedBehaviour κ) (p : CallParameters)

theorem only_via {α : Type} (m : Script κ α) (way : Way) : (m.via fun _ => way).Only way := by
  induction m with
  | pure a => trivial
  | throw e => trivial
  | abort => trivial
  | getRow row k ih =>
    refine ⟨rfl, fun answer => ?_⟩
    match answer with
    | .ok entry => exact ih entry
    | .error e => trivial
  | setRow row entry k ih =>
    refine ⟨rfl, fun answer => ?_⟩
    match answer with
    | .ok _ => exact ih
    | .error e => trivial
  | externalCall callee request k ih => exact ih

theorem begins_createPermitted (params abi : Bytes) :
    (createPermitted env p params abi : Access κ _).Begins fun r => ∃ ending, r = .ends ending := by
  show Way.table = .table
  rfl

/-- A creation that is to go on has reached the table of the contract. -/
theorem begins_create (hcheck : b.checkAuth.Begins fun _ => True) :
    (create env b p).Begins fun r => ∃ ending, r = .ends ending := by
  have hinput : ((decodeInput env p).via hostWay : Access κ _).Begins fun _ => True := by
    unfold decodeInput
    split
    · trivial
    split
    · trivial
    · dsimp only
      split
      · trivial
      · split <;> trivial
  refine hinput.bind fun r _ => ?_
  match r with
  | .ends ending => exact ⟨ending, rfl⟩
  | .goOn (p, params, abi) =>
    dsimp only
    unfold createContract
    split
    · have hchecked : (checkAuth b p).Begins fun _ => True := by
        unfold checkAuth
        split
        · trivial
        · exact hcheck
      refine hchecked.bind fun allowed _ => ?_
      split
      · exact begins_createPermitted env p params abi
      · exact ⟨_, rfl⟩
    · exact begins_createPermitted env p params abi

theorem begins_callPrecompiled (hb : b.precompiled.Begins fun _ => True) :
    (callPrecompiled env b p).Begins fun _ => True := by
  have hexec : (execPrecompiled b).Begins fun _ => True := by
    refine hb.attempt.bind fun r _ => ?_
    match r with
    | .ok execResult => trivial
    | .error e => cases e <;> trivial
  refine hexec.attempt.bind fun r _ => ?_
  match r with
  | .ok precompiledResult =>
    dsimp only
    split <;> trivial
  | .error e => cases e <;> trivial

variable {env b p} {es : List LockEvent} {w : SyncStorageWrapper}

/-- A creation makes its tables without a lock. -/
theorem create_covered_iff (h : LockRun (execute env b p) w es) (hp : p.create = true)
    (hcheck : b.checkAuth.Begins fun _ => True) :
    Covered es ↔ ∀ way row, .accessed way row ∉ es := by
  refine h.begins_covered_iff (Q := fun _ => True) ?_
  unfold execute prepare
  rw [if_pos hp]
  refine (begins_create env b p hcheck).bind fun r hr => ?_
  obtain ⟨ending, rfl⟩ := hr
  trivial

/-- A precompiled contract over tables is not covered once it has reached one. -/
theorem precompiled_covered_iff (h : LockRun (execute env b p) w es) (hc : p.create = false)
    (hp : env.isPrecompiled p.codeAddress = true) {m : Script κ PrecompiledExecResult}
    (hb : b.precompiled = m.via fun _ => .table) :
    Covered es ↔ ∀ way row, .accessed way row ∉ es := by
  have hbegins : b.precompiled.Begins fun _ => True := by
    rw [hb]
    exact (only_via m .table).begins
  refine h.begins_covered_iff (Q := fun _ => True) ?_
  unfold execute prepare call
  rw [if_neg (by simp [hc]), if_pos hp]
  refine Begins.bind (Q := fun r => ∃ ending, r = .ends ending) ?_ ?_
  · exact (begins_callPrecompiled env b p hbegins).bind fun ending _ => ⟨ending, rfl⟩
  · rintro r ⟨ending, rfl⟩
    trivial

theorem only_go {host : HostContext} (hhost : host.isCreate = false) (hb : b.vm.Only .wrapper)
    (abi : Bytes) : (go env b host abi).Only .wrapper := by
  have hcaught : ∀ (p : CallParameters) (e : Exc),
      ((caught p e).via hostWay : Access κ Ending).Only .wrapper := by
    intro p e
    cases e <;> trivial
  unfold go
  dsimp only
  rw [if_neg (by simp [hhost])]
  refine (only_via _ .wrapper).attempt.bind fun r => ?_
  match r with
  | .error e => exact hcaught _ e
  | .ok code =>
    dsimp only
    split
    · trivial
    · refine hb.attempt.bind fun outcome => ?_
      unfold concludeCall
      match outcome with
      | .error e => exact hcaught _ e
      | .ok ret =>
        dsimp only
        split <;> trivial

/-- The code of a contract reaches its rows through the host, and the host through the wrapper. -/
theorem call_covered (h : LockRun (execute env b p) w es) (hc : p.create = false)
    (hp : env.isPrecompiled p.codeAddress = false)
    (hcheck : (env.isAuthCheck && !env.isWasm) = false) (hb : b.vm.Only .wrapper) : Covered es := by
  refine h.only_covered ?_
  unfold execute prepare call
  rw [if_neg (by simp [hc]), if_neg (by simp [hp]), if_neg (by simp [hcheck])]
  exact only_go (show HostContext.isCreate ⟨p, _⟩ = false from hc) hb []

end Access

end BcosExecutor
