import BcosExecutor.Interleaving
import BcosExecutor.RowRuns
import Mathlib.Data.Set.Insert

namespace BcosExecutor

open Interleaving (Footprint Program)

/-- What was noted is written back row by row, the latest first. -/
def putBack {Out : Type} (p : Program StateRow Entry Out) :
    UndoLog.Log StateRow (Option Entry) → Program StateRow Entry Out
  | [] => p
  | note :: noted => .write note.1 note.2 (putBack p noted)

namespace Script

variable {α β : Type}

/-- The single accesses of an executive that runs a script. The row of a write is noted before
it changes, and `revert()` goes through the notes. -/
def accesses (reverts : α → Bool) :
    Script Empty α → UndoLog.Log StateRow (Option Entry) →
      Program StateRow Entry (Option (Except Exc α))
  | pure a, noted =>
    if reverts a then putBack (.done (some (.ok a))) noted else .done (some (.ok a))
  | throw x, _ => .done (some (.error x))
  | abort, _ => .done none
  | getRow row k, noted => .read row fun entry => (k entry).accesses reverts noted
  | setRow row entry k, noted =>
    .read row fun old => .write row entry (k.accesses reverts ((row, old) :: noted))
  | externalCall callee _ _, _ => callee.elim

theorem putBack_run {Out : Type} (p : Program StateRow Entry Out)
    (noted : UndoLog.Log StateRow (Option Entry)) (s : Rows) :
    (putBack p noted).run s = p.run (UndoLog.undo noted s) := by
  induction noted generalizing s with
  | nil => rfl
  | cons note noted ih => exact ih _

/-- What a script comes to with the rows that its executive leaves. -/
def concluded (reverts : α → Bool) (before : Rows) :
    Option (Except Exc α) × Rows → Option (Except Exc α) × Rows
  | (some (.ok a), s) => (some (.ok a), if reverts a then before else s)
  | (some (.error x), s) => (some (.error x), s)
  | (none, s) => (none, s)

/-- Without interference the accesses come to what the script does over the rows. -/
theorem accesses_run {reverts : α → Bool} {m : Script Empty α}
    {noted : UndoLog.Log StateRow (Option Entry)} {s before : Rows}
    (h : UndoLog.undo noted s = before) :
    (m.accesses reverts noted).run s = concluded reverts before (m.onRows s) := by
  induction m generalizing noted s with
  | pure a =>
    by_cases hreverts : reverts a = true
    · simp only [accesses, onRows, concluded, hreverts, if_true, putBack_run, h, Program.run]
    · rw [Bool.not_eq_true] at hreverts
      simp only [accesses, onRows, concluded, hreverts, Bool.false_eq_true, if_false, Program.run]
  | throw x => rfl
  | abort => rfl
  | getRow row k ih => exact ih _ h
  | setRow row entry k ih =>
    have hput : Function.update (Function.update s row entry) row (s row) = s := by
      rw [Function.update_idem, Function.update_eq_self]
    have hnoted : UndoLog.undo ((row, s row) :: noted) (Function.update s row entry) = before := by
      show UndoLog.undo noted (Function.update (Function.update s row entry) row (s row)) = before
      rw [hput, h]
    exact ih hnoted
  | externalCall callee => exact callee.elim

/-- A script that reads and writes rows of its footprint only, as long as it reads good rows, and
writes good ones. -/
def Keeps (good : StateRow → Option Entry → Prop) (f : Footprint StateRow) : Script Empty α → Prop
  | pure _ | throw _ | abort => True
  | getRow row k => row ∈ f.reads ∧ ∀ entry, good row entry → (k entry).Keeps good f
  | setRow row entry k => row ∈ f.reads ∧ row ∈ f.writes ∧ good row entry ∧ k.Keeps good f
  | externalCall _ _ _ => False

variable {good : StateRow → Option Entry → Prop} {f : Footprint StateRow}

theorem keeps_bind_of_returns {P : α → Prop} {m : Script Empty α} {g : α → Script Empty β}
    (hm : m.Keeps good f) (hreturns : m.Returns P) (hg : ∀ a, P a → (g a).Keeps good f) :
    (m >>= g).Keeps good f := by
  show (m.bind g).Keeps good f
  induction m with
  | pure a => exact hg a hreturns
  | throw x => trivial
  | abort => trivial
  | getRow row k ih =>
    exact ⟨hm.1, fun entry hentry => ih entry (hm.2 entry hentry) (hreturns entry)⟩
  | setRow row entry k ih => exact ⟨hm.1, hm.2.1, hm.2.2.1, ih hm.2.2.2 hreturns⟩
  | externalCall callee => exact callee.elim

theorem keeps_bind {m : Script Empty α} {g : α → Script Empty β} (hm : m.Keeps good f)
    (hg : ∀ a, (g a).Keeps good f) : (m >>= g).Keeps good f :=
  keeps_bind_of_returns hm (returns_true m) fun a _ => hg a

theorem keeps_attempt {m : Script Empty α} (hm : m.Keeps good f) : m.attempt.Keeps good f := by
  induction m with
  | pure a => trivial
  | throw x => trivial
  | abort => trivial
  | getRow row k ih => exact ⟨hm.1, fun entry hentry => ih entry (hm.2 entry hentry)⟩
  | setRow row entry k ih => exact ⟨hm.1, hm.2.1, hm.2.2.1, ih hm.2.2.2⟩
  | externalCall callee => exact callee.elim

theorem within_putBack {Out : Type} {p : Program StateRow Entry Out} (hp : p.Within good f)
    {noted : UndoLog.Log StateRow (Option Entry)}
    (h : ∀ note ∈ noted, note.1 ∈ f.writes ∧ good note.1 note.2) :
    (putBack p noted).Within good f := by
  induction noted with
  | nil => exact hp
  | cons note noted ih =>
    obtain ⟨hnote, hnoted⟩ := List.forall_mem_cons.mp h
    exact ⟨hnote.1, hnote.2, ih hnoted⟩

theorem Keeps.accesses {m : Script Empty α} (hm : m.Keeps good f) (reverts : α → Bool)
    {noted : UndoLog.Log StateRow (Option Entry)}
    (h : ∀ note ∈ noted, note.1 ∈ f.writes ∧ good note.1 note.2) :
    (m.accesses reverts noted).Within good f := by
  induction m generalizing noted with
  | pure a =>
    unfold Script.accesses
    have hdone : (Program.done (some (.ok a)) :
        Program StateRow Entry (Option (Except Exc α))).Within good f := trivial
    split
    · exact within_putBack hdone h
    · exact hdone
  | throw x => trivial
  | abort => trivial
  | getRow row k ih => exact ⟨hm.1, fun entry hentry => ih entry (hm.2 entry hentry) h⟩
  | setRow row entry k ih =>
    obtain ⟨hread, hwrite, hentry, hk⟩ := hm
    exact ⟨hread, fun old hold => ⟨hwrite, hentry,
      ih hk (List.forall_mem_cons.mpr ⟨⟨hwrite, hold⟩, h⟩)⟩⟩
  | externalCall callee => exact callee.elim

end Script

namespace TransactionExecutive

variable {env : Environment} {b : Behaviour Empty} {p : CallParameters}
  {good : StateRow → Option Entry → Prop} {f : Footprint StateRow}

theorem keeps_callPrecompiled (hb : b.precompiled.Keeps good f) :
    (callPrecompiled env b p).Keeps good f := by
  have hexec : (execPrecompiled b).Keeps good f := by
    refine Script.keeps_bind (Script.keeps_attempt hb) fun result => ?_
    match result with
    | .ok _ => trivial
    | .error x => cases x <;> trivial
  refine Script.keeps_bind (Script.keeps_attempt hexec) fun result => ?_
  match result with
  | .ok precompiledResult =>
    dsimp only
    split <;> trivial
  | .error x => cases x <;> trivial

/-- The executive of a message to a precompiled contract touches what the contract touches. -/
theorem keeps_execute (hp : env.isPrecompiled p.codeAddress = true) (hc : p.create = false)
    (hb : b.precompiled.Keeps good f) : (execute env b p).Keeps good f := by
  unfold execute prepare call
  rw [hc, if_neg Bool.false_ne_true, if_pos hp]
  have hends : (callPrecompiled env b p >>= fun ending =>
      (pure (.ends ending) : Script Empty (Settled (HostContext × Bytes × Bytes)))).Returns
        fun settled => ∃ ending, settled = .ends ending :=
    Script.returns_bind (Script.returns_true _) fun ending _ => ⟨ending, rfl⟩
  refine Script.keeps_bind_of_returns
    (Script.keeps_bind (keeps_callPrecompiled hb) fun ending => trivial) hends ?_
  rintro settled ⟨ending, rfl⟩
  trivial

end TransactionExecutive

/-- The accesses of the executive of a message. -/
def messageAccesses (env : Environment) (b : Behaviour Empty) (p : CallParameters) :
    Program StateRow Entry (Option (Except Exc Ending)) :=
  (TransactionExecutive.execute env b p).accesses Ending.reverted []

/-- The message that comes back when the executive has ended. -/
def answered : Option (Except Exc Ending) → Option CallParameters
  | some (.ok ending) => some ending.message
  | some (.error _) | none => none

/-- Without interference the accesses of a message answer what the message does and leave its
rows. -/
theorem messageAccesses_run {st : StateStorage} (h : st.Lawful) (env : Environment)
    (b : Behaviour Empty) (p : CallParameters) (s : st.State) :
    answered ((messageAccesses env b p).run (st.getRow s)).1 =
        (executeMessage st env b p s).response ∧
      ((messageAccesses env b p).run (st.getRow s)).2 =
        st.getRow (executeMessage st env b p s).storage := by
  have hrows := executeMessage_rows h env b p s
  have hrun : ((TransactionExecutive.execute env b p).accesses Ending.reverted []).run
      (st.getRow s) = Script.concluded Ending.reverted (st.getRow s)
        ((TransactionExecutive.execute env b p).onRows (st.getRow s)) :=
    Script.accesses_run rfl
  unfold messageAccesses
  rw [hrun]
  generalize (TransactionExecutive.execute env b p).onRows (st.getRow s) = r at hrows ⊢
  obtain ⟨hresponse, hstorage⟩ := Prod.mk.inj hrows
  rw [hresponse, hstorage]
  obtain ⟨out, s'⟩ := r
  match out with
  | some (.ok ending) => exact ⟨rfl, rfl⟩
  | some (.error x) => exact ⟨rfl, rfl⟩
  | none => exact ⟨rfl, rfl⟩

/-- The storage after these messages of a block, one after the other. -/
def serialState (st : StateStorage) (env : Environment) (behaviour : Nat → Behaviour Empty)
    (block : Nat → CallParameters) (s : st.State) (ids : List Nat) : st.State :=
  ids.foldl (fun s id => (executeMessage st env (behaviour id) (block id) s).storage) s

theorem serialStore_messages {st : StateStorage} (h : st.Lawful) {env : Environment}
    {behaviour : Nat → Behaviour Empty} {block : Nat → CallParameters} {V : Type*} {ids : List Nat}
    {node : Nat → V} {programs : V → Program StateRow Entry (Option (Except Exc Ending))}
    (hprograms : ∀ id ∈ ids, programs (node id) = messageAccesses env (behaviour id) (block id))
    (s : st.State) : Program.serialStore programs (ids.map node) (st.getRow s) =
      st.getRow (serialState st env behaviour block s ids) := by
  induction ids generalizing s with
  | nil => rfl
  | cons id ids ih =>
    obtain ⟨hid, hids⟩ := List.forall_mem_cons.mp hprograms
    rw [List.map_cons, Program.serialStore, hid, (messageAccesses_run h env _ _ s).2, ih hids]
    rfl

/-- A contract that writes one row of each caller. -/
def writesOwnRow (id : Nat) : Behaviour Empty where
  precompiled := do
    setRow "u_table" (List.replicate id 0) (ascii "value")
    return ⟨[], 0⟩
  vm := .abort

def toOwnRow (_ : Nat) : CallParameters where
  codeAddress := "1009"
  type := .message

def ownRow (id : Nat) : Footprint StateRow where
  reads := {⟨"u_table", List.replicate id 0⟩}
  writes := {⟨"u_table", List.replicate id 0⟩}

theorem keeps_writesOwnRow (id : Nat) :
    (TransactionExecutive.execute evmEnvironment (writesOwnRow id) (toOwnRow id)).Keeps
      (fun _ _ => True) (ownRow id) :=
  TransactionExecutive.keeps_execute rfl rfl ⟨rfl, rfl, trivial, trivial⟩

theorem apart_ownRow {i j : Nat} (h : i ≠ j) : (ownRow i).Apart (ownRow j) := by
  have hrow : ∀ row ∈ (ownRow i).writes, row ∉ (ownRow j).writes := by
    intro row hi hj
    have hrows := (Set.mem_singleton_iff.mp hi).symm.trans (Set.mem_singleton_iff.mp hj)
    have hkey := congrArg (fun row : StateRow => row.key.length) hrows
    simp only [List.length_replicate] at hkey
    exact h hkey
  exact ⟨hrow, hrow, hrow⟩

end BcosExecutor
