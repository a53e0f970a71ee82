import BcosExecutor.UndoLog

namespace BcosExecutor

abbrev Bytes := List UInt8

abbrev Entry := Bytes

structure StateRow where
  table : String
  key : Bytes
  deriving DecidableEq, Repr

abbrev Rows := StateRow → Option Entry

/-- The operations of the framework's StateStorage that an executive uses. An absent
entry stands for a row that was never written or whose entry is deleted. -/
structure StateStorage where
  State : Type
  Recoder : Type
  getRow : State → StateRow → Option Entry
  setRow : State → Recoder → StateRow → Option Entry → State × Recoder
  newRecoder : State → Recoder
  recorded : Recoder → StateRow → Option (Option Entry)
  rollback : State → Recoder → State

namespace StateStorage

/-- What the rollback of a recoder would read at a row. -/
def undone (st : StateStorage) (s : st.State) (r : st.Recoder) : Rows :=
  fun row => (st.recorded r row).getD (st.getRow s row)

/-- A recoder notes the old value at the first write of a row, and a rollback restores
every value noted since the recoder was installed. -/
structure Lawful (st : StateStorage) : Prop where
  getRow_setRow : ∀ s r row entry,
    st.getRow (st.setRow s r row entry).1 = Function.update (st.getRow s) row entry
  recorded_newRecoder : ∀ s row, st.recorded (st.newRecoder s) row = none
  recorded_setRow : ∀ s r row entry row', st.recorded (st.setRow s r row entry).2 row' =
    (st.recorded r row').or (if row = row' then some (st.getRow s row') else none)
  getRow_rollback : ∀ s r, st.getRow (st.rollback s r) = st.undone s r

variable {st : StateStorage}

theorem Lawful.undone_newRecoder (h : st.Lawful) (s : st.State) :
    st.undone s (st.newRecoder s) = st.getRow s := by
  funext row
  simp [undone, h.recorded_newRecoder]

theorem Lawful.undone_setRow (h : st.Lawful) (s : st.State) (r : st.Recoder) (row : StateRow)
    (entry : Option Entry) :
    st.undone (st.setRow s r row entry).1 (st.setRow s r row entry).2 = st.undone s r := by
  funext row'
  simp only [undone, h.recorded_setRow, h.getRow_setRow]
  by_cases hr : row = row'
  · subst hr
    cases st.recorded r row <;> simp
  · cases st.recorded r row' <;> simp [hr, Function.update_of_ne (Ne.symm hr)]

end StateStorage

/-- A storage of the kind the framework's is: the recoder is a list of overwritten values. -/
@[reducible] def undoLogStorage : StateStorage where
  State := Rows
  Recoder := UndoLog.Log StateRow (Option Entry)
  getRow s row := s row
  setRow s r row entry := (Function.update s row entry, UndoLog.note s r row)
  newRecoder _ := []
  recorded := UndoLog.first
  rollback s r := UndoLog.undo r s

theorem undoLogStorage_lawful : undoLogStorage.Lawful where
  getRow_setRow _ _ _ _ := rfl
  recorded_newRecoder _ _ := rfl
  recorded_setRow s r row _ row' := UndoLog.first_note s r row row'
  getRow_rollback s r := funext fun row => UndoLog.undo_apply r s row

/-- The ideal storage: a recoder remembers the whole storage it was installed on. The log
is kept for comparison only. -/
structure Snapshot where
  started : Rows
  log : UndoLog.Log StateRow (Option Entry)

@[reducible] def snapshotStorage : StateStorage where
  State := Rows
  Recoder := Snapshot
  getRow s row := s row
  setRow s r row entry :=
    (Function.update s row entry, { r with log := UndoLog.note s r.log row })
  newRecoder s := ⟨s, []⟩
  recorded r := UndoLog.first r.log
  rollback _ r := r.started

end BcosExecutor
