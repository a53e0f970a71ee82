import BcosExecutor.CodeIntegrity

namespace BcosExecutor

open TransactionExecutive

variable {st : StateStorage} {α β : Type}

def CodeKey (key : Bytes) : Prop :=
  key ∈ [ACCOUNT_CODE, ACCOUNT_CODE_HASH, ACCOUNT_ABI]

instance (key : Bytes) : Decidable (CodeKey key) := by
  unfold CodeKey
  infer_instance

/-- The rows that hold the code of a contract, in any table but that of the tables. -/
def CodeRow (row : StateRow) : Prop :=
  row.table ≠ sysTables ∧ CodeKey row.key

/-- What one executive respects: the tables that others created and the rows of all code. -/
structure CodeFrame (st : StateStorage) (held : Bytes → Prop) (base : Rows)
    (e : Executive st) : Prop where
  held_table : ∀ key, held key → (st.getRow e.storage ⟨sysTables, key⟩).isSome ∧
    st.recorded e.recoder ⟨sysTables, key⟩ = none
  created : ∀ key, (st.recorded e.recoder ⟨sysTables, key⟩).isSome →
    (st.getRow e.storage ⟨sysTables, key⟩).isSome
  unrecorded : ∀ row, CodeRow row → st.recorded e.recoder row = none
  code : ∀ row, CodeRow row → st.getRow e.storage row = base row

/-- A program that takes every executive of the property to one of the property. -/
def Keeps (P : Executive st → Prop) (m : Script Empty α) : Prop :=
  ∀ e, P e → P (m.run (noCalls st) e).2

variable {P : Executive st → Prop}

theorem keeps_pure (a : α) : Keeps P (pure a : Script Empty α) :=
  fun _ h => h

theorem keeps_throw (x : Exc) : Keeps P (.throw x : Script Empty α) :=
  fun _ h => h

theorem keeps_abort : Keeps P (.abort : Script Empty α) :=
  fun _ h => h

theorem keeps_getRow (table : String) (key : Bytes) :
    Keeps P (getRow table key : Script Empty (Option Entry)) :=
  fun _ h => h

theorem keeps_bind {m : Script Empty α} {f : α → Script Empty β} (hm : Keeps P m)
    (hf : ∀ a, Keeps P (f a)) : Keeps P (m >>= f) := by
  intro e h
  have hP := hm e h
  rw [Script.run_bind]
  generalize m.run (noCalls st) e = r at hP
  match r with
  | (some (.ok a), e') => exact hf a e' hP
  | (some (.error x), e') => exact hP
  | (none, e') => exact hP

theorem keeps_attempt {m : Script Empty α} (hm : Keeps P m) : Keeps P m.attempt := by
  intro e h
  rw [Script.run_attempt]
  exact hm e h

theorem keeps_openTable (tableName : String) :
    Keeps P (openTable tableName : Script Empty Bool) :=
  keeps_bind (keeps_getRow _ _) fun _ => keeps_pure _

section CodeFrame

variable {held : Bytes → Prop} {base : Rows}

end CodeFrame

/-- The names of the tables that a contract owns start with a slash. -/
def Rooted (tableName : String) : Prop :=
  tableName.toList.head? = some '/'

theorem rooted_append {s : String} (hs : Rooted s) (t : String) : Rooted (s ++ t) := by
  unfold Rooted at *
  rw [String.toList_append, List.head?_append, hs]
  rfl

theorem rooted_ne {s : String} (hs : Rooted s) : s ≠ sysTables := by
  intro heq
  subst heq
  revert hs
  unfold Rooted
  decide

variable {held : Bytes → Prop} {base : Rows}

/-- The access table is made by one creation and by writes to its four rows. -/
theorem keeps_creatAuthTable {context : BlockContext} {tableName sender : String} (origin : String)
    (hcreate : Keeps P
      (createTable (tableName ++ CONTRACT_SUFFIX) STORAGE_VALUE : Script Empty Unit))
    (hset : ("/sys/".toList.isPrefixOf tableName.toList || "/sys/".toList.isPrefixOf
      (getContractTableName context sender).toList) = false →
        ∀ key ∈ [ADMIN_FIELD, METHOD_AUTH_TYPE, METHOD_AUTH_WHITE, METHOD_AUTH_BLACK], ∀ entry,
          Keeps P (setRow (tableName ++ CONTRACT_SUFFIX) key entry : Script Empty Unit)) :
    Keeps P (creatAuthTable context tableName origin sender : Script Empty Unit) := by
  unfold creatAuthTable
  dsimp only
  split
  next => exact keeps_pure ()
  next hplain =>
    replace hset := hset (Bool.eq_false_iff.mpr hplain)
    have hrows : ∀ admin : Bytes, Keeps P (do
        createTable (tableName ++ CONTRACT_SUFFIX) STORAGE_VALUE
        setRow (tableName ++ CONTRACT_SUFFIX) ADMIN_FIELD admin
        setRow (tableName ++ CONTRACT_SUFFIX) METHOD_AUTH_TYPE []
        setRow (tableName ++ CONTRACT_SUFFIX) METHOD_AUTH_WHITE []
        setRow (tableName ++ CONTRACT_SUFFIX) METHOD_AUTH_BLACK [] : Script Empty Unit) := by
      intro admin
      refine keeps_bind hcreate fun _ => ?_
      refine keeps_bind (hset _ (by simp) _) fun _ => ?_
      refine keeps_bind (hset _ (by simp) _) fun _ => ?_
      refine keeps_bind (hset _ (by simp) _) fun _ => ?_
      exact hset _ (by simp) _
    split
    next =>
      refine keeps_bind (keeps_getRow _ _) fun entry => ?_
      cases entry with
      | some admin => exact hrows admin
      | none => exact keeps_abort
    next => exact hrows _

end BcosExecutor
