import BcosExecutor.Accounts
import BcosExecutor.DagTransferCommutes
import BcosExecutor.HexAddresses
import Mathlib

namespace BcosExecutor

namespace DagTransfer

/-- The decimal strings are read back as they were written, and none of the codes of a refused
call is encoded as zero is. -/
structure Codec.Lawful (c : Codec) : Prop where
  toU256_str : ∀ n, c.toU256 (c.str n) = some n
  encode_ne : ∀ isWasm, ∀ code ∈ [CODE_INVALID_USER_NAME, CODE_INVALID_AMOUNT,
    CODE_INVALID_USER_NOT_EXIST, CODE_INVALID_USER_ALREADY_EXIST,
    CODE_INVALID_INSUFFICIENT_BALANCE, CODE_INVALID_BALANCE_OVERFLOW],
    c.encode isWasm code ≠ c.encode isWasm 0

/-- A call with its parameters as they are encoded. -/
inductive Operation
  | userAdd (data : Bytes)
  | userSave (data : Bytes)
  | userDraw (data : Bytes)
  | userTransfer (data : Bytes)
  | userBalance (data : Bytes)

/-- The entries of the users. -/
def table (rows : Rows) (user : Bytes) : Option Entry :=
  rows ⟨dagTableName, user⟩

section

variable (c : Codec) (isWasm : Bool)

/-- The balance that an entry stands for. -/
def balanceOf (entry : Entry) : Nat :=
  (c.toU256 entry).elim 0 BitVec.toNat

/-- Every entry is the decimal string of a balance. -/
def Readable (table : Bytes → Option Entry) : Prop :=
  ∀ user entry, table user = some entry → ∃ balance, c.toU256 entry = some balance

namespace Operation

def program : Operation → Script Empty Bytes
  | userAdd data => userAddCall c isWasm data
  | userSave data => userSaveCall c isWasm data
  | userDraw data => userDrawCall c isWasm data
  | userTransfer data => userTransferCall c isWasm data
  | userBalance data => userBalanceCall c isWasm data

def outcome (rows : Rows) (operation : Operation) : Option (Except Exc Bytes) :=
  ((operation.program c isWasm).onRows rows).1

def step (rows : Rows) (operation : Operation) : Rows :=
  keptRows (operation.program c isWasm) rows

/-- The code 0 came back, alone. -/
def succeeds (rows : Rows) (operation : Operation) : Bool :=
  match operation.outcome c isWasm rows with
  | some (.ok out) => out = c.encode isWasm 0
  | _ => false

def amount (data : Bytes) : Nat :=
  match c.decodeUserAmount isWasm data with
  | .ok (_, amount) => amount.toNat
  | .error _ => 0

/-- What a successful call pays in. -/
def deposited (rows : Rows) (operation : Operation) : Nat :=
  match operation with
  | userAdd data | userSave data =>
    if operation.succeeds c isWasm rows then amount c isWasm data else 0
  | _ => 0

/-- What a successful call takes out. -/
def withdrawn (rows : Rows) (operation : Operation) : Nat :=
  match operation with
  | userDraw data => if operation.succeeds c isWasm rows then amount c isWasm data else 0
  | _ => 0

end Operation

def after (rows : Rows) (operations : List Operation) : Rows :=
  operations.foldl (Operation.step c isWasm) rows

/-- The sum over the calls of a run. -/
def sumOf (count : Rows → Operation → Nat) : Rows → List Operation → Nat
  | _, [] => 0
  | rows, operation :: operations =>
    count rows operation + sumOf count (operation.step c isWasm rows) operations

end

variable {c : Codec} {isWasm : Bool} {rows : Rows}

theorem table_withTable (rows : Rows) : table (withTable rows) = table rows := by
  have hne : dagTableName ≠ sysTables := by decide
  funext user
  have hrow : (⟨dagTableName, user⟩ : StateRow) ≠ tableRow := fun h =>
    hne (congrArg StateRow.table h)
  unfold table withTable
  rw [Function.update_of_ne hrow]

theorem table_update (rows : Rows) (user : Bytes) (entry : Option Entry) :
    table (Function.update rows ⟨dagTableName, user⟩ entry) =
      Function.update (table rows) user entry := by
  funext user'
  unfold table
  by_cases h : user' = user
  · rw [h, Function.update_self, Function.update_self]
  · rw [Function.update_of_ne h, Function.update_of_ne fun hrow => h (congrArg StateRow.key hrow)]

/-- A call that is refused: the entries stay and no zero comes back. -/
def Refused (c : Codec) (isWasm : Bool) (rows : Rows) (program : Script Empty Bytes) : Prop :=
  (∃ e rows', program.onRows rows = (some (.error e), rows')) ∨
    ∃ code rows', c.encode isWasm code ≠ c.encode isWasm 0 ∧
      program.onRows rows = (some (.ok (c.encode isWasm code)), rows') ∧ table rows' = table rows

/-- A call that succeeds and leaves these entries. -/
def Leaves (c : Codec) (isWasm : Bool) (rows : Rows) (program : Script Empty Bytes)
    (table' : Bytes → Option Entry) : Prop :=
  ∃ rows', program.onRows rows = (some (.ok (c.encode isWasm 0)), rows') ∧ table rows' = table'

theorem refused_throw (e : Exc) : Refused c isWasm rows (.throw e) :=
  .inl ⟨e, rows, rfl⟩

theorem refused_code (hc : c.Lawful) {code : Int} (h : code ∈ [CODE_INVALID_USER_NAME,
    CODE_INVALID_AMOUNT, CODE_INVALID_USER_NOT_EXIST, CODE_INVALID_USER_ALREADY_EXIST,
    CODE_INVALID_INSUFFICIENT_BALANCE, CODE_INVALID_BALANCE_OVERFLOW]) :
    Refused c isWasm rows (pure (c.encode isWasm code)) :=
  .inr ⟨code, rows, hc.encode_ne isWasm code h, rfl, rfl⟩

theorem Refused.of_onRows {program program' : Script Empty Bytes} {rows' : Rows}
    (h : Refused c isWasm rows' program')
    (heq : program.onRows rows = program'.onRows rows') (htable : table rows' = table rows) :
    Refused c isWasm rows program := by
  rcases h with ⟨e, rows'', hrun⟩ | ⟨code, rows'', hcode, hrun, htable'⟩
  · exact .inl ⟨e, rows'', heq.trans hrun⟩
  · exact .inr ⟨code, rows'', hcode, heq.trans hrun, htable'.trans htable⟩

theorem Leaves.of_onRows {program program' : Script Empty Bytes} {rows' : Rows}
    {table' : Bytes → Option Entry} (h : Leaves c isWasm rows' program' table')
    (heq : program.onRows rows = program'.onRows rows') : Leaves c isWasm rows program table' := by
  obtain ⟨rows'', hrun, htable⟩ := h
  exact ⟨rows'', heq.trans hrun, htable⟩

theorem ofExcept_ok_bind {α : Type} (a : α) (f : α → Script Empty Bytes) :
    (ofExcept (.ok a) >>= f) = f a := rfl

theorem ofExcept_error_bind {α : Type} (e : Exc) (f : α → Script Empty Bytes) :
    (ofExcept (.error e) >>= f) = .throw e := rfl

theorem ofOption_some_bind {α : Type} (a : α) (f : α → Script Empty Bytes) :
    (ofOption (some a) >>= f) = f a := rfl

/-- The table is opened and an entry is read. -/
theorem lookUp_onRows {user : String} {entry : Option Entry}
    (hentry : table rows (ascii user) = entry) (f : Option Entry → Script Empty Bytes) :
    (openTable >>= fun _ => getBalance user >>= f).onRows rows =
      (f entry).onRows (withTable rows) := by
  rw [Script.onRows_bind, openTable_onRows]
  dsimp only
  rw [← hentry, ← table_withTable rows]
  rfl

theorem refused_lookUp {user : String} {entry : Option Entry}
    (hentry : table rows (ascii user) = entry) {f : Option Entry → Script Empty Bytes}
    (h : Refused c isWasm (withTable rows) (f entry)) :
    Refused c isWasm rows (openTable >>= fun _ => getBalance user >>= f) :=
  h.of_onRows (lookUp_onRows hentry f) (table_withTable rows)

theorem leaves_lookUp {user : String} {entry : Option Entry} {table' : Bytes → Option Entry}
    (hentry : table rows (ascii user) = entry) {f : Option Entry → Script Empty Bytes}
    (h : Leaves c isWasm (withTable rows) (f entry) table') :
    Leaves c isWasm rows (openTable >>= fun _ => getBalance user >>= f) table' :=
  h.of_onRows (lookUp_onRows hentry f)

theorem toNat_add {balance amount : U256} (h : ¬balance + amount < balance) :
    (balance + amount).toNat = balance.toNat + amount.toNat := by
  have hbalance := balance.isLt
  have hamount := amount.isLt
  rw [BitVec.lt_def, BitVec.toNat_add] at h
  rw [BitVec.toNat_add]
  omega

theorem toNat_sub {balance amount : U256} (h : ¬balance < amount) :
    (balance - amount).toNat + amount.toNat = balance.toNat := by
  have hle : amount.toNat ≤ balance.toNat := Nat.not_lt.mp fun hlt => h (BitVec.lt_def.mpr hlt)
  rw [BitVec.toNat_sub_of_le (BitVec.le_def.mpr hle)]
  omega

theorem valueAt_of_toU256 {user : Bytes} {entry : Entry} {balance : U256}
    (hentry : table rows user = some entry) (hbalance : c.toU256 entry = some balance) :
    Accounts.valueAt (balanceOf c) (table rows) user = balance.toNat := by
  unfold Accounts.valueAt balanceOf
  rw [hentry, Option.elim_some, hbalance]
  rfl

theorem valueAt_of_none {user : Bytes} (hentry : table rows user = none) :
    Accounts.valueAt (balanceOf c) (table rows) user = 0 := by
  unfold Accounts.valueAt
  rw [hentry]
  rfl

/-- The balance of a user is written at the end of a call. -/
theorem leaves_setBalance {table' : Bytes → Option Entry} (htable : table rows = table')
    (user : String) (balance : U256) :
    Leaves c isWasm rows (setBalance c user balance >>= fun _ => pure (c.encode isWasm 0))
      (Function.update table' (ascii user) (some (c.str balance))) :=
  ⟨_, rfl, htable ▸ table_update rows (ascii user) _⟩

/-- Two balances are written at the end of a call. -/
theorem leaves_setBalances {table' : Bytes → Option Entry} (htable : table rows = table')
    (user user' : String) (balance balance' : U256) :
    Leaves c isWasm rows
      (setBalance c user balance >>= fun _ => setBalance c user' balance' >>= fun _ =>
        pure (c.encode isWasm 0))
      (Function.update (Function.update table' (ascii user) (some (c.str balance)))
        (ascii user') (some (c.str balance'))) := by
  refine ⟨_, rfl, ?_⟩
  rw [table_update, table_update, htable]

theorem balanceOrAdd_none {user : String} (h : table rows (ascii user) = none)
    (f : U256 → Script Empty Bytes) :
    (balanceOrAdd c user >>= f).onRows rows =
      (f 0).onRows (Function.update rows ⟨dagTableName, ascii user⟩ (some (c.str 0))) := by
  refine Script.onRows_bind_of_ok ?_ f
  unfold balanceOrAdd getBalance
  rw [Script.onRows_bind, Script.onRows_get]
  dsimp only
  rw [show rows ⟨dagTableName, ascii user⟩ = none from h]
  rfl

theorem balanceOrAdd_some {user : String} {entry : Entry} {balance : U256}
    (h : table rows (ascii user) = some entry) (hbalance : c.toU256 entry = some balance)
    (f : U256 → Script Empty Bytes) :
    (balanceOrAdd c user >>= f).onRows rows = (f balance).onRows rows := by
  refine Script.onRows_bind_of_ok ?_ f
  unfold balanceOrAdd getBalance
  rw [Script.onRows_bind, Script.onRows_get]
  dsimp only
  rw [show rows ⟨dagTableName, ascii user⟩ = some entry from h]
  dsimp only
  rw [hbalance]
  rfl

/-- A balance that a call leaves is written for a user. -/
def Sets (c : Codec) (isWasm : Bool) (rows : Rows) (program : Script Empty Bytes) (user : Bytes)
    (balance : U256) : Prop :=
  Leaves c isWasm rows program (Function.update (table rows) user (some (c.str balance)))

theorem userAddCall_ends (hc : c.Lawful) (data : Bytes) (rows : Rows) :
    Refused c isWasm rows (userAddCall c isWasm data) ∨
      ∃ user amount, c.decodeUserAmount isWasm data = .ok (user, amount) ∧
        table rows (ascii user) = none ∧
        Sets c isWasm rows (userAddCall c isWasm data) (ascii user) amount := by
  unfold userAddCall
  cases hdecode : c.decodeUserAmount isWasm data with
  | error e => exact .inl (refused_throw e)
  | ok parameters =>
    obtain ⟨user, amount⟩ := parameters
    rw [ofExcept_ok_bind]
    dsimp only
    by_cases huser : user.isEmpty = true
    · rw [if_pos huser]
      exact .inl (refused_code hc (by decide))
    · rw [if_neg huser]
      cases hentry : table rows (ascii user) with
      | some entry =>
        exact .inl (refused_lookUp hentry (refused_code hc (by decide)))
      | none =>
        exact .inr ⟨user, amount, rfl, hentry,
          leaves_lookUp hentry (leaves_setBalance (table_withTable rows) user amount)⟩

theorem userSaveCall_ends (hc : c.Lawful) (data : Bytes) {rows : Rows}
    (hread : Readable c (table rows)) :
    Refused c isWasm rows (userSaveCall c isWasm data) ∨
      ∃ user amount balance, c.decodeUserAmount isWasm data = .ok (user, amount) ∧
        balance.toNat =
          Accounts.valueAt (balanceOf c) (table rows) (ascii user) + amount.toNat ∧
        Sets c isWasm rows (userSaveCall c isWasm data) (ascii user) balance := by
  unfold userSaveCall
  cases hdecode : c.decodeUserAmount isWasm data with
  | error e => exact .inl (refused_throw e)
  | ok parameters =>
    obtain ⟨user, amount⟩ := parameters
    rw [ofExcept_ok_bind]
    dsimp only
    by_cases huser : user.isEmpty = true
    · rw [if_pos huser]
      exact .inl (refused_code hc (by decide))
    · rw [if_neg huser]
      by_cases hamount : amount = 0
      · rw [if_pos hamount]
        exact .inl (refused_code hc (by decide))
      · rw [if_neg hamount]
        cases hentry : table rows (ascii user) with
        | none =>
          refine .inr ⟨user, amount, amount, rfl, ?_,
            leaves_lookUp hentry (leaves_setBalance (table_withTable rows) user amount)⟩
          rw [valueAt_of_none hentry, Nat.zero_add]
        | some entry =>
          obtain ⟨balance, hbalance⟩ := hread _ _ hentry
          by_cases hover : balance + amount < balance
          · refine .inl (refused_lookUp hentry ?_)
            dsimp only
            rw [hbalance, ofOption_some_bind, if_pos hover]
            exact refused_code hc (by decide)
          · refine .inr ⟨user, amount, balance + amount, rfl, ?_, leaves_lookUp hentry ?_⟩
            · rw [valueAt_of_toU256 hentry hbalance]
              exact toNat_add hover
            · dsimp only
              rw [hbalance, ofOption_some_bind, if_neg hover]
              exact leaves_setBalance (table_withTable rows) user (balance + amount)

theorem userDrawCall_ends (hc : c.Lawful) (data : Bytes) {rows : Rows}
    (hread : Readable c (table rows)) :
    Refused c isWasm rows (userDrawCall c isWasm data) ∨
      ∃ user amount balance, c.decodeUserAmount isWasm data = .ok (user, amount) ∧
        (table rows (ascii user)).isSome = true ∧
        balance.toNat + amount.toNat =
          Accounts.valueAt (balanceOf c) (table rows) (ascii user) ∧
        Sets c isWasm rows (userDrawCall c isWasm data) (ascii user) balance := by
  unfold userDrawCall
  cases hdecode : c.decodeUserAmount isWasm data with
  | error e => exact .inl (refused_throw e)
  | ok parameters =>
    obtain ⟨user, amount⟩ := parameters
    rw [ofExcept_ok_bind]
    dsimp only
    by_cases huser : user.isEmpty = true
    · rw [if_pos huser]
      exact .inl (refused_code hc (by decide))
    · rw [if_neg huser]
      by_cases hamount : amount = 0
      · rw [if_pos hamount]
        exact .inl (refused_code hc (by decide))
      · rw [if_neg hamount]
        cases hentry : table rows (ascii user) with
        | none => exact .inl (refused_lookUp hentry (refused_code hc (by decide)))
        | some entry =>
          obtain ⟨balance, hbalance⟩ := hread _ _ hentry
          by_cases hless : balance < amount
          · refine .inl (refused_lookUp hentry ?_)
            dsimp only
            rw [hbalance, ofOption_some_bind, if_pos hless]
            exact refused_code hc (by decide)
          · refine .inr ⟨user, amount, balance - amount, rfl, by rw [hentry]; rfl, ?_,
              leaves_lookUp hentry ?_⟩
            · rw [valueAt_of_toU256 hentry hbalance]
              exact toNat_sub hless
            · dsimp only
              rw [hbalance, ofOption_some_bind, if_neg hless]
              exact leaves_setBalance (table_withTable rows) user (balance - amount)

/-- What a transfer does when the payer has the amount: the payer is left with `left`. -/
def credit (c : Codec) (isWasm : Bool) (fromUser toUser : String) (left amount : U256) :
    Script Empty Bytes := do
  let toUserBalance ← balanceOrAdd c toUser
  if toUserBalance + amount < toUserBalance then
    return c.encode isWasm CODE_INVALID_BALANCE_OVERFLOW
  else do
    setBalance c fromUser left
    setBalance c toUser (toUserBalance + amount)
    return c.encode isWasm 0

/-- The receiver gets the amount, from nothing where there was no entry. -/
theorem credit_ends (hc : c.Lawful) (hread : Readable c (table rows)) {fromUser toUser : String}
    (hne : ascii toUser ≠ ascii fromUser) (left amount : U256) :
    Refused c isWasm rows (credit c isWasm fromUser toUser left amount) ∨ ∃ balance : U256,
      balance.toNat = Accounts.valueAt (balanceOf c) (table rows) (ascii toUser) + amount.toNat ∧
      Leaves c isWasm rows (credit c isWasm fromUser toUser left amount)
        (Function.update (Function.update (table rows) (ascii fromUser) (some (c.str left)))
          (ascii toUser) (some (c.str balance))) := by
  unfold credit
  cases hto : table rows (ascii toUser) with
  | none =>
    -- no amount is too much for a balance of nothing
    have hfits : ¬(0 : U256) + amount < 0 := BitVec.not_lt_zero
    refine .inr ⟨0 + amount, ?_, Leaves.of_onRows ?_ (balanceOrAdd_none hto _)⟩
    · rw [valueAt_of_none hto]
      exact toNat_add hfits
    · rw [if_neg hfits]
      have hleaves : Leaves c isWasm _ _ _ := leaves_setBalances
        (table_update rows (ascii toUser) (some (c.str 0))) fromUser toUser left (0 + amount)
      rwa [Function.update_comm hne, Function.update_idem] at hleaves
  | some entry =>
    obtain ⟨balance, hbalance⟩ := hread _ _ hto
    by_cases hover : balance + amount < balance
    · refine .inl (Refused.of_onRows ?_ (balanceOrAdd_some hto hbalance _) rfl)
      rw [if_pos hover]
      exact refused_code hc (by decide)
    · refine .inr ⟨balance + amount, ?_,
        Leaves.of_onRows ?_ (balanceOrAdd_some hto hbalance _)⟩
      · rw [valueAt_of_toU256 hto hbalance]
        exact toNat_add hover
      · rw [if_neg hover]
        exact leaves_setBalances rfl fromUser toUser left _

/-- An amount goes from one user to another one, who may be added on the way. -/
theorem userTransferCall_ends (hc : c.Lawful) (data : Bytes) {rows : Rows}
    (hread : Readable c (table rows)) :
    Refused c isWasm rows (userTransferCall c isWasm data) ∨
      Leaves c isWasm rows (userTransferCall c isWasm data) (table rows) ∨
      ∃ fromUser toUser fromBalance toBalance, toUser ≠ fromUser ∧
        (table rows fromUser).isSome = true ∧
        fromBalance.toNat + toBalance.toNat =
          Accounts.valueAt (balanceOf c) (table rows) fromUser +
            Accounts.valueAt (balanceOf c) (table rows) toUser ∧
        Leaves c isWasm rows (userTransferCall c isWasm data)
          (Function.update (Function.update (table rows) fromUser (some (c.str fromBalance)))
            toUser (some (c.str toBalance))) := by
  unfold userTransferCall
  cases hdecode : c.decodeTransfer isWasm data with
  | error e => exact .inl (refused_throw e)
  | ok parameters =>
    obtain ⟨fromUser, toUser, amount⟩ := parameters
    obtain ⟨hfromString, htoString⟩ := c.transfer_cppString _ _ _ _ _ hdecode
    rw [ofExcept_ok_bind]
    dsimp only
    by_cases hempty : (fromUser.isEmpty || toUser.isEmpty) = true
    · rw [if_pos hempty]
      exact .inl (refused_code hc (by decide))
    · rw [if_neg hempty]
      by_cases hamount : amount = 0
      · rw [if_pos hamount]
        exact .inl (refused_code hc (by decide))
      · rw [if_neg hamount]
        by_cases hself : fromUser = toUser
        · rw [if_pos hself]
          exact .inr (.inl ⟨rows, rfl, rfl⟩)
        · rw [if_neg hself]
          have hne : ascii toUser ≠ ascii fromUser := fun heq =>
            hself (AbiCaching.ascii_injective htoString hfromString heq).symm
          cases hfrom : table rows (ascii fromUser) with
          | none =>
            exact .inl (refused_lookUp hfrom (refused_code hc (by decide)))
          | some entry =>
            obtain ⟨fromBalance, hfromBalance⟩ := hread _ _ hfrom
            by_cases hless : fromBalance < amount
            · refine .inl (refused_lookUp hfrom ?_)
              dsimp only
              rw [hfromBalance, ofOption_some_bind, if_pos hless]
              exact refused_code hc (by decide)
            · have hrun : ∀ f : U256 → Script Empty Bytes,
                  (ofOption (c.toU256 entry) >>= f) = f fromBalance := fun f => by
                rw [hfromBalance, ofOption_some_bind]
              have hread' : Readable c (table (withTable rows)) := by
                rw [table_withTable]
                exact hread
              rcases credit_ends hc hread' hne (fromBalance - amount) amount with
                hrefused | ⟨toBalance, hbalance, hleaves⟩
              · refine .inl (refused_lookUp hfrom ?_)
                dsimp only
                rw [hrun, if_neg hless]
                exact hrefused
              · rw [table_withTable] at hbalance hleaves
                refine .inr (.inr ⟨ascii fromUser, ascii toUser, fromBalance - amount, toBalance,
                  hne, by rw [hfrom]; rfl, ?_, leaves_lookUp hfrom ?_⟩)
                · rw [valueAt_of_toU256 hfrom hfromBalance, ← toNat_sub hless]
                  omega
                · dsimp only
                  rw [hrun, if_neg hless]
                  exact hleaves

theorem Refused.table_keptRows {program : Script Empty Bytes} (h : Refused c isWasm rows program) :
    table (keptRows program rows) = table rows := by
  rw [keptRows_eq]
  rcases h with ⟨e, rows', hrun⟩ | ⟨code, rows', -, hrun, htable⟩
  · rw [hrun]
    rfl
  · rw [hrun]
    exact htable

theorem Leaves.table_keptRows {program : Script Empty Bytes} {table' : Bytes → Option Entry}
    (h : Leaves c isWasm rows program table') : table (keptRows program rows) = table' := by
  obtain ⟨rows', hrun, htable⟩ := h
  rw [keptRows_eq, hrun]
  exact htable

namespace Operation

variable {operation : Operation}

theorem succeeds_of_refused (h : Refused c isWasm rows (operation.program c isWasm)) :
    operation.succeeds c isWasm rows = false := by
  unfold succeeds outcome
  rcases h with ⟨e, rows', hrun⟩ | ⟨code, rows', hcode, hrun, -⟩
  · rw [hrun]
  · rw [hrun]
    exact decide_eq_false hcode

theorem succeeds_of_leaves {table' : Bytes → Option Entry}
    (h : Leaves c isWasm rows (operation.program c isWasm) table') :
    operation.succeeds c isWasm rows = true := by
  unfold succeeds outcome
  obtain ⟨rows', hrun, -⟩ := h
  rw [hrun]
  exact decide_eq_true rfl

theorem amount_of_decode {data : Bytes} {user : String} {value : U256}
    (h : c.decodeUserAmount isWasm data = .ok (user, value)) :
    amount c isWasm data = value.toNat := by
  unfold amount
  rw [h]

end Operation

/-- The users who have entries, each of which is the decimal string of a balance. -/
structure Ledger (c : Codec) (rows : Rows) (users : Finset Bytes) : Prop where
  holds : Accounts.Holds (table rows) users
  written : ∀ user entry, table rows user = some entry → ∃ balance : U256, entry = c.str balance

def sumOfBalances (c : Codec) (rows : Rows) (users : Finset Bytes) : Nat :=
  Accounts.total (balanceOf c) (table rows) users

theorem balanceOf_str (hc : c.Lawful) (balance : U256) :
    balanceOf c (c.str balance) = balance.toNat := by
  unfold balanceOf
  rw [hc.toU256_str]
  rfl

variable {users : Finset Bytes}

theorem Ledger.readable (hc : c.Lawful) (h : Ledger c rows users) : Readable c (table rows) := by
  intro user entry hentry
  obtain ⟨balance, rfl⟩ := h.written user entry hentry
  exact ⟨balance, hc.toU256_str balance⟩

theorem Ledger.congr {rows' : Rows} (h : Ledger c rows users) (htable : table rows' = table rows) :
    Ledger c rows' users := by
  refine ⟨?_, ?_⟩
  · rw [htable]
    exact h.holds
  · rw [htable]
    exact h.written

theorem ledger_empty (h : ∀ user, table rows user = none) : Ledger c rows ∅ := by
  refine ⟨fun user => ?_, fun user entry hentry => ?_⟩
  · rw [h user]
    exact ⟨fun hmem => absurd hmem (Finset.notMem_empty user), fun hsome => by cases hsome⟩
  · rw [h user] at hentry
    cases hentry

theorem sumOfBalances_congr {rows' : Rows} (htable : table rows' = table rows) :
    sumOfBalances c rows' users = sumOfBalances c rows users := by
  unfold sumOfBalances
  rw [htable]

section

variable {rows' : Rows} {user : Bytes} {balance : U256}

theorem Ledger.put (h : Ledger c rows users)
    (htable : table rows' = Function.update (table rows) user (some (c.str balance))) :
    Ledger c rows' (insert user users) := by
  refine ⟨?_, fun user' entry hentry => ?_⟩
  · rw [htable]
    exact Accounts.holds_update h.holds user _
  · rw [htable] at hentry
    by_cases huser : user' = user
    · rw [huser, Function.update_self] at hentry
      exact ⟨balance, (Option.some.inj hentry).symm⟩
    · rw [Function.update_of_ne huser] at hentry
      exact h.written user' entry hentry

theorem sumOfBalances_put (hc : c.Lawful) (h : Ledger c rows users)
    (htable : table rows' = Function.update (table rows) user (some (c.str balance))) :
    sumOfBalances c rows' (insert user users) +
        Accounts.valueAt (balanceOf c) (table rows) user =
      sumOfBalances c rows users + balance.toNat := by
  have htotal := Accounts.total_update (balanceOf c) h.holds user (c.str balance)
  rw [balanceOf_str hc] at htotal
  unfold sumOfBalances
  rw [htable]
  exact htotal

end

/-- The entries after a call are those of users whose balances are the ones before, with what was
paid in and without what was taken out. -/
def Accounted (c : Codec) (isWasm : Bool) (rows : Rows) (users : Finset Bytes)
    (operation : Operation) : Prop :=
  ∃ users', Ledger c (operation.step c isWasm rows) users' ∧
    sumOfBalances c (operation.step c isWasm rows) users' +
        operation.withdrawn c isWasm rows =
      sumOfBalances c rows users + operation.deposited c isWasm rows

theorem accounted_of_table {operation : Operation} (h : Ledger c rows users)
    (htable : table (operation.step c isWasm rows) = table rows)
    (hdeposited : operation.deposited c isWasm rows = 0)
    (hwithdrawn : operation.withdrawn c isWasm rows = 0) :
    Accounted c isWasm rows users operation := by
  refine ⟨users, h.congr htable, ?_⟩
  rw [sumOfBalances_congr htable, hdeposited, hwithdrawn]

theorem accounted_of_refused {operation : Operation} (h : Ledger c rows users)
    (hrefused : Refused c isWasm rows (operation.program c isWasm)) :
    Accounted c isWasm rows users operation := by
  have hfails := Operation.succeeds_of_refused hrefused
  refine accounted_of_table h hrefused.table_keptRows ?_ ?_
  · cases operation <;> simp [Operation.deposited, hfails]
  · cases operation <;> simp [Operation.withdrawn, hfails]

/-- What a call leaves in the entry that it writes is what it accounts for. -/
theorem accounted_of_sets (hc : c.Lawful) (h : Ledger c rows users) {operation : Operation}
    {user : Bytes} {balance : U256}
    (hsets : Sets c isWasm rows (operation.program c isWasm) user balance)
    (hbalance : operation.succeeds c isWasm rows = true →
      balance.toNat + operation.withdrawn c isWasm rows =
        Accounts.valueAt (balanceOf c) (table rows) user + operation.deposited c isWasm rows) :
    Accounted c isWasm rows users operation := by
  have htable : table (operation.step c isWasm rows) = _ := hsets.table_keptRows
  have hsum := sumOfBalances_put hc h htable
  have hcounted := hbalance (Operation.succeeds_of_leaves hsets)
  refine ⟨_, h.put htable, ?_⟩
  omega

theorem accounted_userAdd (hc : c.Lawful) (h : Ledger c rows users) (data : Bytes) :
    Accounted c isWasm rows users (.userAdd data) := by
  rcases userAddCall_ends hc data rows with hrefused | ⟨user, amount, hdecode, hnone, hsets⟩
  · exact accounted_of_refused h hrefused
  refine accounted_of_sets hc h hsets fun hok => ?_
  unfold Operation.withdrawn Operation.deposited
  dsimp only
  rw [if_pos hok, Operation.amount_of_decode hdecode, valueAt_of_none hnone, Nat.zero_add]
  rfl

theorem accounted_userSave (hc : c.Lawful) (h : Ledger c rows users) (data : Bytes) :
    Accounted c isWasm rows users (.userSave data) := by
  rcases userSaveCall_ends hc data (h.readable hc) with
    hrefused | ⟨user, amount, balance, hdecode, hbalance, hsets⟩
  · exact accounted_of_refused h hrefused
  refine accounted_of_sets hc h hsets fun hok => ?_
  unfold Operation.withdrawn Operation.deposited
  dsimp only
  rw [if_pos hok, Operation.amount_of_decode hdecode]
  exact hbalance

theorem accounted_userDraw (hc : c.Lawful) (h : Ledger c rows users) (data : Bytes) :
    Accounted c isWasm rows users (.userDraw data) := by
  rcases userDrawCall_ends hc data (h.readable hc) with
    hrefused | ⟨user, amount, balance, hdecode, -, hbalance, hsets⟩
  · exact accounted_of_refused h hrefused
  refine accounted_of_sets hc h hsets fun hok => ?_
  unfold Operation.withdrawn Operation.deposited
  dsimp only
  rw [if_pos hok, Operation.amount_of_decode hdecode]
  exact hbalance

theorem accounted_userTransfer (hc : c.Lawful) (h : Ledger c rows users) (data : Bytes) :
    Accounted c isWasm rows users (.userTransfer data) := by
  rcases userTransferCall_ends hc data (h.readable hc) with
    hrefused | hself | ⟨fromUser, toUser, fromBalance, toBalance, hne, hfrom, hbalances, hleaves⟩
  · exact accounted_of_refused h hrefused
  · exact accounted_of_table h hself.table_keptRows rfl rfl
  -- the entry of the payer is written first, over rows that hold nothing else
  have hpaid : table (Function.update rows ⟨dagTableName, fromUser⟩ (some (c.str fromBalance))) =
      Function.update (table rows) fromUser (some (c.str fromBalance)) := table_update rows _ _
  have htable : table ((Operation.userTransfer data).step c isWasm rows) = _ :=
    hleaves.table_keptRows
  rw [← hpaid] at htable
  have hfirst := sumOfBalances_put hc h hpaid
  have hsecond := sumOfBalances_put hc (h.put hpaid) htable
  rw [hpaid, Accounts.valueAt_update_of_ne hne] at hsecond
  refine ⟨_, (h.put hpaid).put htable, ?_⟩
  show _ + 0 = _ + 0
  omega

/-- A balance is asked for: the entries stay, whatever comes back. -/
theorem table_userBalance (data : Bytes) :
    table ((Operation.userBalance data).step c isWasm rows) = table rows := by
  refine keptRows_invariant (p := fun rows' => table rows' = table rows) rfl
    fun out rows' hrun _ => ?_
  unfold Operation.program userBalanceCall at hrun
  dsimp only at hrun
  cases hdecode : c.decodeUser isWasm data with
  | error e =>
    rw [hdecode, ofExcept_error_bind] at hrun
    cases hrun
    rfl
  | ok user =>
    rw [hdecode, ofExcept_ok_bind] at hrun
    by_cases huser : user.isEmpty = true
    · rw [if_pos huser] at hrun
      cases hrun
      rfl
    · rw [if_neg huser, lookUp_onRows rfl] at hrun
      have hreads : rows' = withTable rows := by
        cases hentry : table rows (ascii user) with
        | none =>
          rw [hentry] at hrun
          exact (congrArg Prod.snd hrun).symm
        | some entry =>
          rw [hentry] at hrun
          dsimp only at hrun
          cases hbalance : c.toU256 entry with
          | none =>
            rw [hbalance] at hrun
            exact (congrArg Prod.snd hrun).symm
          | some balance =>
            rw [hbalance] at hrun
            exact (congrArg Prod.snd hrun).symm
      rw [hreads, table_withTable]

theorem accounted (hc : c.Lawful) (h : Ledger c rows users) (operation : Operation) :
    Accounted c isWasm rows users operation := by
  cases operation with
  | userAdd data => exact accounted_userAdd hc h data
  | userSave data => exact accounted_userSave hc h data
  | userDraw data => exact accounted_userDraw hc h data
  | userTransfer data => exact accounted_userTransfer hc h data
  | userBalance data => exact accounted_of_table h (table_userBalance data) rfl rfl

theorem table_of_not_succeeds (hc : c.Lawful) (h : Ledger c rows users) {operation : Operation}
    (hfails : operation.succeeds c isWasm rows = false) :
    table (operation.step c isWasm rows) = table rows := by
  have hread := h.readable hc
  have hends : Refused c isWasm rows (operation.program c isWasm) ∨
      (∃ table', Leaves c isWasm rows (operation.program c isWasm) table') ∨
      ∃ data, operation = .userBalance data := by
    cases operation with
    | userAdd data =>
      rcases userAddCall_ends hc data rows with hrefused | ⟨_, _, _, _, hsets⟩
      · exact .inl hrefused
      · exact .inr (.inl ⟨_, hsets⟩)
    | userSave data =>
      rcases userSaveCall_ends hc data hread with hrefused | ⟨_, _, _, _, _, hsets⟩
      · exact .inl hrefused
      · exact .inr (.inl ⟨_, hsets⟩)
    | userDraw data =>
      rcases userDrawCall_ends hc data hread with hrefused | ⟨_, _, _, _, _, _, hsets⟩
      · exact .inl hrefused
      · exact .inr (.inl ⟨_, hsets⟩)
    | userTransfer data =>
      rcases userTransferCall_ends hc data hread with
        hrefused | hself | ⟨_, _, _, _, _, _, _, hleaves⟩
      · exact .inl hrefused
      · exact .inr (.inl ⟨_, hself⟩)
      · exact .inr (.inl ⟨_, hleaves⟩)
    | userBalance data => exact .inr (.inr ⟨data, rfl⟩)
  rcases hends with hrefused | ⟨table', hleaves⟩ | ⟨data, rfl⟩
  · exact hrefused.table_keptRows
  · rw [Operation.succeeds_of_leaves hleaves] at hfails
    cases hfails
  · exact table_userBalance data

theorem after_ledger (hc : c.Lawful) (isWasm : Bool) (operations : List Operation)
    {rows : Rows} {users : Finset Bytes} (h : Ledger c rows users) :
    ∃ users', Ledger c (after c isWasm rows operations) users' ∧
      sumOfBalances c (after c isWasm rows operations) users' +
          sumOf c isWasm (fun rows operation => operation.withdrawn c isWasm rows) rows
            operations =
        sumOfBalances c rows users +
          sumOf c isWasm (fun rows operation => operation.deposited c isWasm rows) rows
            operations := by
  induction operations generalizing rows users with
  | nil => exact ⟨users, h, rfl⟩
  | cons operation operations ih =>
    obtain ⟨users', hledger, hstep⟩ : Accounted c isWasm rows users operation :=
      accounted hc h operation
    obtain ⟨users'', hledger', hrest⟩ := ih hledger
    refine ⟨users'', hledger', ?_⟩
    unfold after at hrest ⊢
    rw [List.foldl_cons]
    unfold sumOf
    omega

/-- The function that a call names. -/
def called (c : Codec) (func : UInt32) (data : Bytes) : Option Operation :=
  if func = c.getFuncSelector METHOD_ADD_STR_UINT then some (.userAdd data)
  else if func = c.getFuncSelector METHOD_SAV_STR_UINT then some (.userSave data)
  else if func = c.getFuncSelector METHOD_DRAW_STR_UINT then some (.userDraw data)
  else if func = c.getFuncSelector METHOD_TRS_STR2_UINT then some (.userTransfer data)
  else if func = c.getFuncSelector METHOD_BAL_STR then some (.userBalance data)
  else none

theorem dispatch_eq (func : UInt32) (data : Bytes) :
    dispatch c isWasm func data =
      (called c func data).elim (pure []) (Operation.program c isWasm) := by
  unfold dispatch called
  by_cases hadd : func = c.getFuncSelector METHOD_ADD_STR_UINT
  · rw [if_pos hadd, if_pos hadd]
    rfl
  rw [if_neg hadd, if_neg hadd]
  by_cases hsave : func = c.getFuncSelector METHOD_SAV_STR_UINT
  · rw [if_pos hsave, if_pos hsave]
    rfl
  rw [if_neg hsave, if_neg hsave]
  by_cases hdraw : func = c.getFuncSelector METHOD_DRAW_STR_UINT
  · rw [if_pos hdraw, if_pos hdraw]
    rfl
  rw [if_neg hdraw, if_neg hdraw]
  by_cases htransfer : func = c.getFuncSelector METHOD_TRS_STR2_UINT
  · rw [if_pos htransfer, if_pos htransfer]
    rfl
  rw [if_neg htransfer, if_neg htransfer]
  by_cases hbalance : func = c.getFuncSelector METHOD_BAL_STR
  · rw [if_pos hbalance, if_pos hbalance]
    rfl
  · rw [if_neg hbalance, if_neg hbalance]
    rfl

/-- A message to the contract is the call of the function that it names. -/
theorem getRow_onMessage {st : StateStorage} (h : st.Lawful) {env : Environment}
    {p : CallParameters} {func : UInt32} (hp : env.isPrecompiled p.codeAddress = true)
    (hcreate : p.create = false) (hfunc : getParamFunc p.data = .ok func) (s : st.State) :
    st.getRow (onMessage st env c p s).storage =
      (called c func (getParamData p.data)).elim (st.getRow s)
        (Operation.step c env.isWasm (st.getRow s)) := by
  have hrows := precompiled_message h env hp hcreate .abort
    (dispatch c env.isWasm func (getParamData p.data)) priced s
  unfold onMessage call
  rw [hfunc]
  refine hrows.trans ?_
  rw [dispatch_eq]
  cases called c func (getParamData p.data) with
  | none => rfl
  | some operation => rfl

/-- From a ledger, and an empty one is one, any calls lead to a ledger whose balances are the ones
at the start, with what the successful calls paid in and without what they took out. In it a
transfer leaves the sum, and a call that returns another code than 0 leaves every entry. -/
theorem balances_conserved (hc : c.Lawful) (isWasm : Bool) {rows : Rows} {users : Finset Bytes}
    (h : Ledger c rows users) (operations : List Operation) :
    ∃ users', Ledger c (after c isWasm rows operations) users' ∧
      (∀ user entry, table (after c isWasm rows operations) user = some entry →
        ∃ balance : U256, entry = c.str balance ∧ balanceOf c entry = balance.toNat ∧
          balance.toNat < 2 ^ 256) ∧
      sumOfBalances c (after c isWasm rows operations) users' +
          sumOf c isWasm (fun rows operation => operation.withdrawn c isWasm rows) rows
            operations =
        sumOfBalances c rows users +
          sumOf c isWasm (fun rows operation => operation.deposited c isWasm rows) rows
            operations ∧
      (∀ data, ∃ users'',
        Ledger c (after c isWasm rows (operations ++ [.userTransfer data])) users'' ∧
        sumOfBalances c (after c isWasm rows (operations ++ [.userTransfer data])) users'' =
          sumOfBalances c (after c isWasm rows operations) users') ∧
      ∀ operation : Operation,
        (operation.succeeds c isWasm (after c isWasm rows operations) = false ∨
          ∃ data, operation = .userBalance data) →
        table (after c isWasm rows (operations ++ [operation])) =
          table (after c isWasm rows operations) := by
  obtain ⟨users', hledger, hsum⟩ := after_ledger hc isWasm operations h
  have hlast (operation : Operation) : after c isWasm rows (operations ++ [operation]) =
      operation.step c isWasm (after c isWasm rows operations) :=
    List.foldl_append
  refine ⟨users', hledger, fun user entry hentry => ?_, hsum, fun data => ?_,
    fun operation hfails => ?_⟩
  · obtain ⟨balance, rfl⟩ := hledger.written user entry hentry
    exact ⟨balance, rfl, balanceOf_str hc balance, balance.isLt⟩
  · rw [hlast]
    exact accounted hc hledger (.userTransfer data)
  · rw [hlast]
    rcases hfails with hfails | ⟨data, rfl⟩
    · exact table_of_not_succeeds hc hledger hfails
    · exact table_userBalance data

theorem abiCodec_lawful : abiCodec.Lawful := by
  refine ⟨fun n => ?_, fun isWasm code hcode => ?_⟩
  · have hchars : ∀ c ∈ (Nat.repr n.toNat).toList, c.toNat < 256 := by
      intro c hc
      rw [Nat.toList_repr] at hc
      have hdigit := Nat.isDigit_of_mem_toDigits (by decide) (by decide) hc
      have hle : c.toNat ≤ 57 := (Bool.and_eq_true_iff.mp hdigit).2 |> of_decide_eq_true
      omega
    show (bytesToString (ascii (Nat.repr n.toNat))).toNat?.map (BitVec.ofNat 256) = some n
    rw [bytesToString_ascii hchars, Nat.toNat?_repr, Option.map_some, BitVec.ofNat_toNat,
      BitVec.setWidth_eq]
  · have hcodes : ∀ code ∈ [CODE_INVALID_USER_NAME, CODE_INVALID_AMOUNT,
        CODE_INVALID_USER_NOT_EXIST, CODE_INVALID_USER_ALREADY_EXIST,
        CODE_INVALID_INSUFFICIENT_BALANCE, CODE_INVALID_BALANCE_OVERFLOW],
        toWord (BitVec.ofInt 256 code).toNat ≠ toWord (BitVec.ofInt 256 0).toNat := by
      decide +kernel
    exact hcodes code hcode

/-- A name of one byte, as it is encoded. -/
def encodedName (name : UInt8) : Bytes :=
  toWord 1 ++ (name :: List.replicate 31 0)

def encodedUserAmount (name : UInt8) (amount : Nat) : Bytes :=
  toWord 64 ++ toWord amount ++ encodedName name

def encodedTransfer (fromUser toUser : UInt8) (amount : Nat) : Bytes :=
  toWord 96 ++ toWord 160 ++ toWord amount ++ encodedName fromUser ++ encodedName toUser

/-- A user is added, once, and pays itself. -/
def payments : List Operation :=
  [.userAdd (encodedUserAmount 97 5), .userAdd (encodedUserAmount 97 7),
    .userTransfer (encodedTransfer 97 97 3)]

theorem balances_conserved_payments :
    (∃ users, Ledger abiCodec (after abiCodec false (fun _ => none) payments) users ∧
      sumOfBalances abiCodec (after abiCodec false (fun _ => none) payments) users = 5) ∧
      table (after abiCodec false (fun _ => none)
          (payments ++ [.userDraw (encodedUserAmount 98 2)])) =
        table (after abiCodec false (fun _ => none) payments) := by
  have hempty : Ledger abiCodec (fun _ => none) ∅ := ledger_empty fun _ => rfl
  obtain ⟨users, hledger, -, hsum, -, hkept⟩ :=
    balances_conserved abiCodec_lawful false hempty payments
  have hwithdrawn : sumOf abiCodec false
      (fun rows operation => operation.withdrawn abiCodec false rows) (fun _ => none)
      payments = 0 := by decide +kernel
  have hdeposited : sumOf abiCodec false
      (fun rows operation => operation.deposited abiCodec false rows) (fun _ => none)
      payments = 5 := by decide +kernel
  have hfails : (Operation.userDraw (encodedUserAmount 98 2)).succeeds abiCodec false
      (after abiCodec false (fun _ => none) payments) = false := by decide +kernel
  rw [hwithdrawn, hdeposited] at hsum
  exact ⟨⟨users, hledger, hsum⟩, hkept _ (.inl hfails)⟩

end DagTransfer

end BcosExecutor
