import BcosExecutor.Coroutine
import Mathlib.Data.Set.Insert

namespace BcosExecutor

theorem ascii_bytesToString (bytes : Bytes) : ascii (bytesToString bytes) = bytes := by
  unfold ascii bytesToString
  rw [String.toList_ofList, List.map_map]
  refine (List.map_congr_left fun byte _ => ?_).trans (List.map_id bytes)
  have hlt : byte.toNat < 256 := byte.toNat_lt
  have hvalid : byte.toNat.isValidChar := .inl (by omega)
  show ((Char.ofNat byte.toNat).toNat).toUInt8 = byte
  unfold Char.ofNat
  rw [dif_pos hvalid]
  exact UInt8.ofNat_toNat

namespace Access

variable {κ α β : Type}

/-- It ends without another access or call. -/
def Silent : Access κ α → Prop
  | pure _ | throw _ | abort => True
  | access _ _ _ _ | externalCall _ _ _ => False

/-- An exception comes out of it. -/
def Fails : Access κ α → Prop
  | throw _ | abort => True
  | pure _ | access _ _ _ _ | externalCall _ _ _ => False

/-- With these keys locked a program reaches by tables only what it has locked, and `Q` holds of
what follows an exception of the wrapper. -/
def Locking (Q : Access κ α → Prop) : Set Bytes → Access κ α → Prop
  | _, pure _ | _, throw _ | _, abort => True
  | keys, access way _ row k =>
    (way = .table → row.key ∈ keys) ∧
      (∀ entry, (k (.ok entry)).Locking Q (insert row.key keys)) ∧ ∀ x, Q (k (.error x))
  | keys, externalCall _ _ k => ∀ response, (k response).Locking Q keys

theorem Locking.mono {Q : Access κ α → Prop} {m : Access κ α} {keys keys' : Set Bytes}
    (hm : m.Locking Q keys) (hsub : keys ⊆ keys') : m.Locking Q keys' := by
  induction m generalizing keys keys' with
  | pure a => trivial
  | throw x => trivial
  | abort => trivial
  | access way operation row k ih =>
    obtain ⟨htable, hok, herror⟩ := hm
    exact ⟨fun hway => hsub (htable hway),
      fun entry => ih _ (hok entry) (Set.insert_subset_insert hsub), herror⟩
  | externalCall callee request k ih => exact fun response => ih response (hm response) hsub

end Access

open Access

variable {κ : Type} {st : StateStorage}

theorem ascii_keyLocks (keys : List Bytes) : (keys.map bytesToString).map ascii = keys := by
  rw [List.map_map]
  exact (List.map_congr_left fun key _ => ascii_bytesToString key).trans (List.map_id keys)

/-- What the coroutine goes on with keeps to the locks. -/
def Awaiting.Locking (keys : Set Bytes) : Awaiting κ → Prop
  | externalCall k => ∀ response, (k response).Locking Silent keys
  | keyLock _ row k =>
    (∀ entry, (k (.ok entry)).Locking Silent (insert row.key keys)) ∧ ∀ x, (k (.error x)).Silent

/-- An executive that waits, where `keys` are the locks that it has reported. -/
structure Waiting (keys : Set Bytes) (recoder : st.Recoder) (wrapper : SyncStorageWrapper)
    (awaiting : Awaiting κ) : Prop where
  recorded : ∀ row, (st.recorded recoder row).isSome → row.key ∈ keys
  exported : wrapper.myKeyLocks = []
  locking : awaiting.Locking keys

/-- An executive at work from the storage `s`: it has reported `mine`, and `others` is what it
must not touch. -/
structure Working.Within (mine others : Set Bytes) (s : st.State) (e : Working st) : Prop where
  rows : ∀ row, row.key ∈ others → st.getRow e.storage row = st.getRow s row
  recorded : ∀ row, (st.recorded e.recoder row).isSome →
    row.key ∈ mine ∨ row.key ∈ e.wrapper.myKeyLocks
  free : ∀ key ∈ e.wrapper.myKeyLocks, key ∉ others
  watched : ∀ key ∈ others, key ∈ e.wrapper.existsKeyLocks

/-- A turn from the storage `s` that has written nothing of the others, would undo nothing of
theirs, and locks nothing of theirs. -/
def Turn.Spares (mine others : Set Bytes) (s : st.State) : Turn st κ → Prop
  | returned _ e | threw _ e =>
    (∀ row, row.key ∈ others → st.getRow e.storage row = st.getRow s row) ∧
      ∀ row, row.key ∈ others → st.recorded e.recoder row = none
  | handedOut message awaiting e =>
    (∀ row, row.key ∈ others → st.getRow e.storage row = st.getRow s row) ∧
      (message.type = .message ∨ message.type = .keyLock) ∧
      (∀ key ∈ message.keyLocks.map ascii, key ∉ others) ∧
      Waiting (mine ∪ {key | key ∈ message.keyLocks.map ascii}) e.recoder e.wrapper awaiting
  | exited => True

variable {mine others : Set Bytes} {s : st.State} {e : Working st}

namespace Working.Within

theorem hold (he : e.Within mine others s) {key : Bytes} (hkey : key ∉ others) :
    (e.hold key).Within mine others s where
  rows := he.rows
  recorded row hrow := (he.recorded row hrow).imp_right List.mem_insert_of_mem
  free key' hmem := (List.mem_insert_iff.mp hmem).elim (fun heq => heq ▸ hkey) (he.free key')
  watched := he.watched

theorem spared (he : e.Within mine others s) (hmine : ∀ key ∈ mine, key ∉ others)
    {key : Bytes} (hkey : key ∈ mine ∨ key ∈ e.wrapper.myKeyLocks) : key ∉ others :=
  hkey.elim (hmine key) (he.free key)

theorem perform (he : e.Within mine others s) (h : st.Lawful)
    (hmine : ∀ key ∈ mine, key ∉ others) {row : StateRow}
    (hrow : row.key ∈ mine ∨ row.key ∈ e.wrapper.myKeyLocks) (operation : Operation) :
    (e.perform row operation).2.Within mine others s := by
  cases operation with
  | get => exact he
  | set entry =>
    refine ⟨fun row' hrow' => ?_, fun row' hrow' => ?_, he.free, he.watched⟩
    · have hne : row' ≠ row := by
        rintro rfl
        exact he.spared hmine hrow hrow'
      show st.getRow (st.setRow e.storage e.recoder row entry).1 row' = _
      rw [h.getRow_setRow, Function.update_of_ne hne]
      exact he.rows row' hrow'
    · change (st.recorded (st.setRow e.storage e.recoder row entry).2 row').isSome at hrow'
      by_cases heq : row = row'
      · exact heq ▸ hrow
      · rw [h.recorded_setRow, if_neg heq, Option.or_none] at hrow'
        exact he.recorded row' hrow'

theorem undone (he : e.Within mine others s) (hmine : ∀ key ∈ mine, key ∉ others)
    (row : StateRow) (hrow : row.key ∈ others) : st.recorded e.recoder row = none :=
  Option.not_isSome_iff_eq_none.mp fun hsome => he.spared hmine (he.recorded row hsome) hrow

/-- The locks go out with the message. -/
theorem handOut (he : e.Within mine others s) {message : CallParameters} {awaiting : Awaiting κ}
    (htype : message.type = .message ∨ message.type = .keyLock)
    (hkeys : message.keyLocks = e.wrapper.exportKeyLocks.1.map bytesToString)
    (hlocking : awaiting.Locking (mine ∪ {key | key ∈ e.wrapper.myKeyLocks})) :
    (Turn.handedOut message awaiting e.exported).Spares mine others s := by
  have hlocks : message.keyLocks.map ascii = e.wrapper.myKeyLocks := by
    rw [hkeys]
    exact ascii_keyLocks _
  refine ⟨he.rows, htype, fun key hkey => he.free key (hlocks ▸ hkey), ?_⟩
  rw [hlocks]
  exact ⟨he.recorded, rfl, hlocking⟩

end Working.Within

/-- A turn of a program that keeps to the locks spares the others. -/
theorem Access.Locking.advance (h : st.Lawful) (hmine : ∀ key ∈ mine, key ∉ others)
    {contractAddress : String} {m : Access κ Ending} {keys : Set Bytes}
    (hm : m.Locking Silent keys)
    (hkeys : ∀ key ∈ keys, key ∈ mine ∨ key ∈ e.wrapper.myKeyLocks)
    (he : e.Within mine others s) : (m.advance contractAddress e).Spares mine others s := by
  induction m generalizing e keys with
  | pure ending => exact ⟨he.rows, he.undone hmine⟩
  | throw x => exact ⟨he.rows, he.undone hmine⟩
  | abort => trivial
  | externalCall callee request k ih =>
    exact he.handOut (.inl rfl) rfl fun response => (hm response).mono hkeys
  | access way operation row k ih =>
    obtain ⟨htable, hok, herror⟩ := hm
    rw [Access.advance_access]
    by_cases hlock : way = .wrapper ∧ row.key ∈ e.wrapper.existsKeyLocks
    · rw [if_pos hlock]
      exact he.handOut (.inr rfl) rfl
        ⟨fun entry => (hok entry).mono (Set.insert_subset_insert hkeys), herror⟩
    · rw [if_neg hlock]
      -- by the wrapper the key is locked now, by a table it has been before
      obtain ⟨e', he', heq, hsub, hrow⟩ : ∃ e' : Working st, e'.Within mine others s ∧
          (if way = .wrapper then e.hold row.key else e) = e' ∧
          (∀ key ∈ keys, key ∈ mine ∨ key ∈ e'.wrapper.myKeyLocks) ∧
          (row.key ∈ mine ∨ row.key ∈ e'.wrapper.myKeyLocks) := by
        cases way with
        | wrapper =>
          have hfree : row.key ∉ others := fun hmem => hlock ⟨rfl, he.watched _ hmem⟩
          exact ⟨_, he.hold hfree, rfl,
            fun key hkey => (hkeys key hkey).imp_right List.mem_insert_of_mem,
            .inr List.mem_insert_self⟩
        | table => exact ⟨e, he, rfl, hkeys, hkeys _ (htable rfl)⟩
      rw [heq]
      dsimp only
      have hperform := he'.perform h hmine hrow operation
      have hwrapper : (e'.perform row operation).2.wrapper = e'.wrapper := by
        cases operation <;> rfl
      obtain ⟨entry, hanswer⟩ : ∃ entry, (e'.perform row operation).1 = .ok entry := by
        cases operation <;> exact ⟨_, rfl⟩
      rw [hanswer]
      refine ih _ (hok entry) (fun key hkey => ?_) hperform
      rw [hwrapper]
      exact (Set.mem_insert_iff.mp hkey).elim (fun heq => heq ▸ hrow) (hsub key)

/-- What ends at once spares whoever was spared before. -/
theorem Access.Silent.advance {contractAddress : String} {m : Access κ Ending} (hm : m.Silent)
    (hrecorded : ∀ row, row.key ∈ others → st.recorded e.recoder row = none) :
    (m.advance contractAddress e).Spares mine others e.storage := by
  cases m with
  | pure ending => exact ⟨fun _ _ => rfl, hrecorded⟩
  | throw x => exact ⟨fun _ _ => rfl, hrecorded⟩
  | abort => trivial
  | access way operation row k => exact hm.elim
  | externalCall callee request k => exact hm.elim

/-- A new executive spares the others, whose locks are in its message. -/
theorem startTurn_spares (h : st.Lawful) {contractAddress : String} {keyLocks : List String}
    {m : Access κ Ending} (hm : m.Locking Silent ∅)
    (hlocks : ∀ key ∈ others, key ∈ keyLocks.map ascii) :
    (m.advance contractAddress ⟨s, st.newRecoder s, SyncStorageWrapper.start keyLocks⟩).Spares
      ∅ others s := by
  refine hm.advance h (fun key hkey => hkey.elim) (fun key hkey => hkey.elim)
    ⟨fun _ _ => rfl, fun row hrow => ?_, nofun, hlocks⟩
  rw [h.recorded_newRecoder] at hrow
  cases hrow

/-- What is answered to an executive keeps to the locks: the others' are in it, and no lock of
theirs is granted. -/
def Awaiting.Granted (others : Set Bytes) (p : CallParameters) : Awaiting κ → Prop
  | externalCall _ => True
  | keyLock _ row _ => p.type ≠ .revert → row.key ∉ others

/-- An executive that is resumed spares the others. -/
theorem Waiting.resume (h : st.Lawful) {recoder : st.Recoder} {wrapper : SyncStorageWrapper}
    {awaiting : Awaiting κ} (hwaiting : Waiting mine recoder wrapper awaiting)
    (hmine : ∀ key ∈ mine, key ∉ others) {contractAddress : String} {p : CallParameters}
    (hlocks : ∀ key ∈ others, key ∈ p.keyLocks.map ascii) (hgranted : awaiting.Granted others p) :
    (awaiting.resume contractAddress p ⟨s, recoder, wrapper⟩).Spares mine others s := by
  have hnothing : ∀ key, key ∉ wrapper.myKeyLocks := by
    rw [hwaiting.exported]
    exact fun key => List.not_mem_nil
  have hwithin : Working.Within mine others s
      ⟨s, recoder, wrapper.importExistsKeyLocks p.keyLocks⟩ :=
    ⟨fun _ _ => rfl, fun row hrow => .inl (hwaiting.recorded row hrow),
      fun key hkey => (hnothing key hkey).elim, hlocks⟩
  unfold Awaiting.resume Awaiting.receive
  cases awaiting with
  | externalCall k =>
    exact (hwaiting.locking p).advance h hmine (fun key hkey => .inl hkey) hwithin
  | keyLock operation row k =>
    obtain ⟨hok, herror⟩ := hwaiting.locking
    dsimp only
    by_cases hrevert : p.type = .revert
    · -- the locks of the answer are not imported, and nothing is reached any more
      rw [if_pos hrevert]
      refine (herror deadLock).advance fun row' hrow' => ?_
      exact Option.not_isSome_iff_eq_none.mp fun hsome =>
        hmine _ (hwaiting.recorded row' hsome) hrow'
    · rw [if_neg hrevert]
      have hm : (Access.access .table operation row k).Locking Silent (insert row.key mine) :=
        ⟨fun _ => Set.mem_insert _ _,
          fun entry => (hok entry).mono (Set.subset_insert _ _), herror⟩
      refine hm.advance h hmine (fun key hkey => ?_) (hwithin.hold (hgranted hrevert))
      exact (Set.mem_insert_iff.mp hkey).elim (fun heq => .inr (heq ▸ List.mem_insert_self)) .inl

end BcosExecutor
