import BcosExecutor.Script

namespace BcosExecutor

variable {κ α β : Type} {st : StateStorage}

/-- The executive returned a `REVERT` message over the storage that it had started from. -/
def Call.Atomic (c : Call st) : Prop :=
  c.ending.message.type = .revert → st.getRow c.after = st.getRow c.before

/-- The rows that a reverting executive wrote itself were, before its first write, as they were
at its start, and the other rows still are; without a `revert()` all of them still are. -/
def Call.Unwound (c : Call snapshotStorage) : Prop :=
  c.ending.message.type = .revert →
    (if c.ending.reverted then snapshotStorage.undone c.storage c.recoder else c.storage) =
      c.before

/-- An executive over the ideal storage reads the same rows and has noted the same values. -/
def Executive.Mirrors (e : Executive st) (i : Executive snapshotStorage) : Prop :=
  st.getRow e.storage = i.storage ∧ st.recorded e.recoder = UndoLog.first i.recoder.log

theorem mirrors_start (h : st.Lawful) (s : st.State) :
    (Executive.start s).Mirrors (Executive.start (st.getRow s) : Executive snapshotStorage) :=
  ⟨rfl, funext fun row => h.recorded_newRecoder s row⟩

theorem mirrors_setRow (h : st.Lawful) {e : Executive st} {i : Executive snapshotStorage}
    (hm : e.Mirrors i) (row : StateRow) (entry : Option Entry) :
    (e.setRow row entry).Mirrors (i.setRow row entry) := by
  obtain ⟨hr, hl⟩ := hm
  refine ⟨?_, funext fun row' => ?_⟩
  · show st.getRow (st.setRow e.storage e.recoder row entry).1 = _
    rw [h.getRow_setRow, hr]
    rfl
  · show st.recorded (st.setRow e.storage e.recoder row entry).2 row' = _
    rw [h.recorded_setRow, hl, hr]
    exact (UndoLog.first_note _ _ row row').symm

theorem undone_of_mirrors {e : Executive st} {i : Executive snapshotStorage} (hm : e.Mirrors i) :
    st.undone e.storage e.recoder = snapshotStorage.undone i.storage i.recoder := by
  funext row
  rw [StateStorage.undone, hm.1, hm.2]
  rfl

/-- Both sides were atomic so far and answer alike, or on both sides some call was not. -/
def Delivery.Agrees (d : Delivery st) (i : Delivery snapshotStorage) : Prop :=
  ((∀ c ∈ d.calls, c.Atomic) ∧ (∀ c ∈ i.calls, c.Unwound) ∧
      d.response = i.response ∧ st.getRow d.storage = i.storage) ∨
    (¬ (∀ c ∈ d.calls, c.Atomic) ∧ ¬ (∀ c ∈ i.calls, c.Unwound))

theorem calls_run (scheduler : Scheduler st κ) (m : Script κ α) (e : Executive st) :
    e.calls ⊆ (m.run scheduler e).2.calls := by
  induction m generalizing e with
  | pure a => exact List.Subset.refl _
  | throw x => exact List.Subset.refl _
  | abort => exact List.Subset.refl _
  | getRow row k ih => exact ih _ e
  | setRow row entry k ih => exact ih (e.setRow row entry)
  | externalCall callee request k ih =>
    have hd : e.calls ⊆ (e.resume (scheduler callee request e.storage)).calls :=
      List.subset_append_left _ _
    simp only [Script.run]
    split
    · exact List.Subset.trans hd (ih _ _)
    · exact hd

/-- A call that an external call has brought along stays on record. -/
theorem delivery_calls_run (scheduler : Scheduler st κ) (callee : κ) (request : CallParameters)
    (k : CallParameters → Script κ α) (e : Executive st) :
    (scheduler callee request e.storage).calls ⊆
      ((Script.externalCall callee request k).run scheduler e).2.calls := by
  have hd : (scheduler callee request e.storage).calls ⊆
      (e.resume (scheduler callee request e.storage)).calls := List.subset_append_right _ _
  simp only [Script.run]
  split
  · exact List.Subset.trans hd (calls_run _ _ _)
  · exact hd

theorem run_mirrors (h : st.Lawful) {scheduler : Scheduler st κ}
    {ideal : Scheduler snapshotStorage κ}
    (hs : ∀ callee request s,
      (scheduler callee request s).Agrees (ideal callee request (st.getRow s)))
    (m : Script κ α) {e : Executive st} {i : Executive snapshotStorage} (hm : e.Mirrors i)
    (he : ∀ c ∈ e.calls, c.Atomic) (hi : ∀ c ∈ i.calls, c.Unwound) :
    ((∀ c ∈ (m.run scheduler e).2.calls, c.Atomic) ∧
        (∀ c ∈ (m.run ideal i).2.calls, c.Unwound) ∧
        (m.run scheduler e).1 = (m.run ideal i).1 ∧
        (m.run scheduler e).2.Mirrors (m.run ideal i).2) ∨
      (¬ (∀ c ∈ (m.run scheduler e).2.calls, c.Atomic) ∧
        ¬ (∀ c ∈ (m.run ideal i).2.calls, c.Unwound)) := by
  induction m generalizing e i with
  | pure a => exact .inl ⟨he, hi, rfl, hm⟩
  | throw x => exact .inl ⟨he, hi, rfl, hm⟩
  | abort => exact .inl ⟨he, hi, rfl, hm⟩
  | getRow row k ih =>
    simp only [Script.run, hm.1]
    exact ih _ hm he hi
  | setRow row entry k ih => exact ih (mirrors_setRow h hm row entry) he hi
  | externalCall callee request k ih =>
    have ha := hs callee request e.storage
    rw [hm.1] at ha
    rcases ha with ⟨hd, hdi, hr, hg⟩ | ⟨hd, hdi⟩
    · have hm' : (e.resume (scheduler callee request e.storage)).Mirrors
          (i.resume (ideal callee request i.storage)) := ⟨hg, hm.2⟩
      have he' : ∀ c ∈ (e.resume (scheduler callee request e.storage)).calls, c.Atomic :=
        fun c hc => (List.mem_append.mp hc).elim (he c) (hd c)
      have hi' : ∀ c ∈ (i.resume (ideal callee request i.storage)).calls, c.Unwound :=
        fun c hc => (List.mem_append.mp hc).elim (hi c) (hdi c)
      simp only [Script.run, hr]
      cases (ideal callee request i.storage).response with
      | some p => exact ih p hm' he' hi'
      | none => exact .inl ⟨he', hi', rfl, hm'⟩
    · exact .inr
        ⟨fun hc => hd fun c hm => hc c (delivery_calls_run scheduler callee request k e hm),
          fun hc => hdi fun c hm => hc c (delivery_calls_run ideal callee request k i hm)⟩

/-- An executive over the ideal storage never forgets the storage that it started from. -/
theorem started_run (scheduler : Scheduler snapshotStorage κ) (m : Script κ α)
    (i : Executive snapshotStorage) :
    (m.run scheduler i).2.recoder.started = i.recoder.started := by
  induction m generalizing i with
  | pure a => rfl
  | throw x => rfl
  | abort => rfl
  | getRow row k ih => exact ih _ i
  | setRow row entry k ih => exact ih (i.setRow row entry)
  | externalCall callee request k ih =>
    simp only [Script.run]
    split
    · exact ih _ (i.resume _)
    · rfl

theorem calls_settle (s : st.State) (out : Option (Except Exc Ending)) (e : Executive st) :
    e.calls ⊆ (settle s (out, e)).calls := by
  cases out with
  | none => exact List.Subset.refl _
  | some r =>
    cases r with
    | error x => exact List.Subset.refl _
    | ok ending => exact List.subset_append_left _ _

/-- One executive over the block storage agrees with the same one over the ideal storage. -/
theorem settle_agrees (h : st.Lawful) {scheduler : Scheduler st κ}
    {ideal : Scheduler snapshotStorage κ}
    (hs : ∀ callee request s,
      (scheduler callee request s).Agrees (ideal callee request (st.getRow s)))
    {m : Script κ Ending}
    (hm : ∀ {e e' ending}, m.run scheduler e = (some (.ok ending), e') →
      ending.reverted → ending.message.type = .revert)
    (s : st.State) :
    (settle s (m.run scheduler (Executive.start s))).Agrees
      (settle (st.getRow s) (m.run ideal (Executive.start (st.getRow s)))) := by
  have hrun := run_mirrors h hs m (mirrors_start h s) (fun _ hc => nomatch hc)
    (fun _ hc => nomatch hc)
  have hstart := started_run ideal m (Executive.start (st.getRow s))
  generalize hr : m.run scheduler (Executive.start s) = r at hrun ⊢
  generalize m.run ideal (Executive.start (st.getRow s)) = r' at hrun hstart ⊢
  obtain ⟨out, e⟩ := r
  obtain ⟨out', i⟩ := r'
  rcases hrun with ⟨hc, hci, ho, hmir⟩ | ⟨hc, hci⟩
  · simp only at hc hci ho hmir hstart
    subst ho
    match out, hr with
    | none, _ => exact .inl ⟨hc, hci, rfl, hmir.1⟩
    | some (.error x), _ => exact .inl ⟨hc, hci, rfl, hmir.1⟩
    | some (.ok ending), hr =>
      have htype := hm hr
      have hafter : st.getRow
          (if ending.reverted then st.rollback e.storage e.recoder else e.storage) =
          if ending.reverted then snapshotStorage.undone i.storage i.recoder else i.storage := by
        split
        · rw [h.getRow_rollback, undone_of_mirrors hmir]
        · exact hmir.1
      by_cases hsound : ending.message.type = .revert →
          (if ending.reverted then snapshotStorage.undone i.storage i.recoder else i.storage) =
            st.getRow s
      · refine .inl ⟨?_, ?_, rfl, ?_⟩
        · intro c hcm
          rcases List.mem_append.mp hcm with hcm | hcm
          · exact hc c hcm
          · cases List.mem_singleton.mp hcm
            exact fun ht => hafter.trans (hsound ht)
        · intro c hcm
          rcases List.mem_append.mp hcm with hcm | hcm
          · exact hci c hcm
          · cases List.mem_singleton.mp hcm
            exact hsound
        · show st.getRow (if ending.reverted then _ else _) = if ending.reverted then _ else _
          rw [hafter]
          split
          next hrev =>
            have hs := hsound (htype hrev)
            rw [if_pos hrev] at hs
            exact hs.trans hstart.symm
          next => rfl
      · refine .inr ⟨fun hall => hsound fun ht => hafter.symm.trans ?_, fun hall => hsound ?_⟩
        · exact hall _ (List.mem_append_right _ (List.mem_singleton_self _)) ht
        · exact hall _ (List.mem_append_right _ (List.mem_singleton_self _))
  · exact .inr ⟨fun hall => hc fun c hm => hall c (calls_settle s out e hm),
      fun hall => hci fun c hm => hall c (calls_settle _ out' i hm)⟩

end BcosExecutor
