import BcosExecutor.LruStorage

namespace BcosExecutor

open Recency (TouchedBefore)

namespace LRUStorage

variable {st : CacheStorage} {s s' : LRUStorage st}

/-- What a step of the cleaner can do, with the key that it puts into `m_mru` or purges. -/
inductive Turn (s : LRUStorage st) : LRUStorage st → List StateRow → List StateRow → Prop
  | kept (mruQueue : List StateRow) (cleaner : Cleaner) : Turn s { s with mruQueue, cleaner } [] []
  | pushed (entryKey : StateRow) (mruQueue : List StateRow) :
      Turn s { s with mruQueue, mru := pushMRU s.mru entryKey, cleaner := .measuring } [entryKey] []
  | popped (item : StateRow) (items : List StateRow) (front : s.mru.items = item :: items) :
      Turn s
        { s with
          storage := (st.asyncSetRow s.storage item .PURGED).2
          mru := s.mru.popFront
          cleaner := .testing }
        [] [item]

theorem turn_startLoop (s : LRUStorage st) :
    Turn s s.startLoop (s.dequeues .clean) (s.purges .clean) := by
  unfold startLoop dequeues purges
  split
  next hcleaner =>
    rw [hcleaner]
    cases s.mruQueue with
    | nil => exact .kept s.mruQueue s.cleaner
    | cons entryKey mruQueue =>
      dsimp only
      split
      · exact .kept mruQueue .stopped
      · exact .pushed entryKey mruQueue
  next hcleaner =>
    rw [hcleaner]
    split
    · exact .kept s.mruQueue .testing
    · exact .kept s.mruQueue .polling
  next hcleaner =>
    rw [hcleaner]
    split
    · exact .kept s.mruQueue .clearing
    · exact .kept s.mruQueue .polling
  next hcleaner =>
    rw [hcleaner]
    dsimp only
    split
    next hitems =>
      rw [hitems]
      exact .kept s.mruQueue s.cleaner
    next item items hitems =>
      rw [hitems]
      exact .popped item items hitems
  next hcleaner =>
    rw [hcleaner]
    exact .kept s.mruQueue s.cleaner

/-- What a step can do to `m_mru`. -/
inductive Change (s s' : LRUStorage st) : List StateRow → List StateRow → Prop
  | kept (mru : s'.mru = s.mru) : Change s s' [] []
  | pushed (entryKey : StateRow) (mru : s'.mru = pushMRU s.mru entryKey) : Change s s' [entryKey] []
  | popped (item : StateRow) (mru : s.mru.items = item :: s'.mru.items) : Change s s' [] [item]

theorem Turn.change {keys items : List StateRow} (h : Turn s s' keys items) :
    Change s s' keys items := by
  cases h with
  | kept => exact .kept rfl
  | pushed entryKey => exact .pushed entryKey rfl
  | popped item items front =>
    refine .popped item ?_
    show s.mru.items = item :: s.mru.items.tail
    rw [front, List.tail_cons]

theorem change_step (s : LRUStorage st) (action : Action) :
    Change s (s.step action) (s.dequeues action) (s.purges action) := by
  cases action with
  | clean => exact (turn_startLoop s).change
  | _ => exact .kept rfl

theorem items_pushMRU (mru : Recency.UniqueList StateRow) (entryKey : StateRow) :
    (pushMRU mru entryKey).items = mru.items.erase entryKey ++ [entryKey] := by
  unfold pushMRU Recency.UniqueList.emplaceBack
  by_cases h : entryKey ∈ mru.items
  · rw [dif_pos h]
    rfl
  · rw [dif_neg h, List.erase_of_not_mem h]
    rfl

/-- Without the keys that have gone since their last touch, the keys are in the order of touches. -/
def InOrder (s : LRUStorage st) (dequeued purged : List StateRow) : Prop :=
  ∃ gone ⊆ purged, dequeued.dedup = gone ++ s.mru.items

theorem Change.inOrder {dequeued purged keys items : List StateRow} (h : Change s s' keys items)
    (hs : s.InOrder dequeued purged) : s'.InOrder (dequeued ++ keys) (purged ++ items) := by
  obtain ⟨gone, hgone, horder⟩ := hs
  cases h with
  | kept hmru =>
    refine ⟨gone, ?_, ?_⟩
    · rw [List.append_nil]
      exact hgone
    · rw [List.append_nil, hmru]
      exact horder
  | pushed entryKey hmru =>
    refine ⟨gone.erase entryKey, ?_, ?_⟩
    · rw [List.append_nil]
      exact fun key hkey => hgone (List.mem_of_mem_erase hkey)
    · rw [hmru, items_pushMRU]
      exact Recency.order_touch horder entryKey
  | popped item hmru =>
    refine ⟨gone ++ [item], List.append_subset.mpr ⟨?_, ?_⟩, ?_⟩
    · exact fun key hkey => List.mem_append_left _ (hgone hkey)
    · exact List.subset_append_right _ _
    · rw [List.append_nil, horder, hmru, List.append_assoc]
      rfl

theorem inOrder_run {dequeued purged : List StateRow} (hs : s.InOrder dequeued purged)
    (actions : List Action) : (s.run actions).InOrder (dequeued ++ s.dequeued actions)
      (purged ++ s.purged actions) := by
  induction actions generalizing s dequeued purged with
  | nil =>
    unfold LRUStorage.dequeued LRUStorage.purged Runs.outputs
    rw [List.append_nil, List.append_nil]
    exact hs
  | cons action actions ih =>
    have hrest := ih ((change_step s action).inOrder hs)
    rw [List.append_assoc, List.append_assoc] at hrest
    exact hrest

/-- While no key is put in, what is purged is taken from the front. -/
theorem items_eq_purged {actions : List Action} (h : s.dequeued actions = []) :
    s.mru.items = s.purged actions ++ (s.run actions).mru.items := by
  induction actions generalizing s with
  | nil => rfl
  | cons action actions ih =>
    obtain ⟨hfirst, hrest⟩ := List.append_eq_nil_iff.mp h
    have hitems := ih hrest
    have hchange := change_step s action
    rw [hfirst] at hchange
    show s.mru.items = (s.purges action ++ (s.step action).purged actions) ++ _
    generalize s.purges action = purges at hchange
    cases hchange with
    | kept hmru =>
      rw [← hmru]
      exact hitems
    | popped item hmru =>
      rw [hmru, hitems]
      rfl

/-- Inside of the purge loop. -/
def Looping (s : LRUStorage st) : Prop :=
  s.cleaner = .testing ∨ s.cleaner = .clearing ∧ s.mru.items ≠ []

/-- The steps that the loop may still take. -/
def stepsLeft (s : LRUStorage st) : Nat :=
  if s.cleaner = .clearing then 2 * s.mru.items.length else 2 * s.mru.items.length + 1

def Action.isClean : Action → Bool
  | .clean => true
  | _ => false

theorem Looping.dequeues_eq_nil (h : s.Looping) (action : Action) : s.dequeues action = [] := by
  cases action with
  | clean =>
    unfold dequeues
    rcases h with hcleaner | ⟨hcleaner, -⟩
    · rw [hcleaner]
    · rw [hcleaner]
  | _ => rfl

theorem le_of_purgeLimit {capacity : Nat} (h : ¬s.purgeLimit < capacity) :
    3 * capacity ≤ 2 * s.maxCapacity := by
  unfold purgeLimit at h
  have hmod := Nat.mod_le (s.maxCapacity * 2) (2 ^ 64)
  omega

theorem startLoop_testing (h : s.cleaner = .testing) : s.startLoop =
    if s.purgeLimit < st.capacity s.storage ∧ s.mru.items ≠ [] then { s with cleaner := .clearing }
    else { s with cleaner := .polling } := by
  unfold startLoop
  rw [h]

theorem startLoop_clearing (h : s.cleaner = .clearing) {item : StateRow} {items : List StateRow}
    (hitems : s.mru.items = item :: items) : s.startLoop =
      { s with
        storage := (st.asyncSetRow s.storage item .PURGED).2
        mru := s.mru.popFront
        cleaner := .testing } := by
  unfold startLoop
  rw [h]
  dsimp only
  rw [hitems]

theorem stepsLeft_testing (h : s.cleaner = .testing) :
    s.stepsLeft = 2 * s.mru.items.length + 1 := by
  unfold stepsLeft
  rw [h, if_neg (by decide)]

theorem stepsLeft_clearing (h : s.cleaner = .clearing) : s.stepsLeft = 2 * s.mru.items.length := by
  unfold stepsLeft
  rw [if_pos h]

/-- At its condition the loop goes on or ends; its body comes back to the condition. -/
theorem looping_startLoop (h : s.Looping) :
    s.startLoop.Looping ∧ s.startLoop.stepsLeft < s.stepsLeft ∨
      s.cleaner = .testing ∧ s.startLoop.cleaner = .polling ∧
        (3 * st.capacity s.storage ≤ 2 * s.maxCapacity ∨ s.mru.items = []) := by
  rcases h with hcleaner | ⟨hcleaner, hitems⟩
  · rw [startLoop_testing hcleaner, stepsLeft_testing hcleaner]
    by_cases hgoes : s.purgeLimit < st.capacity s.storage ∧ s.mru.items ≠ []
    · rw [if_pos hgoes, stepsLeft_clearing rfl]
      exact Or.inl ⟨Or.inr ⟨rfl, hgoes.2⟩, Nat.lt_succ_self _⟩
    · rw [if_neg hgoes]
      refine Or.inr ⟨hcleaner, rfl, ?_⟩
      rcases not_and_or.mp hgoes with hlimit | hempty
      · exact Or.inl (le_of_purgeLimit hlimit)
      · exact Or.inr (not_not.mp hempty)
  · obtain ⟨item, items, hlist⟩ := List.exists_cons_of_ne_nil hitems
    rw [startLoop_clearing hcleaner hlist, stepsLeft_clearing hcleaner, stepsLeft_testing rfl]
    refine Or.inl ⟨Or.inl rfl, ?_⟩
    show 2 * s.mru.items.tail.length + 1 < 2 * s.mru.items.length
    rw [hlist, List.tail_cons, List.length_cons]
    omega

/-- The loop of a state ends after the actions with a look at the condition. -/
structure LoopEnds (s : LRUStorage st) (actions : List Action) : Prop where
  purged : s.mru.items = s.purged actions ++ (s.run actions).mru.items
  enough : 3 * st.capacity (s.run actions).storage ≤ 2 * (s.run actions).maxCapacity ∨
    (s.run actions).mru.items = []
  testing : (s.run actions).cleaner = .testing
  left : (s.run actions).startLoop.cleaner = .polling

/-- Whatever the other threads do, the loop ends once the cleaner has had enough steps. -/
theorem exists_loopEnds (h : s.Looping) {actions : List Action}
    (hcount : s.stepsLeft ≤ actions.countP Action.isClean) :
    ∃ loop rest, actions = loop ++ .clean :: rest ∧ s.dequeued loop = [] ∧ s.LoopEnds loop := by
  induction actions generalizing s with
  | nil =>
    rw [List.countP_nil] at hcount
    rcases h with hcleaner | ⟨hcleaner, hitems⟩
    · rw [stepsLeft_testing hcleaner] at hcount
      omega
    · rw [stepsLeft_clearing hcleaner] at hcount
      have := List.length_pos_iff.mpr hitems
      omega
  | cons action actions ih =>
    have hgoes (hloop : (s.step action).Looping)
        (hleft : (s.step action).stepsLeft ≤ actions.countP Action.isClean) :
        ∃ loop rest, action :: actions = loop ++ .clean :: rest ∧ s.dequeued loop = [] ∧
          s.LoopEnds loop := by
      obtain ⟨loop, rest, rfl, hnone, hends⟩ := ih hloop hleft
      have hdequeued : s.dequeued (action :: loop) = [] := by
        show s.dequeues action ++ _ = []
        rw [h.dequeues_eq_nil action]
        exact hnone
      exact ⟨action :: loop, rest, rfl, hdequeued,
        ⟨items_eq_purged hdequeued, hends.enough, hends.testing, hends.left⟩⟩
    cases action with
    | clean =>
      rw [List.countP_cons_of_pos rfl] at hcount
      rcases looping_startLoop h with ⟨hloop, hlt⟩ | ⟨htesting, hpolling, henough⟩
      · exact hgoes hloop (show s.startLoop.stepsLeft ≤ _ by omega)
      · exact ⟨[], actions, rfl, rfl, ⟨rfl, henough, htesting, hpolling⟩⟩
    | _ =>
      rw [List.countP_cons_of_neg Bool.false_ne_true] at hcount
      exact hgoes h hcount

end LRUStorage

end BcosExecutor
