import Mathlib.Data.List.Basic
import Mathlib.Logic.Function.Basic

namespace LastWrites

variable {S C K V : Type*} [DecidableEq K]

/-- A store that commands work on: what a key reads as, and the key that a command writes. -/
structure Store (S C K V : Type*) where
  step : S → C → S
  read : S → K → V
  write : S → C → Option (K × V)

namespace Store

variable (store : Store S C K V)

def run (s : S) (commands : List C) : S :=
  commands.foldl store.step s

/-- What the commands write, in their order. -/
def writes : S → List C → List (K × V)
  | _, [] => []
  | s, c :: commands => (store.write s c).toList ++ writes (store.step s c) commands

/-- In these states a command changes what it writes and nothing else. -/
structure Faithful (Inv : S → Prop) : Prop where
  keep : ∀ s c, Inv s → Inv (store.step s c)
  written : ∀ s c, Inv s → ∀ k v, store.write s c = some (k, v) →
    store.read (store.step s c) = Function.update (store.read s) k v
  unwritten : ∀ s c, Inv s → store.write s c = none →
    store.read (store.step s c) = store.read s

end Store

/-- The last that was written under a key. -/
def lastOf (writes : List (K × V)) (k : K) : Option V :=
  (writes.reverse.find? fun w => w.1 = k).map Prod.snd

theorem lastOf_cons (w : K × V) (writes : List (K × V)) (k : K) :
    lastOf (w :: writes) k = (lastOf writes k).or (if w.1 = k then some w.2 else none) := by
  unfold lastOf
  rw [List.reverse_cons, List.find?_append, List.find?_singleton]
  cases writes.reverse.find? fun w => w.1 = k with
  | some found => rfl
  | none =>
    by_cases hk : w.1 = k
    · simp [hk]
    · simp [hk]

namespace Store

variable {store : Store S C K V} {Inv : S → Prop}

theorem Faithful.run (h : store.Faithful Inv) (commands : List C) {s : S} (hs : Inv s) :
    Inv (store.run s commands) := by
  induction commands generalizing s with
  | nil => exact hs
  | cons c commands ih => exact ih (h.keep s c hs)

/-- After a run a key reads as the last that was written, or as at the start. -/
theorem Faithful.read_run (h : store.Faithful Inv) (commands : List C) {s : S} (hs : Inv s)
    (k : K) : store.read (store.run s commands) k =
      (lastOf (store.writes s commands) k).getD (store.read s k) := by
  induction commands generalizing s with
  | nil => rfl
  | cons c commands ih =>
    have hrest := ih (h.keep s c hs)
    rw [Store.run, List.foldl_cons, ← Store.run, hrest, Store.writes]
    cases hw : store.write s c with
    | none =>
      rw [h.unwritten s c hs hw]
      rfl
    | some w =>
      rw [h.written s c hs w.1 w.2 hw, Option.toList_some, List.singleton_append, lastOf_cons]
      by_cases hk : w.1 = k
      · subst hk
        rw [Function.update_self, if_pos rfl]
        cases lastOf (store.writes (store.step s c) commands) w.1 <;> rfl
      · rw [Function.update_of_ne (Ne.symm hk), if_neg hk, Option.or_none]

omit [DecidableEq K] in
/-- What is written does not depend on the states. -/
theorem writes_eq_filterMap {write : C → Option (K × V)} (h : ∀ s c, store.write s c = write c)
    (commands : List C) (s : S) : store.writes s commands = commands.filterMap write := by
  induction commands generalizing s with
  | nil => rfl
  | cons c commands ih =>
    rw [writes, h, ih]
    cases hc : write c with
    | none => rw [List.filterMap_cons_none hc, Option.toList_none, List.nil_append]
    | some w => rw [List.filterMap_cons_some hc, Option.toList_some, List.singleton_append]

/-- What is written does not depend on the states, and a key reads as the last of it. -/
theorem Faithful.read_run_filterMap (h : store.Faithful Inv) {write : C → Option (K × V)}
    (hwrite : ∀ s c, store.write s c = write c) (commands : List C) {s : S} (hs : Inv s) (k : K) :
    store.read (store.run s commands) k =
      (lastOf (commands.filterMap write) k).getD (store.read s k) := by
  rw [h.read_run commands hs k, writes_eq_filterMap hwrite]

end Store

end LastWrites
