import Mathlib.Data.List.Basic

namespace Overlay

variable {Key Val : Type*}

/-- New values for some of the keys. -/
abbrev Layer (Key Val : Type*) := Key → Option Val

def overlay (layer : Layer Key Val) (base : Key → Val) : Key → Val :=
  fun k => (layer k).getD (base k)

theorem overlay_of_some {layer : Layer Key Val} {base : Key → Val} {k : Key} {v : Val}
    (h : layer k = some v) : overlay layer base k = v := by
  rw [overlay, h]
  rfl

theorem overlay_of_none {layer : Layer Key Val} {base : Key → Val} {k : Key}
    (h : layer k = none) : overlay layer base k = base k := by
  rw [overlay, h]
  rfl

theorem overlay_update_some [DecidableEq Key] (layer : Layer Key Val) (base : Key → Val) (k : Key)
    (v : Val) : overlay (Function.update layer k (some v)) base =
      Function.update (overlay layer base) k v := by
  funext k'
  by_cases hk : k' = k
  · subst hk
    rw [Function.update_self]
    exact overlay_of_some (Function.update_self ..)
  · rw [Function.update_of_ne hk, overlay, Function.update_of_ne hk]
    rfl

theorem overlay_update_none [DecidableEq Key] (layer : Layer Key Val) (base : Key → Val)
    (k : Key) : overlay (Function.update layer k none) base =
      Function.update (overlay layer base) k (base k) := by
  funext k'
  by_cases hk : k' = k
  · subst hk
    rw [Function.update_self]
    exact overlay_of_none (Function.update_self ..)
  · rw [Function.update_of_ne hk, overlay, Function.update_of_ne hk]
    rfl

/-- Layers over a base, the lowest first. -/
structure Stack (Key Val : Type*) where
  base : Key → Val
  layers : List (Layer Key Val)

namespace Stack

/-- What is read at each layer of a list. -/
def readings (base : Key → Val) : List (Layer Key Val) → List (Key → Val)
  | [] => []
  | layer :: layers => overlay layer base :: readings (overlay layer base) layers

def views (s : Stack Key Val) : List (Key → Val) :=
  readings s.base s.layers

def push (s : Stack Key Val) : Stack Key Val :=
  { s with layers := s.layers ++ [fun _ => none] }

/-- The lowest layer becomes part of the base. -/
def absorb (s : Stack Key Val) : Stack Key Val :=
  match s.layers with
  | [] => s
  | layer :: layers => ⟨overlay layer s.base, layers⟩

/-- The views that are left after the lowest layer is gone are what they were. -/
theorem views_absorb (s : Stack Key Val) : s.absorb.views = s.views.tail := by
  obtain ⟨base, layers⟩ := s
  cases layers <;> rfl

theorem readings_append (base : Key → Val) (lower upper : List (Layer Key Val)) :
    readings base (lower ++ upper) =
      readings base lower ++ readings ((readings base lower).getLastD base) upper := by
  induction lower generalizing base with
  | nil => rfl
  | cons layer lower ih =>
    rw [List.cons_append, readings, ih, readings, List.getLastD_cons]
    rfl

theorem length_views (s : Stack Key Val) : s.views.length = s.layers.length := by
  obtain ⟨base, layers⟩ := s
  show (readings base layers).length = layers.length
  induction layers generalizing base with
  | nil => rfl
  | cons layer layers ih => exact congrArg (· + 1) (ih _)

/-- A new layer shows the uppermost view again. -/
theorem views_push (s : Stack Key Val) :
    s.push.views = s.views ++ [s.views.getLastD s.base] :=
  readings_append s.base s.layers [fun _ => none]

end Stack

end Overlay
