import Mathlib.Data.List.Basic

namespace IndexReads

/-- A computation stops early with an exception of its own, or by reading outside a list. -/
inductive ReadFault (ε : Type)
  | exception (e : ε)
  | outOfRange
  deriving DecidableEq

variable {ε α β : Type}

/-- The entry at an index. -/
def read (l : List α) (i : Nat) : Except (ReadFault ε) α :=
  match l[i]? with
  | some a => .ok a
  | none => .error .outOfRange

/-- A computation that stays inside its lists. -/
def inRange : Except ε α → Except (ReadFault ε) α
  | .ok a => .ok a
  | .error e => .error (.exception e)

/-- The loop over the indices of a list that reads the entry at each of them. -/
def scan (l : List α) (f : β → α × Nat → β) (b : β) : Except (ReadFault ε) β :=
  (List.range l.length).foldlM (fun b i => do
    let a ← read l i
    .ok (f b (a, i))) b

theorem read_of_lt {l : List α} {i : Nat} (h : i < l.length) :
    (read l i : Except (ReadFault ε) α) = .ok l[i] := by
  rw [read, List.getElem?_eq_getElem h]

theorem read_append (before : List α) (a : α) (after : List α) :
    (read (before ++ a :: after) before.length : Except (ReadFault ε) α) = .ok a := by
  have hlt : before.length < (before ++ a :: after).length := by
    simp
  rw [read_of_lt hlt, List.getElem_append_right (Nat.le_refl _)]
  simp

theorem inRange_bind (x : Except ε α) (f : α → Except ε β) :
    inRange (x >>= f) = inRange x >>= fun a => inRange (f a) := by
  cases x <;> rfl

theorem inRange_mapM (f : α → Except ε β) (l : List α) :
    inRange (l.mapM f) = l.mapM fun a => inRange (f a) := by
  induction l with
  | nil => rfl
  | cons a l ih =>
    rw [List.mapM_cons, List.mapM_cons, inRange_bind, ← ih]
    congr 1
    funext b
    exact inRange_bind _ _

theorem scan_from (f : β → α × Nat → β) (before after : List α) (b : β) :
    ((List.range' before.length after.length).foldlM (fun b i => do
      let a ← read (before ++ after) i
      .ok (f b (a, i))) b : Except (ReadFault ε) β) =
      .ok ((after.zipIdx before.length).foldl f b) := by
  induction after generalizing before b with
  | nil => rfl
  | cons a after ih =>
    have hnext := ih (before ++ [a]) (f b (a, before.length))
    rw [List.append_assoc, List.length_append] at hnext
    rw [List.length_cons, List.range'_succ, List.foldlM_cons, read_append]
    exact hnext

/-- A loop over the indices reads only inside the list. -/
theorem scan_eq (l : List α) (f : β → α × Nat → β) (b : β) :
    (scan l f b : Except (ReadFault ε) β) = .ok (l.zipIdx.foldl f b) := by
  rw [scan, List.range_eq_range']
  exact scan_from f [] l b

end IndexReads
