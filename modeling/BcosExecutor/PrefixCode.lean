import Mathlib.Data.List.AList

/-- Words that can be read off the front of a longer list of bytes. -/
structure PrefixCode (α : Type) where
  encode : α → List UInt8
  decode : List UInt8 → Option (α × List UInt8)
  decode_append : ∀ a rest, decode (encode a ++ rest) = some (a, rest)

/-- A codec whose encoder never gives the empty list. -/
structure Codec (α : Type) where
  encode : α → List UInt8
  decode : List UInt8 → Option α
  decode_encode : ∀ a, decode (encode a) = some a
  encode_ne_nil : ∀ a, encode a ≠ []

namespace PrefixCode

variable {α β : Type}

def toCodec (c : PrefixCode α) (h : ∀ a, c.encode a ≠ []) : Codec α where
  encode := c.encode
  decode bytes := (c.decode bytes).map Prod.fst
  decode_encode a := by
    have hdecode := c.decode_append a []
    rw [List.append_nil] at hdecode
    rw [hdecode]
    rfl
  encode_ne_nil := h

/-- How many ones stand before a zero. -/
def countOnes : List UInt8 → Option (Nat × List UInt8)
  | [] => none
  | byte :: rest =>
    if byte = 0 then some (0, rest) else (countOnes rest).map fun r => (r.1 + 1, r.2)

theorem countOnes_replicate (n : Nat) (rest : List UInt8) :
    countOnes (List.replicate n 1 ++ 0 :: rest) = some (n, rest) := by
  induction n with
  | zero => rfl
  | succ n ih =>
    rw [List.replicate_succ, List.cons_append, countOnes, if_neg (by decide), ih]
    rfl

/-- Small lengths in the compact mode of one byte, longer ones after a mark in unary. -/
def length : PrefixCode Nat where
  encode n := if n < 64 then [UInt8.ofNat (4 * n)] else 1 :: (List.replicate n 1 ++ [0])
  decode
    | [] => none
    | byte :: rest =>
      if byte.toNat % 4 = 0 then some (byte.toNat / 4, rest) else countOnes rest
  decode_append n rest := by
    by_cases h : n < 64
    · have hbyte : (UInt8.ofNat (4 * n)).toNat = 4 * n := by
        rw [UInt8.toNat_ofNat']
        omega
      simp only [if_pos h, List.singleton_append, hbyte]
      rw [if_pos (by omega), Nat.mul_div_cancel_left n (by omega)]
    · simp only [if_neg h, List.cons_append, List.append_assoc, List.nil_append]
      rw [if_neg (by decide), countOnes_replicate]

theorem length_encode_ne_nil (n : Nat) : length.encode n ≠ [] := by
  unfold length
  dsimp only
  split
  · exact List.cons_ne_nil _ _
  · exact List.cons_ne_nil _ _

def byte : PrefixCode UInt8 where
  encode b := [b]
  decode
    | [] => none
    | b :: rest => some (b, rest)
  decode_append _ _ := rfl

def bool : PrefixCode Bool where
  encode b := [if b then 1 else 0]
  decode
    | [] => none
    | b :: rest => some (b == 1, rest)
  decode_append b _ := by cases b <;> rfl

def pair (c : PrefixCode α) (d : PrefixCode β) : PrefixCode (α × β) where
  encode p := c.encode p.1 ++ d.encode p.2
  decode bytes := do
    let (a, bytes) ← c.decode bytes
    let (b, bytes) ← d.decode bytes
    some ((a, b), bytes)
  decode_append p rest := by
    rw [List.append_assoc, c.decode_append]
    simp only [Option.bind_eq_bind, Option.bind_some]
    rw [d.decode_append]
    rfl

def encodeMany (c : PrefixCode α) (as : List α) : List UInt8 :=
  as.flatMap c.encode

def decodeMany (c : PrefixCode α) : Nat → List UInt8 → Option (List α × List UInt8)
  | 0, bytes => some ([], bytes)
  | n + 1, bytes => do
    let (a, bytes) ← c.decode bytes
    let (as, bytes) ← decodeMany c n bytes
    some (a :: as, bytes)

theorem decodeMany_append (c : PrefixCode α) (as : List α) (rest : List UInt8) :
    c.decodeMany as.length (c.encodeMany as ++ rest) = some (as, rest) := by
  induction as with
  | nil => rfl
  | cons a as ih =>
    have hcons : c.encodeMany (a :: as) = c.encode a ++ c.encodeMany as := rfl
    rw [hcons, List.append_assoc, List.length_cons, decodeMany, c.decode_append]
    simp only [Option.bind_eq_bind, Option.bind_some]
    rw [ih]
    rfl

/-- The number of the elements and the elements. -/
def list (c : PrefixCode α) : PrefixCode (List α) where
  encode as := length.encode as.length ++ c.encodeMany as
  decode bytes := do
    let (n, bytes) ← length.decode bytes
    c.decodeMany n bytes
  decode_append as rest := by
    rw [List.append_assoc, length.decode_append]
    exact c.decodeMany_append as rest

/-- The elements of a list whose length is known. -/
def fixed (c : PrefixCode α) (n : Nat) : PrefixCode {as : List α // as.length = n} where
  encode as := c.encodeMany as.val
  decode bytes := (c.decodeMany n bytes).bind fun r =>
    if h : r.1.length = n then some (⟨r.1, h⟩, r.2) else none
  decode_append as rest := by
    obtain ⟨as, rfl⟩ := as
    simp only [decodeMany_append, Option.bind_some, dite_true]

/-- A code for what a code has a name for. -/
def ofInjection (c : PrefixCode β) (f : α → β) (g : β → Option α) (h : ∀ a, g (f a) = some a) :
    PrefixCode α where
  encode a := c.encode (f a)
  decode bytes := (c.decode bytes).bind fun r => (g r.1).map fun a => (a, r.2)
  decode_append a rest := by
    rw [c.decode_append, Option.bind_some, h]
    rfl

/-- The pairs of a map in the order in which it holds them. -/
def map [DecidableEq α] (c : PrefixCode α) (d : PrefixCode β) :
    PrefixCode (AList fun _ : α => β) :=
  (c.pair d).list.ofInjection (fun m => m.entries.map fun e => (e.1, e.2))
    (fun entries =>
      let entries := entries.map fun e => (⟨e.1, e.2⟩ : Sigma fun _ : α => β)
      if h : entries.keys.Nodup then some ⟨entries, h⟩ else none)
    (fun m => by
      have hentries : (m.entries.map fun e => (e.1, e.2)).map
          (fun e => (⟨e.1, e.2⟩ : Sigma fun _ : α => β)) = m.entries := by
        rw [List.map_map]
        exact List.map_id m.entries
      have hnodup : m.entries.keys.Nodup := m.nodupKeys
      simp only [hentries]
      rw [dif_pos hnodup])

theorem map_encode_ne_nil [DecidableEq α] (c : PrefixCode α) (d : PrefixCode β)
    (m : AList fun _ : α => β) : (c.map d).encode m ≠ [] := by
  intro h
  exact length_encode_ne_nil _ (List.append_eq_nil_iff.mp h).1

/-- The sign and the absolute value. -/
def int : PrefixCode Int :=
  (bool.pair length).ofInjection (fun i => (i < 0, i.natAbs))
    (fun p => some (if p.1 then -p.2 else p.2)) (fun i => by
      dsimp only
      split <;> simp only [decide_eq_true_eq] at * <;> congr 1 <;> omega)

theorem pair_list_encode_ne_nil (c : PrefixCode α) (d : PrefixCode β) (p : List α × β) :
    (c.list.pair d).encode p ≠ [] := by
  intro h
  have hlist : c.list.encode p.1 = [] := (List.append_eq_nil_iff.mp h).1
  exact length_encode_ne_nil _ (List.append_eq_nil_iff.mp hlist).1

/-- The characters of a string by their numbers. -/
def string : PrefixCode String :=
  length.list.ofInjection (fun s => s.toList.map Char.toNat)
    (fun codes => some (String.ofList (codes.map Char.ofNat))) (fun s => by
      rw [List.map_map, show Char.ofNat ∘ Char.toNat = id from funext Char.ofNat_toNat, List.map_id,
        String.ofList_toList])

end PrefixCode
