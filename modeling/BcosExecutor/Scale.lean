import Mathlib.Algebra.Group.Nat.Defs
import Mathlib.Data.Nat.Log
import Mathlib.Tactic.SplitIfs

namespace Scale

/-- The low bytes of a number, the lowest first. -/
def bytesOf (n : Nat) : Nat → List UInt8
  | 0 => []
  | size + 1 => UInt8.ofNat n :: bytesOf (n / 256) size

/-- The compact encoding of a number, whose two lowest bits tell its four modes. -/
def compact (n : Nat) : List UInt8 :=
  if n < 2 ^ 6 then bytesOf (4 * n) 1
  else if n < 2 ^ 14 then bytesOf (4 * n + 1) 2
  else if n < 2 ^ 30 then bytesOf (4 * n + 2) 4
  else UInt8.ofNat (4 * (Nat.log 256 n - 3) + 3) :: bytesOf n (Nat.log 256 n + 1)

/-- The length of an encoding that begins with the given byte. -/
def announced (first : UInt8) : Nat :=
  match first.toNat % 4 with
  | 0 => 1
  | 1 => 2
  | 2 => 4
  | _ => first.toNat / 4 + 5

/-- The sizes of numbers and byte arrays are counted in bytes. -/
inductive Ty
  | uint (size : Nat)
  | int (size : Nat)
  | bool
  | byte
  | bytesN (size : Nat)
  | string
  | bytes
  | array (element : Ty)
  | fixedArray (element : Ty) (size : Nat)
  | tuple (components : List Ty)

/-- A value of a fixed width is known by its bytes. -/
inductive Val
  | scalar (bytes : List UInt8)
  | text (bytes : List UInt8)
  | array (elements : List Val)
  | sequence (elements : List Val)

mutual

def HasType : Ty → Val → Prop
  | .uint size, .scalar bytes | .int size, .scalar bytes | .bytesN size, .scalar bytes =>
    bytes.length = size
  | .bool, .scalar bytes => bytes = [0] ∨ bytes = [1]
  | .byte, .scalar bytes => bytes.length = 1
  | .string, .text _ | .bytes, .text _ => True
  | .array element, .array elements => ∀ v ∈ elements, HasType element v
  | .fixedArray element size, .sequence elements =>
    elements.length = size ∧ ∀ v ∈ elements, HasType element v
  | .tuple components, .sequence elements => HaveTypes components elements
  | _, _ => False

def HaveTypes : List Ty → List Val → Prop
  | [], [] => True
  | t :: ts, v :: vs => HasType t v ∧ HaveTypes ts vs
  | _, _ => False

end

mutual

def encode : Val → List UInt8
  | .scalar bytes => bytes
  | .text bytes => compact bytes.length ++ bytes
  | .array elements => compact elements.length ++ encodeAll elements
  | .sequence elements => encodeAll elements

def encodeAll : List Val → List UInt8
  | [] => []
  | v :: vs => encode v ++ encodeAll vs

end

/-- The component that a path selects, which goes down through tuples only. -/
def select (segment : Nat) : List Nat → List Ty → List Val → Option (Ty × Val)
  | [], ts, vs => ts[segment]?.bind fun t => vs[segment]?.map fun v => (t, v)
  | next :: path, ts, vs =>
    match ts[segment]?, vs[segment]? with
    | some (.tuple components), some (.sequence elements) => select next path components elements
    | _, _ => none

/-- The number of bytes that every value of the type takes. -/
def width : Ty → Option Nat
  | .uint size | .int size | .bytesN size => some size
  | .bool | .byte => some 1
  | _ => none

@[simp] theorem length_bytesOf (n size : Nat) : (bytesOf n size).length = size := by
  induction size generalizing n with
  | zero => rfl
  | succ size ih => exact congrArg (· + 1) (ih (n / 256))

theorem length_compact (n : Nat) : (compact n).length =
    if n < 2 ^ 6 then 1 else if n < 2 ^ 14 then 2 else if n < 2 ^ 30 then 4
    else Nat.log 256 n + 2 := by
  unfold compact
  split
  · exact length_bytesOf ..
  · split
    · exact length_bytesOf ..
    · split
      · exact length_bytesOf ..
      · exact congrArg (· + 1) (length_bytesOf ..)

theorem three_le_log {n : Nat} (h : 2 ^ 30 ≤ n) : 3 ≤ Nat.log 256 n := by
  apply Nat.le_log_of_pow_le (by omega)
  omega

/-- A compact encoding is as long as its first byte says. -/
theorem compact_announced {n : Nat} (hn : n < 2 ^ 536) :
    ∃ first ∈ (compact n).head?, (compact n).length = announced first := by
  have hbyte (m : Nat) : (UInt8.ofNat m).toNat = m % 256 := rfl
  rw [length_compact]
  unfold compact announced
  split_ifs with h6 h14 h30
  · refine ⟨UInt8.ofNat (4 * n), rfl, ?_⟩
    rw [hbyte, show 4 * n % 256 % 4 = 0 by omega]
    rfl
  · refine ⟨UInt8.ofNat (4 * n + 1), rfl, ?_⟩
    rw [hbyte, show (4 * n + 1) % 256 % 4 = 1 by omega]
    rfl
  · refine ⟨UInt8.ofNat (4 * n + 2), rfl, ?_⟩
    rw [hbyte, show (4 * n + 2) % 256 % 4 = 2 by omega]
    rfl
  · have hthree := three_le_log (Nat.not_lt.mp h30)
    have hlog : Nat.log 256 n < 67 := Nat.log_lt_of_lt_pow (by omega) (by omega)
    refine ⟨UInt8.ofNat (4 * (Nat.log 256 n - 3) + 3), rfl, ?_⟩
    rw [hbyte, show (4 * (Nat.log 256 n - 3) + 3) % 256 % 4 = 3 by omega]
    show Nat.log 256 n + 2 = (4 * (Nat.log 256 n - 3) + 3) % 256 / 4 + 5
    omega

theorem length_compact_mono {m n : Nat} (h : m ≤ n) :
    (compact m).length ≤ (compact n).length := by
  have hlog : Nat.log 256 m ≤ Nat.log 256 n := Nat.log_mono_right h
  have hthree : 2 ^ 30 ≤ n → 3 ≤ Nat.log 256 n := three_le_log
  rw [length_compact, length_compact]
  split_ifs
  all_goals omega

/-- A length prefix tells where a text ends. -/
theorem encode_text_injective {s t : List UInt8} (h : encode (.text s) = encode (.text t)) :
    s = t := by
  unfold encode at h
  have hlen := congrArg List.length h
  simp only [List.length_append] at hlen
  have heq : s.length = t.length := by
    rcases Nat.lt_trichotomy s.length t.length with hlt | heq | hgt
    · have := length_compact_mono (Nat.le_of_lt hlt)
      omega
    · exact heq
    · have := length_compact_mono (Nat.le_of_lt hgt)
      omega
  rw [heq] at h
  exact List.append_cancel_left h

theorem encode_text_ne (s : List UInt8) : encode (.text s) ≠ s := by
  intro h
  have hlen := congrArg List.length h
  unfold encode at hlen
  have hpos : 0 < (compact s.length).length := by
    rw [length_compact]
    split_ifs
    all_goals omega
  simp only [List.length_append] at hlen
  omega

theorem length_encode {t : Ty} {v : Val} (h : HasType t v) {size : Nat} (ht : width t = some size) :
    (encode v).length = size := by
  cases t with
  | uint _ | int _ | bytesN _ =>
    cases ht
    cases v with
    | scalar bytes => unfold HasType at h; exact h
    | _ => unfold HasType at h; exact h.elim
  | bool =>
    cases ht
    cases v with
    | scalar bytes =>
      unfold HasType at h
      rcases h with rfl | rfl
      · rfl
      · rfl
    | _ => unfold HasType at h; exact h.elim
  | byte =>
    cases ht
    cases v with
    | scalar bytes => unfold HasType at h; exact h
    | _ => unfold HasType at h; exact h.elim
  | _ => cases ht

theorem encodeAll_eq_nil_iff {vs : List Val} : encodeAll vs = [] ↔ ∀ v ∈ vs, encode v = [] := by
  induction vs with
  | nil => exact ⟨fun _ => nofun, fun _ => rfl⟩
  | cons v vs ih => rw [encodeAll, List.append_eq_nil_iff, ih, List.forall_mem_cons]

theorem length_encode_le {vs : List Val} {v : Val} (h : v ∈ vs) :
    (encode v).length ≤ (encodeAll vs).length := by
  induction vs with
  | nil => cases h
  | cons w vs ih =>
    rw [encodeAll, List.length_append]
    rcases List.mem_cons.mp h with rfl | h
    · exact Nat.le_add_right _ _
    · exact Nat.le_trans (ih h) (Nat.le_add_left _ _)

/-- Elements that are more than their bytes are not all there in the bytes. -/
theorem exists_encode_eq_nil {vs : List Val} (h : (encodeAll vs).length < vs.length) :
    ∃ v ∈ vs, encode v = [] := by
  induction vs with
  | nil => exact absurd h (Nat.not_lt_zero _)
  | cons v vs ih =>
    by_cases hv : encode v = []
    · exact ⟨v, List.mem_cons_self, hv⟩
    · have hpos := List.length_pos_iff.mpr hv
      rw [encodeAll, List.length_append, List.length_cons] at h
      obtain ⟨w, hw, hempty⟩ := ih (by omega)
      exact ⟨w, List.mem_cons_of_mem v hw, hempty⟩

theorem compact_ne_nil (n : Nat) : compact n ≠ [] := by
  unfold compact
  split_ifs
  all_goals exact List.cons_ne_nil _ _

mutual

/-- Where one value of a type takes no bytes, no value of it does. -/
theorem encode_eq_nil : ∀ {t : Ty} {v w : Val}, HasType t v → HasType t w → encode v = [] →
    encode w = []
  | .uint size, v, w, hv, hw, h | .int size, v, w, hv, hw, h | .bytesN size, v, w, hv, hw, h => by
    have hsize := length_encode hv rfl
    have hwidth := length_encode hw rfl
    rw [h] at hsize
    exact List.eq_nil_of_length_eq_zero (hwidth.trans hsize.symm)
  | .bool, v, w, hv, hw, h | .byte, v, w, hv, hw, h => by
    have hsize := length_encode hv rfl
    rw [h] at hsize
    cases hsize
  | .string, v, w, hv, hw, h | .bytes, v, w, hv, hw, h => by
    cases v with
    | text bytes =>
      unfold encode at h
      exact absurd (List.append_eq_nil_iff.mp h).1 (compact_ne_nil _)
    | _ => unfold HasType at hv; exact hv.elim
  | .array element, v, w, hv, hw, h => by
    cases v with
    | array elements =>
      unfold encode at h
      exact absurd (List.append_eq_nil_iff.mp h).1 (compact_ne_nil _)
    | _ => unfold HasType at hv; exact hv.elim
  | .fixedArray element size, v, w, hv, hw, h => by
    cases v with
    | sequence vs =>
      cases w with
      | sequence ws =>
        unfold HasType at hv hw
        unfold encode at h ⊢
        cases vs with
        | nil =>
          rw [List.eq_nil_of_length_eq_zero (hw.1.trans hv.1.symm)]
          rfl
        | cons v vs =>
          have hempty := encodeAll_eq_nil_iff.mp h v List.mem_cons_self
          exact encodeAll_eq_nil_iff.mpr fun w hmem =>
            encode_eq_nil (hv.2 v List.mem_cons_self) (hw.2 w hmem) hempty
      | _ => unfold HasType at hw; exact hw.elim
    | _ => unfold HasType at hv; exact hv.elim
  | .tuple components, v, w, hv, hw, h => by
    cases v with
    | sequence vs =>
      cases w with
      | sequence ws =>
        unfold HasType at hv hw
        unfold encode at h ⊢
        exact encodeAll_eq_nil hv hw h
      | _ => unfold HasType at hw; exact hw.elim
    | _ => unfold HasType at hv; exact hv.elim

theorem encodeAll_eq_nil : ∀ {ts : List Ty} {vs ws : List Val}, HaveTypes ts vs →
    HaveTypes ts ws → encodeAll vs = [] → encodeAll ws = []
  | [], vs, ws, hv, hw, h => by
    cases ws with
    | nil => rfl
    | cons w ws => unfold HaveTypes at hw; exact hw.elim
  | t :: ts, vs, ws, hv, hw, h => by
    cases vs with
    | nil => unfold HaveTypes at hv; exact hv.elim
    | cons v vs =>
      cases ws with
      | nil => unfold HaveTypes at hw; exact hw.elim
      | cons w ws =>
        unfold HaveTypes at hv hw
        rw [encodeAll, List.append_eq_nil_iff] at h ⊢
        exact ⟨encode_eq_nil hv.1 hw.1 h.1, encodeAll_eq_nil hv.2 hw.2 h.2⟩

end

/-- Of so many elements that the bytes cannot show them, any number looks like all. -/
theorem encodeAll_take {t : Ty} {vs : List Val} (h : ∀ v ∈ vs, HasType t v) {bound : Nat}
    (hbound : (encodeAll vs).length < bound) :
    encodeAll (vs.take (vs.length % bound)) = encodeAll vs := by
  by_cases hlen : vs.length < bound
  · rw [Nat.mod_eq_of_lt hlen, List.take_length]
  · have hfew : (encodeAll vs).length < vs.length := by omega
    obtain ⟨v, hv, hempty⟩ := exists_encode_eq_nil hfew
    have hall (w : Val) (hw : w ∈ vs) : encode w = [] := encode_eq_nil (h v hv) (h w hw) hempty
    rw [encodeAll_eq_nil_iff.mpr hall]
    exact encodeAll_eq_nil_iff.mpr fun w hw => hall w (List.mem_of_mem_take hw)

theorem haveTypes_getElem {ts : List Ty} {vs : List Val} (h : HaveTypes ts vs) {i : Nat}
    {t : Ty} {v : Val} (ht : ts[i]? = some t) (hv : vs[i]? = some v) : HasType t v := by
  induction ts generalizing vs i with
  | nil => cases ht
  | cons t' ts ih =>
    cases vs with
    | nil => cases hv
    | cons v' vs =>
      unfold HaveTypes at h
      cases i with
      | zero =>
        cases ht
        cases hv
        exact h.1
      | succ i => exact ih h.2 ht hv

theorem haveTypes_take {ts : List Ty} {vs : List Val} (h : HaveTypes ts vs) (i : Nat) :
    HaveTypes (ts.take i) (vs.take i) := by
  induction ts generalizing vs i with
  | nil =>
    cases vs with
    | nil => simpa using h
    | cons v vs => unfold HaveTypes at h; exact h.elim
  | cons t ts ih =>
    cases vs with
    | nil => unfold HaveTypes at h; exact h.elim
    | cons v vs =>
      cases i with
      | zero => unfold HaveTypes; exact True.intro
      | succ i =>
        unfold HaveTypes at h
        rw [List.take_succ_cons, List.take_succ_cons]
        unfold HaveTypes
        exact ⟨h.1, ih h.2 i⟩

/-- A component lies behind those before it. -/
theorem encodeAll_split {vs : List Val} {i : Nat} {v : Val} (h : vs[i]? = some v) :
    encodeAll vs = encodeAll (vs.take i) ++ (encode v ++ encodeAll (vs.drop (i + 1))) := by
  induction vs generalizing i with
  | nil => cases h
  | cons v' vs ih =>
    cases i with
    | zero => cases h; rfl
    | succ i =>
      rw [List.take_succ_cons, List.drop_succ_cons, encodeAll, encodeAll, ih h]
      simp only [List.append_assoc]

end Scale
