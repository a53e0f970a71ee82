import BcosExecutor.Scale
import BcosExecutor.ScaleUtils

namespace BcosExecutor

/-- The name of a type in an ABI, the sizes in decimal and those of numbers in bits. -/
def abiName : Scale.Ty → List Char
  | .uint size => "uint".toList ++ Nat.toDigits 10 (8 * size)
  | .int size => "int".toList ++ Nat.toDigits 10 (8 * size)
  | .bool => "bool".toList
  | .byte => "byte".toList
  | .bytesN size => "bytes".toList ++ Nat.toDigits 10 size
  | .string => "string".toList
  | .bytes => "bytes".toList
  | .array element => abiName element ++ '[' :: [']']
  | .fixedArray element size => abiName element ++ '[' :: (Nat.toDigits 10 size ++ [']'])
  | .tuple _ => "tuple".toList

@[simp] theorem abiName_array (element : Scale.Ty) :
    abiName (.array element) = abiName element ++ '[' :: [']'] := rfl

@[simp] theorem abiName_fixedArray (element : Scale.Ty) (size : Nat) :
    abiName (.fixedArray element size) =
      abiName element ++ '[' :: (Nat.toDigits 10 size ++ [']']) := rfl

mutual

/-- The components of the tuple that a type ends in. -/
def abiComponents : Scale.Ty → List ParameterAbi
  | .array element | .fixedArray element _ => abiComponents element
  | .tuple components => paramAbis components
  | _ => []

def paramAbis : List Scale.Ty → List ParameterAbi
  | [] => []
  | t :: ts => ⟨String.ofList (abiName t), abiComponents t⟩ :: paramAbis ts

end

def paramAbi (t : Scale.Ty) : ParameterAbi :=
  ⟨String.ofList (abiName t), abiComponents t⟩

mutual

/-- The bits of the numbers, and the elements of the arrays, can be counted with 32 bits. -/
def Counted : Scale.Ty → Scale.Val → Prop
  | .uint size, _ | .int size, _ => 8 * size < 2 ^ 32
  | .array element, .array elements =>
    elements.length < 2 ^ 32 ∧ ∀ v ∈ elements, Counted element v
  | .fixedArray element size, .sequence elements =>
    size < 2 ^ 32 ∧ ∀ v ∈ elements, Counted element v
  | .tuple components, .sequence elements => AllCounted components elements
  | _, _ => True

def AllCounted : List Scale.Ty → List Scale.Val → Prop
  | t :: ts, v :: vs => Counted t v ∧ AllCounted ts vs
  | _, _ => True

end

mutual

/-- As far as 32 bits can count, where the size of a fixed array has 64. -/
def Sized : Scale.Ty → Scale.Val → Prop
  | .uint size, _ | .int size, _ => 8 * size < 2 ^ 32
  | .array element, .array elements =>
    elements.length < 2 ^ 32 ∧ ∀ v ∈ elements, Sized element v
  | .fixedArray element size, .sequence elements =>
    size < 2 ^ 64 ∧ ∀ v ∈ elements, Sized element v
  | .tuple components, .sequence elements => AllSized components elements
  | _, _ => True

def AllSized : List Scale.Ty → List Scale.Val → Prop
  | t :: ts, v :: vs => Sized t v ∧ AllSized ts vs
  | _, _ => True

end

mutual

theorem Counted.sized : ∀ {t : Scale.Ty} {v : Scale.Val}, Counted t v → Sized t v
  | .uint _, _, h | .int _, _, h => by
    unfold Counted at h
    unfold Sized
    exact h
  | .array element, v, h => by
    cases v with
    | array elements =>
      unfold Counted at h
      unfold Sized
      exact ⟨h.1, fun v hv => (h.2 v hv).sized⟩
    | _ => unfold Sized; exact True.intro
  | .fixedArray element size, v, h => by
    cases v with
    | sequence elements =>
      unfold Counted at h
      unfold Sized
      exact ⟨Nat.lt_trans h.1 (by omega), fun v hv => (h.2 v hv).sized⟩
    | _ => unfold Sized; exact True.intro
  | .tuple components, v, h => by
    cases v with
    | sequence elements =>
      unfold Counted at h
      unfold Sized
      exact h.sized
    | _ => unfold Sized; exact True.intro
  | .bool, _, _ | .byte, _, _ | .bytesN _, _, _ | .string, _, _ | .bytes, _, _ => by
    unfold Sized
    exact True.intro

theorem AllCounted.sized : ∀ {ts : List Scale.Ty} {vs : List Scale.Val},
    AllCounted ts vs → AllSized ts vs
  | [], _, _ => by unfold AllSized; exact True.intro
  | _ :: _, [], _ => by unfold AllSized; exact True.intro
  | t :: ts, v :: vs, h => by
    unfold AllCounted at h
    unfold AllSized
    exact ⟨h.1.sized, h.2.sized⟩

end

example : paramAbi (.array (.fixedArray (.tuple [.uint 32, .string]) 2)) =
    ⟨"tuple[2][]", [⟨"uint256", []⟩, ⟨"string", []⟩]⟩ := rfl

theorem rfind_append {c : Char} (before : List Char) {after : List Char} (h : c ∉ after) :
    rfind c (before ++ c :: after) = some before.length := by
  have hall : ∀ d ∈ after.reverse, (d ≠ c) = true := by
    intro d hd
    have hne : d ≠ c := fun hdc => h (hdc ▸ List.mem_reverse.mp hd)
    simp [hne]
  have htake : ((before ++ c :: after).reverse.takeWhile (· ≠ c)).length = after.length := by
    rw [List.reverse_append, List.reverse_cons, List.append_assoc,
      List.takeWhile_append_of_pos (by simpa using hall)]
    simp
  have hlen : (before ++ c :: after).length = before.length + after.length + 1 := by
    simp only [List.length_append, List.length_cons]
    omega
  unfold rfind
  dsimp only
  rw [htake, hlen, if_pos (by omega)]
  congr 1
  omega

theorem afterLast_append {c : Char} (before : List Char) {after : List Char} (h : c ∉ after) :
    afterLast c (before ++ c :: after) = after := by
  unfold afterLast
  rw [rfind_append before h]
  simp

theorem isDigit_of_mem {n : Nat} {c : Char} (h : c ∈ Nat.toDigits 10 n) : c.isDigit = true :=
  Nat.isDigit_of_mem_toDigits (by omega) (by omega) h

theorem notMem_toDigits {c : Char} (h : c.isDigit = false) (n : Nat) : c ∉ Nat.toDigits 10 n := by
  intro hmem
  rw [isDigit_of_mem hmem] at h
  cases h

theorem ne_of_isDigit {c d : Char} (hc : c.isDigit = true) (hd : d.isDigit = false) : c ≠ d := by
  rintro rfl
  rw [hc] at hd
  cases hd

/-- A size is read back from the name, where no digit follows it. -/
theorem stoul_toDigits {n : Nat} (hn : n < 2 ^ 64) (after : List Char)
    (hafter : after.head?.all (fun c => !c.isDigit) = true) :
    stoul (Nat.toDigits 10 n ++ after) = some n := by
  have hdigits : ∀ c ∈ Nat.toDigits 10 n, c.isDigit = true := fun c hc => isDigit_of_mem hc
  have hvalue : (Nat.toDigits 10 n).foldl (fun n c => 10 * n + (c.toNat - 48)) 0 = n :=
    Nat.ofDigitChars_ten_toDigits
  have hrest : after.takeWhile Char.isDigit = [] := by
    cases after with
    | nil => rfl
    | cons c after => simpa [List.takeWhile_cons] using hafter
  cases hcons : Nat.toDigits 10 n with
  | nil => exact absurd hcons Nat.toDigits_ne_nil
  | cons d ds =>
    rw [hcons] at hdigits hvalue
    have hd := hdigits d List.mem_cons_self
    have htoNat : 48 ≤ d.toNat := (Char.isDigit_iff_toNat.mp hd).1
    have hspace : (d.isWhitespace || d.toNat = 11 || d.toNat = 12) = false := by
      have hblank : d.isWhitespace = false := by
        simp [Char.isWhitespace, ne_of_isDigit hd (d := ' ') rfl, ne_of_isDigit hd (d := '\t') rfl,
          ne_of_isDigit hd (d := '\r') rfl, ne_of_isDigit hd (d := '\n') rfl]
      simp only [hblank, Bool.false_or, Bool.or_eq_false_iff, decide_eq_false_iff_not]
      omega
    have htake : (d :: (ds ++ after)).takeWhile Char.isDigit = d :: ds := by
      rw [← List.cons_append, List.takeWhile_append_of_pos hdigits, hrest, List.append_nil]
    unfold stoul
    rw [List.cons_append, List.dropWhile_cons_of_neg (by simpa using hspace)]
    simp only [List.head?_cons, Option.some.injEq, ne_of_isDigit hd (d := '-') rfl,
      ne_of_isDigit hd (d := '+') rfl, decide_false, Bool.or_false, if_false, htake, hvalue,
      Bool.false_eq_true, List.isEmpty_cons, Bool.false_or]
    rw [if_neg (by simpa using hn)]

end BcosExecutor
