import BcosExecutor.AbiNames
import BcosExecutor.CompactNumbers

namespace BcosExecutor

section

variable (compactLen : Nat → Nat) (tuple : Bytes → Nat → Checked (Option Nat)) (fuel : Nat)
  (name : List Char) (data : Bytes) (pos : Nat)

theorem typeLength_array : typeLength compactLen tuple (fuel + 1) (name ++ '[' :: [']']) data pos =
    decodeCompactInteger data pos >>= ifPresent fun size =>
      elementsLength (typeLength compactLen tuple fuel name data) size
        ((pos + compactLen size % 2 ^ 32) % 2 ^ 64) (compactLen size % 2 ^ 32) := by
  have hlast : (name ++ '[' :: [']']).getLast? = some ']' := by
    rw [List.getLast?_append]
    rfl
  have hlen : name.length + 2 = (name ++ '[' :: [']']).length := by simp
  unfold typeLength
  rw [if_pos hlast, rfind_append name (by decide)]
  simp only [hlen, if_true, List.take_left]

theorem typeLength_fixedArray {size : Nat} (hsize : size < 2 ^ 64) :
    typeLength compactLen tuple (fuel + 1)
        (name ++ '[' :: (Nat.toDigits 10 size ++ [']'])) data pos =
      elementsLength (typeLength compactLen tuple fuel name data) (size % 2 ^ 32) pos 0 := by
  have hlast : (name ++ '[' :: (Nat.toDigits 10 size ++ [']'])).getLast? = some ']' := by
    rw [List.getLast?_append, List.getLast?_cons, List.getLast?_append]
    rfl
  have hbracket : '[' ∉ Nat.toDigits 10 size ++ [']'] := by
    intro h
    rcases List.mem_append.mp h with h | h
    · exact notMem_toDigits rfl size h
    · exact absurd h (by decide)
  have hlen : name.length + 2 ≠ (name ++ '[' :: (Nat.toDigits 10 size ++ [']'])).length := by
    have := Nat.length_toDigits_pos (b := 10) (n := size)
    simp only [List.length_append, List.length_cons, List.length_nil]
    omega
  have hdrop : (name ++ '[' :: (Nat.toDigits 10 size ++ [']'])).drop (name.length + 1) =
      Nat.toDigits 10 size ++ [']'] := by
    simp
  unfold typeLength
  rw [if_pos hlast, rfind_append name hbracket]
  simp only [hlen, if_false, List.take_left, hdrop]
  rw [stoul_toDigits hsize [']'] rfl]

theorem getLast?_toDigits (before : List Char) (n : Nat) :
    (before ++ Nat.toDigits 10 n).getLast? ≠ some ']' := by
  intro h
  have hne := Nat.toDigits_ne_nil (n := n) (b := 10)
  rw [List.getLast?_append, List.getLast?_eq_some_getLast hne, Option.some_or] at h
  have hdigit := isDigit_of_mem (List.getLast_mem hne)
  rw [Option.some.inj h] at hdigit
  cases hdigit

theorem typeLength_number {before : List Char} (hbefore : before = "uin".toList ∨ before = "in".toList)
    {size : Nat} (hsize : 8 * size < 2 ^ 32) :
    typeLength compactLen tuple (fuel + 1) (before ++ 't' :: Nat.toDigits 10 (8 * size)) data pos =
      .ok (some size) := by
  have hlast : (before ++ 't' :: Nat.toDigits 10 (8 * size)).getLast? ≠ some ']' := by
    have h := getLast?_toDigits (before ++ ['t']) (8 * size)
    rwa [List.append_assoc] at h
  have hnumber : ("uint".toList.isPrefixOf (before ++ 't' :: Nat.toDigits 10 (8 * size)) ||
      "int".toList.isPrefixOf (before ++ 't' :: Nat.toDigits 10 (8 * size))) = true := by
    rcases hbefore with rfl | rfl
    · rfl
    · rfl
  have hafter := afterLast_append (c := 't') before (notMem_toDigits rfl (8 * size))
  have hread := stoul_toDigits (n := 8 * size) (by omega) [] rfl
  rw [List.append_nil] at hread
  unfold typeLength
  rw [if_neg hlast, if_pos hnumber, hafter, hread]
  simp only [Option.map_some, Nat.mod_eq_of_lt hsize]
  congr 2
  omega

theorem typeLength_bytesN {size : Nat} (hsize : size < 2 ^ 32) :
    typeLength compactLen tuple (fuel + 1) ("byte".toList ++ 's' :: Nat.toDigits 10 size) data pos =
      .ok (some size) := by
  have hlast : ("byte".toList ++ 's' :: Nat.toDigits 10 size).getLast? ≠ some ']' :=
    getLast?_toDigits "bytes".toList size
  have hafter := afterLast_append (c := 's') "byte".toList (notMem_toDigits rfl size)
  have hread := stoul_toDigits (n := size) (by omega) [] rfl
  rw [List.append_nil] at hread
  have hne := Nat.toDigits_ne_nil (n := size) (b := 10)
  unfold typeLength
  rw [if_neg hlast, if_neg (by simp), if_neg (by simp), if_neg (by simp),
    if_pos (by simp), hafter, hread]
  simp only [Option.map_some, Nat.mod_eq_of_lt hsize]

theorem typeLength_text (hname : name = "string".toList ∨ name = "bytes".toList) :
    typeLength compactLen tuple (fuel + 1) name data pos =
      decodeCompactInteger data pos >>= ifPresent fun value =>
        .ok (some (value + compactLen value)) := by
  unfold typeLength
  rcases hname with rfl | rfl
  · rfl
  · rfl

theorem typeLength_one (hname : name = "bool".toList ∨ name = "byte".toList) :
    typeLength compactLen tuple (fuel + 1) name data pos = .ok (some 1) := by
  rcases hname with rfl | rfl
  · rfl
  · rfl

end

theorem elementsLength_exact {data : Bytes} {element : Nat → Checked (Option Nat)}
    (hdata : data.length < 2 ^ 64) {vs : List Scale.Val} {pre post : Bytes} (length : Nat)
    (heq : data = pre ++ (Scale.encodeAll vs ++ post))
    (hlength : length + (Scale.encodeAll vs).length < 2 ^ 32)
    (h : ∀ v ∈ vs, ∀ pre post, data = pre ++ (Scale.encode v ++ post) →
      element pre.length = .ok (some (Scale.encode v).length)) :
    elementsLength element vs.length pre.length length =
      .ok (some (length + (Scale.encodeAll vs).length)) := by
  induction vs generalizing pre length with
  | nil => rfl
  | cons v vs ih =>
    have hv : data = pre ++ (Scale.encode v ++ (Scale.encodeAll vs ++ post)) := by
      rw [heq, Scale.encodeAll, List.append_assoc]
    have hvs : data = (pre ++ Scale.encode v) ++ (Scale.encodeAll vs ++ post) := by
      rw [hv, List.append_assoc]
    have hlen := congrArg List.length hvs
    simp only [List.length_append] at hlen
    rw [Scale.encodeAll, List.length_append] at hlength
    have hrest := ih (length + (Scale.encode v).length) hvs (by omega)
      fun w hw => h w (List.mem_cons_of_mem v hw)
    rw [List.length_append] at hrest
    have hpos : (pre.length + (Scale.encode v).length) % 2 ^ 64 =
        pre.length + (Scale.encode v).length := Nat.mod_eq_of_lt (by omega)
    have hsum : (length + (Scale.encode v).length) % 2 ^ 32 =
        length + (Scale.encode v).length := Nat.mod_eq_of_lt (by omega)
    rw [List.length_cons, elementsLength, h v List.mem_cons_self pre _ hv]
    simp only [bind, Except.bind, ifPresent]
    rw [hpos, hsum, hrest, Scale.encodeAll, List.length_append, Nat.add_assoc]

variable {compactLen : Nat → Nat}

/-- A number that a value begins with is read as it is. -/
theorem decode_count {n : Nat} (hn : n < 2 ^ 32) {pre rest : Bytes}
    (hlen : (pre ++ (Scale.compact n ++ rest)).length < 2 ^ 64) (f : Nat → Checked (Option Nat)) :
    (decodeCompactInteger (pre ++ (Scale.compact n ++ rest)) pre.length >>= ifPresent f) = f n := by
  rw [decodeCompactInteger_compact (by omega) pre rest hlen, Nat.mod_eq_of_lt hn]
  rfl

/-- A value of the type which 32 bits can measure. -/
structure Fits (t : Scale.Ty) (v : Scale.Val) : Prop where
  typed : Scale.HasType t v
  sized : Sized t v
  short : (Scale.encode v).length < 2 ^ 32

/-- Every value of the type is measured right by the name of the type, wherever it lies. -/
def Exact (compactLen : Nat → Nat) (t : Scale.Ty) : Prop :=
  ∀ (v : Scale.Val) (pre post : Bytes) (fuel : Nat), Fits t v →
    (pre ++ (Scale.encode v ++ post)).length < 2 ^ 64 → (abiName t).length ≤ fuel →
      typeLength compactLen
          (fun bytes pos => componentsLength compactLen (abiComponents t) bytes pos 0) (fuel + 1)
          (abiName t) (pre ++ (Scale.encode v ++ post)) pre.length =
        .ok (some (Scale.encode v).length)

theorem exact_text {t : Scale.Ty} (hcompact : CompactLen compactLen)
    (ht : t = .string ∨ t = .bytes) : Exact compactLen t := by
  intro v pre post fuel h hlen hfuel
  have hname : abiName t = "string".toList ∨ abiName t = "bytes".toList := by
    rcases ht with rfl | rfl
    · exact Or.inl rfl
    · exact Or.inr rfl
  obtain ⟨htyped, -, hshort⟩ := h
  obtain ⟨bytes, rfl⟩ : ∃ bytes, v = .text bytes := by
    rcases ht with rfl | rfl
    all_goals
      cases v with
      | text bytes => exact ⟨bytes, rfl⟩
      | _ => unfold Scale.HasType at htyped; exact htyped.elim
  rw [Scale.encode, List.length_append] at hshort
  rw [Scale.encode, List.append_assoc] at hlen ⊢
  have hn : bytes.length < 2 ^ 32 := by omega
  rw [typeLength_text _ _ _ _ _ _ hname, decode_count hn hlen, hcompact _ hn, List.length_append,
    Nat.add_comm]

theorem exact_number {t : Scale.Ty} {size : Nat} (ht : t = .uint size ∨ t = .int size) :
    Exact compactLen t := by
  intro v pre post fuel h hlen hfuel
  have hsized := h.sized
  have hsize : 8 * size < 2 ^ 32 := by
    rcases ht with rfl | rfl
    all_goals
      unfold Sized at hsized
      exact hsized
  rcases ht with rfl | rfl
  · rw [Scale.length_encode h.typed rfl]
    exact typeLength_number _ _ _ _ _ (Or.inl rfl) hsize
  · rw [Scale.length_encode h.typed rfl]
    exact typeLength_number _ _ _ _ _ (Or.inr rfl) hsize

theorem exact_one {t : Scale.Ty} (ht : t = .bool ∨ t = .byte) : Exact compactLen t := by
  intro v pre post fuel h hlen hfuel
  rcases ht with rfl | rfl
  · rw [Scale.length_encode h.typed rfl]
    exact typeLength_one _ _ _ _ _ _ (Or.inl rfl)
  · rw [Scale.length_encode h.typed rfl]
    exact typeLength_one _ _ _ _ _ _ (Or.inr rfl)

theorem exact_bytesN (size : Nat) : Exact compactLen (.bytesN size) := by
  intro v pre post fuel h hlen hfuel
  have hbytes : (Scale.encode v).length = size := Scale.length_encode h.typed rfl
  have hshort := h.short
  rw [hbytes] at hshort ⊢
  exact typeLength_bytesN _ _ _ _ _ hshort

/-- The elements of an array, of either kind, are measured one after the other. -/
theorem elementsLength_values {t : Scale.Ty} (ht : Exact compactLen t) {vs : List Scale.Val}
    (htyped : ∀ v ∈ vs, Scale.HasType t v) (hsized : ∀ v ∈ vs, Sized t v) {fuel : Nat}
    (hfuel : (abiName t).length ≤ fuel) {data : Bytes} (hdata : data.length < 2 ^ 64)
    (pre post : Bytes) (heq : data = pre ++ (Scale.encodeAll vs ++ post)) (length : Nat)
    (hlength : length + (Scale.encodeAll vs).length < 2 ^ 32) :
    elementsLength (typeLength compactLen
        (fun bytes pos => componentsLength compactLen (abiComponents t) bytes pos 0) (fuel + 1)
        (abiName t) data) vs.length pre.length length =
      .ok (some (length + (Scale.encodeAll vs).length)) := by
  refine elementsLength_exact hdata length heq hlength fun v hv pre post heq => ?_
  have hle := Scale.length_encode_le hv
  rw [heq] at hdata ⊢
  exact ht v pre post fuel ⟨htyped v hv, hsized v hv, by omega⟩ hdata hfuel

theorem exact_array (hcompact : CompactLen compactLen) {t : Scale.Ty} (ht : Exact compactLen t) :
    Exact compactLen (.array t) := by
  intro v pre post fuel h hlen hfuel
  obtain ⟨htyped, hsized, hshort⟩ := h
  cases v with
  | array vs =>
    unfold Scale.HasType at htyped
    unfold Sized at hsized
    obtain ⟨hcount, hsized⟩ := hsized
    rw [Scale.encode, List.length_append] at hshort
    rw [Scale.encode, List.append_assoc] at hlen ⊢
    have hname : (abiName (.array t)).length = (abiName t).length + 2 := by
      rw [abiName_array, List.length_append]
      rfl
    obtain ⟨fuel, rfl⟩ : ∃ n, fuel = n + 1 := ⟨fuel - 1, by omega⟩
    have hdecode := decode_count hcount hlen
    simp only [List.length_append] at hlen
    have hshorter : (abiName t).length ≤ fuel := by omega
    have hbuffer : (pre ++ (Scale.compact vs.length ++ (Scale.encodeAll vs ++ post))).length <
        2 ^ 64 := by
      simp only [List.length_append]
      omega
    have hvalues := elementsLength_values ht htyped hsized hshorter hbuffer
      (pre ++ Scale.compact vs.length) post (List.append_assoc ..).symm _ hshort
    rw [List.length_append] at hvalues
    rw [abiName_array, abiComponents, typeLength_array, hdecode, hcompact _ hcount,
      Nat.mod_eq_of_lt (by omega), Nat.mod_eq_of_lt (by omega), List.length_append]
    exact hvalues
  | _ => unfold Scale.HasType at htyped; exact htyped.elim

theorem exact_fixedArray {t : Scale.Ty} (ht : Exact compactLen t) (size : Nat) :
    Exact compactLen (.fixedArray t size) := by
  intro v pre post fuel h hlen hfuel
  obtain ⟨htyped, hsized, hshort⟩ := h
  cases v with
  | sequence vs =>
    unfold Scale.HasType at htyped
    unfold Sized at hsized
    obtain ⟨rfl, htyped⟩ := htyped
    obtain ⟨hcount, hsized⟩ := hsized
    rw [Scale.encode] at hshort hlen ⊢
    have hname : (abiName t).length + 1 ≤ (abiName (.fixedArray t vs.length)).length := by
      rw [abiName_fixedArray, List.length_append, List.length_cons]
      omega
    obtain ⟨fuel, rfl⟩ : ∃ n, fuel = n + 1 := ⟨fuel - 1, by omega⟩
    -- the loop stops at the low 32 bits of the size, where no more bytes are left
    have htake := Scale.encodeAll_take htyped hshort
    have hcounted : (vs.take (vs.length % 2 ^ 32)).length = vs.length % 2 ^ 32 :=
      List.length_take_of_le (Nat.mod_le _ _)
    have hshorter : (abiName t).length ≤ fuel := by omega
    have hvalues := elementsLength_values ht
      (fun v hv => htyped v (List.mem_of_mem_take hv))
      (fun v hv => hsized v (List.mem_of_mem_take hv)) hshorter hlen pre post
      (congrArg (fun bytes => pre ++ (bytes ++ post)) htake.symm) 0
      (by rw [htake, Nat.zero_add]; exact hshort)
    rw [hcounted, htake, Nat.zero_add] at hvalues
    rw [abiName_fixedArray, abiComponents, typeLength_fixedArray _ _ _ _ _ _ hcount]
    exact hvalues
  | _ => unfold Scale.HasType at htyped; exact htyped.elim

theorem scaleEncodingLength_of_exact {t : Scale.Ty} (ht : Exact compactLen t) {v : Scale.Val}
    (h : Fits t v) (pre post : Bytes) (hlen : (pre ++ (Scale.encode v ++ post)).length < 2 ^ 64) :
    scaleEncodingLength compactLen (paramAbi t) (pre ++ (Scale.encode v ++ post)) pre.length =
      .ok (some (Scale.encode v).length) := by
  rw [paramAbi, scaleEncodingLength, String.toList_ofList, String.length_ofList]
  exact ht v pre post _ h hlen (Nat.le_refl _)

theorem componentsLength_exact {ts : List Scale.Ty} (hts : ∀ t ∈ ts, Exact compactLen t)
    {vs : List Scale.Val} (h : Scale.HaveTypes ts vs) (hc : AllSized ts vs) (pre post : Bytes)
    (hlen : (pre ++ (Scale.encodeAll vs ++ post)).length < 2 ^ 64) (length : Nat)
    (hlength : length + (Scale.encodeAll vs).length < 2 ^ 32) :
    componentsLength compactLen (paramAbis ts) (pre ++ (Scale.encodeAll vs ++ post)) pre.length
      length = .ok (some (length + (Scale.encodeAll vs).length)) := by
  induction ts generalizing vs pre length with
  | nil =>
    cases vs with
    | nil => rfl
    | cons v vs => unfold Scale.HaveTypes at h; exact h.elim
  | cons t ts ih =>
    cases vs with
    | nil => unfold Scale.HaveTypes at h; exact h.elim
    | cons v vs =>
      unfold Scale.HaveTypes at h
      unfold AllSized at hc
      rw [Scale.encodeAll, List.length_append] at hlength
      rw [Scale.encodeAll, List.append_assoc] at hlen ⊢
      have hfirst := scaleEncodingLength_of_exact (hts t List.mem_cons_self)
        ⟨h.1, hc.1, by omega⟩ pre _ hlen
      have hassoc : pre ++ (Scale.encode v ++ (Scale.encodeAll vs ++ post)) =
          (pre ++ Scale.encode v) ++ (Scale.encodeAll vs ++ post) := (List.append_assoc ..).symm
      have hrest := ih (fun t ht => hts t (List.mem_cons_of_mem _ ht)) h.2 hc.2
        (pre ++ Scale.encode v) (by rw [← hassoc]; exact hlen)
        (length + (Scale.encode v).length) (by omega)
      simp only [List.length_append] at hlen
      have hpos : (pre.length + (Scale.encode v).length) % 2 ^ 64 =
          pre.length + (Scale.encode v).length := Nat.mod_eq_of_lt (by omega)
      have hsum : (length + (Scale.encode v).length) % 2 ^ 32 =
          length + (Scale.encode v).length := Nat.mod_eq_of_lt (by omega)
      unfold paramAbis componentsLength
      rw [← paramAbi, hfirst]
      simp only [bind, Except.bind, ifPresent]
      rw [hpos, hsum, hassoc]
      rw [List.length_append] at hrest
      rw [hrest, List.length_append, Nat.add_assoc]

theorem exact_tuple {ts : List Scale.Ty} (hts : ∀ t ∈ ts, Exact compactLen t) :
    Exact compactLen (.tuple ts) := by
  intro v pre post fuel h hlen hfuel
  obtain ⟨htyped, hsized, hshort⟩ := h
  cases v with
  | sequence vs =>
    unfold Scale.HasType at htyped
    unfold Sized at hsized
    rw [Scale.encode] at hshort hlen ⊢
    have hcomponents := componentsLength_exact hts htyped hsized pre post hlen 0
      (by rw [Nat.zero_add]; exact hshort)
    rw [Nat.zero_add] at hcomponents
    exact hcomponents
  | _ => unfold Scale.HasType at htyped; exact htyped.elim

mutual

theorem exact (hcompact : CompactLen compactLen) : ∀ t : Scale.Ty, Exact compactLen t
  | .uint _ => exact_number (Or.inl rfl)
  | .int _ => exact_number (Or.inr rfl)
  | .bool => exact_one (Or.inl rfl)
  | .byte => exact_one (Or.inr rfl)
  | .bytesN size => exact_bytesN size
  | .string => exact_text hcompact (Or.inl rfl)
  | .bytes => exact_text hcompact (Or.inr rfl)
  | .array element => exact_array hcompact (exact hcompact element)
  | .fixedArray element size => exact_fixedArray (exact hcompact element) size
  | .tuple components => exact_tuple (exact_all hcompact components)

theorem exact_all (hcompact : CompactLen compactLen) :
    ∀ (ts : List Scale.Ty) (t : Scale.Ty), t ∈ ts → Exact compactLen t
  | [] => nofun
  | t :: ts => List.forall_mem_cons.mpr ⟨exact hcompact t, exact_all hcompact ts⟩

end

/-- The length of every value is computed right from its ABI, at any place in the data. -/
theorem scaleEncodingLength_exact (hcompact : CompactLen compactLen) {t : Scale.Ty}
    {v : Scale.Val} (h : Fits t v) (pre post : Bytes)
    (hlen : (pre ++ (Scale.encode v ++ post)).length < 2 ^ 64) :
    scaleEncodingLength compactLen (paramAbi t) (pre ++ (Scale.encode v ++ post)) pre.length =
      .ok (some (Scale.encode v).length) :=
  scaleEncodingLength_of_exact (exact hcompact t) h pre post hlen

/-- The length of a compact integer in its canonical form. -/
def canonicalLen (n : Nat) : Nat :=
  (Scale.compact n).length

theorem compactLen_canonicalLen : CompactLen canonicalLen :=
  fun _ _ => rfl

/-- Numbers with their names, in an array behind one byte. -/
theorem scaleEncodingLength_names :
    scaleEncodingLength canonicalLen (paramAbi (.array (.tuple [.uint 4, .string])))
      [9, 4, 7, 0, 0, 0, 8, 97, 98, 1] 1 = .ok (some 8) := by
  have h : Fits (.array (.tuple [.uint 4, .string]))
      (.array [.sequence [.scalar [7, 0, 0, 0], .text [97, 98]]]) :=
    ⟨by simp [Scale.HasType, Scale.HaveTypes], by simp [Sized, AllSized], by decide⟩
  exact scaleEncodingLength_exact compactLen_canonicalLen h [9] [1] (by decide)

/-- Tuples that take no bytes. -/
def emptyTuples (n : Nat) : List Scale.Val :=
  List.replicate n (.sequence [])

theorem encodeAll_emptyTuples (n : Nat) : Scale.encodeAll (emptyTuples n) = [] := by
  refine Scale.encodeAll_eq_nil_iff.mpr fun v hv => ?_
  rw [List.eq_of_mem_replicate hv]
  rfl

theorem hasType_emptyTuples (n : Nat) : ∀ v ∈ emptyTuples n, Scale.HasType (.tuple []) v := by
  intro v hv
  rw [List.eq_of_mem_replicate hv]
  simp [Scale.HasType, Scale.HaveTypes]

theorem hasType_manyTuples (n : Nat) :
    Scale.HasType (.array (.tuple [])) (.array (emptyTuples n)) := by
  unfold Scale.HasType
  exact hasType_emptyTuples n

theorem encode_manyTuples (n : Nat) : Scale.encode (.array (emptyTuples n)) = Scale.compact n := by
  rw [Scale.encode, encodeAll_emptyTuples, List.append_nil, emptyTuples, List.length_replicate]

/-- Numbers, arrays and sizes that 32 bits, or 64, cannot count. -/
theorem not_scaleEncodingLength_exact :
    (Scale.HasType (.uint (2 ^ 29)) (.scalar (List.replicate (2 ^ 29) 0)) ∧
      (Scale.encode (.scalar (List.replicate (2 ^ 29) 0))).length = 2 ^ 29 ∧
      scaleEncodingLength canonicalLen (paramAbi (.uint (2 ^ 29)))
        (Scale.encode (.scalar (List.replicate (2 ^ 29) 0))) 0 = .ok (some 0)) ∧
    (Scale.HasType (.array (.tuple [])) (.array (emptyTuples (2 ^ 32))) ∧
      Scale.encode (.array (emptyTuples (2 ^ 32))) = [7, 0, 0, 0, 0, 1] ∧
      scaleEncodingLength canonicalLen (paramAbi (.array (.tuple []))) [7, 0, 0, 0, 0, 1] 0 =
        .ok (some 1)) ∧
    (Scale.HasType (.fixedArray (.tuple []) (2 ^ 64)) (.sequence (emptyTuples (2 ^ 64))) ∧
      Scale.encode (.sequence (emptyTuples (2 ^ 64))) = [] ∧
      scaleEncodingLength canonicalLen (paramAbi (.fixedArray (.tuple []) (2 ^ 64))) [] 0 =
        .ok none) := by
  refine ⟨⟨?_, ?_, ?_⟩, ⟨hasType_manyTuples _, ?_, ?_⟩, ⟨?_, ?_, ?_⟩⟩
  · unfold Scale.HasType
    exact List.length_replicate
  · rw [Scale.encode, List.length_replicate]
  · generalize Scale.encode _ = data
    rfl
  · rw [encode_manyTuples]
    decide +kernel
  · decide +kernel
  · unfold Scale.HasType
    exact ⟨List.length_replicate, hasType_emptyTuples _⟩
  · rw [Scale.encode, encodeAll_emptyTuples]
  · decide +kernel

end BcosExecutor
