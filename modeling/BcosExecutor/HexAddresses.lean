import BcosExecutor.ExternalRequest

namespace BcosExecutor

theorem hexValue_hexDigit {n : Nat} (h : n < 16) : hexValue (hexDigit n) = some n := by
  have hall : ∀ n < 16, hexValue (hexDigit n) = some n := by decide
  exact hall n h

theorem hexDigit_lt {n : Nat} (h : n < 16) : (hexDigit n).toNat < 256 := by
  have hall : ∀ n < 16, (hexDigit n).toNat < 256 := by decide
  exact hall n h

theorem toHex_toList (bytes : Bytes) : (toHex bytes).toList = bytes.flatMap fun byte =>
    [hexDigit (byte.toNat / 16), hexDigit (byte.toNat % 16)] := by
  rw [toHex, String.toList_ofList]

/-- Bytes are read back from their digits. -/
theorem unhex_toHex (bytes : Bytes) : unhex (toHex bytes) = some bytes := by
  rw [unhex, toHex_toList]
  induction bytes with
  | nil => rfl
  | cons byte bytes ih =>
    have hlt : byte.toNat < 256 := byte.toNat_lt
    rw [List.flatMap_cons, List.cons_append, List.cons_append, List.nil_append, unhexDigits,
      hexValue_hexDigit (by omega), hexValue_hexDigit (by omega), ih]
    have hbyte : 16 * (byte.toNat / 16) + byte.toNat % 16 = byte.toNat := by omega
    simp only [Option.bind_eq_bind, Option.bind_some, hbyte, UInt8.ofNat_toNat]

theorem bytesToString_ascii {s : String} (h : ∀ c ∈ s.toList, c.toNat < 256) :
    bytesToString (ascii s) = s := by
  unfold bytesToString ascii
  rw [List.map_map]
  have hid : s.toList.map ((fun byte : UInt8 => Char.ofNat byte.toNat) ∘
      fun c : Char => c.toNat.toUInt8) = s.toList := by
    refine (List.map_congr_left fun c hc => ?_).trans (List.map_id _)
    have hmod : (c.toNat.toUInt8).toNat = c.toNat := Nat.mod_eq_of_lt (h c hc)
    show Char.ofNat (c.toNat.toUInt8).toNat = c
    rw [hmod, Char.ofNat_toNat]
  rw [hid, String.ofList_toList]

theorem toHex_chars (bytes : Bytes) : ∀ c ∈ (toHex bytes).toList, c.toNat < 256 := by
  intro c hc
  rw [toHex_toList] at hc
  obtain ⟨byte, -, hc⟩ := List.mem_flatMap.mp hc
  have hlt : byte.toNat < 256 := byte.toNat_lt
  rcases List.mem_cons.mp hc with rfl | hc
  · exact hexDigit_lt (by omega)
  · rw [List.mem_singleton.mp hc]
    exact hexDigit_lt (by omega)

theorem length_zeroes : (List.replicate 20 (0 : UInt8)).length = 20 :=
  List.length_replicate

/-- The address that a string of digits spells, or zero. -/
def addressOfHex (digits : Bytes) : {address : Bytes // address.length = 20} :=
  match unhex (bytesToString digits) with
  | some address =>
    if h : address.length = 20 then ⟨address, h⟩ else ⟨List.replicate 20 0, length_zeroes⟩
  | none => ⟨List.replicate 20 0, length_zeroes⟩

theorem addressOfHex_toHex (address : {address : Bytes // address.length = 20}) :
    addressOfHex (ascii (toHex address.val)) = address := by
  unfold addressOfHex
  rw [bytesToString_ascii (toHex_chars address.val), unhex_toHex]
  exact dif_pos address.property

end BcosExecutor
