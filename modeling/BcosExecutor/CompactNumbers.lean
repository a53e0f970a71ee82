import BcosExecutor.Scale
import BcosExecutor.ScaleUtils

namespace BcosExecutor

theorem readByte_append (pre : Bytes) (byte : UInt8) (post : Bytes) :
    readByte (pre ++ byte :: post) pre.length = .ok byte := by
  unfold readByte
  rw [List.getElem?_append_right (Nat.le_refl _), Nat.sub_self]
  rfl

theorem readBytes_append (pre bytes post : Bytes) :
    readBytes (pre ++ (bytes ++ post)) pre.length bytes.length = .ok bytes := by
  induction bytes generalizing pre with
  | nil => rfl
  | cons byte bytes ih =>
    have hrest := ih (pre ++ [byte])
    rw [List.length_append, List.length_singleton, List.append_assoc] at hrest
    rw [List.cons_append, List.length_cons, readBytes, readByte_append]
    replace hrest : readBytes (pre ++ byte :: (bytes ++ post)) (pre.length + 1) bytes.length =
      .ok bytes := hrest
    rw [hrest]
    rfl

theorem readBytes_behind (first : UInt8) (pre bytes post : Bytes) :
    readBytes (pre ++ first :: (bytes ++ post)) (pre.length + 1) bytes.length = .ok bytes := by
  have hread := readBytes_append (pre ++ [first]) bytes post
  rw [List.length_append, List.length_singleton, List.append_assoc, List.singleton_append] at hread
  exact hread

theorem sizeFrom_append {pre rest : Bytes} (h : (pre ++ rest).length < 2 ^ 64) :
    sizeFrom (pre ++ rest) pre.length = rest.length := by
  rw [List.length_append] at h
  unfold sizeFrom
  rw [List.length_append]
  omega

/-- The loop reads a number back up to its low 32 bits. -/
theorem littleEndian_bytesOf (n size : Nat) :
    littleEndian (Scale.bytesOf n size) = n % 256 ^ size % 2 ^ 32 := by
  induction size generalizing n with
  | zero => simp [Scale.bytesOf, littleEndian, Nat.mod_one]
  | succ size ih =>
    have hmod : n % 256 ^ (size + 1) = n % 256 + 256 * (n / 256 % 256 ^ size) := by
      rw [Nat.pow_succ', Nat.mod_mul]
    have hbyte : (UInt8.ofNat n).toNat = n % 256 := rfl
    rw [Scale.bytesOf, littleEndian, ih, hmod, hbyte]
    omega

section

variable {first : UInt8} (pre post : Bytes)

theorem decode_one_byte (hflag : first.toNat % 4 = 0)
    (hlen : (pre ++ first :: post).length < 2 ^ 64) :
    decodeCompactInteger (pre ++ first :: post) pre.length = .ok (some (first.toNat / 4)) := by
  unfold decodeCompactInteger
  rw [sizeFrom_append hlen, if_neg (by simp), readByte_append]
  simp only [bind, Except.bind, hflag]
  rfl

theorem decode_two_bytes (hflag : first.toNat % 4 = 1) (second : UInt8)
    (hlen : (pre ++ first :: second :: post).length < 2 ^ 64) :
    decodeCompactInteger (pre ++ first :: second :: post) pre.length =
      .ok (some ((first.toNat / 4 * 4 + second.toNat * 256) / 4)) := by
  have hsecond := readByte_append (pre ++ [first]) second post
  rw [List.length_append, List.length_singleton, List.append_assoc, List.singleton_append] at hsecond
  unfold decodeCompactInteger
  rw [sizeFrom_append hlen, if_neg (by simp), readByte_append]
  simp only [bind, Except.bind, hflag]
  rw [if_neg (by simp), hsecond]
  rfl

theorem decode_four_bytes (hflag : first.toNat % 4 = 2) {rest : Bytes} (hrest : rest.length = 3)
    (hlen : (pre ++ first :: (rest ++ post)).length < 2 ^ 64) :
    decodeCompactInteger (pre ++ first :: (rest ++ post)) pre.length =
      .ok (some (littleEndian (first :: rest) / 4)) := by
  have hread := hrest ▸ readBytes_behind first pre rest post
  unfold decodeCompactInteger
  rw [sizeFrom_append hlen, if_neg (by simp), readByte_append]
  simp only [bind, Except.bind, hflag]
  rw [if_neg (by simp only [List.length_cons, List.length_append]; omega), hread]
  rfl

theorem decode_more_bytes (hflag : first.toNat % 4 = 3) {rest : Bytes}
    (hrest : rest.length = first.toNat / 4 + 4)
    (hlen : (pre ++ first :: (rest ++ post)).length < 2 ^ 64) :
    decodeCompactInteger (pre ++ first :: (rest ++ post)) pre.length =
      .ok (some (littleEndian rest)) := by
  have hread := hrest ▸ readBytes_behind first pre rest post
  unfold decodeCompactInteger
  rw [sizeFrom_append hlen, if_neg (by simp), readByte_append]
  simp only [bind, Except.bind, hflag]
  rw [if_neg (by simp only [List.length_cons, List.length_append]; omega), hread]
  rfl

end

theorem decodeCompactInteger_compact {n : Nat} (hn : n < 2 ^ 536) (pre post : Bytes)
    (hlen : (pre ++ (Scale.compact n ++ post)).length < 2 ^ 64) :
    decodeCompactInteger (pre ++ (Scale.compact n ++ post)) pre.length = .ok (some (n % 2 ^ 32)) := by
  have hbyte (m : Nat) : (UInt8.ofNat m).toNat = m % 256 := rfl
  unfold Scale.compact at hlen ⊢
  split at hlen
  next h6 =>
    rw [if_pos h6]
    refine (decode_one_byte pre post (by rw [hbyte]; omega) hlen).trans ?_
    rw [hbyte]
    congr 2
    omega
  next h6 =>
    rw [if_neg h6]
    split at hlen
    next h14 =>
      rw [if_pos h14]
      refine (decode_two_bytes pre post (by rw [hbyte]; omega) _ hlen).trans ?_
      rw [hbyte, hbyte]
      congr 2
      omega
    next h14 =>
      rw [if_neg h14]
      split at hlen
      next h30 =>
        rw [if_pos h30]
        refine (decode_four_bytes pre post (by rw [hbyte]; omega)
          (Scale.length_bytesOf _ 3) hlen).trans ?_
        have hread := littleEndian_bytesOf (4 * n + 2) 4
        rw [Scale.bytesOf] at hread
        rw [hread]
        congr 2
        omega
      next h30 =>
        rw [if_neg h30]
        have hthree := Scale.three_le_log (Nat.not_lt.mp h30)
        have hlog : Nat.log 256 n < 67 := Nat.log_lt_of_lt_pow (by omega) (by omega)
        refine (decode_more_bytes pre post (by rw [hbyte]; omega)
          (by rw [Scale.length_bytesOf, hbyte]; omega) hlen).trans ?_
        rw [littleEndian_bytesOf, Nat.mod_eq_of_lt (Nat.lt_pow_succ_log_self (by omega) n)]

/-- The length that the codec library gives for a compact integer is the canonical one. -/
def CompactLen (compactLen : Nat → Nat) : Prop :=
  ∀ n < 2 ^ 32, compactLen n = (Scale.compact n).length

end BcosExecutor
