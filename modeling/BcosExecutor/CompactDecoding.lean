import BcosExecutor.CompactWords

namespace BcosExecutor

/-- The data ends inside of the encoding that its first byte, where it has one, announces. -/
def EndsInside (encodedBytes : Bytes) (startPos : Nat) : Prop :=
  ∀ first ∈ encodedBytes[startPos]?, encodedBytes.length < startPos + Scale.announced first

theorem sizeFrom_eq {encodedBytes : Bytes} {startPos : Nat} (hlen : encodedBytes.length < 2 ^ 64)
    (hpos : startPos ≤ encodedBytes.length) :
    sizeFrom encodedBytes startPos = encodedBytes.length - startPos := by
  unfold sizeFrom
  omega

theorem getElem?_of_readByte {bytes : Bytes} {i : Nat} {byte : UInt8}
    (h : readByte bytes i = .ok byte) : bytes[i]? = some byte := by
  unfold readByte at h
  split at h
  next byte' hi =>
    cases h
    exact hi
  next => cases h

theorem mode_eq_none {available startPos size : Nat} (needed : Nat) {read : Checked (Option Nat)}
    (hsize : available = size - startPos) (hneeded : 0 < needed)
    (hread : startPos + needed ≤ size → ∃ number, read = .ok (some number)) :
    (if available < needed then .ok none else read) = .ok none ↔ size < startPos + needed := by
  by_cases hshort : available < needed
  · rw [if_pos hshort]
    exact ⟨fun _ => by omega, fun _ => rfl⟩
  · obtain ⟨number, hnumber⟩ := hread (by omega)
    rw [if_neg hshort, hnumber]
    exact ⟨nofun, fun _ => by omega⟩

/-- From a start inside of the data or at its end, there is no value exactly where the encoding
is not complete. -/
theorem decodeCompactInteger_eq_none {encodedBytes : Bytes} {startPos : Nat}
    (hlen : encodedBytes.length < 2 ^ 64) (hpos : startPos ≤ encodedBytes.length) :
    decodeCompactInteger encodedBytes startPos = .ok none ↔ EndsInside encodedBytes startPos := by
  unfold decodeCompactInteger EndsInside
  rw [sizeFrom_eq hlen hpos]
  by_cases hend : encodedBytes.length - startPos < 1
  · rw [if_pos hend, List.getElem?_eq_none (by omega)]
    exact ⟨fun _ => nofun, fun _ => rfl⟩
  · rw [if_neg hend]
    obtain ⟨first, hfirst⟩ := readByte_eq_ok.mpr (show startPos < encodedBytes.length by omega)
    simp only [getElem?_of_readByte hfirst, hfirst, bind, Except.bind, Option.mem_some_iff,
      forall_eq']
    unfold Scale.announced
    obtain hflag | hflag | hflag | hflag : first.toNat % 4 = 0 ∨ first.toNat % 4 = 1 ∨
      first.toNat % 4 = 2 ∨ first.toNat % 4 = 3 := by omega
    · rw [hflag]
      exact ⟨nofun, fun h => absurd h (show ¬encodedBytes.length < startPos + 1 by omega)⟩
    · rw [hflag]
      refine mode_eq_none 2 rfl (Nat.succ_pos 1) fun hin => ?_
      obtain ⟨second, hsecond⟩ := readByte_eq_ok.mpr (show startPos + 1 < encodedBytes.length by omega)
      exact ⟨_, by rw [hsecond]; rfl⟩
    · rw [hflag]
      refine mode_eq_none 4 rfl (Nat.succ_pos 3) fun hin => ?_
      obtain ⟨rest, hrest⟩ := readBytes_eq_ok (show startPos + 1 + 3 ≤ encodedBytes.length by omega)
      exact ⟨_, by rw [hrest]; rfl⟩
    · rw [hflag]
      refine mode_eq_none (first.toNat / 4 + 5) rfl (Nat.succ_pos _) fun hin => ?_
      obtain ⟨rest, hrest⟩ := readBytes_eq_ok
        (show startPos + 1 + (first.toNat / 4 + 4) ≤ encodedBytes.length by omega)
      exact ⟨_, by rw [hrest]; rfl⟩

/-- Data that ends inside of the encoding of a number has no value. -/
theorem decodeCompactInteger_cut {n cut : Nat} (hn : n < 2 ^ 536)
    (hcut : cut < (Scale.compact n).length) (pre : Bytes) (hlen : pre.length + cut < 2 ^ 64) :
    decodeCompactInteger (pre ++ (Scale.compact n).take cut) pre.length = .ok none := by
  have htake : ((Scale.compact n).take cut).length = cut :=
    List.length_take_of_le (Nat.le_of_lt hcut)
  have hlength : (pre ++ (Scale.compact n).take cut).length = pre.length + cut := by
    rw [List.length_append, htake]
  refine (decodeCompactInteger_eq_none (by rw [hlength]; exact hlen)
    (by rw [hlength]; omega)).mpr fun first hfirst => ?_
  obtain ⟨first', hfirst', hannounced⟩ := Scale.compact_announced hn
  rw [List.getElem?_append_right (Nat.le_refl _), Nat.sub_self, ← List.head?_eq_getElem?] at hfirst
  have hsame : first = first' := by
    rw [List.head?_take] at hfirst
    split at hfirst
    next => cases hfirst
    next => exact Option.some.inj (hfirst.symm.trans hfirst')
  rw [hlength, hsame, ← hannounced]
  omega

namespace CompactWords

theorem decodeCompactInteger_eq_iff {encodedBytes : Bytes} (hlen : encodedBytes.length < 2 ^ 64)
    (startPos : UInt64) (result : Option UInt64) :
    decodeCompactInteger encodedBytes startPos = .ok result ↔
      BcosExecutor.decodeCompactInteger encodedBytes startPos.toNat =
        .ok (result.map UInt64.toNat) := by
  rw [← toNat_decodeCompactInteger hlen]
  cases decodeCompactInteger encodedBytes startPos with
  | error fault => exact ⟨nofun, nofun⟩
  | ok found =>
    have hinjective := Option.map_injective fun m n : UInt64 => UInt64.toNat_inj.mp
    constructor
    · intro h
      cases h
      rfl
    · intro h
      exact congrArg Except.ok (hinjective (Except.ok.inj h))

theorem decode_compact_iff {n startPos : UInt64} {pre post : Bytes} (hpre : startPos.toNat = pre.length)
    (hlen : (pre ++ (Scale.compact n.toNat ++ post)).length < 2 ^ 64) :
    decodeCompactInteger (pre ++ (Scale.compact n.toNat ++ post)) startPos = .ok (some n) ↔
      n.toNat < 2 ^ 32 := by
  have hn : n.toNat < 2 ^ 536 := Nat.lt_trans n.toNat_lt (by omega)
  rw [decodeCompactInteger_eq_iff hlen, hpre, decodeCompactInteger_compact hn pre post hlen]
  constructor
  · intro h
    have hlow : n.toNat % 2 ^ 32 = n.toNat := Option.some.inj (Except.ok.inj h)
    omega
  · intro h
    rw [Nat.mod_eq_of_lt h]
    rfl

theorem decode_inside_iff {encodedBytes : Bytes} {startPos : UInt64}
    (hlen : encodedBytes.length < 2 ^ 64) (hinside : EndsInside encodedBytes startPos.toNat) :
    decodeCompactInteger encodedBytes startPos = .ok none ↔
      startPos.toNat ≤ encodedBytes.length := by
  rw [decodeCompactInteger_eq_iff hlen]
  constructor
  · intro h
    exact (decodeCompactInteger_eq_ok startPos.toNat_lt).mp ⟨none, h⟩
  · intro hpos
    exact (decodeCompactInteger_eq_none hlen hpos).mpr hinside

/-- Of the numbers whose encodings the data has at a position, exactly those of 32 bits come back,
and where it ends inside of an encoding, there is no value exactly from a position that is no
later than its end. -/
theorem decodes_right_iff (encodedBytes : Bytes) (startPos : UInt64)
    (hlen : encodedBytes.length < 2 ^ 64) :
    (∀ (n : UInt64) (pre post : Bytes), encodedBytes = pre ++ (Scale.compact n.toNat ++ post) →
      startPos.toNat = pre.length →
        (decodeCompactInteger encodedBytes startPos = .ok (some n) ↔ n.toNat < 2 ^ 32)) ∧
    (EndsInside encodedBytes startPos.toNat →
      (decodeCompactInteger encodedBytes startPos = .ok none ↔
        startPos.toNat ≤ encodedBytes.length)) := by
  refine ⟨fun n pre post hdata hpre => ?_, decode_inside_iff hlen⟩
  subst hdata
  exact decode_compact_iff hpre hlen

/-- The number 511 between two other bytes, and its first byte alone. -/
theorem decodes_right_iff_double :
    decodeCompactInteger [9, 253, 7, 9] 1 = .ok (some 511) ∧
      decodeCompactInteger [9, 253] 1 = .ok none := by
  have hwhole := (decodes_right_iff [9, 253, 7, 9] 1 (by decide)).1 511 [9] [9] (by decide) rfl
  have hinside : EndsInside [9, 253] 1 := by
    intro first hfirst
    cases hfirst
    decide
  exact ⟨hwhole.mpr (by decide),
    ((decodes_right_iff [9, 253] 1 (by decide)).2 hinside).mpr (by decide)⟩

/-- The number 2^32 comes back as zero, and a start behind the end reads there. -/
theorem not_decodes_right :
    (Scale.compact (2 ^ 32) = [7, 0, 0, 0, 0, 1] ∧
      decodeCompactInteger [7, 0, 0, 0, 0, 1] 0 = .ok (some 0)) ∧
    EndsInside [] 1 ∧ decodeCompactInteger [] 1 = .error .undefined := by
  refine ⟨⟨?_, ?_⟩, nofun, ?_⟩
  · decide +kernel
  · decide +kernel
  · decide +kernel

end CompactWords

end BcosExecutor
