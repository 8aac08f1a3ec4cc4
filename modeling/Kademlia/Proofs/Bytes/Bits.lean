import Mathlib.Data.Nat.Bitwise
import Kademlia.Proofs.Bytes

/-!
Byte strings as strings of bits, and as numbers. Bits are counted from the front, so bit 0 is the
most significant bit of the first byte. Byte strings of one length are compared byte by byte as the
numbers that they spell are compared.
-/

namespace Kademlia

section Bits

/-- Bit `i` of a byte string. Behind its end all bits are zero. -/
def bitAt (bytes : Bytes) (i : Nat) : Bool :=
  (bytes.getD (i / 8) 0).toBitVec.getMsbD (i % 8)

variable {xs ys : Bytes}

theorem bitAt_append_left {i : Nat} (h : i < 8 * xs.length) : bitAt (xs ++ ys) i = bitAt xs i := by
  have hbyte : i / 8 < xs.length := by omega
  rw [bitAt, List.getD_append _ _ _ _ hbyte, bitAt]

theorem bitAt_append_right {i : Nat} (h : 8 * xs.length ≤ i) :
    bitAt (xs ++ ys) i = bitAt ys (i - 8 * xs.length) := by
  have hbyte : xs.length ≤ i / 8 := by omega
  have hskip : (i - 8 * xs.length) / 8 = i / 8 - xs.length := by omega
  have hoffset : (i - 8 * xs.length) % 8 = i % 8 := by omega
  rw [bitAt, List.getD_append_right _ _ _ _ hbyte, bitAt, hskip, hoffset]

theorem bitAt_cons_of_lt {byte : UInt8} {i : Nat} (h : i < 8) :
    bitAt (byte :: xs) i = byte.toBitVec.getMsbD i := by
  rw [bitAt, Nat.div_eq_of_lt h, Nat.mod_eq_of_lt h, List.getD_cons_zero]

theorem bitAt_cons_add (byte : UInt8) (rest : Bytes) (i : Nat) :
    bitAt (byte :: rest) (8 + i) = bitAt rest i := by
  have hskip : bitAt ([byte] ++ rest) (8 + i) = bitAt rest (8 + i - 8 * [byte].length) := by
    apply bitAt_append_right
    simp
  simpa using hskip

theorem bitAt_take {n i : Nat} (h : i < 8 * n) : bitAt (xs.take n) i = bitAt xs i := by
  have hbyte : i / 8 < n := by omega
  rw [bitAt, List.getD_eq_getElem?_getD, List.getElem?_take_of_lt hbyte,
    ← List.getD_eq_getElem?_getD, bitAt]

theorem bitAt_drop {n i : Nat} : bitAt (xs.drop n) i = bitAt xs (8 * n + i) := by
  have hskip : (8 * n + i) / 8 = n + i / 8 := by omega
  have hoffset : (8 * n + i) % 8 = i % 8 := by omega
  rw [bitAt, List.getD_eq_getElem?_getD, List.getElem?_drop, ← List.getD_eq_getElem?_getD, bitAt,
    hskip, hoffset]

theorem eq_of_bitAt (hlength : xs.length = ys.length)
    (h : ∀ i < 8 * xs.length, bitAt xs i = bitAt ys i) : xs = ys := by
  induction xs generalizing ys with
  | nil => exact (List.eq_nil_of_length_eq_zero hlength.symm).symm
  | cons x xs ih =>
    obtain ⟨y, ys, rfl⟩ := List.exists_cons_of_length_eq_add_one hlength.symm
    have hhead : x = y := by
      apply UInt8.toBitVec_inj.mp
      apply BitVec.eq_of_getMsbD_eq
      intro i hi
      rw [← bitAt_cons_of_lt hi, ← bitAt_cons_of_lt hi]
      apply h
      rw [List.length_cons]
      omega
    have htail : xs = ys := by
      apply ih (Nat.succ.inj hlength)
      intro i hi
      have hi : 8 + i < 8 * (x :: xs).length := by
        rw [List.length_cons]
        omega
      have hbit := h (8 + i) hi
      rwa [bitAt_cons_add, bitAt_cons_add] at hbit
    rw [hhead, htail]

theorem bitAt_beBytes {n v i : Nat} (h : i < 8 * n) :
    bitAt (beBytes n v) i = v.testBit (8 * n - 1 - i) := by
  induction n generalizing v with
  | zero => omega
  | succ n ih =>
    rw [beBytes]
    by_cases hi : i < 8 * n
    · have hshift : 8 * n - 1 - i + 8 = 8 * (n + 1) - 1 - i := by omega
      rw [bitAt_append_left (by rwa [length_beBytes]), ih hi]
      rw [show (256 : Nat) = 2 ^ 8 by rfl, Nat.testBit_div_two_pow, hshift]
    · have hoffset : i - 8 * n < 8 := by omega
      have hplace : 8 * (n + 1) - 1 - i = 7 - (i - 8 * n) := by omega
      rw [bitAt_append_right (by rw [length_beBytes]; omega), length_beBytes,
        bitAt_cons_of_lt hoffset, hplace, BitVec.getMsbD_eq_getLsbD, UInt8.toBitVec_ofNat',
        BitVec.getLsbD_ofNat, show (256 : Nat) = 2 ^ 8 by rfl, Nat.testBit_mod_two_pow]
      have hlow : 7 - (i - 8 * n) < 8 := by omega
      simp [hoffset, hlow]

end Bits

section LeadingZeros

theorem le_clz_iff {width : Nat} (x : BitVec width) {n : Nat} (hn : n ≤ width) :
    n ≤ x.clz.toNat ↔ ∀ i < n, x.getMsbD i = false := by
  constructor
  · intro h i hi
    have hwidth : i < width := by omega
    rw [BitVec.getMsbD_eq_getLsbD, decide_eq_true hwidth, Bool.true_and, ← BitVec.testBit_toNat]
    apply Nat.testBit_lt_two_pow
    apply Nat.lt_of_lt_of_le BitVec.toNat_lt_two_pow_sub_clz
    apply Nat.pow_le_pow_right (by omega)
    omega
  · intro h
    by_contra hlt
    have hwidth : x.clz.toNat < width := by omega
    -- the bit behind the counted ones is set, as not all of them are zero
    have hx : x ≠ BitVec.ofNat width 0 := by
      rintro rfl
      simp [BitVec.clz_eq_iff_eq_zero.mpr] at hwidth
    have hset := BitVec.getLsbD_true_clz_of_ne_zero (by omega) hx
    have hclear := h x.clz.toNat (by omega)
    rw [BitVec.getMsbD_eq_getLsbD, decide_eq_true hwidth, Bool.true_and, hset] at hclear
    cases hclear

/-- Counts the zero bits in front. A byte that is not zero ends the count. -/
def leadingZeroBits : Bytes → Nat
  | [] => 0
  | byte :: rest =>
    let zeros := byte.toBitVec.clz.toNat
    if zeros = 8 then zeros + leadingZeroBits rest else zeros

theorem leadingZeroBits_le (bytes : Bytes) : leadingZeroBits bytes ≤ 8 * bytes.length := by
  induction bytes with
  | nil => exact Nat.le_refl 0
  | cons byte rest ih =>
    have hbyte : byte.toBitVec.clz.toNat ≤ 8 := BitVec.clz_le (x := byte.toBitVec)
    rw [leadingZeroBits, List.length_cons]
    split <;> omega

theorem le_clz_head_iff (byte : UInt8) (rest : Bytes) {n : Nat} (hn : n ≤ 8) :
    n ≤ byte.toBitVec.clz.toNat ↔ ∀ i < n, bitAt (byte :: rest) i = false := by
  rw [le_clz_iff _ hn]
  refine forall₂_congr fun i hi => ?_
  rw [bitAt_cons_of_lt (by omega)]

theorem forall_bitAt_cons_iff {byte : UInt8} {rest : Bytes} {n : Nat} (hn : 8 ≤ n) :
    (∀ i < n, bitAt (byte :: rest) i = false) ↔
      8 ≤ byte.toBitVec.clz.toNat ∧ ∀ i < n - 8, bitAt rest i = false := by
  rw [le_clz_head_iff byte rest (Nat.le_refl 8)]
  constructor
  · intro h
    refine ⟨fun i hi => h i (by omega), fun i hi => ?_⟩
    rw [← bitAt_cons_add byte]
    exact h (8 + i) (by omega)
  · rintro ⟨hfirst, hrest⟩ i hi
    by_cases hi8 : i < 8
    · exact hfirst i hi8
    · have hbit := hrest (i - 8) (by omega)
      rwa [← bitAt_cons_add byte, show 8 + (i - 8) = i by omega] at hbit

theorem le_leadingZeroBits_iff {bytes : Bytes} {n : Nat} (hn : n ≤ 8 * bytes.length) :
    n ≤ leadingZeroBits bytes ↔ ∀ i < n, bitAt bytes i = false := by
  induction bytes generalizing n with
  | nil => simp_all
  | cons byte rest ih =>
    have hle : byte.toBitVec.clz.toNat ≤ 8 := BitVec.clz_le (x := byte.toBitVec)
    rw [List.length_cons] at hn
    rw [leadingZeroBits]
    by_cases hshort : n ≤ 8
    · -- the first byte alone decides
      rw [← le_clz_head_iff byte rest hshort]
      split <;> omega
    · rw [forall_bitAt_cons_iff (by omega), ← ih (by omega)]
      split <;> omega

end LeadingZeros

section Numbers

theorem beValue_cons (byte : UInt8) (rest : Bytes) :
    beValue (byte :: rest) = byte.toNat * 256 ^ rest.length + beValue rest := by
  induction rest using List.reverseRecOn with
  | nil => simp [beValue]
  | append_singleton rest last ih =>
    rw [← List.cons_append, beValue_concat, beValue_concat, ih, List.length_append,
      List.length_singleton, Nat.pow_succ, Nat.add_mul, Nat.mul_assoc, Nat.add_assoc]

/-- The first byte in which two spellings differ decides which number is smaller. -/
theorem beValue_lt_iff {xs ys : Bytes} (hlength : xs.length = ys.length) :
    beValue xs < beValue ys ↔ xs < ys := by
  induction xs generalizing ys with
  | nil =>
    cases List.eq_nil_of_length_eq_zero hlength.symm
    simp
  | cons x xs ih =>
    obtain ⟨y, ys, rfl⟩ := List.exists_cons_of_length_eq_add_one hlength.symm
    have hrest : xs.length = ys.length := Nat.succ.inj hlength
    have hx := beValue_lt xs
    have hy := beValue_lt ys
    rw [List.cons_lt_cons_iff, ← ih hrest, beValue_cons, beValue_cons, ← hrest,
      UInt8.lt_iff_toNat_lt, ← UInt8.toNat_inj]
    rw [← hrest] at hy
    generalize 256 ^ xs.length = room at hx hy
    rcases Nat.lt_trichotomy x.toNat y.toNat with hlt | heq | hgt
    · have hfull := Nat.mul_le_mul_right room (Nat.succ_le_of_lt hlt)
      rw [Nat.succ_mul] at hfull
      omega
    · rw [heq]
      omega
    · have hfull := Nat.mul_le_mul_right room (Nat.succ_le_of_lt hgt)
      rw [Nat.succ_mul] at hfull
      omega

theorem beBytes_xor (n v w : Nat) :
    beBytes n (v ^^^ w) = List.zipWith (· ^^^ ·) (beBytes n v) (beBytes n w) := by
  induction n generalizing v w with
  | zero => rfl
  | succ n ih =>
    have hfront : (v ^^^ w) / 256 = v / 256 ^^^ w / 256 := Nat.xor_div_two_pow (n := 8)
    have hlast : (v ^^^ w) % 256 = v % 256 ^^^ w % 256 := Nat.xor_mod_two_pow (n := 8)
    rw [beBytes, beBytes, beBytes, List.zipWith_append (by simp), ← ih, hfront, hlast,
      UInt8.ofNat_xor]
    rfl

/-- Addition without carries is never above addition with them. -/
theorem xor_le_add (v w : Nat) : v ^^^ w ≤ v + w := by
  induction v using Nat.strongRecOn generalizing w with
  | ind v ih =>
    by_cases hv : v = 0
    · rw [hv, Nat.zero_xor]
      omega
    · have hhalf := ih (v / 2) (by omega) (w / 2)
      have hfront := Nat.xor_div_two (a := v) (b := w)
      have hlast := Nat.xor_mod_two_eq (m := v) (n := w)
      omega

end Numbers

end Kademlia
