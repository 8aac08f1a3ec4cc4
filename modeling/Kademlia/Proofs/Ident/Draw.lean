import Kademlia.Proofs.Ident.Metric

/-!
Drawing identifiers with a given common prefix. Three masks divide the bits between those that are
kept, the one that is flipped and those that are drawn. Main statement: whatever is drawn, the
common prefix has the requested length, and all identifiers with such a prefix can come out.
-/

namespace Kademlia

/-- Masks for the bits in front of bit `n` and for bit `n` divide a word into a part that is kept, a
flipped bit, and a part that is drawn. -/
theorem getMsbD_masked {width n i : Nat} {keep flip : BitVec width} (reference draw : BitVec width)
    (hkeep : keep.getMsbD i = decide (i < n)) (hflip : flip.getMsbD i = decide (i = n))
    (hi : i < width) :
    ((reference &&& keep) ||| (~~~reference &&& flip) ||| (draw &&& ~~~(keep ||| flip))).getMsbD i =
      if i < n then reference.getMsbD i
      else if i = n then !reference.getMsbD i
      else draw.getMsbD i := by
  simp only [BitVec.getMsbD_or, BitVec.getMsbD_and, BitVec.getMsbD_not, hkeep, hflip,
    decide_eq_true hi, Bool.true_and]
  rcases Nat.lt_trichotomy i n with hlt | heq | hgt
  · have hne : i ≠ n := by omega
    simp [hlt, hne]
  · simp [heq]
  · have hge : ¬ i < n := by omega
    have hne : i ≠ n := by omega
    simp [hge, hne]

section Bytewise

/-- The byte in which a prefix ends after `bit` bits. -/
def boundaryByte (reference draw : UInt8) (bit : Nat) : UInt8 :=
  let keep : UInt8 := ~~~(0xFF >>> UInt8.ofNat bit)
  let flip : UInt8 := 0x80 >>> UInt8.ofNat bit
  (reference &&& keep) ||| (~~~reference &&& flip) ||| (draw &&& ~~~(keep ||| flip))

/-- Whole bytes of the prefix are copied, the byte in which it ends is put together bit by bit, and
the bytes behind are drawn. -/
def prefixedBytes (reference draw : Bytes) (n : Nat) : Bytes :=
  if identBits ≤ n then reference
  else
    let byte := n / 8
    reference.take byte ++
      boundaryByte (reference.getD byte 0) (draw.getD byte 0) (n % 8) :: draw.drop (byte + 1)

theorem getMsbD_boundaryByte (reference draw : UInt8) {bit i : Nat} (hbit : bit < 8) (hi : i < 8) :
    (boundaryByte reference draw bit).toBitVec.getMsbD i =
      if i < bit then reference.toBitVec.getMsbD i
      else if i = bit then !reference.toBitVec.getMsbD i
      else draw.toBitVec.getMsbD i := by
  have hkeep : ∀ bit < 8, ∀ i < 8,
      (~~~(0xFF >>> UInt8.ofNat bit : UInt8)).toBitVec.getMsbD i = decide (i < bit) := by decide
  have hflip : ∀ bit < 8, ∀ i < 8,
      (0x80 >>> UInt8.ofNat bit : UInt8).toBitVec.getMsbD i = decide (i = bit) := by decide
  exact getMsbD_masked _ _ (hkeep bit hbit i hi) (hflip bit hbit i hi) hi

variable {reference draw : Bytes} {n : Nat}

theorem length_prefixedBytes (hreference : reference.length = 20) (hdraw : draw.length = 20) :
    (prefixedBytes reference draw n).length = 20 := by
  unfold prefixedBytes
  split
  next => exact hreference
  next hn =>
    rw [identBits] at hn
    simp only [List.length_append, List.length_take, List.length_cons, List.length_drop]
    omega

theorem bitAt_prefixedBytes (hreference : reference.length = 20) (hn : n < identBits) (i : Nat) :
    bitAt (prefixedBytes reference draw n) i =
      if i < n then bitAt reference i
      else if i = n then !bitAt reference i
      else bitAt draw i := by
  have hbyte : (reference.take (n / 8)).length = n / 8 := by
    rw [identBits] at hn
    rw [List.length_take]
    omega
  rw [prefixedBytes, if_neg (Nat.not_le.mpr hn)]
  by_cases hfront : i < 8 * (n / 8)
  · rw [bitAt_append_left (by rwa [hbyte]), bitAt_take hfront, if_pos (by omega)]
  · rw [bitAt_append_right (by rw [hbyte]; omega), hbyte]
    by_cases hback : i - 8 * (n / 8) < 8
    · -- bit `i` stands in the byte in which the prefix ends
      have hplace : i / 8 = n / 8 := by omega
      have hoffset : i - 8 * (n / 8) = i % 8 := by omega
      have hlt : i % 8 < n % 8 ↔ i < n := by omega
      have heq : i % 8 = n % 8 ↔ i = n := by omega
      rw [bitAt_cons_of_lt hback, hoffset,
        getMsbD_boundaryByte _ _ (Nat.mod_lt n (by decide)) (Nat.mod_lt i (by decide)), bitAt,
        bitAt, hplace]
      simp only [hlt, heq]
    · have hskip : i - 8 * (n / 8) = 8 + (i - 8 * (n / 8 + 1)) := by omega
      have hwhole : 8 * (n / 8 + 1) + (i - 8 * (n / 8 + 1)) = i := by omega
      rw [hskip, bitAt_cons_add, bitAt_drop, hwhole, if_neg (by omega), if_neg (by omega)]

end Bytewise

namespace Ident

theorem eq_of_bit {a b : Ident} (h : ∀ i < identBits, a.bit i = b.bit i) : a = b := by
  apply (cpl_eq_identBits_iff a b).mp
  apply Nat.le_antisymm (cpl_le a b)
  exact (le_cpl_iff_bits a b (Nat.le_refl _)).mpr h

variable {n : Nat}

theorem withPrefix_of_ge (reference draw : Ident) (hn : identBits ≤ n) :
    withPrefix reference draw n = reference :=
  if_pos hn

theorem bit_withPrefix (reference draw : Ident) (hn : n < identBits) {i : Nat}
    (hi : i < identBits) :
    (withPrefix reference draw n).bit i =
      if i < n then reference.bit i else if i = n then !reference.bit i else draw.bit i := by
  have hshort : ¬ 160 ≤ n := Nat.not_le.mpr hn
  rw [bit_eq _ hi, bit_eq _ hi, bit_eq _ hi, withPrefix, if_neg hshort]
  rw [identBits] at hn hi
  apply getMsbD_masked
  · rw [BitVec.getMsbD_shiftLeft, BitVec.getMsbD_allOnes, decide_eq_decide]
    omega
  · rw [BitVec.getMsbD_shiftLeft, BitVec.getMsbD_one, decide_eq_true (by decide : 0 < 160),
      Bool.and_true, decide_eq_decide]
    omega
  · exact hi

theorem toBytes_withPrefix (reference draw : Ident) (n : Nat) :
    (withPrefix reference draw n).toBytes = prefixedBytes reference.toBytes draw.toBytes n := by
  rcases Nat.lt_or_ge n identBits with hn | hn
  · apply eq_of_bitAt
    · rw [length_toBytes, length_prefixedBytes (length_toBytes _) (length_toBytes _)]
    · intro i hi
      rw [length_toBytes] at hi
      rw [bitAt_prefixedBytes (length_toBytes _) hn]
      exact bit_withPrefix reference draw hn hi
  · rw [withPrefix_of_ge reference draw hn, prefixedBytes, if_pos hn]

theorem cpl_withPrefix (reference draw : Ident) (n : Nat) :
    reference.cpl (withPrefix reference draw n) = min n identBits := by
  rcases Nat.lt_or_ge n identBits with hn | hn
  · rw [Nat.min_eq_left (Nat.le_of_lt hn)]
    apply (cpl_eq_iff _ _ hn).mpr
    constructor
    · intro i hi
      rw [bit_withPrefix reference draw hn (Nat.lt_trans hi hn), if_pos hi]
    · rw [bit_withPrefix reference draw hn hn, if_neg (Nat.lt_irrefl n), if_pos rfl]
      cases reference.bit n <;> decide
  · rw [withPrefix_of_ge reference draw hn, Nat.min_eq_right hn]
    exact (cpl_eq_identBits_iff _ _).mpr rfl

/-- To draw an identifier that has the prefix already changes nothing. -/
theorem withPrefix_self {reference a : Ident} (h : reference.cpl a = min n identBits) :
    withPrefix reference a n = a := by
  rcases Nat.lt_or_ge n identBits with hn | hn
  · rw [Nat.min_eq_left (Nat.le_of_lt hn)] at h
    obtain ⟨hfront, hparted⟩ := (cpl_eq_iff _ _ hn).mp h
    apply eq_of_bit
    intro i hi
    rw [bit_withPrefix reference a hn hi]
    split
    next hlt => exact hfront i hlt
    next =>
      split
      next heq =>
        rw [heq]
        exact Bool.not_eq_eq_eq_not.mpr (Bool.eq_not.mpr hparted)
      next => rfl
  · rw [Nat.min_eq_right hn] at h
    rw [withPrefix_of_ge reference a hn]
    exact (cpl_eq_identBits_iff _ _).mp h

/-- Whatever the reference, the requested length and the drawn bytes, the bytes that come out share
exactly the requested number of bits with the reference, or all of them if it has no more. The drawn
bits behind the first different one are left alone, and so all identifiers with such a common prefix
come out of some draw, and no others. -/
theorem withPrefix_parts_where_requested (reference : Ident) (n : Nat) :
    (∀ draw : Ident,
      (withPrefix reference draw n).toBytes = prefixedBytes reference.toBytes draw.toBytes n ∧
      reference.cpl (withPrefix reference draw n) = min n identBits ∧
      ∀ i < identBits, n < i → (withPrefix reference draw n).bit i = draw.bit i) ∧
    ∀ a : Ident,
      (∃ draw, withPrefix reference draw n = a) ↔ reference.cpl a = min n identBits := by
  refine ⟨fun draw => ⟨toBytes_withPrefix reference draw n, cpl_withPrefix reference draw n, ?_⟩,
    fun a => ⟨?_, fun h => ⟨a, withPrefix_self h⟩⟩⟩
  · intro i hi hni
    rw [bit_withPrefix reference draw (Nat.lt_trans hni hi) hi, if_neg (by omega),
      if_neg (by omega)]
  · rintro ⟨draw, rfl⟩
    exact cpl_withPrefix reference draw n

/-- A prefix that ends within the second byte, and an identifier that has it. -/
theorem withPrefix_parts_where_requested_inside :
    let reference : Ident := ⟨0xABCD <<< 144⟩
    let draw : Ident := ⟨0x1⟩
    let a : Ident := ⟨0xABC9 <<< 144⟩
    (withPrefix reference draw 13).toBytes = [0xAB, 0xC8] ++ List.replicate 17 0 ++ [0x01] ∧
    reference.cpl (withPrefix reference draw 13) = 13 ∧
    (withPrefix reference draw 13).bit 159 = true ∧
    ∃ draw, withPrefix reference draw 13 = a := by
  intro reference draw a
  obtain ⟨hdraw, hreached⟩ := withPrefix_parts_where_requested reference 13
  obtain ⟨hbytes, hcpl, hbits⟩ := hdraw draw
  refine ⟨?_, hcpl, ?_, (hreached a).mpr ?_⟩
  · rw [hbytes]
    decide +kernel
  · rw [hbits 159 (by decide) (by decide)]
    decide +kernel
  · decide +kernel

end Ident

end Kademlia
