import Kademlia.Proofs.Bytes.Bits
import Kademlia.Proofs.Ident.Prefix

/-!
Shared prefixes, XOR distances and the order of distances are three views of the bits in which
identifiers differ. Main statement: for any three identifiers, what the common prefix says of their
first bits, what it says of their distances, and what the distances say as numbers fit together.
-/

namespace Kademlia

namespace Distance

@[simp] theorem length_toBytes (d : Distance) : d.toBytes.length = 20 := length_beBytes ..

/-- A distance as the number that its bytes spell. -/
def value (d : Distance) : Nat := beValue d.toBytes

theorem value_eq (d : Distance) : d.value = d.bits.toNat := by
  rw [value, toBytes, beValue_beBytes]
  exact Nat.mod_eq_of_lt d.bits.isLt

theorem lt_iff_toBytes (d e : Distance) : d < e ↔ d.toBytes < e.toBytes := by
  rw [← beValue_lt_iff (by simp), ← value, ← value, value_eq, value_eq]
  exact Iff.rfl

theorem bitAt_toBytes (d : Distance) {i : Nat} (hi : i < identBits) :
    bitAt d.toBytes i = d.bits.getMsbD i := by
  rw [identBits] at hi
  rw [toBytes, bitAt_beBytes hi, BitVec.getMsbD_eq_getLsbD, decide_eq_true hi, Bool.true_and,
    BitVec.testBit_toNat]

theorem leadingZeros_le (d : Distance) : d.leadingZeros ≤ identBits :=
  BitVec.clz_le (x := d.bits)

theorem le_leadingZeros_iff (d : Distance) {n : Nat} (hn : n ≤ identBits) :
    n ≤ d.leadingZeros ↔ ∀ i < n, bitAt d.toBytes i = false := by
  rw [leadingZeros, le_clz_iff d.bits hn]
  refine forall₂_congr fun i hi => ?_
  rw [d.bitAt_toBytes (Nat.lt_of_lt_of_le hi hn)]

theorem leadingZeros_eq (d : Distance) : d.leadingZeros = leadingZeroBits d.toBytes := by
  have hscan : leadingZeroBits d.toBytes ≤ identBits := by
    have h := leadingZeroBits_le d.toBytes
    rwa [length_toBytes] at h
  have hsame : ∀ n ≤ identBits, n ≤ d.leadingZeros ↔ n ≤ leadingZeroBits d.toBytes := by
    intro n hn
    rw [d.le_leadingZeros_iff hn, le_leadingZeroBits_iff (by rwa [length_toBytes])]
  apply Nat.le_antisymm
  · exact (hsame _ d.leadingZeros_le).mp (Nat.le_refl _)
  · exact (hsame _ hscan).mpr (Nat.le_refl _)

end Distance

namespace Ident

variable {a b c : Ident}

def bit (a : Ident) (i : Nat) : Bool := bitAt a.toBytes i

theorem bit_eq (a : Ident) {i : Nat} (hi : i < identBits) : a.bit i = a.bits.getMsbD i :=
  Distance.bitAt_toBytes ⟨a.bits⟩ hi

theorem toBytes_distance (a b : Ident) :
    (a.distance b).toBytes = List.zipWith (· ^^^ ·) a.toBytes b.toBytes := by
  rw [Distance.toBytes, distance, BitVec.toNat_xor, beBytes_xor, toBytes, toBytes]

theorem bitAt_distance (a b : Ident) {i : Nat} (hi : i < identBits) :
    bitAt (a.distance b).toBytes i = (a.bit i ^^ b.bit i) := by
  rw [Distance.bitAt_toBytes _ hi, a.bit_eq hi, b.bit_eq hi, distance, BitVec.getMsbD_xor]

theorem le_cpl_iff_bits (a b : Ident) {n : Nat} (hn : n ≤ identBits) :
    n ≤ a.cpl b ↔ ∀ i < n, a.bit i = b.bit i := by
  rw [cpl, Distance.le_leadingZeros_iff _ hn]
  refine forall₂_congr fun i hi => ?_
  rw [bitAt_distance a b (Nat.lt_of_lt_of_le hi hn)]
  exact bne_eq_false_iff_eq

/-- The common prefix ends at the first bit in which the identifiers differ. -/
theorem cpl_eq_iff (a b : Ident) {n : Nat} (hn : n < identBits) :
    a.cpl b = n ↔ (∀ i < n, a.bit i = b.bit i) ∧ a.bit n ≠ b.bit n := by
  rw [← le_cpl_iff_bits a b (Nat.le_of_lt hn)]
  have hnext := le_cpl_iff_bits a b (n := n + 1) hn
  constructor
  · rintro rfl
    refine ⟨Nat.le_refl _, fun hbit => ?_⟩
    have hmore : a.cpl b + 1 ≤ a.cpl b := by
      apply hnext.mpr
      intro i hi
      rcases Nat.lt_succ_iff_lt_or_eq.mp hi with hi | rfl
      · exact (le_cpl_iff_bits a b (cpl_le a b)).mp (Nat.le_refl _) i hi
      · exact hbit
    omega
  · rintro ⟨hle, hbit⟩
    by_contra hne
    have hmore : n + 1 ≤ a.cpl b := by omega
    exact hbit (hnext.mp hmore n (Nat.lt_succ_self n))

theorem cpl_eq_identBits_iff (a b : Ident) : a.cpl b = identBits ↔ a = b := by
  constructor
  · intro h
    by_contra hne
    have hlt := cpl_lt hne
    omega
  · rintro rfl
    apply Nat.le_antisymm (cpl_le a a)
    apply (le_cpl_iff_bits a a (Nat.le_refl _)).mpr
    intro i _
    rfl

theorem min_le_cpl (a b c : Ident) : min (a.cpl b) (b.cpl c) ≤ a.cpl c :=
  le_cpl_trans (Nat.min_le_left _ _) (Nat.min_le_right _ _)

/-- Of three common prefixes the two shorter ones have one length. -/
theorem cpl_eq_min (h : a.cpl b ≠ b.cpl c) : a.cpl c = min (a.cpl b) (b.cpl c) := by
  rcases Nat.lt_or_gt_of_ne h with hlt | hgt
  · rw [Nat.min_eq_left (Nat.le_of_lt hlt)]
    exact cpl_eq_of_lt hlt
  · rw [Nat.min_eq_right (Nat.le_of_lt hgt), cpl_comm a c, cpl_comm b c]
    apply cpl_eq_of_lt
    rwa [cpl_comm c b, cpl_comm b a]

theorem value_distance_eq_zero_iff (a b : Ident) : (a.distance b).value = 0 ↔ a = b := by
  have hself : (a.distance b).bits.toNat = 0 ↔ a.distance b = b.distance b := by
    rw [← Distance.toNat_inj]
    simp [distance]
  rw [Distance.value_eq, hself, distance_inj]

theorem isZero_distance_iff (a b : Ident) : (a.distance b).isZero = true ↔ a = b := by
  rw [← value_distance_eq_zero_iff, Distance.value_eq, Distance.isZero, decide_eq_true_iff,
    ← BitVec.toNat_inj]
  rfl

theorem existsUnique_distance (target : Ident) {v : Nat} (hv : v < 2 ^ identBits) :
    ∃! a : Ident, (a.distance target).value = v := by
  have hreach : (distance ⟨BitVec.ofNat 160 v ^^^ target.bits⟩ target).value = v := by
    rw [Distance.value_eq, distance, BitVec.xor_assoc, BitVec.xor_self, BitVec.xor_zero,
      BitVec.toNat_ofNat]
    exact Nat.mod_eq_of_lt hv
  refine ⟨_, hreach, fun a ha => ?_⟩
  apply distance_inj.mp
  apply Distance.toNat_inj.mp
  rw [← Distance.value_eq, ← Distance.value_eq, ha, hreach]

theorem value_distance_triangle (a b c : Ident) :
    (a.distance c).value ≤ (a.distance b).value + (b.distance c).value := by
  rw [Distance.value_eq, Distance.value_eq, Distance.value_eq, distance_toNat a b c]
  exact xor_le_add _ _

/-- For all identifiers, the common prefix is counted in the bytes of the distance, up to the first
bit in which the two differ, and it is whole only for equal ones. Who shares more bits with a third
is nearer to it, in the order of the bytes of distances. Of three common prefixes none is shorter
than both others. As a number the distance is a metric, and whatever the target, each number is the
distance of one identifier. -/
theorem prefixes_agree_with_distances (a b c : Ident) :
    ((a.distance b).toBytes = List.zipWith (· ^^^ ·) a.toBytes b.toBytes ∧
      a.cpl b = leadingZeroBits (a.distance b).toBytes) ∧
    (∀ n < identBits, a.cpl b = n ↔ (∀ i < n, a.bit i = b.bit i) ∧ a.bit n ≠ b.bit n) ∧
    (a.cpl b = identBits ↔ a = b) ∧
    (a.distance c < b.distance c ↔ (a.distance c).toBytes < (b.distance c).toBytes) ∧
    (b.cpl c < a.cpl c → a.distance c < b.distance c) ∧
    min (a.cpl b) (b.cpl c) ≤ a.cpl c ∧
    (a.cpl b ≠ b.cpl c → a.cpl c = min (a.cpl b) (b.cpl c)) ∧
    (a.distance b).value = (b.distance a).value ∧
    ((a.distance b).value = 0 ↔ a = b) ∧
    ((a.distance b).isZero = true ↔ a = b) ∧
    (a.distance c).value ≤ (a.distance b).value + (b.distance c).value ∧
    ∀ v < 2 ^ identBits, ∃! x : Ident, (x.distance c).value = v := by
  refine ⟨⟨toBytes_distance a b, (a.distance b).leadingZeros_eq⟩, fun n => a.cpl_eq_iff b,
    a.cpl_eq_identBits_iff b, Distance.lt_iff_toBytes _ _, distance_lt_of_cpl_lt, min_le_cpl a b c,
    cpl_eq_min, ?_, value_distance_eq_zero_iff a b, isZero_distance_iff a b,
    value_distance_triangle a b c, fun v => existsUnique_distance c⟩
  rw [distance_comm]

/-- The first two share all bits but the last. The third one leaves them at the same bit, and from
there it is farther away. -/
theorem prefixes_agree_with_distances_near :
    let a : Ident := ⟨0x50⟩
    let b : Ident := ⟨0x51⟩
    let c : Ident := ⟨0x58⟩
    a.cpl b = 159 ∧ a.cpl c = 156 ∧ a.distance b < c.distance b ∧ a.cpl c = min 159 156 := by
  intro a b c
  have hab : a.cpl b = 159 := by decide +kernel
  have hac : a.cpl c = 156 := by decide +kernel
  have hcb : c.cpl b = 156 := by decide +kernel
  have hbc : b.cpl c = 156 := by decide +kernel
  obtain ⟨-, -, -, -, hnear, -⟩ := prefixes_agree_with_distances a c b
  obtain ⟨-, -, -, -, -, -, hshared, -⟩ := prefixes_agree_with_distances a b c
  refine ⟨hab, hac, hnear ?_, ?_⟩
  · omega
  · rw [hshared (by omega), hab, hbc]

end Ident

end Kademlia
