import Mathlib.Data.Nat.Bitwise
import Kademlia.Proofs.Ident

/-!
Shared prefixes and distances. To share `n` leading bits is to be at a distance below `2 ^ (160 - n)`,
so prefixes behave like an ultrametric, and whoever shares more bits with a target is nearer to it.
Main statements: seen from an owner, peers that share a prefix with the target are nearer to it than
all others, and so are peers that leave the prefix of the owner where the target does.
-/

namespace Kademlia.Ident

theorem le_cpl_iff {a b : Ident} {n : Nat} (hn : n ≤ identBits) :
    n ≤ a.cpl b ↔ (a.distance b).bits.toNat < 2 ^ (identBits - n) := by
  have hupper := BitVec.toNat_lt_two_pow_sub_clz (x := (a.distance b).bits)
  constructor
  · intro h
    refine Nat.lt_of_lt_of_le hupper (Nat.pow_le_pow_right (by omega) ?_)
    exact Nat.sub_le_sub_left h identBits
  · intro h
    by_contra hlt
    have hlt : a.cpl b < n := Nat.lt_of_not_le hlt
    -- a distance of zero would mean that all bits are shared
    have hne : (a.distance b).bits ≠ 0#160 := by
      rw [← BitVec.clz_lt_iff_ne_zero, BitVec.lt_def]
      exact Nat.lt_of_lt_of_le hlt hn
    have hlower := BitVec.two_pow_sub_clz_le_toNat_of_ne_zero (by omega) hne
    have hpow : 2 ^ (identBits - n) ≤ 2 ^ (160 - 1 - a.cpl b) := by
      refine Nat.pow_le_pow_right (by omega) ?_
      have : identBits = 160 := rfl
      omega
    exact absurd h (Nat.not_lt.mpr (Nat.le_trans hpow hlower))

theorem cpl_le (a b : Ident) : a.cpl b ≤ identBits :=
  BitVec.clz_le (x := (a.distance b).bits)

theorem distance_comm (a b : Ident) : a.distance b = b.distance a := by
  rw [distance, distance, BitVec.xor_comm]

theorem cpl_comm (a b : Ident) : a.cpl b = b.cpl a := by
  rw [cpl, cpl, distance_comm]

theorem distance_toNat (a b c : Ident) :
    (a.distance c).bits.toNat = (a.distance b).bits.toNat ^^^ (b.distance c).bits.toNat := by
  rw [← BitVec.toNat_xor]
  congr 1
  simp only [distance]
  rw [BitVec.xor_assoc, ← BitVec.xor_assoc b.bits, BitVec.xor_self, BitVec.zero_xor]

section Prefixes

variable {a b c : Ident}

theorem le_cpl_trans {n : Nat} (h : n ≤ a.cpl b) (k : n ≤ b.cpl c) : n ≤ a.cpl c := by
  have hn : n ≤ identBits := Nat.le_trans h (cpl_le a b)
  rw [le_cpl_iff hn] at h k ⊢
  rw [distance_toNat a b c]
  exact Nat.xor_lt_two_pow h k

/-- Where the shorter of two shared prefixes ends, the outer identifiers part. -/
theorem cpl_eq_of_lt (h : a.cpl b < b.cpl c) : a.cpl c = a.cpl b := by
  refine Nat.le_antisymm ?_ (le_cpl_trans (Nat.le_refl _) (Nat.le_of_lt h))
  by_contra hlt
  have hlt : a.cpl b + 1 ≤ a.cpl c := Nat.lt_of_not_le hlt
  have hcb : a.cpl b + 1 ≤ c.cpl b := by
    rw [cpl_comm c b]
    exact Nat.succ_le_of_lt h
  have hback : a.cpl b + 1 ≤ a.cpl b := le_cpl_trans hlt hcb
  omega

theorem two_pow_le_distance (h : a.cpl b < identBits) :
    2 ^ (identBits - (a.cpl b + 1)) ≤ (a.distance b).bits.toNat := by
  by_contra hlt
  have hmore : a.cpl b + 1 ≤ a.cpl b := (le_cpl_iff h).mpr (Nat.lt_of_not_le hlt)
  omega

/-- Two identifiers that part from a third one after the same bits take the same way there, as a
bit has only two values. -/
theorem lt_cpl_of_cpl_eq (h : a.cpl b = c.cpl b) (hn : c.cpl b < identBits) :
    c.cpl b < a.cpl c := by
  have ha := two_pow_le_distance (Nat.lt_of_le_of_lt (Nat.le_of_eq h) hn)
  have hc := two_pow_le_distance hn
  have ha' := (le_cpl_iff (cpl_le a b)).mp (Nat.le_refl _)
  have hc' := (le_cpl_iff (cpl_le c b)).mp (Nat.le_refl _)
  rw [h] at ha ha'
  have hbit : identBits - c.cpl b = identBits - (c.cpl b + 1) + 1 := by omega
  rw [hbit] at ha' hc'
  refine (le_cpl_iff hn).mpr ?_
  rw [distance_toNat a b c, distance_comm b c]
  refine Nat.lt_pow_two_of_testBit _ fun i hi => ?_
  rw [Nat.testBit_xor]
  rcases Nat.eq_or_lt_of_le hi with rfl | hi
  · rw [Nat.testBit_of_two_pow_le_and_two_pow_add_one_gt ha ha',
      Nat.testBit_of_two_pow_le_and_two_pow_add_one_gt hc hc']
    rfl
  · have hpow : 2 ^ (identBits - (c.cpl b + 1) + 1) ≤ 2 ^ i :=
      Nat.pow_le_pow_right (by omega) hi
    rw [Nat.testBit_lt_two_pow (Nat.lt_of_lt_of_le ha' hpow),
      Nat.testBit_lt_two_pow (Nat.lt_of_lt_of_le hc' hpow)]
    rfl

theorem distance_lt_of_cpl_lt (h : b.cpl c < a.cpl c) : a.distance c < b.distance c := by
  have hn : b.cpl c + 1 ≤ identBits := Nat.le_trans h (cpl_le a c)
  exact Nat.lt_of_lt_of_le ((le_cpl_iff hn).mp h)
    (two_pow_le_distance hn)

end Prefixes

section Owner

variable {owner target near far : Ident}

theorem distance_lt_of_shared {n : Nat} (ht : n ≤ owner.cpl target) (hnear : n ≤ owner.cpl near)
    (hfar : owner.cpl far < n) : near.distance target < far.distance target := by
  rw [cpl_comm owner] at hnear hfar
  have hclose : n ≤ near.cpl target := le_cpl_trans hnear ht
  have hopen : far.cpl target = far.cpl owner := cpl_eq_of_lt (Nat.lt_of_lt_of_le hfar ht)
  refine distance_lt_of_cpl_lt ?_
  rw [hopen]
  exact Nat.lt_of_lt_of_le hfar hclose

theorem distance_lt_of_parted (ht : owner.cpl target < identBits)
    (hnear : owner.cpl near = owner.cpl target) (hfar : owner.cpl far ≠ owner.cpl target) :
    near.distance target < far.distance target := by
  rcases Nat.lt_or_gt_of_ne hfar with hlt | hgt
  · exact distance_lt_of_shared (Nat.le_refl _) (Nat.le_of_eq hnear.symm) hlt
  · rw [cpl_comm owner target] at ht hnear hgt
    rw [cpl_comm owner near] at hnear
    have hclose : target.cpl owner < near.cpl target := lt_cpl_of_cpl_eq hnear ht
    have hopen : far.cpl target = target.cpl owner := by
      rw [cpl_comm far]
      exact cpl_eq_of_lt hgt
    refine distance_lt_of_cpl_lt ?_
    rwa [hopen]

end Owner

end Kademlia.Ident
