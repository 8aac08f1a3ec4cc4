import Mathlib.Data.List.Basic
import Kademlia.Ident

/-!
The distances to one target order all identifiers strictly, and no two stand at the same distance.
Sorting by distance is therefore strict wherever the identifiers are different.
-/

namespace Kademlia

namespace Distance

theorem toNat_inj {a b : Distance} : a.bits.toNat = b.bits.toNat ↔ a = b := by
  cases a
  cases b
  simp [BitVec.toNat_inj]

theorem lt_irrefl (a : Distance) : ¬ a < a := Nat.lt_irrefl _

theorem lt_trans {a b c : Distance} (h : a < b) (k : b < c) : a < c := Nat.lt_trans h k

theorem lt_asymm {a b : Distance} (h : a < b) : ¬ b < a := Nat.lt_asymm h

theorem compare_eq_lt {a b : Distance} : a.compare b = .lt ↔ a < b :=
  Nat.compare_eq_lt

theorem compare_eq_gt {a b : Distance} : a.compare b = .gt ↔ b < a :=
  Nat.compare_eq_gt

theorem compare_eq_eq {a b : Distance} : a.compare b = .eq ↔ a = b :=
  Nat.compare_eq_eq.trans toNat_inj

end Distance

namespace Ident

/-- XOR with the target can be undone, so the distance to it names the identifier. -/
@[simp] theorem distance_inj {a b target : Ident} :
    a.distance target = b.distance target ↔ a = b := by
  refine ⟨fun h => ?_, fun h => by rw [h]⟩
  cases a
  cases b
  simpa [distance] using h

theorem cpl_lt {a b : Ident} (h : a ≠ b) : a.cpl b < identBits := by
  have hx : a.bits ^^^ b.bits ≠ 0#160 := by
    rw [Ne, BitVec.xor_eq_zero_iff]
    intro he
    cases a
    cases b
    exact h (congrArg Ident.mk he)
  have hlt := BitVec.clz_lt_iff_ne_zero.mpr hx
  simpa [cpl, distance, Distance.leadingZeros, identBits] using BitVec.lt_def.mp hlt

end Ident

section Sorting

variable {α : Type} {ident : α → Ident} {target : Ident}

theorem sortByDistance_perm (ident : α → Ident) (target : Ident) (xs : List α) :
    (sortByDistance ident target xs).Perm xs :=
  List.mergeSort_perm _ _

/-- Different identifiers stand at different distances, so none is left to chance. -/
theorem sortByDistance_strict {xs : List α} (h : (xs.map ident).Nodup) :
    (sortByDistance ident target xs).Pairwise fun x y =>
      (ident x).distance target < (ident y).distance target := by
  have hle : (sortByDistance ident target xs).Pairwise fun x y =>
      (ident x).distance target ≤ (ident y).distance target := by
    refine (List.pairwise_mergeSort ?_ ?_ xs).imp of_decide_eq_true
    · intro x y z hxy hyz
      exact decide_eq_true (Nat.le_trans (of_decide_eq_true hxy) (of_decide_eq_true hyz))
    · intro x y
      rw [Bool.or_eq_true, decide_eq_true_iff, decide_eq_true_iff]
      exact Nat.le_total _ _
  have hne : (sortByDistance ident target xs).Pairwise fun x y => ident x ≠ ident y :=
    List.pairwise_map.mp (((sortByDistance_perm ident target xs).map ident).nodup_iff.mpr h)
  refine (hle.and hne).imp ?_
  rintro x y ⟨hxy, hid⟩
  refine Nat.lt_of_le_of_ne hxy fun he => hid ?_
  exact Ident.distance_inj.mp (Distance.toNat_inj.mp he)

end Sorting

end Kademlia
