import Mathlib.Data.List.Perm.Subperm
import Kademlia.Choice

/-!
Whatever is chosen comes out of the peers at hand, none of them at two places.
-/

namespace Kademlia.Choice

variable (choice : Choice) (n : Nat) {peers : List Peer}

theorem pick_subperm (peers : List Peer) : (choice.pick n peers).Subperm peers := by
  obtain ⟨others, ho⟩ := choice.exists_others n peers
  exact (List.sublist_append_left _ others).subperm.trans ho.subperm

theorem pick_subset : ∀ p ∈ choice.pick n peers, p ∈ peers :=
  (choice.pick_subperm n peers).subset

theorem pick_nodup {α : Type} {f : Peer → α} (h : (peers.map f).Nodup) :
    ((choice.pick n peers).map f).Nodup := by
  obtain ⟨others, ho⟩ := choice.exists_others n peers
  have hboth := (ho.map f).nodup_iff.mpr h
  rw [List.map_append] at hboth
  exact (List.nodup_append.mp hboth).1

theorem pick_perm (h : peers.length ≤ n) : (choice.pick n peers).Perm peers := by
  obtain ⟨others, ho⟩ := choice.exists_others n peers
  have hlen := ho.length_eq
  rw [List.length_append, choice.length_pick, Nat.min_eq_right h] at hlen
  have hnone : others = [] := List.length_eq_zero_iff.mp (by omega)
  rwa [hnone, List.append_nil] at ho

end Kademlia.Choice
