import Mathlib.Data.List.Basic
import Kademlia.Table.Closest

/-!
Selections take their peers from the table.
-/

namespace Kademlia.Table

theorem eligible_subset (t : Table) (ignore : Option Ident) (i : Nat) :
    ∀ p ∈ t.eligible ignore i, p ∈ t.peers := by
  intro p hp
  obtain ⟨hp, -⟩ := List.mem_filter.mp hp
  cases hb : t.bucket? i with
  | none => simp [hb] at hp
  | some b =>
    rw [hb] at hp
    exact List.mem_flatMap.mpr ⟨b, List.mem_of_getElem? hb, hp⟩

theorem ring_subset (t : Table) (ignore : Option Ident) (start offset : Nat) :
    ∀ p ∈ t.ring ignore start offset, p ∈ t.peers := by
  intro p hp
  rcases List.mem_append.mp hp with hp | hp
  · split at hp
    · exact eligible_subset t ignore _ p hp
    · cases hp
  · exact eligible_subset t ignore _ p hp

theorem gather_subset (t : Table) (ignore : Option Ident) (start : Nat) (offsets : List Nat)
    {found : List Peer} (h : ∀ p ∈ found, p ∈ t.peers) :
    ∀ p ∈ t.gather ignore start offsets found, p ∈ t.peers := by
  induction offsets generalizing found with
  | nil => exact h
  | cons offset offsets ih =>
    rw [gather]
    split
    · exact h
    · exact ih (List.forall_mem_append.mpr ⟨h, ring_subset t ignore start offset⟩)

theorem closest_subset (t : Table) (target : Ident) (ignore : Option Ident) :
    ∀ p ∈ t.closest target ignore, p ∈ t.peers := by
  intro p hp
  have hp := List.mem_of_mem_take hp
  rw [sortByDistance, List.mem_mergeSort] at hp
  exact gather_subset t ignore _ _ (eligible_subset t ignore _) p hp

theorem length_peers (t : Table) : t.peers.length = t.size := by
  rw [peers, size]
  induction t.buckets with
  | nil => rfl
  | cons b rest ih => rw [List.flatMap_cons, List.length_append, ih, List.foldr_cons, Bucket.size]

end Kademlia.Table
