import Kademlia.Directory
import Kademlia.Proofs.Catalog
import Kademlia.Proofs.Table.Closest

/-!
The peers in all tables of a node.
-/

namespace Kademlia.Directory

def peers (d : Directory) : List Peer := d.main.peers ++ d.others.values.flatMap Table.peers

theorem length_peers (d : Directory) : d.peers.length = d.size := by
  rw [peers, size]
  induction d.others.values with
  | nil => simp [Table.length_peers]
  | cons t rest ih =>
    rw [List.length_append] at ih ⊢
    rw [List.flatMap_cons, List.length_append, List.foldr_cons, ← ih, Table.length_peers t]
    omega

theorem peers_of_get? {d : Directory} {name : Ident} {t : Table} (h : d.get? name = some t) :
    ∀ p ∈ t.peers, p ∈ d.peers := by
  intro p hp
  unfold get? at h
  split at h
  · cases h
    exact List.mem_append_left _ hp
  · refine List.mem_append_right _ (List.mem_flatMap.mpr ⟨t, ?_, hp⟩)
    exact List.mem_map.mpr ⟨_, Catalog.mem_of_get? h, rfl⟩

theorem closest_subset (d : Directory) (name target : Ident) (ignore : Option Ident) :
    ∀ p ∈ d.closest name target ignore, p ∈ d.peers := by
  intro p hp
  unfold closest at hp
  cases ht : d.get? name with
  | none => simp [ht] at hp
  | some t =>
    rw [ht] at hp
    exact peers_of_get? ht p (Table.closest_subset t target ignore p hp)

end Kademlia.Directory
