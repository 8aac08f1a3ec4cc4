import Kademlia.Peer

/-!
Choosing some peers out of many. Whatever chance decides, a choice of `n` peers takes `n` different
places, or all when there are fewer.
-/

namespace Kademlia

structure Choice where
  pick : Nat → List Peer → List Peer
  length_pick : ∀ n peers, (pick n peers).length = min n peers.length
  /-- The chosen peers and some others are all peers. -/
  exists_others : ∀ n peers, ∃ others, (pick n peers ++ others).Perm peers

namespace Choice

def sorted (peers : List Peer) : List Peer :=
  peers.mergeSort fun p q => (p.id.compare q.id).isLE

def lowest : Choice where
  pick n peers := (sorted peers).take n
  length_pick n peers := by simp [sorted]
  exists_others n peers := by
    refine ⟨(sorted peers).drop n, ?_⟩
    rw [List.take_append_drop]
    exact List.mergeSort_perm _ _

end Choice

end Kademlia
