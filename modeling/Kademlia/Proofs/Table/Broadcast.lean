import Kademlia.Proofs.Choice
import Kademlia.Proofs.Table.Indexed
import Kademlia.Proofs.Table.Outward

/-!
Samples for a broadcast, for every outcome of chance. They begin in one bucket and go on in the
buckets after it, which hold other peers that share more bits with the owner. Main statement: a
sample has as many peers from either side as are wanted and there, none of them twice, and none that
shares fewer bits than the bucket where it begins stands for.
-/

namespace Kademlia.Table

variable {t : Table}

theorem sides_eq (t : Table) (left : Nat) : t.sides left =
    ((t.bucketAt left).peers,
      (t.buckets.drop (min left t.settled.length + 1)).flatMap Bucket.peers) := by
  have hb : t.bucket? (min left t.settled.length) = some (t.bucketAt left) := bucketAt_eq t left
  simp only [sides, hb, Option.map_some, Option.getD_some]

theorem sides_append (t : Table) (left : Nat) : (t.sides left).1 ++ (t.sides left).2 =
    (t.buckets.drop (min left t.settled.length)).flatMap Bucket.peers := by
  obtain ⟨hlt, hb⟩ := List.getElem?_eq_some_iff.mp (bucketAt_eq t left)
  rw [sides_eq, List.drop_eq_getElem_cons hlt, hb, List.flatMap_cons]

/-- From some index on there are only peers at least as deep as this index. -/
theorem WellFormed.le_depth_of_mem_drop (h : t.WellFormed) {i : Nat} {p : Peer}
    (hp : p ∈ (t.buckets.drop i).flatMap Bucket.peers) : i ≤ t.depth p.id := by
  obtain ⟨b, hb, hp⟩ := List.mem_flatMap.mp hp
  obtain ⟨j, hj⟩ := List.mem_iff_getElem?.mp hb
  rw [List.getElem?_drop] at hj
  have hplaced := h.placed (i + j) b hj p hp
  omega

/-- No sample takes a peer twice, as no peer stands on both sides. -/
theorem broadcastSample_subperm (choice : Choice) (t : Table) (left n : Nat) :
    (t.broadcastSample choice left n).Subperm
      ((t.buckets.drop (min left t.settled.length)).flatMap Bucket.peers) := by
  rw [← sides_append]
  exact (choice.pick_subperm _ _).append (choice.pick_subperm _ _)

theorem WellFormed.broadcastSample_distinct (h : t.WellFormed) (choice : Choice) (left n : Nat) :
    ((t.broadcastSample choice left n).map Peer.id).Nodup := by
  obtain ⟨taken, hperm, hsub⟩ := t.broadcastSample_subperm choice left n
  have hall : ((t.buckets.drop (min left t.settled.length)).flatMap Bucket.peers).Sublist t.peers :=
    (List.drop_sublist _ _).flatMap _
  exact (hperm.map Peer.id).nodup_iff.mp (h.distinct.sublist ((hsub.trans hall).map Peer.id))

/-- After any additions and removals, and whatever chance decides, a sample begins with two peers of
one bucket, or with as many as are wanted and there, and the rest comes from the buckets after it, or
all of these if they are fewer. No identifier stands twice in it, and every peer shares at least as
many bits with the owner as the index of the bucket where the sample begins. -/
theorem sample_goes_outward (owner : Ident) (k : Nat) (cs : List Change) (choice : Choice)
    (left n : Nat) :
    let t := (new owner k).changes cs
    let first := min left (t.buckets.length - 1)
    let later := (t.buckets.drop (first + 1)).flatMap Bucket.peers
    let sample := t.broadcastSample choice left n
    (∃ b near far, t.buckets[first]? = some b ∧ sample = near ++ far ∧
      near.Subperm b.peers ∧ near.length = min (min 2 n) b.peers.length ∧
      far.Subperm later ∧ far.length = min (n - min 2 n) later.length) ∧
    (sample.map Peer.id).Nodup ∧
    sample.length ≤ n ∧
    ∀ p ∈ sample, first ≤ owner.cpl p.id := by
  intro t first later sample
  obtain ⟨hw, ho, -⟩ : t.WellFormed ∧ t.owner = owner ∧ _ :=
    (new_wellFormed owner k).changes (.refl _) cs
  have hfirst : first = min left t.settled.length := by
    have := t.length_buckets
    omega
  have hsides : t.sides left = ((t.bucketAt left).peers, later) := by
    rw [sides_eq, ← hfirst]
  have hsample : sample = choice.pick (min 2 n) (t.bucketAt left).peers ++
      choice.pick (n - min 2 n) later := by
    have hparts : sample = choice.pick (min 2 n) (t.sides left).1 ++
        choice.pick (n - min 2 n) (t.sides left).2 := rfl
    rw [hparts, hsides]
  have hnear := choice.length_pick (min 2 n) (t.bucketAt left).peers
  have hfar := choice.length_pick (n - min 2 n) later
  refine ⟨⟨t.bucketAt left, _, _, ?_, hsample, choice.pick_subperm _ _, hnear,
    choice.pick_subperm _ _, hfar⟩, hw.broadcastSample_distinct choice left n, ?_, fun p hp => ?_⟩
  · rw [hfirst]
    exact bucketAt_eq t left
  · rw [hsample, List.length_append, hnear, hfar]
    omega
  · have hp := (t.broadcastSample_subperm choice left n).subset hp
    rw [hfirst, ← ho]
    exact hw.le_depth_of_mem_drop hp

end Kademlia.Table
