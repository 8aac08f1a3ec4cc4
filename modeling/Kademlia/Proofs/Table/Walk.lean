import Kademlia.Proofs.Table.Refusal

/-!
Two ways to read a routing table. A walk goes through the buckets slot by slot, while an access looks
only into the bucket for the depth of an identifier. Main statement: after any additions and removals
the walk comes to every peer once, and whatever it comes to is found, and removed, by an access.
-/

namespace Kademlia.Table

section Walking

/-- How far a walk has come: the next peer is looked for in this slot of this bucket. -/
structure Walk where
  bucket : Nat
  slot : Nat

namespace Walk

/-- The next peer and the walk after it. At the end of a bucket the walk goes on to the next one. -/
def next (t : Table) (w : Walk) : Option (Peer × Walk) :=
  match _ : t.bucket? w.bucket with
  | none => none
  | some b =>
    match b.get w.slot with
    | .ok p => some (p, ⟨w.bucket, w.slot + 1⟩)
    | .error _ => next t ⟨w.bucket + 1, 0⟩
termination_by t.buckets.length - w.bucket
decreasing_by
  have hlt := (List.getElem?_eq_some_iff.mp ‹t.bucket? w.bucket = some _›).1
  exact Nat.sub_succ_lt_self _ _ hlt

def ahead (t : Table) (w : Walk) : List Peer :=
  (((t.bucket? w.bucket).map Bucket.peers).getD []).drop w.slot ++
    (t.buckets.drop (w.bucket + 1)).flatMap Bucket.peers

theorem ahead_enter (t : Table) (i : Nat) :
    ahead t ⟨i, 0⟩ = (t.buckets.drop i).flatMap Bucket.peers := by
  rw [ahead, List.drop_zero]
  by_cases hi : i < t.buckets.length
  · have hb : t.bucket? i = some t.buckets[i] := List.getElem?_eq_getElem hi
    rw [hb, List.drop_eq_getElem_cons hi, List.flatMap_cons]
    rfl
  · have hend : t.buckets.length ≤ i := Nat.le_of_not_lt hi
    have hb : t.bucket? i = none := List.getElem?_eq_none hend
    rw [hb, List.drop_eq_nil_of_le hend, List.drop_eq_nil_of_le (Nat.le_succ_of_le hend)]
    rfl

/-- The next peer is the first one ahead, and there is none only when nothing is ahead. -/
theorem ahead_eq (t : Table) (w : Walk) :
    w.ahead t = ((w.next t).map fun s => s.1 :: s.2.ahead t).getD [] := by
  fun_induction next t w with
  | case1 w hb =>
    have hend : t.buckets.length ≤ w.bucket := List.getElem?_eq_none_iff.mp hb
    rw [ahead, hb, List.drop_eq_nil_of_le (Nat.le_succ_of_le hend)]
    simp
  | case2 w b hb p hp =>
    have hslot : b.peers[w.slot]? = some p := by
      unfold Bucket.get at hp
      split at hp
      next q hq => rwa [← Except.ok.inj hp]
      next => cases hp
    obtain ⟨hlt, rfl⟩ := List.getElem?_eq_some_iff.mp hslot
    simp only [ahead, hb, Option.map_some, Option.getD_some, List.drop_eq_getElem_cons hlt]
    rfl
  | case3 w b hb e he ih =>
    have hslot : b.peers.length ≤ w.slot := by
      unfold Bucket.get at he
      split at he
      next => cases he
      next hn => exact List.getElem?_eq_none_iff.mp hn
    rw [← ih, ahead_enter, ahead, hb, Option.map_some, Option.getD_some,
      List.drop_eq_nil_of_le hslot, List.nil_append]

def rest (t : Table) (w : Walk) : List Peer :=
  match _ : w.next t with
  | none => []
  | some (p, v) => p :: v.rest t
termination_by (w.ahead t).length
decreasing_by
  rw [ahead_eq t w, ‹w.next t = some _›]
  exact Nat.lt_succ_self _

theorem rest_eq (t : Table) (w : Walk) : w.rest t = w.ahead t := by
  fun_induction rest t w with
  | case1 w h => rw [ahead_eq, h]; rfl
  | case2 w p v h ih => rw [ih, ahead_eq t w, h]; rfl

end Walk

def walked (t : Table) : List Peer := Walk.rest t ⟨0, 0⟩

theorem walked_eq (t : Table) : t.walked = t.peers := by
  rw [walked, Walk.rest_eq, Walk.ahead_enter, List.drop_zero, peers]

end Walking

section Access

theorem isEmpty_iff (t : Table) : t.isEmpty = true ↔ t.peers = [] := by
  simp [isEmpty, peers, Bucket.isEmpty, List.flatMap_eq_nil_iff]

theorem remove_found (t : Table) (id : Ident) : (t.remove id).1 = t.contains id := by
  change ((t.bucketAt (t.depth id)).remove id).1 = (t.bucketAt (t.depth id)).contains id
  unfold Bucket.remove Bucket.contains
  cases (t.bucketAt (t.depth id)).position? id <;> rfl

/-- After any additions and removals, a walk comes to every peer of every bucket once, bucket after
bucket. An identifier is found by access exactly if the walk comes to a peer that has it, and then it
is this peer that is found; and a removal tells whether there is such a peer, and leaves all others
to the walk as they are. -/
theorem access_agrees_with_walk (owner : Ident) (k : Nat) (cs : List Change) :
    let t := (new owner k).changes cs
    t.walked = t.buckets.flatMap Bucket.peers ∧
    (t.walked.map Peer.id).Nodup ∧
    t.walked.length = t.size ∧
    (t.isEmpty = true ↔ t.walked = []) ∧
    ∀ id,
      (t.contains id = true ↔ ∃ p ∈ t.walked, p.id = id) ∧
      (∀ p, t.get? id = some p ↔ p ∈ t.walked ∧ p.id = id) ∧
      (t.remove id).1 = t.contains id ∧
      (t.remove id).2.walked.Perm (t.walked.filter fun p => p.id ≠ id) := by
  intro t
  have hw : t.WellFormed := ((new_wellFormed owner k).changes (.refl _) cs).1
  simp only [walked_eq]
  refine ⟨rfl, hw.distinct, t.length_peers, t.isEmpty_iff, fun id => ?_⟩
  exact ⟨hw.contains_iff id, hw.get?_eq_some id, t.remove_found id, (hw.remove id).2.2.2⟩

end Access

end Kademlia.Table
