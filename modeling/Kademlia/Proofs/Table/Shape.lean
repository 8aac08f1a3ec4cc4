import Kademlia.Table
import Kademlia.Proofs.Bucket
import Kademlia.Proofs.Ident

/-!
The shape of a routing table: every peer stands in the bucket of its depth, no bucket holds too
many, and no identifier stands twice. Unfolding the last bucket keeps the shape and every peer.
-/

namespace Kademlia.Table

/-- Peers stand in the bucket of their depth, or in the last one when they are deeper. -/
structure WellFormed (t : Table) : Prop where
  placed : ∀ i b, t.buckets[i]? = some b → ∀ p ∈ b.peers,
    min (t.depth p.id) t.settled.length = i
  room : ∀ b ∈ t.buckets, b.capacity = t.k ∧ b.peers.length ≤ t.k
  bounded : t.settled.length < identBits
  distinct : (t.peers.map Peer.id).Nodup
  owner_absent : ∀ p ∈ t.peers, p.id ≠ t.owner

theorem new_wellFormed (owner : Ident) (k : Nat) : (new owner k).WellFormed := by
  refine ⟨?_, ?_, by simp [new, identBits], by simp [peers, buckets, new, Bucket.new],
    by simp [peers, buckets, new, Bucket.new]⟩
  · intro i b hb p hp
    have hm := List.mem_of_getElem? hb
    simp only [buckets, new, List.nil_append, List.mem_singleton] at hm
    subst hm
    simp [Bucket.new] at hp
  · simp [buckets, new, Bucket.new]

section Buckets

theorem bucketAt_eq (t : Table) (depth : Nat) :
    t.buckets[min depth t.settled.length]? = some (t.bucketAt depth) := by
  unfold buckets bucketAt
  by_cases hd : depth < t.settled.length
  · rw [Nat.min_eq_left (Nat.le_of_lt hd), List.getElem?_append_left hd,
      List.getElem?_eq_getElem hd]
    rfl
  · rw [Nat.min_eq_right (Nat.le_of_not_lt hd), List.getElem?_eq_none (Nat.le_of_not_lt hd)]
    simp

theorem buckets_setBucketAt (t : Table) (depth : Nat) (b : Bucket) :
    (t.setBucketAt depth b).buckets = t.buckets.set (min depth t.settled.length) b := by
  unfold buckets setBucketAt
  by_cases hd : depth < t.settled.length
  · rw [if_pos hd, Nat.min_eq_left (Nat.le_of_lt hd), List.set_append_left _ _ hd]
  · rw [if_neg hd, Nat.min_eq_right (Nat.le_of_not_lt hd),
      List.set_append_right _ _ (Nat.le_refl _)]
    simp

@[simp] theorem setBucketAt_owner (t : Table) (depth : Nat) (b : Bucket) :
    (t.setBucketAt depth b).owner = t.owner := by
  unfold setBucketAt
  split <;> rfl

@[simp] theorem setBucketAt_k (t : Table) (depth : Nat) (b : Bucket) :
    (t.setBucketAt depth b).k = t.k := by
  unfold setBucketAt
  split <;> rfl

@[simp] theorem setBucketAt_settled_length (t : Table) (depth : Nat) (b : Bucket) :
    (t.setBucketAt depth b).settled.length = t.settled.length := by
  unfold setBucketAt
  split <;> simp

/-- The peers outside the bucket for some depth are at other depths, and replacing that bucket
leaves them. -/
theorem WellFormed.exists_others {t : Table} (h : t.WellFormed) (depth : Nat) :
    ∃ others, t.peers.Perm ((t.bucketAt depth).peers ++ others) ∧
      (∀ p ∈ others, t.depth p.id ≠ depth) ∧
      ∀ b, (t.setBucketAt depth b).peers.Perm (b.peers ++ others) := by
  obtain ⟨front, back, hs, hl, hset⟩ := exists_around (bucketAt_eq t depth)
  have hperm : ∀ b : Bucket, ((front ++ b :: back).flatMap Bucket.peers).Perm
      (b.peers ++ (front.flatMap Bucket.peers ++ back.flatMap Bucket.peers)) := by
    intro b
    rw [List.flatMap_append, List.flatMap_cons, ← List.append_assoc, ← List.append_assoc]
    exact List.perm_append_comm.append_right _
  refine ⟨front.flatMap Bucket.peers ++ back.flatMap Bucket.peers, ?_, ?_, fun b => ?_⟩
  · unfold peers
    rw [hs]
    exact hperm _
  · intro p hp hd
    have hother : ∃ i b, t.buckets[i]? = some b ∧ p ∈ b.peers ∧
        i ≠ min depth t.settled.length := by
      rcases List.mem_append.mp hp with hp | hp
      · obtain ⟨b, hb, hp⟩ := List.mem_flatMap.mp hp
        obtain ⟨i, hi, rfl⟩ := List.getElem_of_mem hb
        refine ⟨i, front[i], ?_, hp, by omega⟩
        rw [hs, List.getElem?_append_left hi, List.getElem?_eq_getElem hi]
      · obtain ⟨b, hb, hp⟩ := List.mem_flatMap.mp hp
        obtain ⟨i, hi, rfl⟩ := List.getElem_of_mem hb
        refine ⟨front.length + (i + 1), back[i], ?_, hp, by omega⟩
        rw [hs, List.getElem?_append_right (Nat.le_add_right _ _), Nat.add_sub_cancel_left,
          List.getElem?_cons_succ, List.getElem?_eq_getElem hi]
    obtain ⟨i, b, hb, hpb, hne⟩ := hother
    have := h.placed i b hb p hpb
    rw [hd] at this
    exact hne this.symm
  · unfold peers
    rw [buckets_setBucketAt, hset]
    exact hperm b

theorem WellFormed.placed_at {t : Table} (h : t.WellFormed) {depth : Nat} {p : Peer}
    (hp : p ∈ (t.bucketAt depth).peers) :
    min (t.depth p.id) t.settled.length = min depth t.settled.length :=
  h.placed _ _ (bucketAt_eq t depth) p hp

theorem WellFormed.contains_iff {t : Table} (h : t.WellFormed) (id : Ident) :
    t.contains id = true ↔ ∃ p ∈ t.peers, p.id = id := by
  obtain ⟨others, hs, hne, -⟩ := h.exists_others (t.depth id)
  rw [contains, Bucket.contains_iff]
  constructor
  · rintro ⟨p, hp, hid⟩
    exact ⟨p, hs.mem_iff.mpr (List.mem_append_left _ hp), hid⟩
  · rintro ⟨p, hp, hid⟩
    rcases List.mem_append.mp (hs.mem_iff.mp hp) with hp | hp
    · exact ⟨p, hp, hid⟩
    · exact absurd (congrArg t.depth hid) (hne p hp)

theorem bucketAt_mem (t : Table) (depth : Nat) : t.bucketAt depth ∈ t.buckets :=
  List.mem_of_getElem? (bucketAt_eq t depth)

theorem WellFormed.setBucketAt {t : Table} (h : t.WellFormed) {depth : Nat} {b : Bucket}
    (hp : ∀ p ∈ b.peers, min (t.depth p.id) t.settled.length = min depth t.settled.length)
    (hr : b.capacity = t.k ∧ b.peers.length ≤ t.k)
    (hd : ((t.setBucketAt depth b).peers.map Peer.id).Nodup)
    (ho : ∀ p ∈ b.peers, p.id ≠ t.owner) : (t.setBucketAt depth b).WellFormed := by
  obtain ⟨others, hs, -, hset⟩ := h.exists_others depth
  refine ⟨?_, ?_, ?_, hd, ?_⟩
  · intro i c hc p hpc
    rw [buckets_setBucketAt, List.getElem?_set] at hc
    have hdepth : (t.setBucketAt depth b).depth p.id = t.depth p.id := by simp [Table.depth]
    rw [setBucketAt_settled_length, hdepth]
    split at hc
    next hi =>
      split at hc
      · cases hc
        exact (hp p hpc).trans hi
      · cases hc
    next => exact h.placed i c hc p hpc
  · intro c hc
    rw [buckets_setBucketAt] at hc
    rw [setBucketAt_k]
    rcases List.mem_or_eq_of_mem_set hc with hc | rfl
    · exact h.room c hc
    · exact hr
  · rw [setBucketAt_settled_length]
    exact h.bounded
  · intro p hpm
    rw [setBucketAt_owner]
    rcases List.mem_append.mp ((hset b).mem_iff.mp hpm) with hpm | hpm
    · exact ho p hpm
    · exact h.owner_absent p (hs.mem_iff.mpr (List.mem_append_right _ hpm))

theorem setBucketAt_bucketAt (t : Table) (depth : Nat) :
    t.setBucketAt depth (t.bucketAt depth) = t := by
  unfold setBucketAt bucketAt
  split
  next hd => simp [hd]
  next hd => simp [List.getElem?_eq_none (Nat.le_of_not_lt hd)]

end Buckets

section Unfolding

theorem split_sorts (depthOf : Peer → Nat) (depth : Nat) (ps : List Peer) :
    ((split depthOf depth ps).1 ++ (split depthOf depth ps).2).Perm ps ∧
      (∀ p ∈ (split depthOf depth ps).1, depthOf p = depth) ∧
      ∀ p ∈ (split depthOf depth ps).2, depthOf p ≠ depth := by
  induction ps using split.induct depthOf depth with
  | case1 => simp [split]
  | case2 p rest hd kept moved _ ih =>
    obtain ⟨hp, hk, hm⟩ := ih
    rw [split, if_pos hd]
    refine ⟨hp.cons p, ?_, hm⟩
    rintro q hq
    rcases List.mem_cons.mp hq with rfl | hq
    · exact hd
    · exact hk q hq
  | case3 p rest hd kept moved _ ih =>
    obtain ⟨hp, hk, hm⟩ := ih
    have hrest : (swapRemove (p :: rest) 0).Perm rest :=
      (List.perm_cons p).mp (swapRemove_perm (i := 0) rfl).symm
    rw [split, if_neg hd]
    refine ⟨List.perm_middle.trans ((hp.trans hrest).cons p), hk, ?_⟩
    rintro q hq
    rcases List.mem_cons.mp hq with rfl | hq
    · exact hd
    · exact hm q hq

structure Unfolds (t u : Table) : Prop where
  wellFormed : u.WellFormed
  owner : u.owner = t.owner
  k : u.k = t.k
  peers : u.peers.Perm t.peers

/-- Unfolding parts the last bucket in the peers at its index and the deeper ones. -/
theorem WellFormed.unfoldLast_eq {t : Table} (h : t.WellFormed) :
    ∃ kept moved, t.unfoldLast = { t with
        settled := t.settled ++ [⟨t.k, kept⟩]
        last := ⟨t.k, moved⟩ } ∧
      (kept ++ moved).Perm t.last.peers ∧
      (∀ p ∈ kept, t.depth p.id = t.settled.length) ∧
      ∀ p ∈ moved, t.settled.length < t.depth p.id := by
  obtain ⟨hp, hk, hm⟩ := split_sorts (fun p => t.depth p.id) t.settled.length t.last.peers
  generalize hkept : (split (fun p => t.depth p.id) t.settled.length t.last.peers).1 = kept at *
  generalize hmoved : (split (fun p => t.depth p.id) t.settled.length t.last.peers).2 = moved at *
  have hlast : t.buckets[t.settled.length]? = some t.last := by simp [buckets]
  obtain ⟨hcap, hlen⟩ := h.room t.last (List.mem_of_getElem? hlast)
  have hids : (moved.map Peer.id).Nodup := by
    have hd := h.distinct
    simp only [peers, buckets, List.flatMap_append, List.flatMap_singleton, List.map_append] at hd
    have := ((hp.map Peer.id).nodup_iff).mpr (List.nodup_append.mp hd).2.1
    rw [List.map_append] at this
    exact (List.nodup_append.mp this).2.1
  have hfits : (Bucket.new t.k).peers.length + moved.length ≤ (Bucket.new t.k).capacity := by
    have hsplit := hp.length_eq
    simp only [List.length_append] at hsplit
    simp only [Bucket.new, List.length_nil]
    omega
  -- the new bucket has the capacity of the old one, so it takes in whatever moves
  have hfill : moved.foldl (fun b p => (b.add p).2) (Bucket.new t.k) = ⟨t.k, moved⟩ := by
    rw [Bucket.foldl_add hfits (by simpa [Bucket.new] using hids)]
    simp [Bucket.new]
  refine ⟨kept, moved, ?_, hp, hk, fun p hpm => ?_⟩
  · simp only [Table.unfoldLast, hkept, hmoved, hfill, hcap]
  · have hpl := hp.mem_iff.mp (List.mem_append_right kept hpm)
    have hle := h.placed _ _ hlast p hpl
    have hne := hm p hpm
    omega

theorem WellFormed.unfoldLast {t : Table} (h : t.WellFormed)
    (hroom : t.settled.length + 1 < identBits) : Unfolds t t.unfoldLast := by
  obtain ⟨kept, moved, hu, hp, hk, hm⟩ := h.unfoldLast_eq
  have hperm : t.unfoldLast.peers.Perm t.peers := by
    rw [hu]
    simpa [peers, buckets] using hp.append_left (t.settled.flatMap Bucket.peers)
  have hlen := hp.length_eq
  rw [List.length_append] at hlen
  have hlast := h.room t.last (by simp [buckets])
  refine ⟨⟨?_, ?_, ?_, ?_, ?_⟩, by rw [hu], by rw [hu], hperm⟩
  · intro i b hb p hpb
    rw [hu] at hb ⊢
    simp only [buckets, List.append_assoc, List.singleton_append] at hb
    change min (t.depth p.id) (t.settled ++ [_]).length = i
    rw [List.length_append, List.length_singleton]
    by_cases hi : i < t.settled.length
    · rw [List.getElem?_append_left hi] at hb
      have := h.placed i b (by rw [buckets, List.getElem?_append_left hi, hb]) p hpb
      omega
    · rw [List.getElem?_append_right (Nat.le_of_not_lt hi)] at hb
      obtain ⟨j, rfl⟩ := Nat.exists_eq_add_of_le (Nat.le_of_not_lt hi)
      rw [Nat.add_sub_cancel_left] at hb
      match j with
      | 0 =>
        cases hb
        have := hk p hpb
        omega
      | 1 =>
        cases hb
        have := hm p hpb
        omega
      | j + 2 => simp at hb
  · intro b hb
    rw [hu] at hb ⊢
    simp only [buckets, List.mem_append, List.mem_singleton] at hb
    rcases hb with (hb | rfl) | rfl
    · exact h.room b (by simp [buckets, hb])
    · exact ⟨rfl, by simp only []; omega⟩
    · exact ⟨rfl, by simp only []; omega⟩
  · rw [hu]
    simpa using hroom
  · exact ((hperm.map Peer.id).nodup_iff).mpr h.distinct
  · intro p hpm
    rw [hu]
    exact h.owner_absent p (hperm.mem_iff.mp hpm)

theorem Unfolds.refl {t : Table} (h : t.WellFormed) : Unfolds t t :=
  ⟨h, rfl, rfl, .refl _⟩

theorem Unfolds.trans {t u v : Table} (h : Unfolds t u) (k : Unfolds u v) : Unfolds t v :=
  ⟨k.wellFormed, k.owner.trans h.owner, k.k.trans h.k, k.peers.trans h.peers⟩

/-- Making room unfolds until there is room at the depth, it has a bucket of its own, or there are
as many buckets as bits. -/
theorem WellFormed.makeRoom {t : Table} (h : t.WellFormed) (depth : Nat) :
    Unfolds t (t.makeRoom depth) ∧
      ¬ ((t.makeRoom depth).settled.length ≤ depth ∧ (t.makeRoom depth).last.isFull = true ∧
        (t.makeRoom depth).settled.length + 1 < identBits) := by
  induction t using makeRoom.induct depth with
  | case1 t hfull ih =>
    rw [Table.makeRoom, if_pos hfull]
    have hu := h.unfoldLast hfull.2.2
    obtain ⟨hm, hend⟩ := ih hu.wellFormed
    exact ⟨hu.trans hm, hend⟩
  | case2 t hend =>
    rw [Table.makeRoom, if_neg hend]
    exact ⟨.refl h, hend⟩

end Unfolding

end Kademlia.Table
