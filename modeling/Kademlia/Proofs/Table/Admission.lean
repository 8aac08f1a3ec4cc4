import Kademlia.Proofs.Table.Shape

/-!
Who is admitted to a routing table. Main statement: after any additions and removals a peer is
admitted exactly when it is not the owner, its identifier is new, and fewer than `k` peers stand at
its depth, so how far the table has unfolded does not matter.
-/

namespace Kademlia.Table

/-- Fewer than `k` peers share as many bits with the owner, and none has the identifier. -/
def Admissible (owner : Ident) (k : Nat) (ps : List Peer) (p : Peer) : Prop :=
  p.id ≠ owner ∧ (∀ q ∈ ps, q.id ≠ p.id) ∧
    ps.countP (fun q => owner.cpl q.id = owner.cpl p.id) < k

instance (owner : Ident) (k : Nat) (ps : List Peer) (p : Peer) :
    Decidable (Admissible owner k ps p) :=
  inferInstanceAs (Decidable (_ ∧ _))

theorem Admissible.perm {owner : Ident} {k : Nat} {ps qs : List Peer} {p : Peer}
    (h : ps.Perm qs) : Admissible owner k ps p ↔ Admissible owner k qs p := by
  simp only [Admissible, h.mem_iff, h.countP_eq]

section Add

variable {t : Table} {p : Peer}

/-- With room made for a depth, its bucket is full only with peers at that depth. -/
theorem WellFormed.count_bucketAt (h : t.WellFormed) {depth : Nat} (hd : depth < identBits)
    (hend : ¬ (t.settled.length ≤ depth ∧ t.last.isFull = true ∧
      t.settled.length + 1 < identBits)) :
    (t.bucketAt depth).peers.length < t.k ↔
      t.peers.countP (fun q => t.depth q.id = depth) < t.k := by
  obtain ⟨others, hs, hne, -⟩ := h.exists_others depth
  have hcount : t.peers.countP (fun q => t.depth q.id = depth) =
      (t.bucketAt depth).peers.countP fun q => t.depth q.id = depth := by
    have hz : others.countP (fun q => t.depth q.id = depth) = 0 :=
      List.countP_eq_zero.mpr fun q hq => by simpa using hne q hq
    rw [hs.countP_eq, List.countP_append, hz, Nat.add_zero]
  rw [hcount]
  have hle : (t.bucketAt depth).peers.countP (fun q => t.depth q.id = depth) ≤
      (t.bucketAt depth).peers.length := List.countP_le_length
  have hall : (∀ q ∈ (t.bucketAt depth).peers, t.depth q.id = depth) →
      (t.bucketAt depth).peers.countP (fun q => t.depth q.id = depth) =
        (t.bucketAt depth).peers.length := fun ha =>
    List.countP_eq_length.mpr fun q hq => by simpa using ha q hq
  by_cases hlt : depth < t.settled.length
  · have := hall fun q hq => by
      have := h.placed_at hq
      omega
    omega
  · have hb : t.bucketAt depth = t.last := by
      simp [bucketAt, List.getElem?_eq_none (Nat.le_of_not_lt hlt)]
    by_cases hf : t.last.isFull = true
    · have hbound := h.bounded
      have hfinal : ¬ t.settled.length + 1 < identBits := fun hl => hend ⟨by omega, hf, hl⟩
      have := hall fun q hq => by
        have hq' := h.placed_at hq
        have hown := h.owner_absent q (hs.mem_iff.mpr (List.mem_append_left _ hq))
        have : t.depth q.id < identBits := Ident.cpl_lt (Ne.symm hown)
        omega
      omega
    · have hcap := (h.room t.last (hb ▸ bucketAt_mem t depth)).1
      simp only [Bucket.isFull, decide_eq_true_eq, hcap] at hf
      rw [hb] at hle ⊢
      omega

theorem WellFormed.enter (h : t.WellFormed) (ho : p.id ≠ t.owner)
    (hnew : ∀ q ∈ t.peers, q.id ≠ p.id)
    (hroom : (t.bucketAt (t.depth p.id)).peers.length < t.k) :
    let b := t.bucketAt (t.depth p.id)
    let u := t.setBucketAt (t.depth p.id) { b with peers := b.peers ++ [p] }
    u.WellFormed ∧ u.peers.Perm (p :: t.peers) := by
  intro b u
  obtain ⟨others, hs, -, hset⟩ := h.exists_others (t.depth p.id)
  obtain ⟨hcap, -⟩ := h.room b (bucketAt_mem t (t.depth p.id))
  have hperm : u.peers.Perm (p :: t.peers) := by
    calc
      List.Perm u.peers ((b.peers ++ [p]) ++ others) := hset _
      List.Perm _ (b.peers ++ p :: others) := by simp
      List.Perm _ (p :: (b.peers ++ others)) := List.perm_middle
      List.Perm _ (p :: t.peers) := hs.symm.cons p
  refine ⟨h.setBucketAt ?_ ⟨hcap, ?_⟩ ?_ ?_, hperm⟩
  · intro q hq
    rcases List.mem_append.mp hq with hq | hq
    · exact h.placed_at hq
    · rw [List.mem_singleton] at hq
      rw [hq]
  · rw [List.length_append, List.length_singleton]
    exact hroom
  · refine ((hperm.map Peer.id).nodup_iff).mpr ?_
    rw [List.map_cons, List.nodup_cons]
    refine ⟨fun hm => ?_, h.distinct⟩
    obtain ⟨q, hq, hid⟩ := List.mem_map.mp hm
    exact hnew q hq hid
  · intro q hq
    rcases List.mem_append.mp hq with hq | hq
    · exact h.owner_absent q (hs.mem_iff.mpr (List.mem_append_left _ hq))
    · rw [List.mem_singleton] at hq
      rwa [hq]

/-- What an addition does, in terms of contents alone. -/
theorem WellFormed.add (h : t.WellFormed) (p : Peer) :
    (t.add p).2.WellFormed ∧ (t.add p).2.owner = t.owner ∧ (t.add p).2.k = t.k ∧
      (Admissible t.owner t.k t.peers p ∧ (t.add p).1 = true ∧
          (t.add p).2.peers.Perm (p :: t.peers) ∨
        ¬ Admissible t.owner t.k t.peers p ∧ (t.add p).1 = false ∧
          (t.add p).2.peers.Perm t.peers) := by
  by_cases ho : p.id = t.owner
  · have he : t.add p = (false, t) := by simp [Table.add, ho]
    rw [he]
    exact ⟨h, rfl, rfl, Or.inr ⟨fun ha => ha.1 ho, rfl, .refl _⟩⟩
  obtain ⟨hu, hend⟩ := h.makeRoom (t.depth p.id)
  have hdepth : ∀ id, (t.makeRoom (t.depth p.id)).depth id = t.depth id := fun id =>
    congrArg (·.cpl id) hu.owner
  have he : t.add p = ((((t.makeRoom (t.depth p.id)).bucketAt (t.depth p.id)).add p).1,
      (t.makeRoom (t.depth p.id)).setBucketAt (t.depth p.id)
        (((t.makeRoom (t.depth p.id)).bucketAt (t.depth p.id)).add p).2) := by
    simp [Table.add, ho]
  rw [he]
  generalize t.makeRoom (t.depth p.id) = u at *
  rw [← hdepth p.id] at hend ⊢
  have hw := hu.wellFormed
  obtain ⟨others, hs, hne, -⟩ := hw.exists_others (u.depth p.id)
  obtain ⟨hcap, -⟩ := hw.room _ (bucketAt_mem u (u.depth p.id))
  have hroom : (u.bucketAt (u.depth p.id)).peers.length < u.k ↔
      t.peers.countP (fun q => t.owner.cpl q.id = t.owner.cpl p.id) < t.k := by
    have hlt : u.depth p.id < identBits := by
      rw [hdepth]
      exact Ident.cpl_lt (Ne.symm ho)
    rw [hw.count_bucketAt hlt hend, hu.peers.countP_eq, hu.k]
    simp only [hdepth]
    rfl
  rw [setBucketAt_owner, setBucketAt_k]
  by_cases hadm : Admissible t.owner t.k t.peers p
  · have hnew : ∀ q ∈ u.peers, q.id ≠ p.id := fun q hq => hadm.2.1 q (hu.peers.mem_iff.mp hq)
    have hlt := hroom.mpr hadm.2.2
    have hadd := Bucket.add_of_room (hcap.symm ▸ hlt) fun q hq =>
      hnew q (hs.mem_iff.mpr (List.mem_append_left _ hq))
    obtain ⟨hv, hperm⟩ := hw.enter (hu.owner.symm ▸ ho) hnew hlt
    rw [hadd]
    exact ⟨hv, hu.owner, hu.k, Or.inl ⟨hadm, rfl, hperm.trans (hu.peers.cons p)⟩⟩
  · have hadd : (u.bucketAt (u.depth p.id)).add p = (false, u.bucketAt (u.depth p.id)) := by
      by_cases hlt : (u.bucketAt (u.depth p.id)).peers.length < u.k
      · apply Bucket.add_of_known
        by_contra hn
        refine hadm ⟨ho, fun q hq hid => ?_, hroom.mp hlt⟩
        rcases List.mem_append.mp (hs.mem_iff.mp (hu.peers.mem_iff.mpr hq)) with hq | hq
        · exact hn ⟨q, hq, hid⟩
        · exact hne q hq (by rw [hid])
      · exact Bucket.add_of_full (by omega) p
    rw [hadd, setBucketAt_bucketAt]
    exact ⟨hw, hu.owner, hu.k, Or.inr ⟨hadm, rfl, hu.peers⟩⟩

end Add

theorem WellFormed.remove {t : Table} (h : t.WellFormed) (id : Ident) :
    (t.remove id).2.WellFormed ∧ (t.remove id).2.owner = t.owner ∧ (t.remove id).2.k = t.k ∧
      (t.remove id).2.peers.Perm (t.peers.filter (·.id ≠ id)) := by
  have he : (t.remove id).2 =
      t.setBucketAt (t.depth id) ((t.bucketAt (t.depth id)).remove id).2 := rfl
  obtain ⟨others, hs, hne, hset⟩ := h.exists_others (t.depth id)
  rw [he, setBucketAt_owner, setBucketAt_k]
  rcases Bucket.remove_cases (t.bucketAt (t.depth id)) id with
    ⟨p, hid, -, hc, hp⟩ | ⟨habsent, hb⟩
  · obtain ⟨hcap, hlen⟩ := h.room _ (bucketAt_mem t (t.depth id))
    have hperm : t.peers.Perm
        (p :: (t.setBucketAt (t.depth id) ((t.bucketAt (t.depth id)).remove id).2).peers) :=
      hs.trans ((hp.append_right others).trans ((hset _).symm.cons p))
    have hids := ((hperm.map Peer.id).nodup_iff).mp h.distinct
    rw [List.map_cons, List.nodup_cons, hid] at hids
    refine ⟨h.setBucketAt (fun q hq => ?_) ⟨hc.trans hcap, ?_⟩ hids.2 fun q hq => ?_, rfl, rfl, ?_⟩
    · exact h.placed_at (hp.mem_iff.mpr (List.mem_cons_of_mem p hq))
    · have := hp.length_eq
      rw [List.length_cons] at this
      omega
    · exact h.owner_absent q (hs.mem_iff.mpr (List.mem_append_left _
        (hp.mem_iff.mpr (List.mem_cons_of_mem p hq))))
    · refine .symm ((hperm.filter _).trans (.of_eq ?_))
      rw [List.filter_cons_of_neg (by simp [hid])]
      exact List.filter_eq_self.mpr fun q hq => decide_eq_true fun hq' =>
        hids.1 (List.mem_map.mpr ⟨q, hq, hq'⟩)
  · have habsent : ∀ q ∈ t.peers, q.id ≠ id := by
      intro q hq
      rcases List.mem_append.mp (hs.mem_iff.mp hq) with hq | hq
      · exact habsent q hq
      · exact fun hid => hne q hq (by rw [hid])
    rw [hb, setBucketAt_bucketAt]
    refine ⟨h, rfl, rfl, .of_eq (List.filter_eq_self.mpr fun q hq => ?_).symm⟩
    exact decide_eq_true (habsent q hq)

section Changes

inductive Change
  | add (p : Peer)
  | remove (id : Ident)

def change (t : Table) : Change → Table
  | .add p => (t.add p).2
  | .remove id => (t.remove id).2

def changes (t : Table) (cs : List Change) : Table := cs.foldl change t

/-- The same change to a mere set of peers that caps the number of them at each depth. -/
def Change.capped (owner : Ident) (k : Nat) (ps : List Peer) : Change → List Peer
  | .add p => if Admissible owner k ps p then p :: ps else ps
  | .remove id => ps.filter (·.id ≠ id)

theorem WellFormed.change {t : Table} (h : t.WellFormed) (c : Change) :
    (t.change c).WellFormed ∧ (t.change c).owner = t.owner ∧ (t.change c).k = t.k ∧
      ∀ ps, t.peers.Perm ps → (t.change c).peers.Perm (c.capped t.owner t.k ps) := by
  cases c with
  | add p =>
    obtain ⟨hw, ho, hk, hadd⟩ := h.add p
    refine ⟨hw, ho, hk, fun ps hps => ?_⟩
    rcases hadd with ⟨ha, -, hp⟩ | ⟨ha, -, hp⟩
    · rw [Change.capped, if_pos ((Admissible.perm hps).mp ha)]
      exact hp.trans (hps.cons p)
    · rw [Change.capped, if_neg (mt (Admissible.perm hps).mpr ha)]
      exact hp.trans hps
  | remove id =>
    obtain ⟨hw, ho, hk, hp⟩ := h.remove id
    exact ⟨hw, ho, hk, fun ps hps => hp.trans (hps.filter _)⟩

theorem WellFormed.changes {t : Table} (h : t.WellFormed) {ps : List Peer} (hps : t.peers.Perm ps)
    (cs : List Change) :
    (t.changes cs).WellFormed ∧ (t.changes cs).owner = t.owner ∧ (t.changes cs).k = t.k ∧
      (t.changes cs).peers.Perm (cs.foldl (Change.capped t.owner t.k) ps) := by
  induction cs generalizing t ps with
  | nil => exact ⟨h, rfl, rfl, hps⟩
  | cons c rest ih =>
    obtain ⟨hw, ho, hk, hp⟩ := h.change c
    obtain ⟨hv, hvo, hvk, hvp⟩ := ih hw (hp ps hps)
    rw [ho, hk] at hvp
    exact ⟨hv, hvo.trans ho, hvk.trans hk, hvp⟩

/-- Admission depends on the contents alone, so the table is a set with a cap on each depth. -/
theorem admits_by_contents (owner : Ident) (k : Nat) (cs : List Change) (p : Peer) :
    let t := (new owner k).changes cs
    ((t.add p).1 = true ↔
      p.id ≠ owner ∧ (∀ q ∈ t.peers, q.id ≠ p.id) ∧
        t.peers.countP (fun q => owner.cpl q.id = owner.cpl p.id) < k) ∧
    ((t.add p).1 = true → (t.add p).2.peers.Perm (p :: t.peers)) ∧
    ((t.add p).1 = false → (t.add p).2.peers.Perm t.peers) ∧
    (t.peers.map Peer.id).Nodup ∧
    t.peers.Perm (cs.foldl (Change.capped owner k) []) := by
  intro t
  obtain ⟨hw, ho, hk, hp⟩ : t.WellFormed ∧ t.owner = owner ∧ t.k = k ∧
      t.peers.Perm (cs.foldl (Change.capped owner k) []) :=
    (new_wellFormed owner k).changes (.refl _) cs
  have hadd := hw.add p
  rw [ho, hk] at hadd
  obtain ⟨-, -, -, ⟨ha, hr, hq⟩ | ⟨ha, hr, hq⟩⟩ := hadd
  · rw [hr]
    exact ⟨iff_of_true rfl ha, fun _ => hq, nofun, hw.distinct, hp⟩
  · rw [hr]
    exact ⟨iff_of_false nofun ha, nofun, fun _ => hq, hw.distinct, hp⟩

end Changes

end Kademlia.Table
