import Mathlib
import Kademlia.Proofs.Table.Exactness

/-!
Refused additions. Room is made before a peer is refused, so the last bucket may be split all the
same. Main statement: the contents read as before, and so do the closest peers, unless a search that
came to the last bucket before has now enough before it comes to the new one. It was exact before.
-/

namespace Kademlia.Table

variable {t u : Table} {p : Peer} {ignore : Option Ident} {target : Ident}

theorem get?_eq_find? (t : Table) (id : Ident) :
    t.get? id = (t.bucketAt (t.depth id)).peers.find? fun p => p.id = id :=
  List.find?_eq_bind_findIdx?_getElem?.symm

theorem WellFormed.get?_eq_some (h : t.WellFormed) (id : Ident) (p : Peer) :
    t.get? id = some p ↔ p ∈ t.peers ∧ p.id = id := by
  obtain ⟨others, hs, hne, -⟩ := h.exists_others (t.depth id)
  rw [get?_eq_find?]
  have hfound : ∀ q, (t.bucketAt (t.depth id)).peers.find? (fun p => p.id = id) = some q →
      q ∈ t.peers ∧ q.id = id := fun q hq =>
    ⟨hs.mem_iff.mpr (List.mem_append_left _ (List.mem_of_find?_eq_some hq)),
      by simpa using List.find?_some hq⟩
  refine ⟨hfound p, fun ⟨hp, hid⟩ => ?_⟩
  have hb : p ∈ (t.bucketAt (t.depth id)).peers := by
    refine (List.mem_append.mp (hs.mem_iff.mp hp)).resolve_right fun ho => hne p ho ?_
    rw [hid]
  have hsome : ((t.bucketAt (t.depth id)).peers.find? fun p => p.id = id).isSome :=
    List.find?_isSome.mpr ⟨p, hb, decide_eq_true hid⟩
  obtain ⟨q, hq⟩ := Option.isSome_iff_exists.mp hsome
  obtain ⟨hqp, hqid⟩ := hfound q hq
  rw [hq, List.inj_on_of_nodup_map h.distinct hqp hp (hqid.trans hid.symm)]

section Deepening

/-- The same table with its last bucket split some times. -/
structure Deepens (t u : Table) : Prop extends Unfolds t u where
  front : t.settled <+: u.settled

theorem makeRoom_front (t : Table) (depth : Nat) : t.settled <+: (t.makeRoom depth).settled := by
  induction t using makeRoom.induct depth with
  | case1 t hfull ih =>
    rw [makeRoom, if_pos hfull]
    exact (List.prefix_append _ _).trans ih
  | case2 t hend => exact ⟨[], by rw [makeRoom, if_neg hend, List.append_nil]⟩

/-- A bucket that refuses a peer stays as it is, so all that a refused addition does is make room. -/
theorem add_refused (h : (t.add p).1 = false) :
    (t.add p).2 = t ∨ (t.add p).2 = t.makeRoom (t.depth p.id) := by
  by_cases ho : p.id = t.owner
  · exact Or.inl (by simp [add, ho])
  · have hb : ((t.makeRoom (t.depth p.id)).bucketAt (t.depth p.id)).add p =
        (false, (t.makeRoom (t.depth p.id)).bucketAt (t.depth p.id)) := by
      simp only [add, if_neg ho] at h
      unfold Bucket.add at h ⊢
      split at h
      next hr => rw [if_pos hr]
      next => cases h
    refine Or.inr ?_
    simp only [add, if_neg ho, hb, setBucketAt_bucketAt]

theorem WellFormed.deepens_of_refused (h : t.WellFormed) (hp : (t.add p).1 = false) :
    Deepens t (t.add p).2 := by
  rcases add_refused hp with he | he
  · rw [he]
    exact ⟨.refl h, List.prefix_rfl⟩
  · rw [he]
    exact ⟨(h.makeRoom _).1, makeRoom_front t _⟩

end Deepening

section Search

theorem Deepens.depth (h : Deepens t u) (id : Ident) : u.depth id = t.depth id :=
  congrArg (·.cpl id) h.owner

theorem Deepens.eligible (h : Deepens t u) (ignore : Option Ident) {i : Nat}
    (hi : i < t.settled.length) : u.eligible ignore i = t.eligible ignore i := by
  obtain ⟨more, hm⟩ := h.front
  have hb : u.bucket? i = t.bucket? i := by
    rw [bucket?, bucket?, buckets, buckets, ← hm, List.append_assoc,
      List.getElem?_append_left hi, List.getElem?_append_left hi]
  rw [Table.eligible, Table.eligible, hb]

theorem Deepens.around (h : Deepens t u) (ignore : Option Ident) {start reach : Nat}
    (hr : start + reach < t.settled.length) :
    u.around ignore start reach = t.around ignore start reach := by
  refine List.flatMap_congr fun i hi => h.eligible ignore ?_
  rw [List.mem_range'_1] at hi
  omega

/-- A search that does not come to the buckets that were split finds what it found before. -/
theorem Deepens.gather (h : Deepens t u) (ignore : Option Ident) {start reach : Nat}
    (hr : start + reach < t.settled.length) {offsets : List Nat} (ho : ∀ o ∈ offsets, o ≤ reach)
    (found : List Peer) :
    u.gather ignore start offsets found = t.gather ignore start offsets found := by
  induction offsets generalizing found with
  | nil => rfl
  | cons offset offsets ih =>
    obtain ⟨hfirst, hrest⟩ := List.forall_mem_cons.mp ho
    have hring : u.ring ignore start offset = t.ring ignore start offset := by
      rw [ring, ring, h.eligible ignore (by omega), h.eligible ignore (by omega)]
    rw [Table.gather, Table.gather, h.k, hring, ih hrest]

theorem gather_enough (t : Table) (ignore : Option Ident) (start reach : Nat) {n count : Nat}
    (hn : n ≤ count) {found : List Peer} (h : found.Perm (t.around ignore start reach))
    (hk : t.k ≤ (t.around ignore start (reach + n)).length) :
    t.gather ignore start (List.range' (reach + 1) count) found =
      t.gather ignore start (List.range' (reach + 1) n) found := by
  induction n generalizing reach count found with
  | zero =>
    cases count with
    | zero => rfl
    | succ count =>
      rw [List.range'_succ, gather, if_pos (h.length_eq ▸ hk)]
      rfl
  | succ n ih =>
    obtain ⟨count, rfl⟩ := Nat.exists_eq_add_of_le' (Nat.le_trans (Nat.succ_pos n) hn)
    rw [List.range'_succ, List.range'_succ, gather, gather]
    split
    next => rfl
    next =>
      have hreach : reach + (n + 1) = reach + 1 + n := by omega
      exact ih (reach + 1) (by omega) ((h.append_right _).trans (t.around_succ ignore start reach))
        (hreach ▸ hk)

theorem closest_short (t : Table) (target : Ident) (ignore : Option Ident) (reach : Nat)
    (hr : t.depth target + reach < t.settled.length)
    (hk : t.k ≤ (t.around ignore (t.depth target) reach).length) :
    t.closest target ignore = (sortByDistance Peer.id target (t.gather ignore (t.depth target)
      (List.range' 1 reach) (t.eligible ignore (t.depth target)))).take t.k := by
  have hstart : min (t.depth target) t.settled.length = t.depth target := by omega
  have hzero : (t.eligible ignore (t.depth target)).Perm
      (t.around ignore (t.depth target) 0) := .of_eq (t.around_zero ignore _).symm
  have hcount : reach ≤ t.settled.length := by omega
  have hgather := t.gather_enough ignore (t.depth target) 0 hcount hzero (by rwa [Nat.zero_add])
  rw [closest, offsets_eq, hstart]
  exact congrArg (fun found => (sortByDistance Peer.id target found).take t.k) hgather

theorem Deepens.closest_of_short (h : Deepens t u) (hr : ¬ t.Reaches target ignore) :
    u.closest target ignore = t.closest target ignore := by
  rw [Reaches, not_or, Nat.not_le, Nat.not_lt] at hr
  obtain ⟨hlt, hk⟩ := hr
  have hnear : t.depth target + (t.settled.length - t.depth target - 1) < t.settled.length := by
    omega
  have hle : t.settled.length ≤ u.settled.length := h.front.length_le
  have hshort := u.closest_short target ignore (t.settled.length - t.depth target - 1)
    (by rw [h.depth]; omega) (by rw [h.depth, h.k, h.around ignore hnear]; exact hk)
  rw [hshort, t.closest_short target ignore _ hnear hk, h.depth, h.k, h.eligible ignore hlt,
    h.gather ignore hnear]
  intro o ho
  rw [List.mem_range'_1] at ho
  omega

theorem Deepens.exactClosest (h : Deepens t u) (target : Ident) (ignore : Option Ident) :
    u.exactClosest target ignore = t.exactClosest target ignore := by
  have hperm : (u.eligibles ignore).Perm (t.eligibles ignore) := h.peers.filter _
  rw [Table.exactClosest, Table.exactClosest, h.k,
    sortByDistance_congr hperm (h.wellFormed.eligibles_distinct ignore)]

end Search

/-- After any additions and removals, a peer that is refused leaves the contents as they are, however
they are read. The closest peers stay the same too, unless the search for them came to the last
bucket before and now ends before it comes to the new one. In this case they were the first `k` of
all peers but the ignored one, in order of distance to the target. -/
theorem refusal_hidden_unless_outrun (owner : Ident) (k : Nat) (cs : List Change) (p : Peer)
    (hp : (((new owner k).changes cs).add p).1 = false) :
    let t := (new owner k).changes cs
    let u := (t.add p).2
    (∀ id, u.contains id = t.contains id) ∧
    (∀ id, u.get? id = t.get? id) ∧
    u.size = t.size ∧
    u.peers.Perm t.peers ∧
    ∀ target ignore,
      u.closest target ignore = t.closest target ignore ∨
      t.Reaches target ignore ∧ ¬ u.Reaches target ignore ∧
        ∃ ranked : List Peer,
          ranked.Perm (t.peers.filter fun q => some q.id ≠ ignore) ∧
          (ranked.Pairwise fun q r => q.id.distance target < r.id.distance target) ∧
          t.closest target ignore = ranked.take k := by
  intro t u
  obtain ⟨hw, ho, hk, -⟩ : t.WellFormed ∧ t.owner = owner ∧ t.k = k ∧ _ :=
    (new_wellFormed owner k).changes (.refl _) cs
  have h : Deepens t u := hw.deepens_of_refused hp
  have hget : ∀ id, u.get? id = t.get? id := by
    intro id
    ext q
    rw [h.wellFormed.get?_eq_some, hw.get?_eq_some, h.peers.mem_iff]
  refine ⟨fun id => ?_, hget, ?_, h.peers, fun target ignore => ?_⟩
  · rw [Bool.eq_iff_iff, h.wellFormed.contains_iff, hw.contains_iff]
    simp only [h.peers.mem_iff]
  · rw [← length_peers, ← length_peers, h.peers.length_eq]
  · by_cases hr : t.Reaches target ignore
    · have hexact := hw.closest_of_reaches hr
      by_cases hu : u.Reaches target ignore
      · rw [hexact, h.wellFormed.closest_of_reaches hu, h.exactClosest]
        exact Or.inl rfl
      · exact Or.inr ⟨hr, hu, sortByDistance Peer.id target (t.eligibles ignore),
          sortByDistance_perm _ _ _, sortByDistance_strict (hw.eligibles_distinct ignore),
          hk ▸ hexact⟩
    · exact Or.inl (h.closest_of_short hr)

section Crowded

/-- The peer whose identifier has one bit set, after `n` bits that are not. -/
def sharing (n : Nat) : Peer := ⟨⟨1#160 <<< (159 - n)⟩, .loopback (UInt16.ofNat n)⟩

/-- A table with one peer in its first bucket, and its last bucket full with two at other depths. -/
def crowded : Table :=
  (new Ident.zero 2).changes [.add (sharing 0), .add (sharing 1), .add (sharing 2)]

/-- A peer that is known already is refused, and nobody who looks for it can tell. -/
theorem refusal_hidden_unless_outrun_known :
    (crowded.add (sharing 2)).1 = false ∧
    (crowded.add (sharing 2)).2.get? (sharing 2).id = crowded.get? (sharing 2).id ∧
    (crowded.add (sharing 2)).2.closest (sharing 2).id none =
      crowded.closest (sharing 2).id none := by
  have hp : (crowded.add (sharing 2)).1 = false := by cbv
  obtain ⟨-, hget, -, -, hclosest⟩ := refusal_hidden_unless_outrun Ident.zero 2
    [.add (sharing 0), .add (sharing 1), .add (sharing 2)] (sharing 2) hp
  refine ⟨hp, hget (sharing 2).id, (hclosest (sharing 2).id none).resolve_right ?_⟩
  rintro ⟨-, hshort, -⟩
  refine hshort (Or.inl ?_)
  have hlast : (crowded.add (sharing 2)).2.settled.length = 2 := by cbv
  have hdepth : (crowded.add (sharing 2)).2.depth (sharing 2).id = 2 := by cbv
  exact Nat.le_of_eq (hlast.trans hdepth.symm)

/-- Refusing the known peer splits the full bucket, and a search from the first bucket, which took
both of its peers before, has enough with the first part. It misses the peer that is refused, though
this one is nearer to the target. -/
theorem refusal_changes_closest :
    let target : Ident := ⟨(sharing 0).id.bits ||| (sharing 2).id.bits⟩
    (crowded.add (sharing 2)).1 = false ∧
    (crowded.add (sharing 2)).2.closest target none ≠ crowded.closest target none := by
  intro target
  have hbefore : crowded.closest target none = [sharing 0, sharing 2] := by cbv
  have hafter : (crowded.add (sharing 2)).2.closest target none = [sharing 0, sharing 1] := by cbv
  refine ⟨by cbv, ?_⟩
  rw [hbefore, hafter]
  decide

end Crowded

end Kademlia.Table
