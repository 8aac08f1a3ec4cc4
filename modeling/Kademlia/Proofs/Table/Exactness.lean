import Mathlib.Data.List.Perm.Subperm
import Kademlia.Proofs.Ident.Prefix
import Kademlia.Proofs.Table.Outward

/-!
Where the closest peers are exact. The search goes outwards by the index of the buckets, the answer
is ordered by distance to another point. The bucket where the search starts is nearer to the target
than any other, and once the search has come to the last bucket, all that it has left out is farther
than all that it has found. Main statement: the answer agrees with the ranking of all peers as far as
the first bucket reaches, and entirely if that is the last one.
-/

namespace Kademlia

section Ranking

variable {α : Type} {ident : α → Ident} {target : Ident} {xs ys near far : List α}

theorem sortByDistance_append (h : xs.Perm (near ++ far)) (hids : (xs.map ident).Nodup)
    (hd : ∀ x ∈ near, ∀ y ∈ far, (ident x).distance target < (ident y).distance target) :
    sortByDistance ident target xs =
      sortByDistance ident target near ++ sortByDistance ident target far := by
  have hparts := (h.map ident).nodup_iff.mp hids
  rw [List.map_append, List.nodup_append] at hparts
  have hnear := sortByDistance_perm ident target near
  have hfar := sortByDistance_perm ident target far
  refine List.Perm.eq_of_pairwise (fun _ _ _ _ hlt hgt => absurd hgt (Distance.lt_asymm hlt))
    (sortByDistance_strict hids) (List.pairwise_append.mpr ⟨sortByDistance_strict hparts.1,
      sortByDistance_strict hparts.2.1, fun x hx y hy => ?_⟩) ?_
  · exact hd x (hnear.mem_iff.mp hx) y (hfar.mem_iff.mp hy)
  · exact (sortByDistance_perm ident target xs).trans (h.trans (hnear.append hfar).symm)

theorem sortByDistance_congr (h : xs.Perm ys) (hids : (xs.map ident).Nodup) :
    sortByDistance ident target xs = sortByDistance ident target ys := by
  have hsplit : xs.Perm (ys ++ []) := by rwa [List.append_nil]
  rw [sortByDistance_append hsplit hids (fun _ _ _ hy => absurd hy List.not_mem_nil)]
  simp [sortByDistance]

/-- Two rankings begin alike if they rank the same near things, which are nearer than all others. -/
theorem take_sortByDistance_congr (hx : (xs.map ident).Nodup) (hy : (ys.map ident).Nodup)
    (isNear : α → Bool) (hsame : ∀ x, isNear x = true → (x ∈ xs ↔ x ∈ ys))
    (hd : ∀ x y, isNear x = true → isNear y = false →
      (ident x).distance target < (ident y).distance target)
    {n : Nat} (hn : n ≤ (xs.filter isNear).length) :
    (sortByDistance ident target xs).take n = (sortByDistance ident target ys).take n := by
  have hfront : ∀ zs : List α, (zs.map ident).Nodup → n ≤ (zs.filter isNear).length →
      (sortByDistance ident target zs).take n =
        (sortByDistance ident target (zs.filter isNear)).take n := by
    intro zs hz hle
    rw [sortByDistance_append (List.filter_append_perm isNear zs).symm hz]
    · refine List.take_append_of_le_length ?_
      rwa [(sortByDistance_perm ident target _).length_eq]
    · intro x hxn y hyf
      exact hd x y (List.mem_filter.mp hxn).2 (by simpa using (List.mem_filter.mp hyf).2)
  have hfilter : (xs.filter isNear).Perm (ys.filter isNear) := by
    refine (List.perm_ext_iff_of_nodup (hx.of_map.filter _) (hy.of_map.filter _)).mpr fun x => ?_
    rw [List.mem_filter, List.mem_filter]
    exact and_congr_left (hsame x)
  have hids : ((xs.filter isNear).map ident).Nodup := hx.sublist (List.filter_sublist.map _)
  rw [hfront xs hx hn, hfront ys hy (hfilter.length_eq ▸ hn), sortByDistance_congr hfilter hids]

end Ranking

namespace Table

variable {t : Table} {ignore : Option Ident} {target : Ident}

section Places

theorem mem_eligibles (t : Table) (ignore : Option Ident) (p : Peer) :
    p ∈ t.eligibles ignore ↔ p ∈ t.peers ∧ some p.id ≠ ignore := by
  rw [eligibles, List.mem_filter, decide_eq_true_iff]

theorem WellFormed.eligibles_distinct (h : t.WellFormed) (ignore : Option Ident) :
    ((t.eligibles ignore).map Peer.id).Nodup :=
  h.distinct.sublist (List.filter_sublist.map _)

theorem WellFormed.mem_eligible (h : t.WellFormed) (ignore : Option Ident) (i : Nat) (p : Peer) :
    p ∈ t.eligible ignore i ↔
      p ∈ t.eligibles ignore ∧ min (t.depth p.id) t.settled.length = i := by
  rw [mem_eligibles, eligible, List.mem_filter, decide_eq_true_iff, bucket?]
  constructor
  · rintro ⟨hp, hne⟩
    cases hb : t.buckets[i]? with
    | none => simp [hb] at hp
    | some b =>
      rw [hb] at hp
      exact ⟨⟨List.mem_flatMap.mpr ⟨b, List.mem_of_getElem? hb, hp⟩, hne⟩, h.placed i b hb p hp⟩
  · rintro ⟨⟨hp, hne⟩, hi⟩
    obtain ⟨b, hb, hpb⟩ := List.mem_flatMap.mp hp
    obtain ⟨j, hj⟩ := List.getElem?_of_mem hb
    have hij : j = i := (h.placed j b hj p hpb).symm.trans hi
    rw [← hij, hj]
    exact ⟨hpb, hne⟩

theorem WellFormed.mem_around (h : t.WellFormed) (ignore : Option Ident) (start reach : Nat)
    (p : Peer) : p ∈ t.around ignore start reach ↔ p ∈ t.eligibles ignore ∧
      start - reach ≤ min (t.depth p.id) t.settled.length ∧
      min (t.depth p.id) t.settled.length ≤ start + reach := by
  simp only [around, List.mem_flatMap, List.mem_range'_1, h.mem_eligible]
  constructor
  · rintro ⟨i, hi, hp, rfl⟩
    exact ⟨hp, by omega, by omega⟩
  · rintro ⟨hp, hlow, hhigh⟩
    exact ⟨_, ⟨hlow, by omega⟩, hp, rfl⟩

theorem WellFormed.around_distinct (h : t.WellFormed) (ignore : Option Ident)
    (start reach : Nat) : ((t.around ignore start reach).map Peer.id).Nodup :=
  (h.eligibles_distinct ignore).sublist ((t.around_sublist ignore start reach).map _)

theorem WellFormed.length_around_le (h : t.WellFormed) (ignore : Option Ident) (start : Nat)
    {reach more : Nat} (hr : reach ≤ more) :
    (t.around ignore start reach).length ≤ (t.around ignore start more).length := by
  refine (List.subperm_of_subset (h.around_distinct ignore start reach).of_map fun p => ?_).length_le
  rw [h.mem_around, h.mem_around]
  rintro ⟨hp, hlow, hhigh⟩
  exact ⟨hp, by omega, by omega⟩

end Places

section Exact

def exactClosest (t : Table) (target : Ident) (ignore : Option Ident) : List Peer :=
  (sortByDistance Peer.id target (t.eligibles ignore)).take t.k

/-- The search for a target comes to the last bucket: it starts there, or fewer than `k` eligible
peers stand in the buckets that are nearer to its start. -/
def Reaches (t : Table) (target : Ident) (ignore : Option Ident) : Prop :=
  t.settled.length ≤ t.depth target ∨
    (t.around ignore (t.depth target) (t.settled.length - t.depth target - 1)).length < t.k

/-- A search that comes to the last bucket leaves out only peers that share fewer bits with the owner
than the target does, and fewer than all peers that it has found. -/
theorem WellFormed.closest_of_reaches (h : t.WellFormed) (hr : t.Reaches target ignore) :
    t.closest target ignore = t.exactClosest target ignore := by
  obtain ⟨reach, found, hanswer, hfound, hend⟩ := t.closest_around target ignore
  have hids : (found.map Peer.id).Nodup :=
    (hfound.map Peer.id).nodup_iff.mpr (h.around_distinct ignore _ reach)
  rw [hanswer, exactClosest]
  rcases hend with henough | hall
  · have hlast : t.settled.length ≤ min (t.depth target) t.settled.length + reach := by
      by_contra hshort
      have hstart : min (t.depth target) t.settled.length = t.depth target := by omega
      rw [hstart] at hfound hshort
      rcases hr with hr | hr
      · omega
      · have hmore := h.length_around_le ignore (t.depth target)
          (show reach ≤ t.settled.length - t.depth target - 1 by omega)
        rw [← hfound.length_eq] at hmore
        omega
    let deep : Peer → Bool := fun p => min (t.depth target) t.settled.length - reach ≤ t.depth p.id
    have hdeep : ∀ p ∈ found, deep p = true := by
      intro p hp
      obtain ⟨-, hlow, -⟩ := (h.mem_around ignore _ _ p).mp (hfound.mem_iff.mp hp)
      exact decide_eq_true (by omega)
    refine take_sortByDistance_congr hids (h.eligibles_distinct ignore) deep ?_ ?_ ?_
    · intro p hp
      have hp := of_decide_eq_true hp
      rw [hfound.mem_iff, h.mem_around, and_iff_left_iff_imp]
      exact fun _ => ⟨by omega, by omega⟩
    · intro p q hp hq
      refine Ident.distance_lt_of_shared ?_ (of_decide_eq_true hp)
        (Nat.lt_of_not_le (of_decide_eq_false hq))
      exact Nat.le_trans (Nat.sub_le _ _) (Nat.min_le_left _ _)
    · rwa [List.filter_eq_self.mpr hdeep]
  · rw [sortByDistance_congr hall hids]

/-- The peers of the bucket where the search starts come first, unless it is the last bucket. -/
theorem WellFormed.closest_of_start (h : t.WellFormed) (ht : t.depth target < t.settled.length)
    {n : Nat} (hk : n ≤ t.k) (hn : n ≤ (t.eligible ignore (t.depth target)).length) :
    (t.closest target ignore).take n =
      (sortByDistance Peer.id target (t.eligibles ignore)).take n := by
  obtain ⟨reach, found, hanswer, hfound, -⟩ := t.closest_around target ignore
  rw [Nat.min_eq_left (Nat.le_of_lt ht)] at hfound
  have hids : (found.map Peer.id).Nodup :=
    (hfound.map Peer.id).nodup_iff.mpr (h.around_distinct ignore _ reach)
  let level : Peer → Bool := fun p => t.depth p.id = t.depth target
  have hsame : ∀ p, level p = true → (p ∈ found ↔ p ∈ t.eligibles ignore) := by
    intro p hp
    have hp := of_decide_eq_true hp
    rw [hfound.mem_iff, h.mem_around, and_iff_left_iff_imp]
    exact fun _ => ⟨by omega, by omega⟩
  have hstart : (t.eligible ignore (t.depth target)).length ≤ (found.filter level).length := by
    have hdistinct := h.around_distinct ignore (t.depth target) 0
    rw [around_zero] at hdistinct
    refine (List.subperm_of_subset hdistinct.of_map fun p hp => ?_).length_le
    obtain ⟨hp, hi⟩ := (h.mem_eligible ignore _ p).mp hp
    have hlevel : level p = true := decide_eq_true (by omega)
    exact List.mem_filter.mpr ⟨(hsame p hlevel).mpr hp, hlevel⟩
  rw [hanswer, List.take_take, Nat.min_eq_left hk]
  refine take_sortByDistance_congr hids (h.eligibles_distinct ignore) level hsame ?_
    (Nat.le_trans hn hstart)
  intro p q hp hq
  exact Ident.distance_lt_of_parted (Nat.lt_trans ht h.bounded) (of_decide_eq_true hp)
    (of_decide_eq_false hq)

/-- After any additions and removals, take all peers but the ignored one in order of distance to the
target. The closest peers agree with them as far as the bucket goes where the search starts, up to
`k` peers, and are the first `k` of them if this is the last bucket. -/
theorem closest_exact_at_start (owner : Ident) (k : Nat) (cs : List Change) (target : Ident)
    (ignore : Option Ident) :
    let t := (new owner k).changes cs
    let start := min (owner.cpl target) (t.buckets.length - 1)
    ∃ (ranked : List Peer) (b : Bucket),
      ranked.Perm (t.peers.filter fun p => some p.id ≠ ignore) ∧
      (ranked.Pairwise fun p q => p.id.distance target < q.id.distance target) ∧
      t.buckets[start]? = some b ∧
      (let n := min k (b.peers.countP fun p => some p.id ≠ ignore);
        (t.closest target ignore).take n = ranked.take n) ∧
      (start = t.buckets.length - 1 → t.closest target ignore = ranked.take k) := by
  intro t start
  obtain ⟨hw, ho, hk, -⟩ : t.WellFormed ∧ t.owner = owner ∧ t.k = k ∧ _ :=
    (new_wellFormed owner k).changes (.refl _) cs
  have hdepth : t.depth target = owner.cpl target := by rw [depth, ho]
  have hlast : t.buckets.length - 1 = t.settled.length := by simp [buckets]
  have hstart : start = min (t.depth target) t.settled.length := by rw [hdepth, ← hlast]
  have hbucket : t.buckets[start]? = some (t.bucketAt (t.depth target)) :=
    hstart ▸ bucketAt_eq t (t.depth target)
  have hexact : start = t.buckets.length - 1 →
      t.closest target ignore = t.exactClosest target ignore := fun hs =>
    hw.closest_of_reaches (Or.inl (by omega))
  refine ⟨sortByDistance Peer.id target (t.eligibles ignore), t.bucketAt (t.depth target),
    sortByDistance_perm _ _ _, sortByDistance_strict (hw.eligibles_distinct ignore), hbucket, ?_,
    fun hs => hk ▸ hexact hs⟩
  intro n
  have hn : n ≤ t.k := hk ▸ Nat.min_le_left _ _
  by_cases hs : start = t.buckets.length - 1
  · rw [hexact hs, exactClosest, List.take_take, Nat.min_eq_left hn]
  · have hlt : t.depth target < t.settled.length := by omega
    have hb : t.bucket? (t.depth target) = some (t.bucketAt (t.depth target)) := by
      have hi : t.depth target = start := by omega
      rw [bucket?, ← hbucket, hi]
    have heligible : t.eligible ignore (t.depth target) =
        (t.bucketAt (t.depth target)).peers.filter fun p => some p.id ≠ ignore := by
      rw [eligible, hb]
      rfl
    refine hw.closest_of_start hlt hn ?_
    rw [heligible, ← List.countP_eq_length_filter]
    exact Nat.min_le_right _ _

end Exact

end Table

end Kademlia
