import Mathlib.Data.List.Flatten
import Mathlib.Data.List.Perm.Basic
import Kademlia.Proofs.Table.Admission
import Kademlia.Proofs.Table.Closest

/-!
The outward search for peers close to a target. After every ring it has found just the eligible
peers of the buckets around its start, and it ends with at least `k` of them or with all there are.
Main statement: the answer is strictly sorted by distance, free of the ignored peer, and as long as
the table allows.
-/

namespace Kademlia.Table

section Around

variable (t : Table) (ignore : Option Ident)

/-- The eligible peers of the buckets up to some distance below and above a bucket. -/
def around (start reach : Nat) : List Peer :=
  (List.range' (start - reach) (start + reach + 1 - (start - reach))).flatMap (t.eligible ignore)

theorem around_zero (start : Nat) : t.around ignore start 0 = t.eligible ignore start := by
  have hone : start + 0 + 1 - (start - 0) = 1 := by omega
  rw [around, hone, Nat.sub_zero, List.range'_one, List.flatMap_singleton]

/-- A ring widens what has been searched by one bucket at either end. Below the first bucket there
is none. -/
theorem around_succ (start reach : Nat) :
    (t.around ignore start reach ++ t.ring ignore start (reach + 1)).Perm
      (t.around ignore start (reach + 1)) := by
  have hupper : ∀ low, low ≤ start → List.range' low (start + (reach + 1) + 1 - low) =
      List.range' low (start + reach + 1 - low) ++ [start + (reach + 1)] := by
    intro low hlow
    have hlength : start + (reach + 1) + 1 - low = (start + reach + 1 - low) + 1 := by omega
    have hlast : low + (start + reach + 1 - low) = start + (reach + 1) := by omega
    rw [hlength, List.range'_1_concat, hlast]
  unfold around ring
  rw [hupper _ (Nat.sub_le _ _), List.flatMap_append, List.flatMap_singleton]
  by_cases hlow : reach + 1 ≤ start
  · have hfirst : start - reach = start - (reach + 1) + 1 := by omega
    have hlength : start + reach + 1 - (start - (reach + 1)) =
        (start + reach + 1 - (start - reach)) + 1 := by omega
    rw [if_pos hlow, hlength, List.range'_succ, ← hfirst, List.flatMap_cons, ← List.append_assoc]
    exact List.perm_append_comm.append_right _
  · have hfirst : start - (reach + 1) = start - reach := by omega
    rw [if_neg hlow, hfirst, List.nil_append]

theorem flatMap_range {α β : Type} (xs : List α) (f : α → List β) {bound : Nat}
    (h : xs.length ≤ bound) :
    ((List.range bound).flatMap fun i => (xs[i]?.map f).getD []) = xs.flatMap f := by
  induction xs generalizing bound with
  | nil => simp
  | cons x rest ih =>
    obtain ⟨more, rfl⟩ := Nat.exists_eq_add_of_lt (Nat.lt_of_lt_of_le (Nat.succ_pos _) h)
    rw [Nat.zero_add, List.range_succ_eq_map, List.flatMap_cons, List.flatMap_map,
      List.flatMap_cons]
    have hrest : rest.length ≤ more := by
      rw [List.length_cons] at h
      omega
    exact congrArg _ (ih hrest)

def eligibles : List Peer := t.peers.filter fun p => some p.id ≠ ignore

theorem eligible_range {bound : Nat} (h : t.buckets.length ≤ bound) :
    (List.range bound).flatMap (t.eligible ignore) = t.eligibles ignore := by
  have hall := flatMap_range t.buckets Bucket.peers h
  rw [eligibles, peers, ← hall, List.filter_flatMap]
  rfl

theorem around_sublist (start reach : Nat) :
    (t.around ignore start reach).Sublist (t.eligibles ignore) := by
  have hlow : start - reach + (start + reach + 1 - (start - reach)) = start + reach + 1 := by omega
  have hrange : (List.range' (start - reach) (start + reach + 1 - (start - reach))).Sublist
      (List.range (start + reach + 1)) := by
    rw [← hlow, List.range_eq_range', ← List.range'_append_1, Nat.zero_add, hlow]
    exact List.sublist_append_right _ _
  rw [← t.eligible_range ignore (Nat.le_max_right (start + reach + 1) t.buckets.length)]
  exact (hrange.trans (List.range_sublist.mpr (Nat.le_max_left _ _))).flatMap _

theorem around_all {start reach : Nat} (hs : start < t.buckets.length)
    (hr : t.buckets.length ≤ reach + 1) : t.around ignore start reach = t.eligibles ignore := by
  have hfirst : start - reach = 0 := by omega
  rw [around, hfirst, Nat.sub_zero, ← List.range_eq_range']
  exact t.eligible_range ignore (by omega)

/-- Gathering goes some rings outwards, until it has `k` peers or there is no ring left. -/
theorem gather_around {start reach : Nat} (count : Nat) {found : List Peer}
    (h : found.Perm (t.around ignore start reach)) :
    ∃ rings ≤ count,
      (t.gather ignore start (List.range' (reach + 1) count) found).Perm
        (t.around ignore start (reach + rings)) ∧
      (t.k ≤ (t.gather ignore start (List.range' (reach + 1) count) found).length ∨
        rings = count) := by
  induction count generalizing reach found with
  | zero => exact ⟨0, Nat.le_refl 0, h, Or.inr rfl⟩
  | succ count ih =>
    rw [List.range'_succ, gather]
    split
    next hk => exact ⟨0, Nat.zero_le _, h, Or.inl hk⟩
    next =>
      have hnext := (h.append_right _).trans (t.around_succ ignore start reach)
      obtain ⟨rings, hle, hperm, hend⟩ := ih hnext
      have hreach : reach + 1 + rings = reach + (rings + 1) := by omega
      exact ⟨rings + 1, Nat.succ_le_succ hle, hreach ▸ hperm, hend.imp_right (congrArg Nat.succ)⟩

end Around

section Answer

variable {t : Table}

theorem offsets_eq (t : Table) :
    (List.range t.buckets.length).drop 1 = List.range' 1 t.settled.length := by
  have hlength : t.buckets.length = t.settled.length + 1 := by simp [buckets]
  rw [hlength, List.range_eq_range', List.drop_range']
  rfl

/-- What the search for a target has found when it ends: the eligible peers of the buckets around
its start, which are `k` or more, or all. -/
theorem closest_around (t : Table) (target : Ident) (ignore : Option Ident) :
    ∃ reach found, t.closest target ignore = (sortByDistance Peer.id target found).take t.k ∧
      found.Perm (t.around ignore (min (t.depth target) t.settled.length) reach) ∧
      (t.k ≤ found.length ∨ found.Perm (t.eligibles ignore)) := by
  have hlength : t.buckets.length = t.settled.length + 1 := by simp [buckets]
  obtain ⟨rings, -, hperm, hend⟩ := t.gather_around ignore t.settled.length
    (.of_eq (t.around_zero ignore (min (t.depth target) t.settled.length)).symm)
  refine ⟨_, _, by rw [closest, offsets_eq], hperm, hend.imp_right ?_⟩
  rintro rfl
  rw [around_all t ignore (by omega) (by omega)] at hperm
  exact hperm

theorem closest_subperm (t : Table) (target : Ident) (ignore : Option Ident) :
    (t.closest target ignore).Subperm (t.eligibles ignore) := by
  obtain ⟨reach, found, hanswer, hfound, -⟩ := t.closest_around target ignore
  have htaken : (t.closest target ignore).Subperm (sortByDistance Peer.id target found) :=
    hanswer ▸ (List.take_sublist _ _).subperm
  have hsorted := (sortByDistance_perm Peer.id target found).trans hfound
  exact htaken.trans (hsorted.subperm.trans (t.around_sublist ignore _ reach).subperm)

theorem length_closest (t : Table) (target : Ident) (ignore : Option Ident) :
    (t.closest target ignore).length = min t.k (t.eligibles ignore).length := by
  obtain ⟨reach, found, hanswer, hfound, hend⟩ := t.closest_around target ignore
  have hle : found.length ≤ (t.eligibles ignore).length :=
    hfound.length_eq ▸ (t.around_sublist ignore _ reach).length_le
  rw [hanswer, List.length_take, (sortByDistance_perm Peer.id target found).length_eq]
  rcases hend with henough | hall
  · rw [Nat.min_eq_left henough, Nat.min_eq_left (Nat.le_trans henough hle)]
  · rw [hall.length_eq]

theorem WellFormed.closest_strict (h : t.WellFormed) (target : Ident) (ignore : Option Ident) :
    (t.closest target ignore).Pairwise fun p q =>
      p.id.distance target < q.id.distance target := by
  obtain ⟨reach, found, hanswer, hfound, -⟩ := t.closest_around target ignore
  have hids : ((t.eligibles ignore).map Peer.id).Nodup :=
    h.distinct.sublist (List.filter_sublist.map _)
  have hfoundIds : (found.map Peer.id).Nodup :=
    (hfound.map Peer.id).nodup_iff.mpr
      (hids.sublist ((t.around_sublist ignore _ reach).map _))
  rw [hanswer]
  exact (sortByDistance_strict hfoundIds).sublist (List.take_sublist _ _)

/-- After any additions and removals, the closest peers to a target are peers of the table without
the ignored one, each nearer than the next. There are `k` of them, or as many as there are peers to
choose from, and then all of these are among them. -/
theorem closest_answers_in_full (owner : Ident) (k : Nat) (cs : List Change) (target : Ident)
    (ignore : Option Ident) :
    let t := (new owner k).changes cs
    let answer := t.closest target ignore
    (∀ p ∈ answer, p ∈ t.peers ∧ some p.id ≠ ignore) ∧
    (answer.Pairwise fun p q => p.id.distance target < q.id.distance target) ∧
    answer.length = min k (t.peers.countP fun p => some p.id ≠ ignore) ∧
    (answer.length < k → ∀ p ∈ t.peers, some p.id ≠ ignore → p ∈ answer) := by
  intro t answer
  obtain ⟨hw, -, hk, -⟩ : t.WellFormed ∧ t.owner = owner ∧ t.k = k ∧ _ :=
    (new_wellFormed owner k).changes (.refl _) cs
  have heligible : ∀ p, p ∈ t.eligibles ignore ↔ p ∈ t.peers ∧ some p.id ≠ ignore := by
    intro p
    rw [eligibles, List.mem_filter, decide_eq_true_iff]
  have hsub : answer.Subperm (t.eligibles ignore) := t.closest_subperm target ignore
  have hlength : answer.length = min k (t.eligibles ignore).length :=
    hk ▸ t.length_closest target ignore
  refine ⟨fun p hp => (heligible p).mp (hsub.subset hp), hw.closest_strict target ignore, ?_, ?_⟩
  · rw [hlength, eligibles, List.countP_eq_length_filter]
  · intro hless p hp hne
    have hall : answer.Perm (t.eligibles ignore) := hsub.perm_of_length_le (by omega)
    exact hall.mem_iff.mpr ((heligible p).mpr ⟨hp, hne⟩)

end Answer

end Kademlia.Table
