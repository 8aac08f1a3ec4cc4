import Mathlib
import Kademlia.Proofs.Lookup.History

/-!
What a finding names as closest. Main statement: a lookup that runs to its end has heard an answer
from exactly the closest of all peers that it knows and that have not failed; one that is cut short
names the closest of those that have answered.
-/

namespace Kademlia

/-- The `n` identifiers among `points` that are closest to the target, closest first; all of them
when there are fewer. -/
structure Nearest (target : Ident) (n : Nat) (points : Finset Ident) (found : List Ident) :
    Prop where
  length : found.length = min n points.card
  ordered : found.Pairwise fun a b => a.distance target < b.distance target
  among : ∀ a ∈ found, a ∈ points
  nearest : ∀ a ∈ found, ∀ b ∈ points, b ∉ found → a.distance target < b.distance target

def Finding.nearby : Finding → List Peer
  | .closest _ _ peers => peers
  | .value _ _ _ _ peers => peers
  | .members _ peers _ => peers

theorem ordered_nodup {target : Ident} {ids : List Ident}
    (h : ids.Pairwise fun a b => a.distance target < b.distance target) : ids.Nodup := by
  refine List.Pairwise.imp ?_ h
  rintro a b hlt rfl
  exact Distance.lt_irrefl _ hlt

theorem nearest_take {target : Ident} {ids : List Ident}
    (h : ids.Pairwise fun a b => a.distance target < b.distance target) (n : Nat) :
    Nearest target n ids.toFinset (ids.take n) := by
  have hsplit := h
  rw [← List.take_append_drop n ids, List.pairwise_append] at hsplit
  refine ⟨?_, hsplit.1, ?_, ?_⟩
  · rw [List.toFinset_card_of_nodup (ordered_nodup h), List.length_take]
  · intro a ha
    exact List.mem_toFinset.mpr (List.mem_of_mem_take ha)
  · intro a ha b hb hout
    rw [List.mem_toFinset, ← List.take_append_drop n ids, List.mem_append] at hb
    exact hsplit.2.2 a ha b (hb.resolve_left hout)

theorem take_filter_of_front {α : Type} (q : α → Bool) (n : Nat) (xs : List α)
    (h : ∀ x ∈ xs.take n, q x = true) : (xs.filter q).take n = xs.take n := by
  induction xs generalizing n with
  | nil => simp
  | cons x xs ih =>
    cases n with
    | zero => simp
    | succ n =>
      rw [List.take_succ_cons] at h ⊢
      have hx : q x = true := h x List.mem_cons_self
      rw [List.filter_cons_of_pos hx, List.take_succ_cons,
        ih n fun y hy => h y (List.mem_cons_of_mem _ hy)]

namespace Frontier

def withProgress (f : Frontier) (q : Progress → Bool) : List Ident :=
  (f.contacts.filter fun c => q c.progress).map Contact.id

theorem withProgress_ordered {f : Frontier} (h : f.Sound) (q : Progress → Bool) :
    (f.withProgress q).Pairwise fun a b => a.distance f.target < b.distance f.target := by
  rw [withProgress, List.pairwise_map]
  exact h.ordered.sublist List.filter_sublist

theorem mem_withProgress {f : Frontier} (h : f.Sound) (q : Progress → Bool) (id : Ident) :
    id ∈ f.withProgress q ↔ ∃ p, f.progress? id = some p ∧ q p = true := by
  simp only [withProgress, List.mem_map, List.mem_filter]
  constructor
  · rintro ⟨c, ⟨hc, hq⟩, rfl⟩
    exact ⟨c.progress, progress?_of_mem h.ordered hc, hq⟩
  · rintro ⟨p, hp, hq⟩
    exact ⟨_, ⟨(progress?_eq_some h.ordered).mp hp, hq⟩, rfl⟩

/-- When nothing is in flight and nobody may be asked, the closest contacts that have not failed
have all answered. -/
theorem finishedClosest_of_exhausted {f : Frontier} (h : f.Sound) (hi : f.inFlight = 0)
    (hc : f.candidates = []) :
    f.finishedClosest = (f.withProgress fun p => p ≠ .failed).take f.k := by
  have hfront : ∀ c ∈ (f.contacts.filter fun c => c.progress ≠ .failed).take f.k,
      decide (c.progress = .finished) = true := by
    intro c hw
    have hm := List.mem_filter.mp (List.mem_of_mem_take hw)
    have hnf : c.progress ≠ .failed := by simpa using hm.2
    have hnp : c.progress ≠ .pending := by
      intro hp
      have : c.id ∈ f.candidates :=
        List.mem_map.mpr ⟨c, List.mem_filter.mpr ⟨hw, by simp [hp]⟩, rfl⟩
      rw [hc] at this
      cases this
    have hni : c.progress ≠ .inProgress := by
      intro hp
      have hz := h.counted
      rw [hi, eq_comm, List.countP_eq_zero] at hz
      exact hz c hm.1 (by simp [hp])
    cases hp : c.progress <;> simp_all
  have hsub : (f.contacts.filter fun c => c.progress = .finished) =
      (f.contacts.filter fun c => c.progress ≠ .failed).filter fun c => c.progress = .finished := by
    rw [List.filter_filter]
    congr 1
    funext c
    cases c.progress <;> rfl
  rw [finishedClosest, finished, withProgress, ← List.map_take, ← List.map_take, hsub,
    take_filter_of_front _ _ _ hfront]

end Frontier

namespace Lookup

theorem finding_nearby (l : Lookup) :
    l.finding.nearby = l.frontier.finishedClosest.filterMap l.peer? := by
  unfold finding
  cases l.pursuit <;> rfl

/-- Contacts have addresses, so a finding leaves out none of the closest ones. -/
theorem filterMap_peer? {l : Lookup} {ids : List Ident} (h : ∀ id ∈ ids, (l.peer? id).isSome) :
    (ids.filterMap l.peer?).map Peer.id = ids := by
  induction ids with
  | nil => rfl
  | cons id ids ih =>
    obtain ⟨p, hp⟩ := Option.isSome_iff_exists.mp (h id List.mem_cons_self)
    rw [List.filterMap_cons_some hp, List.map_cons, peer?_id hp,
      ih fun id hid => h id (List.mem_cons_of_mem _ hid)]

theorem finding_nearby_ids {l : Lookup} (h : l.Coherent) :
    l.finding.nearby.map Peer.id = l.frontier.finishedClosest := by
  rw [finding_nearby]
  refine filterMap_peer? fun id hid => ?_
  have hm : id ∈ l.frontier.withProgress fun p => p = .finished := List.mem_of_mem_take hid
  obtain ⟨p, hp, -⟩ := (Frontier.mem_withProgress h.frontier _ id).mp hm
  rw [← h.addressed, hp]
  rfl

theorem mem_finding_nearby {l : Lookup} (h : l.Coherent) {q : Peer} (hq : q ∈ l.finding.nearby) :
    l.frontier.progress? q.id = some .finished ∧ q.id ≠ l.owner ∧ l.peer? q.id = some q := by
  have hid : q.id ∈ l.frontier.withProgress fun p => p = .finished := by
    have hm : q.id ∈ l.finding.nearby.map Peer.id := List.mem_map.mpr ⟨q, hq, rfl⟩
    rw [finding_nearby_ids h] at hm
    exact List.mem_of_mem_take hm
  obtain ⟨p, hp, hf⟩ := (Frontier.mem_withProgress h.frontier _ q.id).mp hid
  rw [decide_eq_true_eq] at hf
  subst hf
  refine ⟨hp, ?_, ?_⟩
  · intro ho
    rw [ho, h.owner_unknown] at hp
    cases hp
  · rw [finding_nearby] at hq
    obtain ⟨id, -, hi⟩ := List.mem_filterMap.mp hq
    rwa [peer?_id hi]

theorem progress?_isSome_iff {l : Lookup} (h : l.Coherent) {known : List Peer}
    (hk : l.Knows known) (id : Ident) :
    (l.frontier.progress? id).isSome ↔ id ∈ known.map Peer.id := by
  rw [h.addressed, hk, List.find?_isSome]
  simp only [decide_eq_true_eq, List.mem_map]

def standing (l : Lookup) (known : List Peer) : Finset Ident :=
  (known.map Peer.id).toFinset.filter fun id => l.frontier.progress? id ≠ some .failed

theorem standing_eq {l : Lookup} (h : l.Coherent) {known : List Peer} (hk : l.Knows known) :
    l.standing known = (l.frontier.withProgress fun p => p ≠ .failed).toFinset := by
  ext id
  rw [standing, Finset.mem_filter, List.mem_toFinset, List.mem_toFinset,
    ← progress?_isSome_iff h hk, Frontier.mem_withProgress h.frontier]
  cases l.frontier.progress? id <;> simp

theorem nearby_of_answers {l : Lookup} (h : l.Coherent) {answerers : List Ident}
    (ha : ∀ id, l.frontier.progress? id = some .finished ↔ id ∈ answerers) :
    Nearest l.frontier.target l.frontier.k answerers.toFinset (l.finding.nearby.map Peer.id) := by
  have he : answerers.toFinset = (l.frontier.withProgress fun p => p = .finished).toFinset := by
    ext id
    rw [List.mem_toFinset, List.mem_toFinset, ← ha, Frontier.mem_withProgress h.frontier]
    simp
  rw [finding_nearby_ids h, he]
  exact nearest_take (Frontier.withProgress_ordered h.frontier _) _

theorem nearby_of_exhausted {l : Lookup} (h : l.Coherent) {known : List Peer}
    (hk : l.Knows known) (hx : l.Exhausted) :
    Nearest l.frontier.target l.frontier.k (l.standing known) (l.finding.nearby.map Peer.id) := by
  rw [finding_nearby_ids h, Frontier.finishedClosest_of_exhausted h.frontier hx.1 hx.2,
    standing_eq h hk]
  exact nearest_take (Frontier.withProgress_ordered h.frontier _) _

section Exactness

variable (context : UInt64) (p : Parameters) (d : Directory) (goal : Goal) (start : Time)
  (calls : List Call)

theorem begin_distinct (k : Nat) : Distinct (begin k goal) := by
  cases goal <;> simp [begin, Distinct]

theorem new_pursuit : (Lookup.new context p d goal).pursuit = begin p.k goal :=
  addPeers_pursuit (blank context p d goal) _

theorem life_knows : ((Lookup.new context p d goal).life start calls).1.Knows
    (foreign d.owner (d.closest goal.table goal.target none ++
      ((Lookup.new context p d goal).start start).1.heard calls)) := by
  have hc := new_coherent context p d goal
  have hs := start_steady hc start
  have ho : ((Lookup.new context p d goal).start start).1.owner = d.owner :=
    hs.2.owner.trans (new_sameTask context p d goal).owner
  have hk := play_knows hs.1 (pump_knows hc (new_knows context p d goal) start) calls
  rw [ho] at hk
  rw [foreign, List.filter_append]
  exact hk

theorem life_endsExhausted
    (h : ¬ ((Lookup.new context p d goal).start start).1.CutShort calls) :
    ((Lookup.new context p d goal).life start calls).1.EndsExhausted := by
  have hc := new_coherent context p d goal
  have hd : Distinct ((Lookup.new context p d goal).start start).1.pursuit := by
    rw [Lookup.start, pump_pursuit hc, new_pursuit]
    exact begin_distinct goal p.k
  exact play_endsExhausted (start_steady hc start).1 hd
    (pump_endsExhausted hc (new_finished context p d goal) start) h

end Exactness

/-- There is a finding as soon as the lookup has ended, and it names the `k` closest peers, closest
first: of all known peers that have not failed, unless the lookup was cut short, and then of those
that have answered by then. All of them have answered, none has failed or is the owner, and each has
the address under which it was named first. -/
theorem finding_nearby_exact (context : UInt64) (p : Parameters) (d : Directory) (goal : Goal)
    (start : Time) (calls : List Call) :
    let first := ((Lookup.new context p d goal).start start).1
    let r := (Lookup.new context p d goal).life start calls
    let known := foreign d.owner
      (d.closest goal.table goal.target none ++ first.heard calls)
    (r.2.finding.isSome ↔ r.1.finished = true) ∧
    ∀ f, r.2.finding = some f →
      (¬ first.CutShort calls →
        Nearest goal.target p.k (r.1.standing known) (f.nearby.map Peer.id)) ∧
      (first.CutShort calls →
        Nearest goal.target p.k (first.answerers calls).toFinset (f.nearby.map Peer.id)) ∧
      (∀ q ∈ f.nearby, q.id ∈ first.answerers calls ∧
        r.1.frontier.progress? q.id = some .finished ∧ q.id ≠ d.owner ∧
        known.find? (fun s => s.id = q.id) = some q) ∧
      (f.nearby.map Peer.id).Nodup := by
  intro first r known
  obtain ⟨hs, ht⟩ := life_steady (new_coherent context p d goal) start calls
  have ht := (new_sameTask context p d goal).trans ht
  have hk : r.1.frontier.k = p.k := ht.k
  have hcentre : r.1.frontier.target = goal.target := ht.centre
  have ho : r.1.owner = d.owner := ht.owner
  have hknows : r.1.Knows known := life_knows context p d goal start calls
  have hfin : r.2.finding = if r.1.finished = true then some r.1.finding else none :=
    life_finding context p d goal start calls
  constructor
  · rw [hfin]
    split <;> simp_all
  intro f h
  rw [hfin] at h
  split at h
  next hf =>
    cases h
    have hfinished := life_finished_iff context p d goal start calls
    have hans := nearby_of_answers hs.coherent hfinished
    rw [hk, hcentre] at hans
    refine ⟨fun hcut => ?_, fun _ => hans, fun q hq => ?_, ordered_nodup hans.ordered⟩
    · have hx := life_endsExhausted context p d goal start calls hcut hf
      rw [← hk, ← hcentre]
      exact nearby_of_exhausted hs.coherent hknows hx
    · obtain ⟨hp, hne, hpeer⟩ := mem_finding_nearby hs.coherent hq
      exact ⟨(hfinished q.id).mp hp, hp, ho ▸ hne, (hknows q.id).symm.trans hpeer⟩
  next => cases h

section Walk

/-- A peer on this machine, its identifier and its service being one number. -/
def numbered (n : Nat) : Peer := ⟨⟨BitVec.ofNat 160 n⟩, .loopback (UInt16.ofNat n)⟩

def pairTables : Directory :=
  { owner := (numbered 1).id, k := 2, topicK := 2
    main := { owner := (numbered 1).id, k := 2, last := ⟨2, [numbered 3, numbered 2]⟩ } }

/-- Peer 2 answers and names the owner and peer 6, peer 3 fails, and peer 6 answers. -/
def pairCalls : List Call :=
  [.respond 0 (numbered 2).id [numbered 1, numbered 6] .none, .giveUp 1 (numbered 3).id,
    .respond 2 (numbered 6).id [] .none]

def pairLookup : Lookup :=
  Lookup.new 7 { k := 2, alpha := 1 } pairTables (.closest mainTable (numbered 2).id)

/-- The lookup for peer 2 passes over the failed peer 3 and names peer 6, of which it has heard. -/
theorem finding_nearby_exact_pair :
    (pairLookup.life 0 pairCalls).2.finding =
      some (.closest mainTable (numbered 2).id [numbered 2, numbered 6]) ∧
    ¬ (pairLookup.start 0).1.CutShort pairCalls ∧
    Nearest (numbered 2).id 2
      ((pairLookup.life 0 pairCalls).1.standing
        (foreign pairTables.owner (pairTables.closest mainTable (numbered 2).id none ++
          (pairLookup.start 0).1.heard pairCalls)))
      [(numbered 2).id, (numbered 6).id] := by
  have hf : (pairLookup.life 0 pairCalls).2.finding =
      some (.closest mainTable (numbered 2).id [numbered 2, numbered 6]) := by cbv
  have hc : ¬ (pairLookup.start 0).1.CutShort pairCalls := by
    cbv
    simp
  exact ⟨hf, hc, ((finding_nearby_exact 7 { k := 2, alpha := 1 } pairTables
    (.closest mainTable (numbered 2).id) 0 pairCalls).2 _ hf).1 hc⟩

end Walk

end Lookup

end Kademlia
