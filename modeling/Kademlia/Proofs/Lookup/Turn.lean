import Kademlia.Proofs.Lookup.Pace
import Kademlia.Proofs.Lookup.History
import Kademlia.Proofs.Message.Wire

/-!
One turn of a lookup: a peer answers or fails, and the lookup goes on. A turn ends the request to
that peer, touches no other request, and asks only peers that have never been asked.
-/

namespace Kademlia.Lookup

def HasAsked (l : Lookup) (id : Ident) : Prop :=
  ∃ p, l.frontier.progress? id = some p ∧ p ≠ .pending

def recipients (requests : List Outgoing) : List Ident :=
  requests.map fun o => o.recipient.id

/-- What a lookup sends: requests under its context to different peers that it had never asked and
now waits for. -/
structure Sends (l : Lookup) (r : Lookup × Effects) : Prop where
  context : ∀ o ∈ r.2.requests, o.context = l.context ∧ o.request.context? = some l.context
  distinct : (recipients r.2.requests).Nodup
  unasked : ∀ id ∈ recipients r.2.requests, ¬ l.HasAsked id
  waits : ∀ id, r.1.frontier.progress? id = some .inProgress ↔
    l.frontier.progress? id = some .inProgress ∨ id ∈ recipients r.2.requests
  stays : ∀ id p, l.frontier.progress? id = some p → p ≠ .pending →
    r.1.frontier.progress? id = some p

theorem request_context? (l : Lookup) : l.request.context? = some l.context := by
  unfold request
  cases l.pursuit <;> rfl

theorem Asked.pending {now : Time} {l m : Lookup} {out : List Outgoing} (h : Asked now l m out) :
    ∀ id ∈ recipients out, l.frontier.progress? id = some .pending := by
  intro id hid
  obtain ⟨o, ho, rfl⟩ := List.mem_map.mp hid
  exact (h.sent o ho).2.2.2

theorem Asked.sends {now : Time} {l m : Lookup} {out : List Outgoing} (h : Asked now l m out)
    {r : Lookup × Effects} (hr : r.2.requests = out)
    (hp : ∀ id, r.1.frontier.progress? id = m.frontier.progress? id) : Sends l r := by
  have hpending := h.pending
  have hprogress : ∀ id, r.1.frontier.progress? id =
      if id ∈ recipients out then some .inProgress else l.frontier.progress? id := fun id =>
    (hp id).trans (h.progress id)
  rw [← hr] at hpending hprogress
  refine ⟨?_, hr ▸ h.distinct, ?_, ?_, ?_⟩
  · intro o ho
    obtain ⟨hc, hreq, -, -⟩ := h.sent o (hr ▸ ho)
    exact ⟨hc, by rw [hreq, request_context?]⟩
  · rintro id hid ⟨p, hp, hne⟩
    rw [hpending id hid, Option.some.injEq] at hp
    exact hne hp.symm
  · intro id
    rw [hprogress]
    by_cases hm : id ∈ recipients r.2.requests
    · simp [hm]
    · simp [hm]
  · intro id p hid hne
    rw [hprogress, if_neg, hid]
    intro hm
    rw [hpending id hm, Option.some.injEq] at hid
    exact hne hid.symm

theorem pump_sends {l : Lookup} (h : l.Coherent) (hf : l.finished = false) (now : Time) :
    Sends l (l.pump now) ∧ ((l.pump now).1.finished = true → (l.pump now).2.requests = []) := by
  obtain ⟨m, out, ha, hm, -, ⟨hx, he⟩ | ⟨-, he⟩⟩ := pump_cases h now
  · rw [he]
    refine ⟨ha.sends rfl fun _ => rfl, fun _ => ?_⟩
    -- whoever had been asked would be in flight now
    have hactive := hm.inFlight_eq
    rw [hx.1, ha.frame, List.length_append, List.length_map] at hactive
    have hnone : out.length = 0 := by omega
    exact List.length_eq_zero_iff.mp hnone
  · rw [he]
    refine ⟨ha.sends rfl fun _ => rfl, fun hd => ?_⟩
    rw [ha.frame, hf] at hd
    cases hd

theorem pump_found {l : Lookup} (h : l.Coherent) (hf : l.finished = false) (now : Time) :
    (l.pump now).2.finding.isSome = (l.pump now).1.finished := by
  rw [pump_delivers h hf now]
  cases (l.pump now).1.finished <;> rfl

section Turns

/-- What one turn does that ends the request to a peer. -/
structure Turn (l : Lookup) (peer : Ident) (r : Lookup × Effects) : Prop where
  steady : r.1.Steady
  sameTask : SameTask l r.1
  finding : r.2.finding.isSome = r.1.finished
  context : ∀ o ∈ r.2.requests, o.context = l.context ∧ o.request.context? = some l.context
  distinct : (recipients r.2.requests).Nodup
  unasked : ∀ id ∈ recipients r.2.requests, ¬ l.HasAsked id
  waits : ∀ id, r.1.frontier.progress? id = some .inProgress ↔
    l.frontier.progress? id = some .inProgress ∧ id ≠ peer ∨ id ∈ recipients r.2.requests
  keeps : ∀ id, l.HasAsked id → r.1.HasAsked id

variable {l m : Lookup} {peer : Ident}

theorem Sends.turn {r : Lookup × Effects} (h : Sends m r) (hs : r.1.Steady) (ht : SameTask l r.1)
    (hf : r.2.finding.isSome = r.1.finished) (hc : m.context = l.context)
    (hw : ∀ id, m.frontier.progress? id = some .inProgress ↔
      l.frontier.progress? id = some .inProgress ∧ id ≠ peer)
    (hk : ∀ id, l.HasAsked id → m.HasAsked id) : Turn l peer r := by
  refine ⟨hs, ht, hf, hc ▸ h.context, h.distinct, fun id hid ha => h.unasked id hid (hk id ha),
    fun id => ?_, fun id ha => ?_⟩
  · rw [h.waits, hw]
  · obtain ⟨p, hp, hne⟩ := hk id ha
    exact ⟨p, h.stays id p hp hne, hne⟩

theorem settle_waits (h : l.Coherent) (progress : Progress) (hp : progress ≠ .inProgress)
    (id : Ident) :
    (l.settle peer progress).frontier.progress? id = some .inProgress ↔
      l.frontier.progress? id = some .inProgress ∧ id ≠ peer := by
  rw [progress?_settle h.frontier]
  by_cases hi : id = peer
  · cases l.frontier.progress? peer <;> simp [hi, hp]
  · simp [hi]

theorem settle_keeps (h : l.Coherent) (progress : Progress) (hp : progress ≠ .pending)
    {id : Ident} (ha : l.HasAsked id) : (l.settle peer progress).HasAsked id := by
  obtain ⟨p, hid, hne⟩ := ha
  rw [HasAsked, progress?_settle h.frontier]
  by_cases hi : id = peer
  · subst hi
    exact ⟨progress, by simp [hid], hp⟩
  · exact ⟨p, by rw [if_neg hi, hid], hne⟩

theorem taken_waits (h : l.Coherent) (peers : List Peer) (content : Content) (id : Ident) :
    (l.taken peer peers content).frontier.progress? id = some .inProgress ↔
      l.frontier.progress? id = some .inProgress ∧ id ≠ peer := by
  have hs : (l.settle peer .finished).Coherent := settle_coherent h peer (by simp)
  rw [← settle_waits h .finished (by simp)]
  change ((l.settle peer .finished).addPeers peers).frontier.progress? id = _ ↔ _
  rcases addPeers_progress hs peers id with he | ⟨hn, he⟩
  · rw [he]
  · rw [he, hn]
    simp

theorem taken_keeps (h : l.Coherent) (peers : List Peer) (content : Content) {id : Ident}
    (ha : l.HasAsked id) : (l.taken peer peers content).HasAsked id := by
  have hs : (l.settle peer .finished).Coherent := settle_coherent h peer (by simp)
  obtain ⟨p, hp, hne⟩ : (l.settle peer .finished).HasAsked id :=
    settle_keeps h .finished (by simp) ha
  exact ⟨p, progress?_addPeers hs peers hp, hne⟩

theorem answered_turn (h : l.Steady) (hw : l.Awaits peer) (now : Time) (peers : List Peer)
    (content : Content) : Turn l peer (l.answered now peer peers content) := by
  have hk := taken_coherent h.coherent peer peers content
  have hf : (l.taken peer peers content).finished = false := by rw [taken_finished, hw.1]
  obtain ⟨hs, ht⟩ := answered_steady h.coherent now peer peers content
  have hc : (l.taken peer peers content).context = l.context :=
    (taken_sameTask l peer peers content).context
  have hfound : (l.answered now peer peers content).2.finding.isSome =
      (l.answered now peer peers content).1.finished := by
    rw [(delivers_compositional.answer l now peer peers content h hw).2 hw.1]
    cases (l.answered now peer peers content).1.finished <;> rfl
  have hsends : Sends (l.taken peer peers content) (l.answered now peer peers content) := by
    unfold answered
    split
    · exact (Asked.refl now _).sends rfl fun _ => rfl
    · exact (pump_sends hk hf now).1
  exact hsends.turn hs ht hfound hc (taken_waits h.coherent peers content) fun _ =>
    taken_keeps h.coherent peers content

theorem failed_turn (h : l.Steady) (hf : l.finished = false) (now : Time) :
    Turn l peer ((l.settle peer .failed).pump now) := by
  have hk : (l.settle peer .failed).Coherent := settle_coherent h.coherent peer (by simp)
  obtain ⟨hs, ht⟩ := failed_steady h.coherent now peer
  exact (pump_sends hk hf now).1.turn hs ht (pump_found hk hf now) rfl
    (settle_waits h.coherent .failed (by simp)) fun _ => settle_keeps h.coherent .failed (by simp)

theorem giveUp_turn (h : l.Steady) (hf : l.finished = false)
    (hp : l.frontier.progress? peer = some .inProgress) (now : Time) :
    Turn l peer (l.giveUp now peer) := by
  have he : l.giveUp now peer = (l.settle peer .failed).pump now := by simp [giveUp, hf, hp]
  rw [he]
  exact failed_turn h hf now

end Turns

section Within

def Within (l : Lookup) (ids : List Ident) : Prop :=
  ∃ known, l.Knows known ∧ ∀ p ∈ known, p.id ∈ ids

variable {l : Lookup} {ids : List Ident}

theorem Within.mem (h : l.Within ids) (hc : l.Coherent) {id : Ident} (ha : l.HasAsked id) :
    id ∈ ids := by
  obtain ⟨known, hk, hin⟩ := h
  obtain ⟨p, hp, -⟩ := ha
  have hs := hc.addressed id
  rw [hp, hk id] at hs
  obtain ⟨q, hq⟩ := Option.isSome_iff_exists.mp hs.symm
  have hid : q.id = id := by simpa using List.find?_some hq
  exact hid ▸ hin q (List.mem_of_find?_eq_some hq)

theorem foreign_subset (owner : Ident) {peers : List Peer} (h : ∀ p ∈ peers, p.id ∈ ids) :
    ∀ p ∈ foreign owner peers, p.id ∈ ids := fun p hp => h p (List.mem_filter.mp hp).1

theorem new_within (context : UInt64) (p : Parameters) (d : Directory) (goal : Goal)
    (h : ∀ q ∈ d.closest goal.table goal.target none, q.id ∈ ids) :
    (Lookup.new context p d goal).Within ids :=
  ⟨_, new_knows context p d goal, foreign_subset _ h⟩

theorem start_within (hc : l.Coherent) (h : l.Within ids) (now : Time) :
    (l.start now).1.Within ids := by
  obtain ⟨known, hk, hin⟩ := h
  exact ⟨known, pump_knows hc hk now, hin⟩

theorem giveUp_within (hs : l.Steady) (h : l.Within ids) (now : Time) (id : Ident) :
    (l.giveUp now id).1.Within ids := by
  obtain ⟨known, hk, hin⟩ := h
  exact ⟨known, (knows_sequential known).giveUp hs now id hk, hin⟩

theorem answered_within (hc : l.Coherent) (h : l.Within ids) (now : Time) (sender : Ident)
    {peers : List Peer} (hp : ∀ p ∈ peers, p.id ∈ ids) (content : Content) :
    (l.answered now sender peers content).1.Within ids := by
  obtain ⟨known, hk, hin⟩ := h
  exact ⟨_, answered_knows hc hk now sender peers content,
    List.forall_mem_append.mpr ⟨hin, foreign_subset l.owner hp⟩⟩

end Within

end Kademlia.Lookup
