import Kademlia.Proofs.Lookup.Selection

/-!
Which responses a lookup accepts. Whether it awaits a peer is told by its history: it has asked the
peer, or was told that the peer failed although it had not asked yet, and it has no answer of the
peer. Main statement: exactly the responses of such peers are accepted, and any other is refused
without effect.
-/

namespace Kademlia.Lookup

/-- The peer of a call that reports a failure, if the lookup is running and knows the peer. -/
def blames (l : Lookup) : Call → List Ident
  | .giveUp _ id => if l.finished = false ∧ l.frontier.progress? id ≠ none then [id] else []
  | _ => []

def blamed (l : Lookup) : List Call → List Ident
  | [] => []
  | c :: calls => l.blames c ++ (l.step c).1.blamed calls

section Gained

variable {l : Lookup}

theorem pump_hasAsked (h : l.Coherent) (hf : l.finished = false) (now : Time) (id : Ident) :
    (l.pump now).1.HasAsked id ↔ l.HasAsked id ∨ id ∈ recipients (l.pump now).2.requests := by
  have hs := (pump_sends h hf now).1
  constructor
  · rintro ⟨p, hp, hne⟩
    rcases pump_progress h now id with he | ⟨hpending, he⟩
    · exact Or.inl ⟨p, by rw [← he, hp], hne⟩
    · refine Or.inr (((hs.waits id).mp he).resolve_left ?_)
      intro hi
      cases hpending.symm.trans hi
  · rintro (⟨p, hp, hne⟩ | hid)
    · exact ⟨p, hs.stays id p hp hne, hne⟩
    · exact .of_inProgress ((hs.waits id).mpr (Or.inr hid))

theorem settle_hasAsked (h : l.Coherent) {peer : Ident} (hk : l.frontier.progress? peer ≠ none)
    {progress : Progress} (hp : progress ≠ .pending) (id : Ident) :
    (l.settle peer progress).HasAsked id ↔ l.HasAsked id ∨ id = peer := by
  obtain ⟨q, hq⟩ := Option.ne_none_iff_exists'.mp hk
  rw [HasAsked, HasAsked, progress?_settle h.frontier]
  by_cases hi : id = peer
  · subst hi
    simp [hq, hp]
  · simp [hi]

theorem addPeers_hasAsked (h : l.Coherent) (peers : List Peer) (id : Ident) :
    (l.addPeers peers).HasAsked id ↔ l.HasAsked id := by
  rw [HasAsked, HasAsked]
  rcases addPeers_progress h peers id with he | ⟨hn, he⟩
  · rw [he]
  · rw [hn, he]
    simp [eq_comm]

theorem Awaits.hasAsked {sender : Ident} (h : l.Awaits sender) : l.HasAsked sender := by
  rcases h.2 with hp | hp
  · exact ⟨_, hp, by simp⟩
  · exact ⟨_, hp, by simp⟩

theorem answered_hasAsked (h : l.Steady) {sender : Ident} (hw : l.Awaits sender) (now : Time)
    (peers : List Peer) (content : Content) (id : Ident) :
    (l.answered now sender peers content).1.HasAsked id ↔
      l.HasAsked id ∨ id ∈ recipients (l.answered now sender peers content).2.requests := by
  have hk := taken_coherent h.coherent sender peers content
  have hf : (l.taken sender peers content).finished = false := by rw [taken_finished, hw.1]
  have hs : (l.settle sender .finished).Coherent := settle_coherent h.coherent sender (by simp)
  have hknown : l.frontier.progress? sender ≠ none := by
    obtain ⟨p, hp, -⟩ := hw.hasAsked
    simp [hp]
  have ht : (l.taken sender peers content).HasAsked id ↔ l.HasAsked id := by
    refine (addPeers_hasAsked hs peers id).trans ?_
    rw [settle_hasAsked h.coherent hknown (by simp)]
    exact or_iff_left_of_imp fun he => he ▸ hw.hasAsked
  unfold answered
  split
  · rw [← ht]
    simp [finish, HasAsked, recipients]
  · rw [← ht]
    exact pump_hasAsked hk hf now id

theorem eq_of_mem_blames {now : Time} {peer id : Ident} (h : id ∈ l.blames (.giveUp now peer)) :
    id = peer := by
  simp only [blames] at h
  split at h
  · exact List.mem_singleton.mp h
  · cases h

/-- A reported failure counts for the peer like a request that was sent to it. -/
theorem giveUp_hasAsked (h : l.Steady) (now : Time) (peer id : Ident) :
    (l.giveUp now peer).1.HasAsked id ↔
      l.HasAsked id ∨ id ∈ recipients (l.giveUp now peer).2.requests ∨
        id ∈ l.blames (.giveUp now peer) := by
  have hfailed : l.finished = false → ∀ q, l.frontier.progress? peer = some q →
      (((l.settle peer .failed).pump now).1.HasAsked id ↔
        l.HasAsked id ∨ id ∈ recipients ((l.settle peer .failed).pump now).2.requests ∨
          id ∈ l.blames (.giveUp now peer)) := by
    intro hf q hq
    have hk : (l.settle peer .failed).Coherent := settle_coherent h.coherent peer (by simp)
    have hb : l.blames (.giveUp now peer) = [peer] := by simp [blames, hf, hq]
    rw [pump_hasAsked hk hf, settle_hasAsked h.coherent (by simp [hq]) (by simp), hb,
      List.mem_singleton, or_assoc, or_comm (a := id = peer)]
  cases hf : l.finished with
  | true => simp [giveUp, blames, hf, recipients]
  | false =>
    cases hp : l.frontier.progress? peer with
    | none => simp [giveUp, blames, hf, hp, recipients]
    | some p =>
      cases p with
      | finished =>
        -- nothing changes, as the peer has been asked
        simp only [giveUp, blames, hf, hp, recipients]
        simpa using fun he : id = peer => ⟨_, he ▸ hp, by simp⟩
      | pending => simpa [giveUp, hf, hp] using hfailed hf _ hp
      | inProgress => simpa [giveUp, hf, hp] using hfailed hf _ hp
      | failed => simpa [giveUp, hf, hp] using hfailed hf _ hp

theorem giveUpAll_hasAsked (h : l.Steady) (now : Time) {ids : List Ident}
    (hids : ∀ id ∈ ids, l.HasAsked id) (id : Ident) :
    (giveUpAll now ids l).1.HasAsked id ↔
      l.HasAsked id ∨ id ∈ recipients (giveUpAll now ids l).2.requests := by
  induction ids generalizing l with
  | nil => simp [giveUpAll, recipients]
  | cons first ids ih =>
    have hkeeps := (asksOnce_compositional.giveUp h now first).keeps
    have hblame : id ∈ l.blames (.giveUp now first) → l.HasAsked id := fun hb =>
      hids id (List.mem_cons.mpr (Or.inl (eq_of_mem_blames hb)))
    have hr : recipients (giveUpAll now (first :: ids) l).2.requests =
        recipients (l.giveUp now first).2.requests ++
          recipients (giveUpAll now ids (l.giveUp now first).1).2.requests :=
      recipients_append ..
    refine (ih (giveUp_steady h now first).1 fun other ho =>
      hkeeps other (hids other (List.mem_cons_of_mem _ ho))).trans ?_
    rw [giveUp_hasAsked h, hr, List.mem_append]
    tauto

/-- After a call those have been asked who had been before, those to whom it sends a request, and
the one that it blames. -/
theorem step_hasAsked (h : l.Steady) (c : Call) (id : Ident) :
    (l.step c).1.HasAsked id ↔
      l.HasAsked id ∨ id ∈ recipients (l.step c).2.requests ∨ id ∈ l.blames c := by
  cases c with
  | giveUp now peer => exact giveUp_hasAsked h now peer id
  | sweep now =>
    have hs : (l.sweep now).1.HasAsked id ↔
        l.HasAsked id ∨ id ∈ recipients (l.sweep now).2.requests := by
      unfold sweep
      split
      · simp [recipients]
      · exact giveUpAll_hasAsked h now (overdue_hasAsked h.coherent now) id
    simpa [step, blames] using hs
  | respond now sender peers content =>
    rcases l.respond_step now sender peers content with ⟨hw, hr, -⟩ | ⟨-, hr, -⟩
    · simpa [hr, blames] using answered_hasAsked h hw now peers content id
    · simp [hr, blames, recipients]

end Gained

section History

theorem play_hasAsked {l : Lookup} (h : l.Steady) (calls : List Call) (id : Ident) :
    (l.play calls).1.HasAsked id ↔
      l.HasAsked id ∨ id ∈ recipients (l.play calls).2.requests ∨ id ∈ l.blamed calls := by
  induction calls generalizing l with
  | nil => simp [play, blamed, recipients]
  | cons c calls ih =>
    have hr : recipients (l.play (c :: calls)).2.requests =
        recipients (l.step c).2.requests ++ recipients ((l.step c).1.play calls).2.requests :=
      recipients_append ..
    refine (ih (step_steady h c).1).trans ?_
    rw [step_hasAsked h c, hr, blamed, List.mem_append, List.mem_append]
    tauto

theorem new_hasAsked (context : UInt64) (p : Parameters) (d : Directory) (goal : Goal)
    (id : Ident) : ¬ (Lookup.new context p d goal).HasAsked id := by
  rw [new_eq, addPeers_hasAsked (blank_coherent rfl rfl rfl rfl)]
  simp [HasAsked, blank, Frontier.new, Frontier.progress?]

/-- In its life a lookup has asked those to whom it sent a request, and counts as asked those that
it was told to have failed. -/
theorem life_hasAsked (context : UInt64) (p : Parameters) (d : Directory) (goal : Goal)
    (start : Time) (calls : List Call) (id : Ident) :
    let fresh := Lookup.new context p d goal
    let r := fresh.life start calls
    r.1.HasAsked id ↔
      id ∈ recipients r.2.requests ∨ id ∈ (fresh.start start).1.blamed calls := by
  intro fresh r
  have hc := new_coherent context p d goal
  have hf := new_finished context p d goal
  have hr : recipients r.2.requests = recipients (fresh.start start).2.requests ++
      recipients ((fresh.start start).1.play calls).2.requests := recipients_append ..
  have hstart : (fresh.start start).1.HasAsked id ↔
      fresh.HasAsked id ∨ id ∈ recipients (fresh.start start).2.requests :=
    pump_hasAsked hc hf start id
  refine (play_hasAsked (start_steady hc start).1 calls id).trans ?_
  rw [hstart, or_iff_right (new_hasAsked context p d goal id), hr, List.mem_append, or_assoc]

theorem awaits_iff {l : Lookup} (hf : l.finished = false) (sender : Ident) :
    l.Awaits sender ↔
      l.HasAsked sender ∧ l.frontier.progress? sender ≠ some .finished := by
  rw [Awaits, HasAsked]
  cases hp : l.frontier.progress? sender with
  | none => simp
  | some p => cases p <;> simp [hf]

/-- A running lookup accepts a response exactly of a peer that it has asked, or that was reported to
have failed although it was only known, as long as it has no answer of that peer. Any other response
is refused and changes nothing. -/
theorem accepts_iff_asked_or_blamed (context : UInt64) (p : Parameters) (d : Directory)
    (goal : Goal) (start : Time) (calls : List Call)
    (hf : ((Lookup.new context p d goal).life start calls).1.finished = false) (now : Time)
    (sender : Ident) (peers : List Peer) (content : Content) :
    let fresh := Lookup.new context p d goal
    let first := (fresh.start start).1
    let r := fresh.life start calls
    let accepted := ∃ s, r.1.respond now sender peers content = .ok s
    (accepted ↔
      (sender ∈ recipients r.2.requests ∨ sender ∈ first.blamed calls) ∧
        sender ∉ first.answerers calls) ∧
    (¬ accepted →
      r.1.respond now sender peers content =
        .error (.unexpectedResponse context sender (r.1.frontier.progress? sender)) ∧
      r.1.step (.respond now sender peers content) = (r.1, {})) := by
  intro fresh first r accepted
  have hasked : r.1.HasAsked sender ↔
      sender ∈ recipients r.2.requests ∨ sender ∈ first.blamed calls :=
    life_hasAsked context p d goal start calls sender
  have hanswered : r.1.frontier.progress? sender = some .finished ↔
      sender ∈ first.answerers calls :=
    life_finished_iff context p d goal start calls sender
  have hcontext : r.1.context = context :=
    ((new_sameTask context p d goal).trans
      (life_steady (new_coherent context p d goal) start calls).2).context
  have hwaits : accepted ↔ r.1.Awaits sender := by
    constructor
    · rintro ⟨s, hs⟩
      by_contra hw
      rw [respond_refused hf hw] at hs
      cases hs
    · exact fun hw => ⟨_, respond_awaited hw now peers content⟩
  constructor
  · rw [hwaits, awaits_iff hf, hasked, Ne, hanswered]
  · intro hn
    rw [hwaits] at hn
    have hr : r.1.respond now sender peers content =
        .error (.unexpectedResponse context sender (r.1.frontier.progress? sender)) := by
      rw [respond_refused hf hn, hcontext]
    exact ⟨hr, by simp [step, hr]⟩

end History

section Walk

/-- Peer 2 has been asked, and its answer is accepted after its request has failed. -/
theorem late_answer_accepted_pair :
    (pairLookup.life 0 [.giveUp 1 (numbered 2).id]).1.finished = false ∧
    ∃ s, (pairLookup.life 0 [.giveUp 1 (numbered 2).id]).1.respond 2 (numbered 2).id [] .none =
      .ok s := by
  have hf : (pairLookup.life 0 [.giveUp 1 (numbered 2).id]).1.finished = false := by cbv
  have hr : recipients (pairLookup.life 0 [.giveUp 1 (numbered 2).id]).2.requests =
      [(numbered 2).id, (numbered 3).id] := by cbv
  have hasked : (numbered 2).id ∈
      recipients (pairLookup.life 0 [.giveUp 1 (numbered 2).id]).2.requests := by simp [hr]
  have hnone : (pairLookup.start 0).1.answerers [.giveUp 1 (numbered 2).id] = [] := by cbv
  have hsilent : (numbered 2).id ∉
      (pairLookup.start 0).1.answerers [.giveUp 1 (numbered 2).id] := by simp [hnone]
  exact ⟨hf, (accepts_iff_asked_or_blamed 7 { k := 2, alpha := 1 } pairTables
    (.closest mainTable (numbered 2).id) 0 [.giveUp 1 (numbered 2).id] hf 2 (numbered 2).id []
    .none).1.mpr ⟨Or.inl hasked, hsilent⟩⟩

/-- Peer 3 is never asked, but is reported to have failed, and from then on its answer is
accepted. -/
theorem blamed_answer_accepted_unasked :
    (pairLookup.life 0 [.giveUp 1 (numbered 3).id]).1.finished = false ∧
    (numbered 3).id ∉ recipients (pairLookup.life 0 [.giveUp 1 (numbered 3).id]).2.requests ∧
    ∃ s, (pairLookup.life 0 [.giveUp 1 (numbered 3).id]).1.respond 2 (numbered 3).id [] .none =
      .ok s := by
  have hr : recipients (pairLookup.life 0 [.giveUp 1 (numbered 3).id]).2.requests =
      [(numbered 2).id] := by cbv
  refine ⟨by cbv, ?_, ?_⟩
  · rw [hr]
    decide
  · have hw : (pairLookup.life 0 [.giveUp 1 (numbered 3).id]).1.Awaits (numbered 3).id :=
      ⟨by cbv, Or.inr (by cbv)⟩
    exact ⟨_, respond_awaited hw 2 [] .none⟩

end Walk

end Kademlia.Lookup
