import Kademlia.Proofs.Lookup.Run

/-!
The pace of a lookup. As long as it runs it has used up its slots or asked everybody it may ask, and
it waits for somebody. Main statement: this holds after every run, so with at least one slot there
is always a request in flight, and an answer, a failure or a timeout ends it.
-/

namespace Kademlia.Lookup

section Emission

/-- Every peer that became active was sent a request of the lookup, under its context. -/
def Emits (l : Lookup) (r : Lookup × Effects) : Prop :=
  ∀ id ∈ r.1.active.map Prod.fst, id ∈ l.active.map Prod.fst ∨
    ∃ o ∈ r.2.requests, o.recipient.id = id ∧ o.context = l.context

theorem pump_emits {l : Lookup} (h : l.Coherent) (now : Time) : l.Emits (l.pump now) := by
  obtain ⟨m, out, ha, -, -, hc⟩ := pump_cases h now
  have hm : ∀ id ∈ m.active.map Prod.fst, id ∈ l.active.map Prod.fst ∨
      ∃ o ∈ out, o.recipient.id = id ∧ o.context = l.context := by
    intro id hid
    rw [ha.frame] at hid
    simp only [List.map_append, List.mem_append, List.map_map, List.mem_map] at hid
    rcases hid with hid | ⟨o, ho, rfl⟩
    · exact Or.inl (List.mem_map.mpr hid)
    · exact Or.inr ⟨o, ho, rfl, (ha.sent o ho).1⟩
  rcases hc with ⟨-, he⟩ | ⟨-, he⟩
  all_goals
    rw [he]
    exact hm

theorem taken_active (l : Lookup) (sender : Ident) (peers : List Peer) (content : Content) :
    (l.taken sender peers content).active = (l.settle sender .finished).active := by
  obtain ⟨f, a, he, -⟩ := addPeers_frame (l.settle sender .finished) peers
  change ((l.settle sender .finished).addPeers peers).active = _
  rw [he]

theorem emits_compositional : Compositional Emits where
  stay _ _ h := Or.inl h
  trans l r s ht hr hs := by
    intro id hid
    rcases hs id hid with h | ⟨o, ho, hi, hc⟩
    · rcases hr id h with h | ⟨o, ho, hi, hc⟩
      · exact Or.inl h
      · exact Or.inr ⟨o, List.mem_append_left _ ho, hi, hc⟩
    · exact Or.inr ⟨o, List.mem_append_right _ ho, hi, hc.trans ht.context⟩
  answer l now sender peers content h _ := by
    have hk := taken_coherent h.coherent sender peers content
    have hsub : ∀ id ∈ (l.taken sender peers content).active.map Prod.fst,
        id ∈ l.active.map Prod.fst := by
      intro id hid
      rw [taken_active, mem_active_settle] at hid
      exact hid.1
    unfold answered
    split
    · exact fun id hid => Or.inl (hsub id hid)
    · intro id hid
      rcases pump_emits hk now id hid with h | ⟨o, ho, hi, hc⟩
      · exact Or.inl (hsub id h)
      · exact Or.inr ⟨o, ho, hi, hc.trans (taken_sameTask l sender peers content).context⟩
  failure l now id _ h _ _ _ := by
    have hk : (l.settle id .failed).Coherent := settle_coherent h.coherent id (by simp)
    intro other hid
    rcases pump_emits hk now other hid with h | h
    · exact Or.inl ((mem_active_settle l id other .failed).mp h).1
    · exact Or.inr h

end Emission

section Ends

theorem progress?_pump {l : Lookup} (h : l.Coherent) (now : Time) {id : Ident} {p : Progress}
    (hp : l.frontier.progress? id = some p) (hne : p ≠ .pending) :
    (l.pump now).1.frontier.progress? id = some p := by
  rcases pump_progress h now id with he | ⟨hpending, -⟩
  · rw [he, hp]
  · rw [hp, Option.some.injEq] at hpending
    exact absurd hpending hne

theorem progress?_addPeers {l : Lookup} (h : l.Coherent) (peers : List Peer) {id : Ident}
    {p : Progress} (hp : l.frontier.progress? id = some p) :
    (l.addPeers peers).frontier.progress? id = some p := by
  rcases addPeers_progress h peers id with he | ⟨hn, -⟩
  · rw [he, hp]
  · cases hp.symm.trans hn

theorem taken_progress {l : Lookup} (h : l.Coherent) {sender : Ident}
    (hs : l.frontier.progress? sender ≠ none) (peers : List Peer) (content : Content) :
    (l.taken sender peers content).frontier.progress? sender = some .finished := by
  refine progress?_addPeers (settle_coherent h sender (by simp)) peers ?_
  rw [progress?_settle h.frontier, if_pos rfl]
  obtain ⟨p, hp⟩ := Option.ne_none_iff_exists'.mp hs
  rw [hp]
  rfl

theorem answered_progress {l : Lookup} (h : l.Coherent) {sender : Ident} (hw : l.Awaits sender)
    (now : Time) (peers : List Peer) (content : Content) :
    (l.answered now sender peers content).1.frontier.progress? sender = some .finished := by
  have hn : l.frontier.progress? sender ≠ none := by
    rcases hw.2 with hp | hp
    all_goals
      rw [hp]
      simp
  have ht := taken_progress h hn peers content
  unfold answered
  split
  · exact ht
  · exact progress?_pump (taken_coherent h sender peers content) now ht (by simp)

theorem failed_progress {l : Lookup} (h : l.Coherent) (now : Time) {id : Ident}
    (hp : l.frontier.progress? id ≠ none) :
    ((l.settle id .failed).pump now).1.frontier.progress? id = some .failed := by
  refine progress?_pump (settle_coherent h id (by simp)) now ?_ (by simp)
  rw [progress?_settle h.frontier, if_pos rfl]
  obtain ⟨p, hp⟩ := Option.ne_none_iff_exists'.mp hp
  rw [hp]
  rfl

theorem giveUp_progress {l : Lookup} (h : l.Coherent) (hf : l.finished = false) (now : Time)
    {id : Ident} (hp : l.frontier.progress? id = some .inProgress) :
    (l.giveUp now id).1.frontier.progress? id = some .failed := by
  have he : l.giveUp now id = (l.settle id .failed).pump now := by simp [giveUp, hf, hp]
  rw [he]
  exact failed_progress h now (by simp [hp])

theorem giveUp_progress_other {l : Lookup} (h : l.Coherent) (now : Time) {id other : Ident}
    (hne : other ≠ id) {p : Progress} (hp : l.frontier.progress? other = some p)
    (hq : p ≠ .pending) : (l.giveUp now id).1.frontier.progress? other = some p := by
  rcases giveUp_cases l now id with he | ⟨-, -, he⟩
  · rw [he]
    exact hp
  · rw [he]
    refine progress?_pump (settle_coherent h id (by simp)) now ?_ hq
    rw [progress?_settle h.frontier, if_neg hne, hp]

/-- What is in flight to somebody else keeps a lookup running through a failure. -/
theorem giveUp_running {l : Lookup} (h : l.Steady) (hf : l.finished = false) (now : Time)
    {id other : Ident} (hne : other ≠ id)
    (hp : l.frontier.progress? other = some .inProgress) :
    (l.giveUp now id).1.finished = false := by
  have hg := giveUp_progress_other h.coherent now hne hp (by simp)
  rcases giveUp_cases l now id with he | ⟨-, -, he⟩
  · rw [he]
    exact hf
  rw [he] at hg ⊢
  have hk : (l.settle id .failed).Coherent := settle_coherent h.coherent id (by simp)
  obtain ⟨m, out, ha, hm, -, ⟨hx, hc⟩ | ⟨-, hc⟩⟩ := pump_cases hk now
  · rw [hc] at hg
    have hi : other ∈ m.active.map Prod.fst := (hm.active_iff other).mpr hg
    have hl := hm.inFlight_eq
    rw [hx.1] at hl
    rw [List.length_eq_zero_iff.mp hl.symm] at hi
    simp at hi
  · rw [hc, ha.frame]
    exact hf

theorem giveUpAll_progress_other {l : Lookup} (h : l.Steady) (now : Time) {ids : List Ident}
    {other : Ident} (hn : other ∉ ids) {p : Progress}
    (hp : l.frontier.progress? other = some p) (hq : p ≠ .pending) :
    (giveUpAll now ids l).1.frontier.progress? other = some p := by
  induction ids generalizing l with
  | nil => exact hp
  | cons id ids ih =>
    rw [List.mem_cons, not_or] at hn
    exact ih (giveUp_steady h now id).1 hn.2
      (giveUp_progress_other h.coherent now hn.1 hp hq)

theorem giveUpAll_progress {l : Lookup} (h : l.Steady) (hf : l.finished = false) (now : Time)
    {ids : List Ident} (hn : ids.Nodup)
    (hp : ∀ id ∈ ids, l.frontier.progress? id = some .inProgress) :
    ∀ id ∈ ids, (giveUpAll now ids l).1.frontier.progress? id = some .failed := by
  induction ids generalizing l with
  | nil => simp
  | cons first ids ih =>
    obtain ⟨hnew, hn⟩ := List.nodup_cons.mp hn
    have hs := (giveUp_steady h now first).1
    have hpf := hp first List.mem_cons_self
    intro id hid
    rcases List.mem_cons.mp hid with rfl | hid
    · exact giveUpAll_progress_other hs now hnew (giveUp_progress h.coherent hf now hpf) (by simp)
    · have hrest : ∀ id ∈ ids, id ≠ first := fun id hid he => hnew (he ▸ hid)
      have hip : ∀ id ∈ ids, l.frontier.progress? id = some .inProgress := fun id hid =>
        hp id (List.mem_cons_of_mem _ hid)
      refine ih hs (giveUp_running h hf now (hrest id hid) (hip id hid)) hn ?_ id hid
      exact fun id hid => giveUp_progress_other h.coherent now (hrest id hid) (hip id hid) (by simp)

theorem mem_overdue (l : Lookup) (now : Time) (id : Ident) :
    id ∈ l.overdue now ↔ ∃ sent, (id, sent) ∈ l.active ∧ sent + l.timeout < now := by
  simp [overdue, Time.overdue]

theorem overdue_inProgress {l : Lookup} (h : l.Coherent) (now : Time) :
    ∀ id ∈ l.overdue now, l.frontier.progress? id = some .inProgress := by
  intro id hid
  obtain ⟨sent, hin, -⟩ := (mem_overdue l now id).mp hid
  exact (h.active_iff id).mp (List.mem_map_of_mem hin)

theorem overdue_nodup {l : Lookup} (h : l.Coherent) (now : Time) : (l.overdue now).Nodup :=
  h.active_nodup.sublist (List.filter_sublist.map _)

theorem sweep_progress {l : Lookup} (h : l.Steady) (hf : l.finished = false) {now sent : Time}
    {id : Ident} (ha : (id, sent) ∈ l.active) (ho : Time.overdue sent l.timeout now) :
    (l.sweep now).1.frontier.progress? id = some .failed := by
  have hs : l.sweep now = giveUpAll now (l.overdue now) l := by simp [sweep, hf]
  rw [hs]
  refine giveUpAll_progress h hf now (overdue_nodup h.coherent now)
    (overdue_inProgress h.coherent now) id ?_
  exact List.mem_map.mpr ⟨_, List.mem_filter.mpr ⟨ha, ho⟩, rfl⟩

end Ends

section Pace

/-- What is in flight can be ended by an answer, by a failure and by a sweep past its time. -/
structure Endable (l : Lookup) (id : Ident) (sent : Time) : Prop where
  answer : ∀ now peers content, ∃ r, l.respond now id peers content = .ok r ∧
    r.1.frontier.progress? id = some .finished
  failure : ∀ now, (l.giveUp now id).1.frontier.progress? id = some .failed
  timeout : ∀ now, Time.overdue sent l.timeout now →
    (l.sweep now).1.frontier.progress? id = some .failed

theorem Steady.endable {l : Lookup} (h : l.Steady) (hf : l.finished = false) {id : Ident}
    {sent : Time} (ha : (id, sent) ∈ l.active) : l.Endable id sent := by
  have hid : id ∈ l.active.map Prod.fst := List.mem_map.mpr ⟨_, ha, rfl⟩
  have hp := (h.coherent.active_iff id).mp hid
  have hw : l.Awaits id := ⟨hf, Or.inl hp⟩
  refine ⟨fun now peers content => ?_, fun now => ?_, fun now ho => ?_⟩
  · exact ⟨_, respond_awaited hw now peers content,
      answered_progress h.coherent hw now peers content⟩
  · exact giveUp_progress h.coherent hf now hp
  · exact sweep_progress h hf ha ho

/-- A running lookup with a slot has a request in flight. -/
theorem Steady.exists_active {l : Lookup} (h : l.Steady) (hf : l.finished = false)
    (ha : 1 ≤ l.alpha) : ∃ id sent, (id, sent) ∈ l.active := by
  have hpos : l.frontier.inFlight ≠ 0 := by
    intro h0
    rcases h.busy hf with hb | hb
    · omega
    · exact h.going hf ⟨h0, Frontier.candidates_eq_nil.mpr hb⟩
  rw [h.coherent.inFlight_eq] at hpos
  obtain ⟨a, ha⟩ := List.exists_mem_of_length_pos (Nat.pos_of_ne_zero hpos)
  exact ⟨a.1, a.2, ha⟩

theorem not_exhausted_iff {l : Lookup} :
    ¬ l.Exhausted ↔ 1 ≤ l.frontier.inFlight + l.frontier.candidates.length := by
  rw [Exhausted, ← List.length_eq_zero_iff]
  omega

theorem life_emits (context : UInt64) (p : Parameters) (d : Directory) (goal : Goal)
    (start : Time) (calls : List Call) :
    let r := (Lookup.new context p d goal).life start calls
    ∀ id ∈ r.1.active.map Prod.fst,
      ∃ o ∈ r.2.requests, o.recipient.id = id ∧ o.context = context := by
  intro r id hid
  have hnew := new_coherent context p d goal
  rcases emits_compositional.life hnew start calls (pump_emits hnew start) id hid with h | h
  · simp [new_active] at h
  · obtain ⟨o, ho, hi, hc⟩ := h
    exact ⟨o, ho, hi, hc.trans (new_sameTask context p d goal).context⟩

/-- After every run the slots are not exceeded and the active requests are those to the peers in
progress, each once; a running lookup has used up its slots or its candidates, and waits for
somebody or may still ask somebody. With at least one slot it has sent a request that is in flight,
and that an answer, a failure or a sweep past its time ends. -/
theorem never_exceeds_idles_or_stalls (context : UInt64) (p : Parameters) (d : Directory)
    (goal : Goal) (start : Time) (calls : List Call) :
    let r := (Lookup.new context p d goal).life start calls
    let l := r.1
    l.frontier.inFlight ≤ p.alpha ∧
    (l.active.map Prod.fst).Nodup ∧
    (l.active.map Prod.fst).Perm
      ((l.frontier.contacts.filter fun c => c.progress = .inProgress).map Contact.id) ∧
    (l.finished = false →
      (l.frontier.inFlight = p.alpha ∨ l.frontier.candidate? = none) ∧
      1 ≤ l.frontier.inFlight + l.frontier.candidates.length ∧
      (1 ≤ p.alpha → ∃ id sent, (id, sent) ∈ l.active ∧
        (∃ o ∈ r.2.requests, o.recipient.id = id ∧ o.context = context) ∧
        l.Endable id sent)) := by
  intro r l
  obtain ⟨hs, ht⟩ := life_steady (new_coherent context p d goal) start calls
  have hal : l.alpha = p.alpha := ht.alpha.trans (new_sameTask context p d goal).alpha
  rw [← hal]
  refine ⟨hs.coherent.bounded, hs.coherent.active_nodup, hs.coherent.active_perm, fun hf => ?_⟩
  refine ⟨hs.busy hf, not_exhausted_iff.mp (hs.going hf), fun hpos => ?_⟩
  obtain ⟨id, sent, ha⟩ := hs.exists_active hf hpos
  have hid : id ∈ l.active.map Prod.fst := List.mem_map.mpr ⟨_, ha, rfl⟩
  exact ⟨id, sent, ha, life_emits context p d goal start calls id hid, hs.endable hf ha⟩

end Pace

end Kademlia.Lookup
