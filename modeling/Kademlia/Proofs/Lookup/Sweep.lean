import Kademlia.Proofs.Lookup.Waiting

/-!
Sweeps for overdue requests. A lookup keeps the time of each request that it sends, whatever happens
to it and whenever it starts. Main statement: a sweep fails exactly the peers in progress whose
request was sent more than the timeout ago; what it sends on the way, it does not fail.
-/

namespace Kademlia.Lookup

/-- What happens to a lookup. Calls may come before the start as well. -/
inductive Event where
  | start (now : Time)
  | call (c : Call)

def Call.time : Call → Time
  | .respond now _ _ _ | .giveUp now _ | .sweep now => now

def Event.time : Event → Time
  | .start now => now
  | .call c => c.time

def meet (l : Lookup) : Event → Lookup × Effects
  | .start now => l.start now
  | .call c => l.step c

def reach (l : Lookup) : List Event → Lookup
  | [] => l
  | e :: events => (l.meet e).1.reach events

def asking (l : Lookup) (e : Event) : List (Ident × Time) :=
  (recipients (l.meet e).2.requests).map fun id => (id, e.time)

/-- Every peer that was sent a request, with the time of the request. -/
def asked (l : Lookup) : List Event → List (Ident × Time)
  | [] => []
  | e :: events => l.asking e ++ (l.meet e).1.asked events

theorem asked_append (l : Lookup) (events more : List Event) :
    l.asked (events ++ more) = l.asked events ++ (l.reach events).asked more := by
  induction events generalizing l with
  | nil => rfl
  | cons e events ih =>
    rw [List.cons_append, asked, asked, ih, List.append_assoc]
    rfl

section Advancing

/-- A step at the time that keeps the records: whoever is asked had not been asked before, and what
is in flight was before or has been sent right now. -/
structure Advances (now : Time) (l : Lookup) (r : Lookup × Effects) : Prop where
  coherent : r.1.Coherent
  sameTask : SameTask l r.1
  once : AsksOnce l r
  stamped : ∀ a ∈ r.1.active, a ∈ l.active ∨ a.1 ∈ recipients r.2.requests ∧ a.2 = now

variable {now : Time} {l m : Lookup} {r s : Lookup × Effects}

theorem Advances.stay (h : l.Coherent) (now : Time) : Advances now l (l, {}) :=
  ⟨h, .refl l, asksOnce_compositional.stay l, fun _ => Or.inl⟩

theorem Advances.trans (h : Advances now l r) (k : Advances now r.1 s) :
    Advances now l (s.1, r.2.append s.2) := by
  refine ⟨k.coherent, h.sameTask.trans k.sameTask,
    asksOnce_compositional.trans l r s h.sameTask h.once k.once, fun a ha => ?_⟩
  rw [recipients_append, List.mem_append]
  rcases k.stamped a ha with ha | ⟨hid, htime⟩
  · exact (h.stamped a ha).imp_right fun ⟨hid, htime⟩ => ⟨Or.inl hid, htime⟩
  · exact Or.inr ⟨Or.inr hid, htime⟩

/-- What is done first may end requests, but sends none and forgets nobody. -/
theorem Advances.after (h : Advances now m r) (ht : SameTask l m)
    (hk : ∀ id, l.HasAsked id → m.HasAsked id) (ha : ∀ a ∈ m.active, a ∈ l.active) :
    Advances now l r where
  coherent := h.coherent
  sameTask := ht.trans h.sameTask
  once := ⟨h.once.distinct, fun id hid hl => h.once.unasked id hid (hk id hl), h.once.asked,
    fun id hl => h.once.keeps id (hk id hl)⟩
  stamped a hr := (h.stamped a hr).imp_left (ha a)

theorem pump_advances (h : l.Coherent) (now : Time) : Advances now l (l.pump now) := by
  obtain ⟨m, out, ha, -, -, hc⟩ := pump_cases h now
  obtain ⟨hactive, hprogress, hout⟩ : (l.pump now).1.active = m.active ∧
      (∀ id, (l.pump now).1.frontier.progress? id = m.frontier.progress? id) ∧
      (l.pump now).2.requests = out := by
    rcases hc with ⟨-, he⟩ | ⟨-, he⟩
    all_goals
      rw [he]
      exact ⟨rfl, fun _ => rfl, rfl⟩
  have hsends : Sends l (l.pump now) := ha.sends hout hprogress
  refine ⟨(pump_steady h now).coherent, pump_sameTask h now, hsends.asksOnce, fun a hin => ?_⟩
  rw [hactive, ha.frame] at hin
  rw [hout]
  rcases List.mem_append.mp hin with hin | hin
  · exact Or.inl hin
  · obtain ⟨o, ho, rfl⟩ := List.mem_map.mp hin
    exact Or.inr ⟨List.mem_map_of_mem ho, rfl⟩

theorem giveUp_advances (h : l.Coherent) (now : Time) (peer : Ident) :
    Advances now l (l.giveUp now peer) := by
  rcases l.giveUp_cases now peer with he | ⟨-, -, he⟩
  · rw [he]
    exact .stay h now
  · rw [he]
    exact (pump_advances (settle_coherent h peer (by simp)) now).after
      (settle_sameTask l peer .failed) (fun _ => settle_keeps h .failed (by simp))
      fun a ha => List.mem_of_mem_filter ha

theorem giveUpAll_advances (h : l.Coherent) (now : Time) (ids : List Ident) :
    Advances now l (giveUpAll now ids l) := by
  induction ids generalizing l with
  | nil => exact .stay h now
  | cons id ids ih =>
    have hfirst := giveUp_advances h now id
    exact hfirst.trans (ih hfirst.coherent)

theorem answered_advances (h : l.Coherent) (now : Time) (sender : Ident) (peers : List Peer)
    (content : Content) : Advances now l (l.answered now sender peers content) := by
  have hk := taken_coherent h sender peers content
  have htaken : Advances now (l.taken sender peers content)
      (l.answered now sender peers content) := by
    unfold answered
    split
    · exact ⟨hk.ended, ⟨rfl, rfl, rfl, rfl, rfl, rfl, rfl⟩,
        ⟨List.nodup_nil, nofun, nofun, fun _ ha => ha⟩, fun _ => Or.inl⟩
    · exact pump_advances hk now
  refine htaken.after (taken_sameTask l sender peers content)
    (fun _ => taken_keeps h peers content) fun a ha => ?_
  rw [taken_active] at ha
  exact List.mem_of_mem_filter ha

theorem meet_advances (h : l.Coherent) (e : Event) : Advances e.time l (l.meet e) := by
  cases e with
  | start now => exact pump_advances h now
  | call c =>
    cases c with
    | giveUp now peer => exact giveUp_advances h now peer
    | sweep now =>
      change Advances now l (l.sweep now)
      unfold sweep
      split
      · exact .stay h now
      · exact giveUpAll_advances h now _
    | respond now sender peers content =>
      change Advances now l (l.step (.respond now sender peers content))
      rcases l.respond_step now sender peers content with ⟨-, hr, -⟩ | ⟨-, hr, -⟩
      · rw [hr]
        exact answered_advances h now sender peers content
      · rw [hr]
        exact .stay h now

end Advancing

section Recording

/-- The requests that were sent in the past, each to another peer, and among them those that are in
flight, with their times. -/
structure Logs (past : List (Ident × Time)) (l : Lookup) : Prop where
  distinct : (past.map Prod.fst).Nodup
  asked : ∀ a ∈ past, l.HasAsked a.1
  active : ∀ a ∈ l.active, a ∈ past

variable {l : Lookup} {past : List (Ident × Time)}

theorem Logs.meet (h : Logs past l) (hc : l.Coherent) (e : Event) :
    Logs (past ++ l.asking e) (l.meet e).1 := by
  have ha := meet_advances hc e
  have hids : (l.asking e).map Prod.fst = recipients (l.meet e).2.requests := by
    simp [asking, Function.comp_def]
  have hasking : ∀ a, a ∈ l.asking e ↔
      a.1 ∈ recipients (l.meet e).2.requests ∧ a.2 = e.time := by
    rintro ⟨id, sent⟩
    simp [asking, eq_comm]
  refine ⟨?_, fun a hin => ?_, fun a hin => List.mem_append.mpr ?_⟩
  · rw [List.map_append, hids, List.nodup_append]
    refine ⟨h.distinct, ha.once.distinct, ?_⟩
    rintro id hid _ hnew rfl
    obtain ⟨a, hin, rfl⟩ := List.mem_map.mp hid
    exact ha.once.unasked a.1 hnew (h.asked a hin)
  · rcases List.mem_append.mp hin with hin | hin
    · exact ha.once.keeps a.1 (h.asked a hin)
    · exact ha.once.asked a.1 ((hasking a).mp hin).1
  · exact (ha.stamped a hin).imp (h.active a) (hasking a).mpr

theorem Logs.reach (h : Logs past l) (hc : l.Coherent) (events : List Event) :
    Logs (past ++ l.asked events) (l.reach events) := by
  induction events generalizing l past with
  | nil => simpa [Lookup.asked, Lookup.reach] using h
  | cons e events ih =>
    have hall := ih (h.meet hc e) (meet_advances hc e).coherent
    rwa [List.append_assoc] at hall

theorem reach_coherent (h : l.Coherent) (events : List Event) :
    (l.reach events).Coherent ∧ SameTask l (l.reach events) := by
  induction events generalizing l with
  | nil => exact ⟨h, .refl l⟩
  | cons e events ih =>
    have ha := meet_advances h e
    obtain ⟨hc, ht⟩ := ih ha.coherent
    exact ⟨hc, ha.sameTask.trans ht⟩

theorem Logs.mem_iff (h : Logs past l) (hc : l.Coherent) {id : Ident}
    (hp : l.frontier.progress? id = some .inProgress) (sent : Time) :
    (id, sent) ∈ past ↔ (id, sent) ∈ l.active := by
  obtain ⟨⟨_, time⟩, hin, rfl⟩ := List.mem_map.mp ((hc.active_iff id).mpr hp)
  constructor
  · intro hpast
    have hsame := List.inj_on_of_nodup_map h.distinct hpast (h.active _ hin) rfl
    rwa [hsame]
  · exact h.active _

theorem Logs.overdue_iff (h : Logs past l) (hc : l.Coherent) (now : Time) (id : Ident) :
    id ∈ l.overdue now ↔ l.frontier.progress? id = some .inProgress ∧
      ∃ sent, (id, sent) ∈ past ∧ sent + l.timeout < now := by
  constructor
  · intro hid
    obtain ⟨sent, hin, hold⟩ := (mem_overdue l now id).mp hid
    exact ⟨overdue_inProgress hc now id hid, sent, h.active _ hin, hold⟩
  · rintro ⟨hp, sent, hin, hold⟩
    exact (mem_overdue l now id).mpr ⟨sent, (h.mem_iff hc hp sent).mp hin, hold⟩

theorem Logs.exists_recent (h : Logs past l) (hc : l.Coherent) {now : Time} {id : Ident}
    (hp : l.frontier.progress? id = some .inProgress) (hn : id ∉ l.overdue now) :
    ∃ sent, (id, sent) ∈ past ∧ now ≤ sent + l.timeout := by
  obtain ⟨⟨_, sent⟩, hin, rfl⟩ := List.mem_map.mp ((hc.active_iff id).mpr hp)
  refine ⟨sent, h.active _ hin, Nat.le_of_not_lt fun hold => hn ?_⟩
  exact (mem_overdue l now _).mpr ⟨sent, hin, hold⟩

theorem new_logs (context : UInt64) (p : Parameters) (d : Directory) (goal : Goal)
    (events : List Event) :
    let fresh := Lookup.new context p d goal
    Logs (fresh.asked events) (fresh.reach events) := by
  intro fresh
  have hblank : Logs [] fresh := by
    refine ⟨List.nodup_nil, nofun, fun a ha => ?_⟩
    rwa [new_active] at ha
  exact hblank.reach (new_coherent context p d goal) events

end Recording

section Failing

/-- Nothing happens but that the given peers fail and some pending ones are asked. -/
structure Fails (l : Lookup) (peers : List Ident) (r : Lookup × Effects) : Prop where
  asked : ∀ id ∈ recipients r.2.requests, l.frontier.progress? id = some .pending
  progress : ∀ id, r.1.frontier.progress? id =
    if id ∈ peers then some .failed
    else if id ∈ recipients r.2.requests then some .inProgress
    else l.frontier.progress? id

variable {l : Lookup}

theorem pump_fails (h : l.Coherent) (now : Time) : Fails l [] (l.pump now) := by
  obtain ⟨m, out, ha, -, -, hc⟩ := pump_cases h now
  have hprogress : ∀ id, m.frontier.progress? id =
      if id ∈ recipients out then some .inProgress else l.frontier.progress? id := ha.progress
  rcases hc with ⟨-, he⟩ | ⟨-, he⟩
  all_goals
    rw [he]
    exact ⟨ha.pending, by simpa using hprogress⟩

theorem Fails.trans {peers more : List Ident} {r s : Lookup × Effects} (h : Fails l peers r)
    (k : Fails r.1 more s) : Fails l (peers ++ more) (s.1, r.2.append s.2) := by
  have hnew : ∀ id ∈ recipients s.2.requests, id ∉ peers ∧ id ∉ recipients r.2.requests := by
    intro id hid
    have hp := k.asked id hid
    rw [h.progress] at hp
    constructor
    · intro hfailed
      simp [hfailed] at hp
    · intro hasked
      by_cases hfailed : id ∈ peers
      · simp [hfailed] at hp
      · simp [hfailed, hasked] at hp
  constructor
  · intro id hid
    rw [recipients_append, List.mem_append] at hid
    rcases hid with hid | hid
    · exact h.asked id hid
    · have hp := k.asked id hid
      rwa [h.progress, if_neg (hnew id hid).1, if_neg (hnew id hid).2] at hp
  · intro id
    rw [recipients_append, k.progress, h.progress]
    by_cases hlater : id ∈ recipients s.2.requests
    · simp [hlater, hnew id hlater]
    · by_cases hfailed : id ∈ more
      · simp [hfailed]
      · simp [hlater, hfailed]

theorem giveUp_fails (h : l.Coherent) (now : Time) {peer : Ident} (hw : l.Waits peer) :
    Fails l [peer] (l.giveUp now peer) := by
  have he : l.giveUp now peer = (l.settle peer .failed).pump now := by
    simp [giveUp, hw.1, hw.2]
  have hpump : Fails (l.settle peer .failed) [] ((l.settle peer .failed).pump now) :=
    pump_fails (settle_coherent h peer (by simp)) now
  have hsettled : ∀ id, (l.settle peer .failed).frontier.progress? id =
      if id = peer then some .failed else l.frontier.progress? id := by
    intro id
    simpa [hw.2] using progress?_settle h.frontier peer id .failed
  have hother : ∀ id ∈ recipients ((l.settle peer .failed).pump now).2.requests, id ≠ peer := by
    rintro id hid rfl
    have hpending := hpump.asked id hid
    simp [hsettled] at hpending
  rw [he]
  constructor
  · intro id hid
    have hpending := hpump.asked id hid
    rwa [hsettled, if_neg (hother id hid)] at hpending
  · intro id
    rw [hpump.progress, hsettled, if_neg List.not_mem_nil]
    simp only [List.mem_singleton]
    by_cases hid : id = peer
    · have hsilent : id ∉ recipients ((l.settle peer .failed).pump now).2.requests := fun hm =>
        hother id hm hid
      rw [if_neg hsilent, if_pos hid, if_pos hid]
    · rw [if_neg hid, if_neg hid]

/-- Giving up on peers one after the other fails these and no others. Whom one failure lets the
lookup ask had been pending, so the next ones leave it alone. -/
theorem giveUpAll_fails (h : l.Coherent) (now : Time) {ids : List Ident} (hn : ids.Nodup)
    (hw : ∀ id ∈ ids, l.Waits id) : Fails l ids (giveUpAll now ids l) := by
  induction ids generalizing l with
  | nil => exact ⟨nofun, fun id => by simp [giveUpAll, recipients]⟩
  | cons first ids ih =>
    obtain ⟨hnew, hn⟩ := List.nodup_cons.mp hn
    have hfirst := giveUp_fails h now (hw first List.mem_cons_self)
    have hrest : ∀ id ∈ ids, (l.giveUp now first).1.Waits id := by
      intro id hid
      have hne : first ≠ id := fun he => hnew (he ▸ hid)
      exact (giveUp_waits h now first id).mpr (Or.inl ⟨hw id (List.mem_cons_of_mem _ hid), hne⟩)
    exact hfirst.trans (ih (giveUp_advances h now first).coherent hn hrest)

theorem sweep_fails (h : l.Coherent) (hf : l.finished = false) (now : Time) :
    Fails l (l.overdue now) (l.sweep now) := by
  have hs : l.sweep now = giveUpAll now (l.overdue now) l := by simp [sweep, hf]
  rw [hs]
  exact giveUpAll_fails h now (overdue_nodup h now) fun id hid =>
    ⟨hf, overdue_inProgress h now id hid⟩

end Failing

section Sweeping

/-- Whatever has happened to a lookup: each peer has been sent at most one request, and if the lookup
is not finished, a sweep fails exactly the peers in progress whose request was sent more than the
timeout ago. Whom it asks had been pending and is in progress after it, and any other peer stays as
it was. No request that is then in flight is older than the timeout. -/
theorem sweep_fails_just_the_overdue (context : UInt64) (p : Parameters) (d : Directory)
    (goal : Goal) (events : List Event)
    (hf : ((Lookup.new context p d goal).reach events).finished = false) (now : Time) :
    let fresh := Lookup.new context p d goal
    let l := fresh.reach events
    let s := l.sweep now
    let before := fresh.asked events
    let after := fresh.asked (events ++ [.call (.sweep now)])
    let late := fun id => l.frontier.progress? id = some .inProgress ∧
      ∃ sent, (id, sent) ∈ before ∧ sent + p.requestTimeout < now
    (after.map Prod.fst).Nodup ∧
    (∀ id, l.frontier.progress? id ≠ some .failed ∧ s.1.frontier.progress? id = some .failed ↔
      late id) ∧
    (∀ id ∈ recipients s.2.requests, l.frontier.progress? id = some .pending ∧
      s.1.frontier.progress? id = some .inProgress) ∧
    (∀ id, ¬ late id → id ∉ recipients s.2.requests →
      s.1.frontier.progress? id = l.frontier.progress? id) ∧
    (∀ id, s.1.frontier.progress? id = some .inProgress →
      ∃ sent, (id, sent) ∈ after ∧ now ≤ sent + p.requestTimeout) := by
  intro fresh l s before after late
  obtain ⟨hc, ht⟩ := reach_coherent (new_coherent context p d goal) events
  have hlogs : Logs before l := new_logs context p d goal events
  have htimeout : l.timeout = p.requestTimeout :=
    ((new_sameTask context p d goal).trans ht).timeout
  have hswept : Fails l (l.overdue now) s := sweep_fails hc hf now
  have hlate : ∀ id, late id ↔ id ∈ l.overdue now := by
    intro id
    rw [hlogs.overdue_iff hc, htimeout]
  have hkept : ∀ id ∈ recipients s.2.requests, id ∉ l.overdue now := by
    intro id hid hm
    cases (hswept.asked id hid).symm.trans (overdue_inProgress hc now id hm)
  refine ⟨(new_logs context p d goal _).distinct, fun id => ?_, fun id hid => ?_,
    fun id hn hid => ?_, fun id hp => ?_⟩
  · rw [hlate, hswept.progress]
    by_cases hm : id ∈ l.overdue now
    · simp [hm, ((hlate id).mpr hm).1]
    · by_cases hid : id ∈ recipients s.2.requests
      · simp [hm, hid]
      · simp [hm, hid]
  · refine ⟨hswept.asked id hid, ?_⟩
    rw [hswept.progress, if_neg (hkept id hid), if_pos hid]
  · rw [hswept.progress, if_neg (mt (hlate id).mpr hn), if_neg hid]
  · have hafter : after = before ++ l.asking (.call (.sweep now)) := by
      have hlast : l.asked [.call (.sweep now)] = l.asking (.call (.sweep now)) :=
        List.append_nil _
      rw [← hlast]
      exact fresh.asked_append events _
    rw [hswept.progress] at hp
    have hspared : id ∉ l.overdue now := fun hm => by simp [hm] at hp
    rw [if_neg hspared] at hp
    rw [hafter]
    by_cases hid : id ∈ recipients s.2.requests
    · -- it has been asked by the sweep itself
      exact ⟨now, List.mem_append_right _ (List.mem_map_of_mem hid), Nat.le_add_right ..⟩
    · rw [if_neg hid] at hp
      obtain ⟨sent, hin, hage⟩ := hlogs.exists_recent hc hp hspared
      exact ⟨sent, List.mem_append_left _ hin, htimeout ▸ hage⟩

/-- A lookup with room for two requests, which are sent to peers 3 and 2 at first. -/
def timed : Lookup :=
  Lookup.new 7 { k := 4, alpha := 2, requestTimeout := 10 } pairTables
    (.closest mainTable (numbered 3).id)

/-- Peer 3 answers and names peers 6 and 7, and peer 7 is asked at time 1. -/
def timedEvents : List Event :=
  [.start 0, .call (.respond 1 (numbered 3).id [numbered 6, numbered 7] .none)]

/-- At time 11 the request to peer 2 is overdue and the one to peer 7 just not yet. Peer 6 is asked
in the place of peer 2. -/
theorem sweep_fails_just_the_overdue_limit :
    (timed.reach timedEvents).finished = false ∧
    ((timed.reach timedEvents).sweep 11).1.frontier.progress? (numbered 2).id = some .failed ∧
    ((timed.reach timedEvents).sweep 11).1.frontier.progress? (numbered 7).id =
      some .inProgress ∧
    ((timed.reach timedEvents).sweep 11).1.frontier.progress? (numbered 6).id =
      some .inProgress := by
  have hf : (timed.reach timedEvents).finished = false := by cbv
  obtain ⟨-, hfails, hasks, hstays, -⟩ := sweep_fails_just_the_overdue 7
    { k := 4, alpha := 2, requestTimeout := 10 } pairTables (.closest mainTable (numbered 3).id)
    timedEvents hf 11
  have hsent : timed.asked timedEvents =
      [((numbered 3).id, 0), ((numbered 2).id, 0), ((numbered 7).id, 1)] := by cbv
  have hr : recipients ((timed.reach timedEvents).sweep 11).2.requests = [(numbered 6).id] := by
    cbv
  have hrunning : (timed.reach timedEvents).frontier.progress? (numbered 7).id =
      some .inProgress := by cbv
  have hlate : (timed.reach timedEvents).frontier.progress? (numbered 2).id =
      some .inProgress := by cbv
  refine ⟨hf, ((hfails (numbered 2).id).mpr ⟨hlate, 0, ?_, by decide⟩).2, ?_,
    (hasks (numbered 6).id ?_).2⟩
  · change _ ∈ timed.asked timedEvents
    simp [hsent]
  · refine (hstays (numbered 7).id ?_ ?_).trans hrunning
    · rintro ⟨-, sent, hin, hold⟩
      change _ ∈ timed.asked timedEvents at hin
      have hthree : (numbered 7).id ≠ (numbered 3).id := by decide
      have htwo : (numbered 7).id ≠ (numbered 2).id := by decide
      have htime : sent = 1 := by simpa [hsent, hthree, htwo] using hin
      subst htime
      exact absurd hold (by decide)
    · change _ ∉ recipients ((timed.reach timedEvents).sweep 11).2.requests
      rw [hr]
      decide
  · change _ ∈ recipients ((timed.reach timedEvents).sweep 11).2.requests
    simp [hr]

end Sweeping

end Kademlia.Lookup
