import Kademlia.Proofs.Lookup.Acceptance
import Kademlia.Proofs.Lookup.Question

/-!
Lookups for a value. As long as such a lookup runs it has no value, and the first one that it accepts
ends it. Main statement: the call that brings the value hands over a finding with the value, its
provider and the closest other peer that has answered, and nothing is sent any more; a lookup that
ends without a value names the closest peer that has answered instead.
-/

namespace Kademlia.Lookup

/-- The value that a call brings, with its sender, if it is a response that a running lookup
accepts. -/
def gives (l : Lookup) : Call → List (Bytes × Ident)
  | .respond now sender peers (.value (some value)) =>
    match l.finished, l.respond now sender peers (.value (some value)) with
    | false, .ok _ => [(value, sender)]
    | _, _ => []
  | _ => []

def given (l : Lookup) : List Call → List (Bytes × Ident)
  | [] => []
  | c :: calls => l.gives c ++ (l.step c).1.given calls

section Seeking

variable {l : Lookup}

theorem answered_value {found : Option (Bytes × Ident)} (hp : l.pursuit = .value found)
    (now : Time) (sender : Ident) (peers : List Peer) (value : Bytes) :
    l.answered now sender peers (.value (some value)) =
      (l.taken sender peers (.value (some value))).finish := by
  simp [answered, takeIn, hp]

theorem taken_value {found : Option (Bytes × Ident)} (hp : l.pursuit = .value found)
    (sender : Ident) (peers : List Peer) (value : Bytes) :
    (l.taken sender peers (.value (some value))).pursuit = .value (some (value, sender)) := by
  simp [taken, takeIn, hp]

theorem step_value {found : Option (Bytes × Ident)} (hp : l.pursuit = .value found)
    {sender : Ident} (hw : l.Awaits sender) (now : Time) (peers : List Peer) (value : Bytes) :
    l.step (.respond now sender peers (.value (some value))) =
      (l.taken sender peers (.value (some value))).finish := by
  simp [step, respond_awaited hw, answered_value hp]

theorem gives_cases (l : Lookup) (c : Call) : l.gives c = [] ∨
    ∃ now sender peers value, c = .respond now sender peers (.value (some value)) ∧
      l.Awaits sender ∧ l.gives c = [(value, sender)] := by
  unfold gives
  split
  next now sender peers value =>
    rcases l.respond_step now sender peers (.value (some value)) with ⟨hw, -, -⟩ | ⟨hw, -, -⟩
    · refine Or.inr ⟨now, sender, peers, value, rfl, hw, ?_⟩
      simp [hw.1, respond_awaited hw]
    · refine Or.inl ?_
      split
      next hf hr =>
        rw [respond_refused hf hw] at hr
        cases hr
      next => rfl
  next => exact Or.inl rfl

theorem step_seeking (h : l.Steady) (hp : l.pursuit = .value none) {c : Call}
    (hc : l.gives c = []) : (l.step c).1.pursuit = .value none := by
  cases c with
  | giveUp now id => exact (pursuit_sequential.giveUp h now id).trans hp
  | sweep now => exact (pursuit_sequential.sweep h now).trans hp
  | respond now sender peers content =>
    rcases l.respond_step now sender peers content with ⟨hw, hr, -⟩ | ⟨-, hr, -⟩
    · have hnone : (takeIn sender l.pursuit content).1 = .value none := by
        rw [hp]
        match content with
        | .value (some value) =>
          simp [gives, hw.1, respond_awaited hw] at hc
        | .value none => rfl
        | .none => rfl
        | .members members => rfl
      have ht : (l.taken sender peers content).pursuit = .value none := hnone
      rw [hr, answered]
      split
      · exact ht
      · rw [pump_pursuit (taken_coherent h.coherent sender peers content), ht]
    · rw [hr, hp]

theorem play_seeking (h : l.Steady) (hp : l.pursuit = .value none) {calls : List Call}
    (hc : l.given calls = []) : (l.play calls).1.pursuit = .value none := by
  induction calls generalizing l with
  | nil => exact hp
  | cons c calls ih =>
    obtain ⟨hfirst, hrest⟩ := List.append_eq_nil_iff.mp hc
    exact ih (step_steady h c).1 (step_seeking h hp hfirst) hrest

theorem play_idle (hf : l.finished = true) (h : l.Steady) (calls : List Call) :
    l.play calls = (l, {}) :=
  (delivers_compositional.play h calls).1 hf

theorem given_running (h : l.Steady) (hp : l.pursuit = .value none) {calls : List Call}
    (hr : (l.play calls).1.finished = false) : l.given calls = [] := by
  induction calls generalizing l with
  | nil => rfl
  | cons c calls ih =>
    have hs := (step_steady h c).1
    rcases l.gives_cases c with hc | ⟨now, sender, peers, value, rfl, hw, -⟩
    · rw [given, hc, ih hs (step_seeking h hp hc) hr]
      rfl
    · have hend : (l.step (.respond now sender peers (.value (some value)))).1.finished = true := by
        simp [step, respond_awaited hw, answered_value hp, finish]
      have hidle := play_idle hend hs calls
      simp only [play, hidle] at hr
      rw [hend] at hr
      cases hr

/-- A value that is accepted ends the lookup, and whatever comes after it changes nothing. -/
theorem play_value (h : l.Steady) (hp : l.pursuit = .value none) {sender : Ident}
    (hw : l.Awaits sender) (now : Time) (peers : List Peer) (value : Bytes) (more : List Call) :
    l.play (.respond now sender peers (.value (some value)) :: more) =
      (l.taken sender peers (.value (some value))).finish := by
  have hs := (step_steady h (.respond now sender peers (.value (some value)))).1
  rw [step_value hp hw] at hs
  have hend : ((l.taken sender peers (.value (some value))).finish).1.finished = true := rfl
  simp only [play, step_value hp hw, play_idle hend hs, Effects.append_idle]

end Seeking

section Finding

variable {l : Lookup}

theorem peer?_of_finished (h : l.Coherent) {id : Ident} (hid : id ∈ l.frontier.finished) :
    (l.peer? id).isSome := by
  obtain ⟨p, hp, -⟩ := (Frontier.mem_withProgress h.frontier (fun p => p = .finished) id).mp hid
  rw [← h.addressed, hp]
  rfl

/-- The closest one who has answered, the provider apart. Contacts have addresses, so it is named. -/
def runnerUp (l : Lookup) (provider : Option Ident) : Option Peer :=
  (l.frontier.finished.filter fun id => some id ≠ provider).head?.bind l.peer?

theorem finding_value (h : l.Coherent) {found : Option (Bytes × Ident)}
    (hp : l.pursuit = .value found) :
    l.finding = .value l.target (found.map Prod.fst) ((found.map Prod.snd).bind l.peer?)
      (l.runnerUp (found.map Prod.snd)) l.finding.nearby := by
  have hfirst : ∀ ids : List Ident, (∀ id ∈ ids, (l.peer? id).isSome) →
      ids.findSome? l.peer? = ids.head?.bind l.peer? := by
    rintro (_ | ⟨id, rest⟩) hids
    · rfl
    · obtain ⟨p, hp⟩ := Option.isSome_iff_exists.mp (hids id List.mem_cons_self)
      simp [hp]
  have hothers := hfirst (l.frontier.finished.filter fun id => some id ≠ found.map Prod.snd)
    fun id hid => peer?_of_finished h (List.mem_of_mem_filter hid)
  rw [runnerUp, ← hothers, finding_nearby]
  simp only [finding, hp]

theorem runnerUp_nearest (h : l.Coherent) {answerers : List Ident}
    (ha : ∀ id, l.frontier.progress? id = some .finished ↔ id ∈ answerers) (provider : Ident) :
    Nearest l.frontier.target 1 (answerers.toFinset.erase provider)
      ((l.runnerUp (some provider)).toList.map Peer.id) := by
  let others := l.frontier.finished.filter fun id => some id ≠ some provider
  have hordered : others.Pairwise fun a b =>
      a.distance l.frontier.target < b.distance l.frontier.target :=
    (Frontier.withProgress_ordered h.frontier fun p => p = .finished).sublist List.filter_sublist
  have hothers : others.toFinset = answerers.toFinset.erase provider := by
    ext id
    have hf := Frontier.mem_withProgress h.frontier (fun p => p = .finished) id
    simp only [decide_eq_true_eq, exists_eq_right, ha] at hf
    rw [Finset.mem_erase, List.mem_toFinset, List.mem_toFinset, ← hf, List.mem_filter, and_comm]
    simp only [ne_eq, Option.some.injEq, decide_not, Bool.not_eq_true', decide_eq_false_iff_not]
    rfl
  have hnamed : (others.head?.bind l.peer?).toList.map Peer.id = others.take 1 := by
    have haddress : ∀ id ∈ others, (l.peer? id).isSome := fun id hid =>
      peer?_of_finished h (List.mem_of_mem_filter hid)
    match others, haddress with
    | [], _ => rfl
    | id :: rest, haddress =>
      obtain ⟨p, hp⟩ := Option.isSome_iff_exists.mp (haddress id List.mem_cons_self)
      simp [hp, peer?_id hp]
  rw [runnerUp, hnamed, ← hothers]
  exact nearest_take hordered 1

/-- When nobody is left out, the closest one who has answered heads the closest ones that are
named, if any may be named at all. -/
theorem runnerUp_none (h : l.Coherent) (hk : l.frontier.k = 0 → l.frontier.finished = []) :
    l.runnerUp none = l.finding.nearby.head? := by
  have hall : (l.frontier.finished.filter fun id => some id ≠ none) = l.frontier.finished :=
    List.filter_eq_self.mpr fun _ _ => by simp
  rw [runnerUp, hall, finding_nearby, Frontier.finishedClosest]
  cases hf : l.frontier.finished with
  | nil => simp
  | cons id rest =>
    have hid : id ∈ l.frontier.finished := by simp [hf]
    obtain ⟨p, hp⟩ := Option.isSome_iff_exists.mp (peer?_of_finished h hid)
    cases hkf : l.frontier.k with
    | zero =>
      rw [hk hkf] at hf
      cases hf
    | succ k => simp [hp]

end Finding

section Narrow

variable {l : Lookup}

theorem pump_narrow (hk : l.frontier.k = 0) (hi : l.frontier.inFlight = 0) (now : Time) :
    (l.pump now).1.finished = true := by
  have hnone : l.frontier.candidates = [] := by simp [Frontier.candidates, Frontier.window, hk]
  have hfill : ∀ slots, l.fill now slots = (l, []) := by
    rintro (_ | slots)
    · rfl
    · simp [fill, Frontier.candidate?, hnone]
  simp [pump, hfill, hi, hnone, finish]

theorem accepted_idle (hf : l.finished = true) (calls : List Call) : l.accepted calls = [] := by
  induction calls with
  | nil => rfl
  | cons c calls ih =>
    have hc : l.accepts c = [] := by cases c <;> simp [accepts, hf]
    have hs : (l.step c).1 = l := by
      cases c <;> simp [step, respond, giveUp, sweep, hf]
    rw [accepted, hc, hs, ih]
    rfl

end Narrow

section Life

variable (context : UInt64) (p : Parameters) (d : Directory) (key : Ident) (start : Time)
  (calls : List Call)

theorem start_seeking :
    ((Lookup.new context p d (.value key)).start start).1.pursuit = .value none := by
  rw [Lookup.start, pump_pursuit (new_coherent context p d (.value key)), new_pursuit]
  rfl

/-- With room for nobody the lookup is over before anybody can answer. -/
theorem life_narrow (hk : p.k = 0) :
    ((Lookup.new context p d (.value key)).life start calls).1.frontier.finished = [] := by
  have hc := new_coherent context p d (.value key)
  have hfresh : (Lookup.new context p d (.value key)).frontier.k = 0 ∧
      (Lookup.new context p d (.value key)).frontier.inFlight = 0 := by
    obtain ⟨f, a, he, hi, hf, -⟩ := addPeers_frame (blank context p d (.value key))
      (d.closest mainTable key none)
    have hnew : Lookup.new context p d (.value key) =
        { blank context p d (.value key) with frontier := f, addresses := a } := he
    rw [hnew]
    exact ⟨hf.trans hk, hi⟩
  have hover : ((Lookup.new context p d (.value key)).start start).1.finished = true :=
    pump_narrow hfresh.1 hfresh.2 start
  refine List.eq_nil_iff_forall_not_mem.mpr fun id hid => ?_
  have hsound := (life_steady hc start calls).1.coherent.frontier
  obtain ⟨progress, hp, hf⟩ :=
    (Frontier.mem_withProgress hsound (fun p => p = .finished) id).mp hid
  rw [of_decide_eq_true hf, life_finished_iff, answerers, accepted_idle hover] at hp
  cases hp

theorem life_runnerUp (provider : Ident) :
    let fresh := Lookup.new context p d (.value key)
    Nearest key 1 (((fresh.start start).1.answerers calls).toFinset.erase provider)
      (((fresh.life start calls).1.runnerUp (some provider)).toList.map Peer.id) := by
  intro fresh
  obtain ⟨hs, ht⟩ := life_steady (new_coherent context p d (.value key)) start calls
  have hnearest := runnerUp_nearest hs.coherent
    (life_finished_iff context p d (.value key) start calls) provider
  rwa [((new_sameTask context p d (.value key)).trans ht).centre] at hnearest

theorem life_seeking {calls : List Call}
    (h : ((Lookup.new context p d (.value key)).start start).1.given calls = []) :
    ((Lookup.new context p d (.value key)).life start calls).1.pursuit = .value none :=
  play_seeking (start_steady (new_coherent context p d (.value key)) start).1
    (start_seeking context p d key start) h

theorem life_finding_value {calls : List Call} {found : Option (Bytes × Ident)}
    (hp : ((Lookup.new context p d (.value key)).life start calls).1.pursuit = .value found)
    (hend : ((Lookup.new context p d (.value key)).life start calls).1.finished = true) :
    let r := (Lookup.new context p d (.value key)).life start calls
    r.2.finding = some (.value key (found.map Prod.fst) ((found.map Prod.snd).bind r.1.peer?)
      (r.1.runnerUp (found.map Prod.snd)) r.1.finding.nearby) := by
  intro r
  obtain ⟨hs, ht⟩ := life_steady (new_coherent context p d (.value key)) start calls
  have htarget : r.1.target = key := ((new_sameTask context p d (.value key)).trans ht).target
  have hfinding : r.2.finding = if r.1.finished = true then some r.1.finding else none :=
    life_finding context p d (.value key) start calls
  have hvalue : r.1.finding = _ := finding_value hs.coherent hp
  rw [htarget] at hvalue
  rw [hfinding, if_pos hend, ← hvalue]

/-- In every run of a lookup for a value: a response with a value that is accepted ends the lookup,
with whatever else in flight. Nothing is sent from then on, and the finding that is handed over has
the value, its sender as the provider, and the closest one of all others who have answered. A lookup
that ends without a value has no provider, and names the closest one who has answered twice. -/
theorem ends_with_first_value (context : UInt64) (p : Parameters) (d : Directory) (key : Ident)
    (start : Time) (calls : List Call) :
    let fresh := Lookup.new context p d (.value key)
    let first := (fresh.start start).1
    let r := fresh.life start calls
    (∀ now sender peers value more,
      let call := Call.respond now sender peers (.value (some value))
      let s := fresh.life start (calls ++ call :: more)
      r.1.finished = false →
      (∃ t, r.1.respond now sender peers (.value (some value)) = .ok t) →
        s.1.finished = true ∧ s.2.requests = r.2.requests ∧
        ∃ provider cacheTarget closest,
          s.2.finding = some (.value key (some value) (some provider) cacheTarget closest) ∧
          provider.id = sender ∧
          Nearest key 1 ((first.answerers (calls ++ [call])).toFinset.erase sender)
            (cacheTarget.toList.map Peer.id)) ∧
    (r.1.finished = true → first.given calls = [] →
      ∃ closest, r.2.finding = some (.value key none none closest.head? closest)) := by
  intro fresh first r
  have hc := new_coherent context p d (.value key)
  obtain ⟨hs, ht⟩ := life_steady hc start calls
  have hfirst := (start_steady hc start).1
  constructor
  · intro now sender peers value more call s hf haccepted
    have hw : r.1.Awaits sender := by
      by_contra hw
      obtain ⟨t, ht⟩ := haccepted
      rw [respond_refused hf hw] at ht
      cases ht
    have hp : r.1.pursuit = .value none := life_seeking context p d key start
      (given_running hfirst (start_seeking context p d key start) hf)
    have hends : ∀ more, fresh.life start (calls ++ call :: more) =
        ((r.1.taken sender peers (.value (some value))).finish.1,
          r.2.append (r.1.taken sender peers (.value (some value))).finish.2) := fun more => by
      rw [life_append, play_value hs hp hw]
    -- the calls after the value make no difference
    have hsame : s = fresh.life start (calls ++ [call]) := (hends more).trans (hends []).symm
    rw [hsame]
    have hlast := hends []
    obtain ⟨hsteady, -⟩ := life_steady hc start (calls ++ [call])
    have hend : (fresh.life start (calls ++ [call])).1.finished = true := by rw [hlast]; rfl
    have hpursuit : (fresh.life start (calls ++ [call])).1.pursuit =
        .value (some (value, sender)) := by
      rw [hlast]
      exact taken_value hp sender peers value
    have hsender : (fresh.life start (calls ++ [call])).1.frontier.progress? sender =
        some .finished := by
      rw [hlast]
      exact (taken_finished_iff hs.coherent hw peers (.value (some value)) sender).mpr (Or.inr rfl)
    obtain ⟨provider, hprovider⟩ :
        ∃ q, (fresh.life start (calls ++ [call])).1.peer? sender = some q := by
      rw [← Option.isSome_iff_exists, ← hsteady.coherent.addressed, hsender]
      rfl
    have hfinding := life_finding_value context p d key start hpursuit hend
    simp only [Option.map_some, Option.bind_some] at hfinding
    refine ⟨hend, ?_, provider, _, _, hprovider ▸ hfinding, peer?_id hprovider, ?_⟩
    · rw [hlast]
      exact List.append_nil _
    · exact life_runnerUp context p d key start (calls ++ [call]) sender
  · intro hend hgiven
    have hnarrow : r.1.frontier.k = 0 → r.1.frontier.finished = [] := fun hk =>
      life_narrow context p d key start calls
        (((new_sameTask context p d (.value key)).trans ht).k.symm.trans hk)
    have hfinding := life_finding_value context p d key start
      (life_seeking context p d key start hgiven) hend
    refine ⟨r.1.finding.nearby, ?_⟩
    rw [← runnerUp_none hs.coherent hnarrow]
    exact hfinding

/-- A lookup for a value that asks two peers at once, here peers 2 and 3 at first. Peer 3 has no
value and names peer 6, which is asked as well. -/
def wideWaiting : Lookup × Effects :=
  (Lookup.new 7 { k := 3, alpha := 2 } pairTables (.value (numbered 3).id)).life 0
    [.respond 1 (numbered 3).id [numbered 6] (.value none)]

/-- Then peer 2 gives a value. -/
def wideDone : Lookup × Effects :=
  (Lookup.new 7 { k := 3, alpha := 2 } pairTables (.value (numbered 3).id)).life 0
    [.respond 1 (numbered 3).id [numbered 6] (.value none),
      .respond 2 (numbered 2).id [] (.value (some [7]))]

/-- Peer 6 is not waited for. -/
theorem ends_with_first_value_wide :
    wideWaiting.1.frontier.progress? (numbered 6).id = some .inProgress ∧
    wideDone.1.finished = true ∧ wideDone.2.requests = wideWaiting.2.requests ∧
    ∃ provider closest, wideDone.2.finding =
        some (.value (numbered 3).id (some [7]) (some provider) (some (numbered 3)) closest) ∧
      provider.id = (numbered 2).id := by
  have hwaiting : wideWaiting.1.frontier.progress? (numbered 6).id = some .inProgress := by cbv
  have hrunning : wideWaiting.1.finished = false := by cbv
  have haccepted : ∃ t, wideWaiting.1.respond 2 (numbered 2).id [] (.value (some [7])) = .ok t :=
    ⟨_, by cbv⟩
  obtain ⟨hend, hquiet, provider, cacheTarget, closest, hfinding, hprovider, -⟩ :=
    (ends_with_first_value 7 { k := 3, alpha := 2 } pairTables (numbered 3).id 0
      [.respond 1 (numbered 3).id [numbered 6] (.value none)]).1
      2 (numbered 2).id [] [7] [] hrunning haccepted
  have hvalue : wideDone.2.finding = some (.value (numbered 3).id (some [7]) (some (numbered 2))
      (some (numbered 3)) [numbered 3, numbered 2]) := by cbv
  cases hfinding.symm.trans hvalue
  exact ⟨hwaiting, hend, hquiet, _, _, hfinding, hprovider⟩

end Life

end Kademlia.Lookup
