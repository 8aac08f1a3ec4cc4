import Mathlib.Data.List.Nodup
import Kademlia.Proofs.Lookup.Convergence
import Kademlia.Proofs.Lookup.Turn

/-!
Whom a lookup asks. Each request has a moment at which it is sent, and then its recipient is the
closest pending contact and stands among the `k` closest that have not failed. Main statement: in
every run no peer is asked twice, and each is asked, and named in the finding, under the address
under which it was first heard of.
-/

namespace Kademlia

/-- The contact is due to be asked: it is pending, no closer one is pending, and fewer than `k`
contacts that have not failed are closer. -/
structure Frontier.Due (target : Ident) (k : Nat) (f : Frontier) (id : Ident) : Prop where
  pending : f.progress? id = some .pending
  first : ∀ other, f.progress? other = some .pending →
    ¬ other.distance target < id.distance target
  placed : (f.contacts.countP fun c =>
    c.progress ≠ .failed ∧ c.id.distance target < id.distance target) < k

def Finding.peers : Finding → List Peer
  | .closest _ _ near => near
  | .value _ _ provider cacheTarget near => provider.toList ++ cacheTarget.toList ++ near
  | .members _ near _ => near

namespace Frontier

/-- What stands in front of a contact in an ordered list is all that is closer. -/
theorem countP_closer {target : Ident} {front back : List Contact} {c : Contact}
    (h : Ordered target (front ++ c :: back)) :
    (front ++ c :: back).countP (fun d => d.id.distance target < c.id.distance target) =
      front.length := by
  obtain ⟨-, hc, hx⟩ := List.pairwise_append.mp h
  have hfront : front.countP (fun d => d.id.distance target < c.id.distance target) =
      front.length :=
    List.countP_eq_length.mpr fun d hd => decide_eq_true (hx d hd c List.mem_cons_self)
  have hback : (c :: back).countP (fun d => d.id.distance target < c.id.distance target) = 0 := by
    apply List.countP_eq_zero.mpr
    intro d hd hlt
    rw [decide_eq_true_eq] at hlt
    rcases List.mem_cons.mp hd with rfl | hd
    · exact Distance.lt_irrefl _ hlt
    · exact Distance.lt_asymm hlt ((List.pairwise_cons.mp hc).1 d hd)
  rw [List.countP_append, hfront, hback, Nat.add_zero]

theorem due_candidate {f : Frontier} (h : f.Sound) {id : Ident} (hc : f.candidate? = some id) :
    f.Due f.target f.k id := by
  obtain ⟨c, hhead, rfl⟩ : ∃ c,
      (f.window.filter fun c => c.progress = .pending).head? = some c ∧ c.id = id := by
    rw [candidate?, candidates, List.head?_map] at hc
    exact Option.map_eq_some_iff.mp hc
  obtain ⟨rest, hrest⟩ := List.head?_eq_some_iff.mp hhead
  obtain ⟨front, back, hw, hfront, hp, -⟩ := List.filter_eq_cons_iff.mp hrest
  rw [decide_eq_true_eq] at hp
  -- the window is the front of the contacts that have not failed
  have hall : (f.contacts.filter fun c => c.progress ≠ .failed) =
      front ++ c :: (back ++ (f.contacts.filter fun c => c.progress ≠ .failed).drop f.k) := by
    conv_lhs => rw [← List.take_append_drop f.k (f.contacts.filter fun c => c.progress ≠ .failed)]
    change f.window ++ _ = _
    rw [hw, List.append_assoc, List.cons_append]
  have ho : Ordered f.target
      (front ++ c :: (back ++ (f.contacts.filter fun c => c.progress ≠ .failed).drop f.k)) := by
    rw [← hall]
    exact h.ordered.sublist List.filter_sublist
  have hmem : c ∈ f.contacts := by
    have : c ∈ f.contacts.filter fun c => c.progress ≠ .failed := by
      rw [hall]
      exact List.mem_append_right _ List.mem_cons_self
    exact (List.mem_filter.mp this).1
  refine ⟨by rw [progress?_of_mem h.ordered hmem, hp], fun other hother hlt => ?_, ?_⟩
  · have hin : (⟨other, .pending⟩ : Contact) ∈ f.contacts.filter fun c => c.progress ≠ .failed :=
      List.mem_filter.mpr ⟨(progress?_eq_some h.ordered).mp hother, by simp⟩
    rw [hall] at hin
    rcases List.mem_append.mp hin with hin | hin
    · exact hfront _ hin (by simp)
    · rcases List.mem_cons.mp hin with he | hin
      · rw [← he] at hlt
        exact Distance.lt_irrefl _ hlt
      · have hc := (List.pairwise_append.mp ho).2.1
        exact Distance.lt_asymm hlt ((List.pairwise_cons.mp hc).1 _ hin)
  · have hcount : (f.contacts.countP fun d =>
        d.progress ≠ .failed ∧ d.id.distance f.target < c.id.distance f.target) = front.length := by
      rw [← countP_closer ho, ← hall, List.countP_filter]
      apply List.countP_congr
      intro d _
      simp [and_comm]
    have hlength : front.length < f.window.length := by simp [hw]
    have hk : f.window.length ≤ f.k := List.length_take_le ..
    omega

end Frontier

namespace Lookup

section Moments

structure Moment where
  now : Time
  lookup : Lookup
  peer : Ident

def Moment.sent (m : Moment) : List Outgoing := (m.lookup.ask m.now m.peer).2

def Moment.after (m : Moment) : Lookup := (m.lookup.ask m.now m.peer).1

def filling (now : Time) : (slots : Nat) → Lookup → List Moment
  | 0, _ => []
  | slots + 1, l =>
    match l.frontier.candidate? with
    | none => []
    | some id => ⟨now, l, id⟩ :: filling now slots (l.ask now id).1

def pumping (now : Time) (l : Lookup) : List Moment :=
  l.filling now (l.alpha - l.frontier.inFlight)

def failing (now : Time) (id : Ident) (l : Lookup) : List Moment :=
  if l.finished then []
  else
    match l.frontier.progress? id with
    | none | some .finished => []
    | some _ => (l.settle id .failed).pumping now

def failingAll (now : Time) : List Ident → Lookup → List Moment
  | [], _ => []
  | id :: ids, l => l.failing now id ++ failingAll now ids (l.giveUp now id).1

def moments (l : Lookup) : Call → List Moment
  | .respond now sender peers content =>
    match l.respond now sender peers content with
    | .ok r => if r.1.finished then [] else (l.taken sender peers content).pumping now
    | .error _ => []
  | .giveUp now id => l.failing now id
  | .sweep now => if l.finished then [] else failingAll now (l.overdue now) l

/-- One request is sent at the moment, to a peer that is due and enters progress by it. -/
structure Moment.Proper (target : Ident) (k : Nat) (m : Moment) : Prop where
  sent : ∃ o, m.sent = [o] ∧ o.recipient.id = m.peer
  due : m.lookup.frontier.Due target k m.peer
  enters : ∀ id, m.after.frontier.progress? id =
    if id = m.peer then some .inProgress else m.lookup.frontier.progress? id

/-- What a step sends, it sends at the given moments, and whoever enters progress in it is asked at
one of them. -/
structure Orderly (target : Ident) (k : Nat) (l : Lookup) (moments : List Moment)
    (r : Lookup × Effects) : Prop where
  requests : r.2.requests = moments.flatMap Moment.sent
  proper : ∀ m ∈ moments, m.Proper target k
  entered : ∀ id, l.frontier.progress? id ≠ some .inProgress ∧
    r.1.frontier.progress? id = some .inProgress ↔ id ∈ recipients r.2.requests

variable {l : Lookup}

theorem filling_proper (now : Time) (slots : Nat) (h : l.Coherent)
    (hs : slots ≤ l.alpha - l.frontier.inFlight) :
    (l.fill now slots).2 = (l.filling now slots).flatMap Moment.sent ∧
      ∀ m ∈ l.filling now slots, m.Proper l.frontier.target l.frontier.k := by
  induction slots generalizing l with
  | zero => exact ⟨rfl, nofun⟩
  | succ slots ih =>
    cases hc : l.frontier.candidate? with
    | none => simp [fill, filling, hc]
    | some id =>
      have hdue := Frontier.due_candidate h.frontier hc
      obtain ⟨o, ho, hid, ha⟩ := ask_asked h now hdue.pending
      obtain ⟨hk, hi⟩ := ask_coherent h now hdue.pending (by omega)
      have hal : (l.ask now id).1.alpha = l.alpha := rfl
      obtain ⟨hr, hm⟩ := ih hk (by omega)
      rw [ha.k, ha.target] at hm
      have hf : l.filling now (slots + 1) =
          ⟨now, l, id⟩ :: (l.ask now id).1.filling now slots := by simp [filling, hc]
      constructor
      · simp [fill, hc, hf, hr, Moment.sent]
      · rw [hf, List.forall_mem_cons]
        refine ⟨⟨⟨o, ho, hid⟩, hdue, ?_⟩, hm⟩
        intro other
        have hp := ha.progress other
        rw [List.map_singleton, hid] at hp
        simpa [Moment.after] using hp

theorem pump_requests (l : Lookup) (now : Time) :
    (l.pump now).2.requests = (l.fill now (l.alpha - l.frontier.inFlight)).2 := by
  unfold pump
  dsimp only
  split <;> rfl

theorem pumping_proper (h : l.Coherent) (now : Time) :
    (l.pump now).2.requests = (l.pumping now).flatMap Moment.sent ∧
      ∀ m ∈ l.pumping now, m.Proper l.frontier.target l.frontier.k := by
  rw [pump_requests]
  exact filling_proper now _ h (Nat.le_refl _)

end Moments

section Entering

variable {l : Lookup} {r : Lookup × Effects}

theorem HasAsked.of_inProgress {id : Ident} (h : l.frontier.progress? id = some .inProgress) :
    l.HasAsked id :=
  ⟨_, h, by simp⟩

/-- The calls in which a peer enters progress are those that send it a request. -/
theorem entered_iff {id : Ident}
    (hsent : id ∈ recipients r.2.requests →
      ¬ l.HasAsked id ∧ r.1.frontier.progress? id = some .inProgress)
    (hwaits : r.1.frontier.progress? id = some .inProgress →
      l.frontier.progress? id = some .inProgress ∨ id ∈ recipients r.2.requests) :
    l.frontier.progress? id ≠ some .inProgress ∧
      r.1.frontier.progress? id = some .inProgress ↔ id ∈ recipients r.2.requests := by
  constructor
  · rintro ⟨hn, hp⟩
    exact (hwaits hp).resolve_left hn
  · intro hid
    obtain ⟨hn, hp⟩ := hsent hid
    exact ⟨fun hold => hn (.of_inProgress hold), hp⟩

theorem Turn.entered {peer : Ident} (h : Turn l peer r) (id : Ident) :
    l.frontier.progress? id ≠ some .inProgress ∧
      r.1.frontier.progress? id = some .inProgress ↔ id ∈ recipients r.2.requests := by
  apply entered_iff
  · intro hid
    exact ⟨h.unasked id hid, (h.waits id).mpr (Or.inr hid)⟩
  · intro hp
    exact ((h.waits id).mp hp).imp_left And.left

theorem Sends.entered (h : Sends l r) (id : Ident) :
    l.frontier.progress? id ≠ some .inProgress ∧
      r.1.frontier.progress? id = some .inProgress ↔ id ∈ recipients r.2.requests := by
  apply entered_iff
  · intro hid
    exact ⟨h.unasked id hid, (h.waits id).mpr (Or.inr hid)⟩
  · exact (h.waits id).mp

theorem overdue_hasAsked (h : l.Coherent) (now : Time) :
    ∀ id ∈ l.overdue now, l.HasAsked id := fun id hid =>
  .of_inProgress (overdue_inProgress h now id hid)

theorem Orderly.stay (target : Ident) (k : Nat) (l : Lookup) : Orderly target k l [] (l, {}) :=
  ⟨rfl, nofun, fun id => by simp [recipients]⟩

end Entering

section Once

/-- Nobody is asked who has been asked before, and whoever is asked stays so. -/
structure AsksOnce (l : Lookup) (r : Lookup × Effects) : Prop where
  distinct : (recipients r.2.requests).Nodup
  unasked : ∀ id ∈ recipients r.2.requests, ¬ l.HasAsked id
  asked : ∀ id ∈ recipients r.2.requests, r.1.HasAsked id
  keeps : ∀ id, l.HasAsked id → r.1.HasAsked id

theorem Turn.asksOnce {l : Lookup} {peer : Ident} {r : Lookup × Effects} (h : Turn l peer r) :
    AsksOnce l r :=
  ⟨h.distinct, h.unasked, fun id hid => .of_inProgress ((h.waits id).mpr (Or.inr hid)), h.keeps⟩

theorem Sends.asksOnce {l : Lookup} {r : Lookup × Effects} (h : Sends l r) : AsksOnce l r := by
  refine ⟨h.distinct, h.unasked, ?_, ?_⟩
  · intro id hid
    exact .of_inProgress ((h.waits id).mpr (Or.inr hid))
  · rintro id ⟨p, hp, hne⟩
    exact ⟨p, h.stays id p hp hne, hne⟩

theorem recipients_append (e f : Effects) :
    recipients (e.append f).requests = recipients e.requests ++ recipients f.requests :=
  List.map_append ..

theorem asksOnce_compositional : Compositional AsksOnce where
  stay l := ⟨List.nodup_nil, nofun, nofun, fun _ h => h⟩
  trans l r s _ hr hs := by
    constructor
    · rw [recipients_append, List.nodup_append]
      refine ⟨hr.distinct, hs.distinct, ?_⟩
      rintro a ha _ hb rfl
      exact hs.unasked a hb (hr.asked a ha)
    · intro id hid ha
      rw [recipients_append, List.mem_append] at hid
      rcases hid with hid | hid
      · exact hr.unasked id hid ha
      · exact hs.unasked id hid (hr.keeps id ha)
    · intro id hid
      rw [recipients_append, List.mem_append] at hid
      rcases hid with hid | hid
      · exact hs.keeps id (hr.asked id hid)
      · exact hs.asked id hid
    · exact fun id ha => hs.keeps id (hr.keeps id ha)
  failure l now id _ h hf _ _ := (failed_turn h hf now).asksOnce
  answer l now sender peers content h hw := (answered_turn h hw now peers content).asksOnce

theorem start_asksOnce {l : Lookup} (h : l.Coherent) (hf : l.finished = false) (now : Time) :
    AsksOnce l (l.start now) :=
  (pump_sends h hf now).1.asksOnce

end Once

section Order

variable {l : Lookup}

theorem failed_orderly (h : l.Steady) (hf : l.finished = false) (now : Time) (id : Ident) :
    Orderly l.frontier.target l.frontier.k l ((l.settle id .failed).pumping now)
      ((l.settle id .failed).pump now) := by
  have ht := settle_sameTask l id .failed
  have hk : (l.settle id .failed).Coherent := settle_coherent h.coherent id (by simp)
  obtain ⟨hr, hm⟩ := pumping_proper hk now
  rw [ht.k, ht.centre] at hm
  exact ⟨hr, hm, (failed_turn h hf now).entered⟩

theorem giveUp_orderly (h : l.Steady) (now : Time) (id : Ident) :
    Orderly l.frontier.target l.frontier.k l (l.failing now id) (l.giveUp now id) := by
  cases hf : l.finished with
  | true => simpa [failing, giveUp, hf] using Orderly.stay _ _ l
  | false =>
    have hfailed := failed_orderly h hf now id
    cases hp : l.frontier.progress? id with
    | none => simpa [failing, giveUp, hf, hp] using Orderly.stay _ _ l
    | some p =>
      cases p with
      | finished => simpa [failing, giveUp, hf, hp] using Orderly.stay _ _ l
      | pending => simpa [failing, giveUp, hf, hp] using hfailed
      | inProgress => simpa [failing, giveUp, hf, hp] using hfailed
      | failed => simpa [failing, giveUp, hf, hp] using hfailed

/-- Giving up on peers that had been asked before takes nobody out of progress who is asked
meanwhile. -/
theorem giveUpAll_orderly (now : Time) {ids : List Ident} (h : l.Steady)
    (hids : ∀ id ∈ ids, l.HasAsked id) :
    Orderly l.frontier.target l.frontier.k l (failingAll now ids l) (giveUpAll now ids l) := by
  induction ids generalizing l with
  | nil => exact .stay _ _ l
  | cons first ids ih =>
    obtain ⟨hs, ht⟩ := giveUp_steady h now first
    have hfirst := giveUp_orderly h now first
    have hone := asksOnce_compositional.giveUp h now first
    have hrest := ih hs fun id hid => hone.keeps id (hids id (List.mem_cons_of_mem _ hid))
    have hmore := asksOnce_compositional.giveUpAll hs now ids
    rw [ht.k, ht.centre] at hrest
    refine ⟨?_, ?_, ?_⟩
    · rw [failingAll, List.flatMap_append, ← hfirst.requests, ← hrest.requests]
      rfl
    · rw [failingAll, List.forall_mem_append]
      exact ⟨hfirst.proper, hrest.proper⟩
    · intro id
      have hr : recipients (giveUpAll now (first :: ids) l).2.requests =
          recipients (l.giveUp now first).2.requests ++
            recipients (giveUpAll now ids (l.giveUp now first).1).2.requests :=
        recipients_append ..
      rw [hr, List.mem_append, ← hfirst.entered, ← hrest.entered]
      have hf : (giveUpAll now (first :: ids) l).1 =
          (giveUpAll now ids (l.giveUp now first).1).1 := rfl
      rw [hf]
      constructor
      · rintro ⟨hn, hp⟩
        by_cases hmid : (l.giveUp now first).1.frontier.progress? id = some .inProgress
        · exact Or.inl ⟨hn, hmid⟩
        · exact Or.inr ⟨hmid, hp⟩
      · rintro (⟨hn, hmid⟩ | ⟨hmid, hp⟩)
        · have hid : id ∉ ids := fun hid =>
            hone.unasked id ((hfirst.entered id).mp ⟨hn, hmid⟩)
              (hids id (List.mem_cons_of_mem _ hid))
          exact ⟨hn, giveUpAll_progress_other hs now hid hmid (by simp)⟩
        · refine ⟨?_, hp⟩
          intro hn
          exact hmore.unasked id ((hrest.entered id).mp ⟨hmid, hp⟩)
            (hone.keeps id (.of_inProgress hn))

theorem sweep_orderly (h : l.Steady) (now : Time) :
    Orderly l.frontier.target l.frontier.k l (l.moments (.sweep now)) (l.sweep now) := by
  unfold moments sweep
  dsimp only
  split
  · exact .stay _ _ l
  · exact giveUpAll_orderly now h (overdue_hasAsked h.coherent now)

theorem answered_orderly (h : l.Steady) {sender : Ident} (hw : l.Awaits sender) (now : Time)
    (peers : List Peer) (content : Content) :
    Orderly l.frontier.target l.frontier.k l
      (l.moments (.respond now sender peers content)) (l.answered now sender peers content) := by
  have ht := taken_sameTask l sender peers content
  have hk := taken_coherent h.coherent sender peers content
  have hf : (l.taken sender peers content).finished = false := by rw [taken_finished, hw.1]
  have hturn := answered_turn h hw now peers content
  simp only [moments, respond_awaited hw]
  unfold answered at hturn ⊢
  split at hturn
  next hc =>
    rw [if_pos hc]
    exact ⟨rfl, nofun, hturn.entered⟩
  next hc =>
    rw [if_neg hc]
    obtain ⟨hr, hm⟩ := pumping_proper hk now
    rw [ht.k, ht.centre] at hm
    split
    next hd =>
      -- a lookup that ends by pumping has sent nothing
      have hnone := (pump_sends hk hf now).2 hd
      exact ⟨by rw [hnone]; rfl, nofun, hturn.entered⟩
    next => exact ⟨hr, hm, hturn.entered⟩

theorem step_orderly (h : l.Steady) (c : Call) :
    Orderly l.frontier.target l.frontier.k l (l.moments c) (l.step c) := by
  cases c with
  | giveUp now id => exact giveUp_orderly h now id
  | sweep now => exact sweep_orderly h now
  | respond now sender peers content =>
    by_cases hw : l.Awaits sender
    · have hs : l.step (.respond now sender peers content) =
          l.answered now sender peers content := by simp [step, respond_awaited hw]
      rw [hs]
      exact answered_orderly h hw now peers content
    · by_cases hf : l.finished = true
      · have hr := respond_finished hf now sender peers content
        simp only [moments, step, hr, hf, if_true]
        exact .stay _ _ l
      · rw [Bool.not_eq_true] at hf
        have hr := respond_refused hf hw now peers content
        simp only [moments, step, hr]
        exact .stay _ _ l

theorem start_orderly (h : l.Coherent) (hf : l.finished = false) (now : Time) :
    Orderly l.frontier.target l.frontier.k l (l.pumping now) (l.start now) := by
  obtain ⟨hr, hm⟩ := pumping_proper h now
  exact ⟨hr, hm, (pump_sends h hf now).1.entered⟩

end Order

section Addresses

/-- A known address never changes, and each request goes to the known address of its recipient. -/
structure Remembers (l : Lookup) (r : Lookup × Effects) : Prop where
  keeps : ∀ id q, l.peer? id = some q → r.1.peer? id = some q
  sent : ∀ o ∈ r.2.requests, r.1.peer? o.recipient.id = some o.recipient

theorem addPeers_keeps (l : Lookup) (peers : List Peer) {id : Ident} {q : Peer}
    (h : l.peer? id = some q) : (l.addPeers peers).peer? id = some q := by
  rw [addPeers_eq]
  induction peers generalizing l with
  | nil => exact h
  | cons p rest ih =>
    refine ih (l.addPeer p) ?_
    by_cases hp : p.id = l.owner
    · rwa [addPeer, if_pos hp]
    · rw [peer?_addPeer hp]
      split
      next => rw [h, Option.getD_some]
      next => exact h

theorem pump_remembers {l : Lookup} (h : l.Coherent) (now : Time) : Remembers l (l.pump now) := by
  obtain ⟨m, out, ha, -, -, hc⟩ := pump_cases h now
  have hm : ∀ id, m.peer? id = l.peer? id := fun id => by rw [ha.frame]; rfl
  rcases hc with ⟨-, he⟩ | ⟨-, he⟩
  all_goals
    rw [he]
    exact ⟨fun id q hq => (hm id).trans hq, fun o ho => (hm _).trans (ha.sent o ho).2.2.1⟩

theorem remembers_compositional : Compositional Remembers where
  stay l := ⟨fun _ _ h => h, nofun⟩
  trans l r s _ hr hs := by
    refine ⟨fun id q hq => hs.keeps id q (hr.keeps id q hq), ?_⟩
    intro o ho
    rcases List.mem_append.mp ho with ho | ho
    · exact hs.keeps _ _ (hr.sent o ho)
    · exact hs.sent o ho
  failure l now id _ h _ _ _ := by
    have hk : (l.settle id .failed).Coherent := settle_coherent h.coherent id (by simp)
    have hp := pump_remembers hk now
    exact ⟨fun other q hq => hp.keeps other q hq, hp.sent⟩
  answer l now sender peers content h _ := by
    have hk := taken_coherent h.coherent sender peers content
    have ht : ∀ id q, l.peer? id = some q → (l.taken sender peers content).peer? id = some q :=
      fun id q hq => addPeers_keeps (l.settle sender .finished) peers hq
    unfold answered
    split
    · exact ⟨ht, nofun⟩
    · have hp := pump_remembers hk now
      exact ⟨fun id q hq => hp.keeps id q (ht id q hq), hp.sent⟩

theorem peer?_of_mem_finding {l : Lookup} (h : l.Coherent) {q : Peer}
    (hq : q ∈ l.finding.peers) : l.peer? q.id = some q := by
  have hclosest : q ∈ l.finding.nearby → l.peer? q.id = some q := fun hn =>
    (mem_finding_nearby h hn).2.2
  have hknown : ∀ id, l.peer? id = some q → l.peer? q.id = some q := fun id hp => by
    rwa [peer?_id hp]
  cases hp : l.pursuit with
  | closest table =>
    simp only [finding, hp, Finding.peers, Finding.nearby] at hq hclosest
    exact hclosest hq
  | members of wanted found =>
    simp only [finding, hp, Finding.peers, Finding.nearby] at hq hclosest
    exact hclosest hq
  | value found =>
    simp only [finding, hp, Finding.peers, Finding.nearby, List.mem_append,
      Option.mem_toList] at hq hclosest
    rcases hq with (hq | hq) | hq
    · obtain ⟨id, -, hid⟩ := Option.bind_eq_some_iff.mp hq
      exact hknown id hid
    · obtain ⟨id, -, hid⟩ := List.exists_of_findSome?_eq_some hq
      exact hknown id hid
    · exact hclosest hq

end Addresses

/-- In every run the requests go to different peers, none of them the owner. Each request, and
each peer that the finding names, has the address under which the peer was named first, among the
closest peers at the start and then in the accepted responses. At the start and in every further
call, the peers that enter progress are those to whom a request is sent, one request each, at a
moment when the peer is pending, no closer contact is pending, and fewer than `k` contacts that have
not failed are closer. -/
theorem asks_once_when_due (context : UInt64) (p : Parameters) (d : Directory) (goal : Goal)
    (start : Time) (calls : List Call) :
    let fresh := Lookup.new context p d goal
    let r := fresh.life start calls
    let known := foreign d.owner
      (d.closest goal.table goal.target none ++ (fresh.start start).1.heard calls)
    (recipients r.2.requests).Nodup ∧
    d.owner ∉ recipients r.2.requests ∧
    (∀ o ∈ r.2.requests, known.find? (fun s => s.id = o.recipient.id) = some o.recipient) ∧
    (∀ f, r.2.finding = some f → ∀ q ∈ f.peers, known.find? (fun s => s.id = q.id) = some q) ∧
    Orderly goal.target p.k fresh (fresh.pumping start) (fresh.start start) ∧
    ∀ c, Orderly goal.target p.k r.1 (r.1.moments c) (r.1.step c) := by
  intro fresh r known
  have hc := new_coherent context p d goal
  have hf := new_finished context p d goal
  obtain ⟨hs, ht⟩ := life_steady hc start calls
  have hnew := new_sameTask context p d goal
  have htask := hnew.trans ht
  have hone : AsksOnce fresh r :=
    asksOnce_compositional.life hc start calls (start_asksOnce hc hf start)
  have haddress : Remembers fresh r :=
    remembers_compositional.life hc start calls (pump_remembers hc start)
  have hknows : r.1.Knows known := life_knows context p d goal start calls
  refine ⟨hone.distinct, ?_, ?_, ?_, ?_, ?_⟩
  · intro hm
    obtain ⟨q, hq, -⟩ := hone.asked _ hm
    have howner : r.1.owner = d.owner := htask.owner
    have hu := hs.coherent.owner_unknown
    rw [howner, hq] at hu
    cases hu
  · intro o ho
    exact (hknows _).symm.trans (haddress.sent o ho)
  · intro f hfound q hq
    have hfinding := life_finding context p d goal start calls
    simp only [] at hfinding
    rw [hfound] at hfinding
    split at hfinding
    next =>
      cases hfinding
      exact (hknows _).symm.trans (peer?_of_mem_finding hs.coherent hq)
    next => cases hfinding
  · have ho := start_orderly hc hf start
    rwa [hnew.k, hnew.centre] at ho
  · intro c
    have ho := step_orderly hs c
    rwa [htask.k, htask.centre] at ho

end Lookup

end Kademlia
