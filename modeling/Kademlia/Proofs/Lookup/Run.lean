import Kademlia.Proofs.Lookup.Asking

/-!
Runs of a lookup: it starts once and then takes any calls at any times. What a single response or a
single failure does is said once here. A sweep is nothing but failures one after the other, so what
an accepted response and a failure do, every call and every run does.
-/

namespace Kademlia

theorem Effects.append_assoc (e f g : Effects) :
    (e.append f).append g = e.append (f.append g) := by
  simp [Effects.append, Option.or_assoc]

theorem Effects.append_idle (e : Effects) : e.append {} = e := by
  simp [Effects.append]

namespace Lookup

inductive Call where
  | respond (now : Time) (sender : Ident) (peers : List Peer) (content : Content)
  | giveUp (now : Time) (id : Ident)
  | sweep (now : Time)

/-- Takes one call; a response that is refused changes nothing. -/
def step (l : Lookup) : Call → Lookup × Effects
  | .respond now sender peers content =>
    match l.respond now sender peers content with
    | .ok r => r
    | .error _ => (l, {})
  | .giveUp now id => l.giveUp now id
  | .sweep now => l.sweep now

def play (l : Lookup) : List Call → Lookup × Effects
  | [] => (l, {})
  | c :: calls =>
    let (l, effects) := l.step c
    let (l, more) := l.play calls
    (l, effects.append more)

theorem play_append (l : Lookup) (calls more : List Call) :
    l.play (calls ++ more) =
      (((l.play calls).1.play more).1,
        (l.play calls).2.append ((l.play calls).1.play more).2) := by
  induction calls generalizing l with
  | nil => simp [play, Effects.append]
  | cons c calls ih => simp [play, ih, Effects.append_assoc]

def life (l : Lookup) (now : Time) (calls : List Call) : Lookup × Effects :=
  let (l, effects) := l.start now
  let (l, more) := l.play calls
  (l, effects.append more)

theorem life_append (l : Lookup) (now : Time) (calls more : List Call) :
    l.life now (calls ++ more) =
      (((l.life now calls).1.play more).1,
        (l.life now calls).2.append ((l.life now calls).1.play more).2) := by
  simp only [life, play_append, Effects.append_assoc]

section Inversion

/-- The lookup is running, and asked the peer without an answer so far. -/
def Awaits (l : Lookup) (sender : Ident) : Prop :=
  l.finished = false ∧
    (l.frontier.progress? sender = some .inProgress ∨ l.frontier.progress? sender = some .failed)

/-- The lookup with an accepted response taken in, before it goes on. -/
def taken (l : Lookup) (sender : Ident) (peers : List Peer) (content : Content) : Lookup :=
  { (l.settle sender .finished).addPeers peers with
    pursuit := (takeIn sender l.pursuit content).1 }

def answered (l : Lookup) (now : Time) (sender : Ident) (peers : List Peer) (content : Content) :
    Lookup × Effects :=
  if (takeIn sender l.pursuit content).2 then (l.taken sender peers content).finish
  else (l.taken sender peers content).pump now

theorem addPeers_pursuit (l : Lookup) (peers : List Peer) :
    (l.addPeers peers).pursuit = l.pursuit := by
  obtain ⟨f, a, he, -⟩ := addPeers_frame l peers
  rw [he]

theorem respond_awaited {l : Lookup} {sender : Ident} (h : l.Awaits sender) (now : Time)
    (peers : List Peer) (content : Content) :
    l.respond now sender peers content = .ok (l.answered now sender peers content) := by
  have hp : ((l.settle sender .finished).addPeers peers).pursuit = l.pursuit :=
    addPeers_pursuit _ _
  obtain ⟨hf, hg | hg⟩ := h
  all_goals simp [respond, hf, hg, hp, taken, answered]

theorem respond_finished {l : Lookup} (h : l.finished = true) (now : Time) (sender : Ident)
    (peers : List Peer) (content : Content) :
    l.respond now sender peers content = .ok (l, {}) := by
  simp [respond, h]

theorem respond_refused {l : Lookup} {sender : Ident} (hf : l.finished = false)
    (h : ¬ l.Awaits sender) (now : Time) (peers : List Peer) (content : Content) :
    l.respond now sender peers content =
      .error (.unexpectedResponse l.context sender (l.frontier.progress? sender)) := by
  simp only [Awaits, hf, true_and, not_or] at h
  unfold respond
  split
  · simp_all
  · split <;> simp_all

theorem giveUp_cases (l : Lookup) (now : Time) (id : Ident) :
    l.giveUp now id = (l, {}) ∨
      l.finished = false ∧ (∃ p, l.frontier.progress? id = some p ∧ p ≠ .finished) ∧
        l.giveUp now id = (l.settle id .failed).pump now := by
  unfold giveUp
  split
  next => exact Or.inl rfl
  next hf =>
    split
    next => exact Or.inl rfl
    next => exact Or.inl rfl
    next p hne hp =>
      refine Or.inr ⟨by simpa using hf, ⟨p, hp, ?_⟩, rfl⟩
      rintro rfl
      exact hne rfl

end Inversion

section Parameters

structure SameTask (l m : Lookup) : Prop where
  context : m.context = l.context
  owner : m.owner = l.owner
  target : m.target = l.target
  alpha : m.alpha = l.alpha
  timeout : m.timeout = l.timeout
  k : m.frontier.k = l.frontier.k
  centre : m.frontier.target = l.frontier.target

theorem SameTask.refl (l : Lookup) : SameTask l l := ⟨rfl, rfl, rfl, rfl, rfl, rfl, rfl⟩

theorem SameTask.trans {l m n : Lookup} (h : SameTask l m) (k : SameTask m n) : SameTask l n :=
  ⟨k.context.trans h.context, k.owner.trans h.owner, k.target.trans h.target,
    k.alpha.trans h.alpha, k.timeout.trans h.timeout, k.k.trans h.k, k.centre.trans h.centre⟩

theorem addPeers_sameTask (l : Lookup) (peers : List Peer) : SameTask l (l.addPeers peers) := by
  obtain ⟨f, a, he, -, hk, ht⟩ := addPeers_frame l peers
  rw [he]
  exact ⟨rfl, rfl, rfl, rfl, rfl, hk, ht⟩

theorem settle_sameTask (l : Lookup) (id : Ident) (progress : Progress) :
    SameTask l (l.settle id progress) :=
  ⟨rfl, rfl, rfl, rfl, rfl, Frontier.mark_k .., Frontier.mark_target ..⟩

theorem taken_sameTask (l : Lookup) (sender : Ident) (peers : List Peer) (content : Content) :
    SameTask l (l.taken sender peers content) := by
  have h := (settle_sameTask l sender .finished).trans (addPeers_sameTask _ peers)
  exact ⟨h.context, h.owner, h.target, h.alpha, h.timeout, h.k, h.centre⟩

theorem Asked.sameTask {now : Time} {l m : Lookup} {out : List Outgoing}
    (h : Asked now l m out) : SameTask l m := by
  have hf := h.frame
  exact ⟨by rw [hf], by rw [hf], by rw [hf], by rw [hf], by rw [hf], h.k, h.target⟩

theorem pump_sameTask {l : Lookup} (h : l.Coherent) (now : Time) :
    SameTask l (l.pump now).1 := by
  obtain ⟨m, out, ha, -, -, ⟨-, he⟩ | ⟨-, he⟩⟩ := pump_cases h now
  · have hs := ha.sameTask
    rw [he]
    exact ⟨hs.context, hs.owner, hs.target, hs.alpha, hs.timeout, hs.k, hs.centre⟩
  · rw [he]
    exact ha.sameTask

end Parameters

section Steadiness

structure Steady (l : Lookup) : Prop where
  coherent : l.Coherent
  busy : l.finished = false → l.Busy
  going : l.finished = false → ¬ l.Exhausted

theorem Coherent.ended {l : Lookup} (h : l.Coherent) : ({ l with finished := true }).Coherent :=
  ⟨h.frontier, h.active_nodup, h.active_iff, h.addressed, h.owner_unknown, h.bounded⟩

theorem taken_coherent {l : Lookup} (h : l.Coherent) (sender : Ident) (peers : List Peer)
    (content : Content) : (l.taken sender peers content).Coherent := by
  have hq : (l.settle sender .finished).Coherent := settle_coherent h sender (by simp)
  have hs := addPeers_coherent hq peers
  exact ⟨hs.frontier, hs.active_nodup, hs.active_iff, hs.addressed, hs.owner_unknown, hs.bounded⟩

theorem taken_finished (l : Lookup) (sender : Ident) (peers : List Peer) (content : Content) :
    (l.taken sender peers content).finished = l.finished := by
  obtain ⟨f, a, he, -⟩ := addPeers_frame (l.settle sender .finished) peers
  change ((l.settle sender .finished).addPeers peers).finished = l.finished
  rw [he]
  rfl

theorem pump_steady {l : Lookup} (h : l.Coherent) (now : Time) : (l.pump now).1.Steady := by
  obtain ⟨m, out, -, hk, hb, ⟨-, he⟩ | ⟨hg, he⟩⟩ := pump_cases h now
  · rw [he]
    exact ⟨hk.ended, by simp, by simp⟩
  · rw [he]
    exact ⟨hk, fun _ => hb, fun _ => hg⟩

theorem answered_steady {l : Lookup} (h : l.Coherent) (now : Time) (sender : Ident)
    (peers : List Peer) (content : Content) :
    (l.answered now sender peers content).1.Steady ∧
      SameTask l (l.answered now sender peers content).1 := by
  have hk := taken_coherent h sender peers content
  have ht := taken_sameTask l sender peers content
  unfold answered
  split
  · exact ⟨⟨hk.ended, by simp [finish], by simp [finish]⟩,
      ht.context, ht.owner, ht.target, ht.alpha, ht.timeout, ht.k, ht.centre⟩
  · exact ⟨pump_steady hk now, ht.trans (pump_sameTask hk now)⟩

theorem failed_steady {l : Lookup} (h : l.Coherent) (now : Time) (id : Ident) :
    ((l.settle id .failed).pump now).1.Steady ∧
      SameTask l ((l.settle id .failed).pump now).1 := by
  have hk : (l.settle id .failed).Coherent := settle_coherent h id (by simp)
  exact ⟨pump_steady hk now, (settle_sameTask l id .failed).trans (pump_sameTask hk now)⟩

end Steadiness

section Induction

/-- What holds of a step that changes nothing, of a counted failure, and of two steps in a row. -/
structure Sequential (R : Lookup → Lookup × Effects → Prop) : Prop where
  stay : ∀ l, R l (l, {})
  trans : ∀ l r s, SameTask l r.1 → R l r → R r.1 s → R l (s.1, r.2.append s.2)
  failure : ∀ l now id p, l.Steady → l.finished = false → l.frontier.progress? id = some p →
    p ≠ .finished → R l ((l.settle id .failed).pump now)

/-- What holds of an accepted response besides. -/
structure Compositional (R : Lookup → Lookup × Effects → Prop) : Prop extends Sequential R where
  answer : ∀ l now sender peers content, l.Steady → l.Awaits sender →
    R l (l.answered now sender peers content)

variable {R : Lookup → Lookup × Effects → Prop}

theorem Sequential.giveUp (hR : Sequential R) {l : Lookup} (h : l.Steady) (now : Time)
    (id : Ident) : R l (l.giveUp now id) := by
  rcases giveUp_cases l now id with he | ⟨hf, ⟨p, hp, hne⟩, he⟩
  · rw [he]
    exact hR.stay l
  · rw [he]
    exact hR.failure l now id p h hf hp hne

theorem Compositional.respond (hR : Compositional R) {l : Lookup} (h : l.Steady) {now : Time}
    {sender : Ident} {peers : List Peer} {content : Content} {r : Lookup × Effects}
    (hr : l.respond now sender peers content = .ok r) : R l r := by
  by_cases hf : l.finished = true
  · rw [respond_finished hf] at hr
    cases hr
    exact hR.stay l
  · rw [Bool.not_eq_true] at hf
    by_cases hw : l.Awaits sender
    · rw [respond_awaited hw] at hr
      cases hr
      exact hR.answer l now sender peers content h hw
    · rw [respond_refused hf hw] at hr
      cases hr

theorem steady_compositional :
    Compositional fun l r => l.Steady → r.1.Steady ∧ SameTask l r.1 where
  stay l h := ⟨h, .refl l⟩
  trans _ _ _ _ hr hs h := ⟨(hs (hr h).1).1, (hr h).2.trans (hs (hr h).1).2⟩
  failure _ now id _ h _ _ _ _ := failed_steady h.coherent now id
  answer _ now sender peers content h _ _ := answered_steady h.coherent now sender peers content

theorem giveUp_steady {l : Lookup} (h : l.Steady) (now : Time) (id : Ident) :
    (l.giveUp now id).1.Steady ∧ SameTask l (l.giveUp now id).1 :=
  steady_compositional.giveUp h now id h

theorem Sequential.giveUpAll (hR : Sequential R) {l : Lookup} (h : l.Steady) (now : Time)
    (ids : List Ident) : R l (giveUpAll now ids l) := by
  induction ids generalizing l with
  | nil => exact hR.stay l
  | cons id ids ih =>
    have hg := giveUp_steady h now id
    exact hR.trans l _ _ hg.2 (hR.giveUp h now id) (ih hg.1)

theorem Sequential.sweep (hR : Sequential R) {l : Lookup} (h : l.Steady) (now : Time) :
    R l (l.sweep now) := by
  unfold Lookup.sweep
  split
  · exact hR.stay l
  · exact hR.giveUpAll h now _

theorem Compositional.step (hR : Compositional R) {l : Lookup} (h : l.Steady) (c : Call) :
    R l (l.step c) := by
  cases c with
  | respond now sender peers content =>
    simp only [Lookup.step]
    split
    next r hr => exact hR.respond h hr
    next => exact hR.stay l
  | giveUp now id => exact hR.giveUp h now id
  | sweep now => exact hR.sweep h now

theorem step_steady {l : Lookup} (h : l.Steady) (c : Call) :
    (l.step c).1.Steady ∧ SameTask l (l.step c).1 :=
  steady_compositional.step h c h

theorem Compositional.play (hR : Compositional R) {l : Lookup} (h : l.Steady)
    (calls : List Call) : R l (l.play calls) := by
  induction calls generalizing l with
  | nil => exact hR.stay l
  | cons c calls ih =>
    have hc := step_steady h c
    exact hR.trans l _ _ hc.2 (hR.step h c) (ih hc.1)

theorem play_steady {l : Lookup} (h : l.Steady) (calls : List Call) :
    (l.play calls).1.Steady ∧ SameTask l (l.play calls).1 :=
  steady_compositional.play h calls h

end Induction

section Life

theorem blank_coherent {l : Lookup} (hf : l.frontier.contacts = []) (hi : l.frontier.inFlight = 0)
    (ha : l.addresses = {}) (hn : l.active = []) : l.Coherent := by
  have hp : ∀ id, l.frontier.progress? id = none := by
    intro id
    simp [Frontier.progress?, hf]
  refine ⟨⟨?_, ?_⟩, ?_, ?_, ?_, hp _, ?_⟩
  · rw [hf]
    exact List.Pairwise.nil
  · rw [hf, hi]
    rfl
  · simp [hn]
  · simp [hn, hp]
  · simp [hp, peer?, ha, Catalog.get?]
  · simp [hi]

def blank (context : UInt64) (p : Parameters) (d : Directory) (goal : Goal) : Lookup :=
  { context
    owner := d.owner
    target := goal.target
    alpha := p.alpha
    timeout := p.requestTimeout
    frontier := Frontier.new p.k goal.target
    pursuit := begin p.k goal }

variable (context : UInt64) (p : Parameters) (d : Directory) (goal : Goal)

theorem new_eq : Lookup.new context p d goal =
    (blank context p d goal).addPeers (d.closest goal.table goal.target none) := rfl

theorem new_coherent : (Lookup.new context p d goal).Coherent :=
  addPeers_coherent (blank_coherent rfl rfl rfl rfl) _

theorem new_sameTask : SameTask (blank context p d goal) (Lookup.new context p d goal) :=
  addPeers_sameTask _ _

theorem new_finished : (Lookup.new context p d goal).finished = false := by
  obtain ⟨f, a, he, -⟩ := addPeers_frame (blank context p d goal)
    (d.closest goal.table goal.target none)
  rw [new_eq, he]
  rfl

theorem new_active : (Lookup.new context p d goal).active = [] := by
  obtain ⟨f, a, he, -⟩ := addPeers_frame (blank context p d goal)
    (d.closest goal.table goal.target none)
  rw [new_eq, he]
  rfl

theorem start_steady {l : Lookup} (h : l.Coherent) (now : Time) :
    (l.start now).1.Steady ∧ SameTask l (l.start now).1 :=
  ⟨pump_steady h now, pump_sameTask h now⟩

theorem life_steady {l : Lookup} (h : l.Coherent) (now : Time) (calls : List Call) :
    (l.life now calls).1.Steady ∧ SameTask l (l.life now calls).1 := by
  have hs := start_steady h now
  have hp := play_steady hs.1 calls
  exact ⟨hp.1, hs.2.trans hp.2⟩

/-- A relation that holds of the start and of every run holds of a whole life. -/
theorem Compositional.life {R : Lookup → Lookup × Effects → Prop} (hR : Compositional R)
    {l : Lookup} (h : l.Coherent) (now : Time) (calls : List Call) (hs : R l (l.start now)) :
    R l (l.life now calls) := by
  have ht := start_steady h now
  exact hR.trans l _ _ ht.2 hs (hR.play ht.1 calls)

end Life

end Lookup

end Kademlia
