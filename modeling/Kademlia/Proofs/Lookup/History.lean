import Mathlib.Data.Finset.Card
import Mathlib.Data.Finset.Basic
import Kademlia.Proofs.Lookup.Run

/-!
What a run tells about the past of a lookup: who has answered, whom it has heard of, whether its
content became complete, and that it delivers one finding, which is what its records show in the
end.
-/

namespace Kademlia.Lookup

section Accepted

/-- The sender of a call and the peers that it names, if it is a response that a running lookup
accepts. -/
def accepts (l : Lookup) : Call → List (Ident × List Peer)
  | .respond now sender peers content =>
    match l.finished, l.respond now sender peers content with
    | false, .ok _ => [(sender, peers)]
    | _, _ => []
  | _ => []

def accepted (l : Lookup) : List Call → List (Ident × List Peer)
  | [] => []
  | c :: calls => l.accepts c ++ (l.step c).1.accepted calls

def answerers (l : Lookup) (calls : List Call) : List Ident := (l.accepted calls).map Prod.fst

def heard (l : Lookup) (calls : List Call) : List Peer := (l.accepted calls).flatMap Prod.snd

theorem respond_step (l : Lookup) (now : Time) (sender : Ident) (peers : List Peer)
    (content : Content) :
    (l.Awaits sender ∧
      l.step (.respond now sender peers content) = l.answered now sender peers content ∧
      l.accepts (.respond now sender peers content) = [(sender, peers)]) ∨
    (¬ l.Awaits sender ∧ l.step (.respond now sender peers content) = (l, {}) ∧
      l.accepts (.respond now sender peers content) = []) := by
  by_cases hw : l.Awaits sender
  · have hr := respond_awaited hw now peers content
    exact Or.inl ⟨hw, by simp [step, hr], by simp [accepts, hr, hw.1]⟩
  · refine Or.inr ⟨hw, ?_⟩
    by_cases hf : l.finished = true
    · have hr := respond_finished hf now sender peers content
      exact ⟨by simp [step, hr], by simp [accepts, hf]⟩
    · rw [Bool.not_eq_true] at hf
      have hr := respond_refused hf hw now peers content
      exact ⟨by simp [step, hr], by simp [accepts, hr]⟩

end Accepted

section Answers

theorem addPeers_finished_iff {l : Lookup} (h : l.Coherent) (peers : List Peer) (id : Ident) :
    (l.addPeers peers).frontier.progress? id = some .finished ↔
      l.frontier.progress? id = some .finished := by
  rcases addPeers_progress h peers id with he | ⟨hn, he⟩
  · rw [he]
  · simp [hn, he]

theorem pump_finished_iff {l : Lookup} (h : l.Coherent) (now : Time) (id : Ident) :
    (l.pump now).1.frontier.progress? id = some .finished ↔
      l.frontier.progress? id = some .finished := by
  rcases pump_progress h now id with he | ⟨hp, he⟩
  · rw [he]
  · simp [hp, he]

theorem finished_sequential : Sequential fun l r => ∀ id,
    r.1.frontier.progress? id = some .finished ↔ l.frontier.progress? id = some .finished where
  stay _ _ := Iff.rfl
  trans _ _ _ _ hr hs id := (hs id).trans (hr id)
  failure l now id p h _ hp hne other := by
    rw [pump_finished_iff (settle_coherent h.coherent id (by simp)), progress?_settle
      h.coherent.frontier]
    by_cases hi : other = id
    · subst hi
      simp [hp, hne]
    · rw [if_neg hi]

theorem taken_finished_iff {l : Lookup} (h : l.Coherent) {sender : Ident} (hw : l.Awaits sender)
    (peers : List Peer) (content : Content) (id : Ident) :
    (l.taken sender peers content).frontier.progress? id = some .finished ↔
      l.frontier.progress? id = some .finished ∨ id = sender := by
  have hs : (l.settle sender .finished).Coherent := settle_coherent h sender (by simp)
  refine (addPeers_finished_iff hs peers id).trans ?_
  rw [progress?_settle h.frontier]
  by_cases hi : id = sender
  · subst hi
    rcases hw.2 with hp | hp <;> simp [hp]
  · simp [hi]

theorem step_finished_iff {l : Lookup} (hs : l.Steady) (c : Call) (id : Ident) :
    (l.step c).1.frontier.progress? id = some .finished ↔
      l.frontier.progress? id = some .finished ∨ id ∈ (l.accepts c).map Prod.fst := by
  cases c with
  | giveUp now other => simpa [step, accepts] using finished_sequential.giveUp hs now other id
  | sweep now => simpa [step, accepts] using finished_sequential.sweep hs now id
  | respond now sender peers content =>
    rcases l.respond_step now sender peers content with ⟨hw, hr, ha⟩ | ⟨-, hr, ha⟩
    · rw [hr, ha, List.map_singleton, List.mem_singleton,
        ← taken_finished_iff hs.coherent hw peers content]
      unfold answered
      split
      · rfl
      · exact pump_finished_iff (taken_coherent hs.coherent sender peers content) now id
    · simp [hr, ha]

theorem play_finished_iff {l : Lookup} (hs : l.Steady) (calls : List Call) (id : Ident) :
    (l.play calls).1.frontier.progress? id = some .finished ↔
      l.frontier.progress? id = some .finished ∨ id ∈ l.answerers calls := by
  induction calls generalizing l with
  | nil => simp [play, answerers, accepted]
  | cons c calls ih =>
    refine (ih (step_steady hs c).1).trans ?_
    rw [step_finished_iff hs c, or_assoc]
    simp only [answerers, accepted, List.map_append, List.mem_append]

/-- After its life a lookup knows to have answered who did so after its start. -/
theorem life_finished_iff (context : UInt64) (p : Parameters) (d : Directory) (goal : Goal)
    (start : Time) (calls : List Call) (id : Ident) :
    ((Lookup.new context p d goal).life start calls).1.frontier.progress? id = some .finished ↔
      id ∈ ((Lookup.new context p d goal).start start).1.answerers calls := by
  have hc := new_coherent context p d goal
  have hn : (Lookup.new context p d goal).frontier.progress? id ≠ some .finished := by
    rw [new_eq, Ne, addPeers_finished_iff (blank_coherent rfl rfl rfl rfl)]
    simp [blank, Frontier.new, Frontier.progress?]
  refine (play_finished_iff (start_steady hc start).1 calls id).trans ?_
  rw [Lookup.start, pump_finished_iff hc]
  simp [hn]

end Answers

section Heard

def foreign (owner : Ident) (peers : List Peer) : List Peer :=
  peers.filter fun p => p.id ≠ owner

/-- The contacts are the given peers, each under the first address given. -/
def Knows (l : Lookup) (known : List Peer) : Prop :=
  ∀ id, l.peer? id = known.find? fun p => p.id = id

theorem addPeers_knows {l : Lookup} {known : List Peer} (h : l.Knows known) (peers : List Peer) :
    (l.addPeers peers).Knows (known ++ foreign l.owner peers) := by
  rw [addPeers_eq]
  induction peers generalizing l known with
  | nil => simpa [foreign] using h
  | cons p rest ih =>
    by_cases hp : p.id = l.owner
    · have hf : foreign l.owner (p :: rest) = foreign l.owner rest := by simp [foreign, hp]
      rw [List.foldl_cons, addPeer, if_pos hp, hf]
      exact ih h
    · have hf : foreign l.owner (p :: rest) = p :: foreign l.owner rest := by simp [foreign, hp]
      have ho : (l.addPeer p).owner = l.owner := by simp [addPeer, hp]
      have hk : (l.addPeer p).Knows (known ++ [p]) := by
        intro id
        rw [peer?_addPeer hp, h id, List.find?_append]
        by_cases hi : id = p.id
        · subst hi
          cases known.find? fun q => q.id = p.id <;> simp
        · simp [hi, Ne.symm hi]
      have := ih hk
      rw [ho, List.append_assoc, List.singleton_append] at this
      rwa [List.foldl_cons, hf]

theorem new_knows (context : UInt64) (p : Parameters) (d : Directory) (goal : Goal) :
    (Lookup.new context p d goal).Knows
      (foreign d.owner (d.closest goal.table goal.target none)) := by
  have hb : (blank context p d goal).Knows [] := fun id => rfl
  exact addPeers_knows hb (d.closest goal.table goal.target none)

theorem pump_knows {l : Lookup} (hc : l.Coherent) {known : List Peer} (h : l.Knows known)
    (now : Time) : (l.pump now).1.Knows known := by
  obtain ⟨m, out, ha, -, -, ⟨-, he⟩ | ⟨-, he⟩⟩ := pump_cases hc now
  all_goals
    intro id
    rw [he, ha.frame]
    exact h id

theorem knows_sequential (known : List Peer) :
    Sequential fun l r => l.Knows known → r.1.Knows known where
  stay _ h := h
  trans _ _ _ _ hr hs h := hs (hr h)
  failure l now id _ hs _ _ _ h := by
    have hk : (l.settle id .failed).Knows known := h
    exact pump_knows (settle_coherent hs.coherent id (by simp)) hk now

theorem answered_knows {l : Lookup} (hc : l.Coherent) {known : List Peer} (h : l.Knows known)
    (now : Time) (sender : Ident) (peers : List Peer) (content : Content) :
    (l.answered now sender peers content).1.Knows (known ++ foreign l.owner peers) := by
  have ht : (l.taken sender peers content).Knows (known ++ foreign l.owner peers) :=
    addPeers_knows (l := l.settle sender .finished) h peers
  unfold answered
  split
  · exact ht
  · exact pump_knows (taken_coherent hc sender peers content) ht now

theorem step_knows {l : Lookup} (hs : l.Steady) {known : List Peer} (h : l.Knows known)
    (c : Call) :
    (l.step c).1.Knows (known ++ foreign l.owner ((l.accepts c).flatMap Prod.snd)) := by
  cases c with
  | giveUp now id =>
    simpa [step, accepts, foreign] using (knows_sequential known).giveUp hs now id h
  | sweep now => simpa [step, accepts, foreign] using (knows_sequential known).sweep hs now h
  | respond now sender peers content =>
    rcases l.respond_step now sender peers content with ⟨-, hr, ha⟩ | ⟨-, hr, ha⟩
    · have hk := answered_knows hs.coherent h now sender peers content
      simpa [hr, ha] using hk
    · simpa [hr, ha, foreign] using h

theorem play_knows {l : Lookup} (hs : l.Steady) {known : List Peer} (h : l.Knows known)
    (calls : List Call) : (l.play calls).1.Knows (known ++ foreign l.owner (l.heard calls)) := by
  induction calls generalizing l known with
  | nil => simpa [play, heard, accepted, foreign] using h
  | cons c calls ih =>
    have hc := step_steady hs c
    have := ih hc.1 (step_knows hs h c)
    rw [hc.2.owner, List.append_assoc] at this
    simpa [play, heard, accepted, foreign] using this

end Heard

section Delivery

/-- A lookup that has ended does nothing, and one that ends delivers what its records show. -/
def Delivers (l : Lookup) (r : Lookup × Effects) : Prop :=
  (l.finished = true → r = (l, {})) ∧
  (l.finished = false → r.2.finding = if r.1.finished = true then some r.1.finding else none)

theorem pump_delivers {l : Lookup} (h : l.Coherent) (hf : l.finished = false) (now : Time) :
    (l.pump now).2.finding =
      if (l.pump now).1.finished = true then some (l.pump now).1.finding else none := by
  obtain ⟨m, out, ha, -, -, ⟨-, he⟩ | ⟨-, he⟩⟩ := pump_cases h now
  · rw [he]
    rfl
  · have hm : m.finished = false := by rw [ha.frame, hf]
    rw [he]
    simp [hm]

theorem delivers_compositional : Compositional Delivers where
  stay l := ⟨fun _ => rfl, fun hf => by simp [hf]⟩
  trans l r s _ hr hs := by
    constructor
    · intro hf
      have he := hr.1 hf
      have hs := hs.1 (by rw [he]; exact hf)
      rw [hs, he]
      simp [Effects.append]
    · intro hf
      have hr := hr.2 hf
      by_cases hm : r.1.finished = true
      · have hs := hs.1 hm
        simp [hs, hr, hm, Effects.append]
      · rw [Bool.not_eq_true] at hm
        have hs := hs.2 hm
        simp [Effects.append, hr, hm, hs]
  failure l now id p h hf _ _ :=
    ⟨by simp [hf], fun _ => pump_delivers (settle_coherent h.coherent id (by simp)) hf now⟩
  answer l now sender peers content h hw := by
    have hf : (l.taken sender peers content).finished = false := by rw [taken_finished, hw.1]
    refine ⟨by simp [hw.1], fun _ => ?_⟩
    unfold answered
    split
    · rfl
    · exact pump_delivers (taken_coherent h.coherent sender peers content) hf now

theorem life_finding (context : UInt64) (p : Parameters) (d : Directory) (goal : Goal)
    (start : Time) (calls : List Call) :
    let r := (Lookup.new context p d goal).life start calls
    r.2.finding = if r.1.finished = true then some r.1.finding else none := by
  intro r
  have hc := new_coherent context p d goal
  have hf := new_finished context p d goal
  have hs : Delivers (Lookup.new context p d goal) ((Lookup.new context p d goal).start start) :=
    ⟨by simp [hf], fun _ => pump_delivers hc hf start⟩
  exact (delivers_compositional.life hc start calls hs).2 hf

end Delivery

section Completion

def Distinct : Pursuit → Prop
  | .members _ _ found => (found.map Peer.id).Nodup
  | _ => True

/-- The content completes what a lookup is after: it is the value that is looked for, or with it
enough different members are known. -/
def CompletedBy : Pursuit → Content → Prop
  | .value _, .value (some _) => True
  | .members _ wanted found, .members members =>
    wanted ≤ ((found ++ members).map Peer.id).toFinset.card
  | _, _ => False

def Completes (l : Lookup) : Call → Prop
  | .respond now sender peers content =>
    l.finished = false ∧ (∃ r, l.respond now sender peers content = .ok r) ∧
      CompletedBy l.pursuit content
  | _ => False

def CutShort (l : Lookup) : List Call → Prop
  | [] => False
  | c :: calls => l.Completes c ∨ (l.step c).1.CutShort calls

theorem joinMembers_distinct {found : List Peer} (h : (found.map Peer.id).Nodup)
    (members : List Peer) :
    ((joinMembers found members).map Peer.id).Nodup ∧
      ((joinMembers found members).map Peer.id).toFinset =
        ((found ++ members).map Peer.id).toFinset := by
  induction members generalizing found with
  | nil => simpa [joinMembers] using h
  | cons m rest ih =>
    by_cases hm : (found.any fun p => p.id = m.id) = true
    · have hj : joinMembers found (m :: rest) = joinMembers found rest := by
        simp only [joinMembers, List.foldl_cons, hm, if_true]
      have hin : m.id ∈ found.map Peer.id := by
        simpa [List.any_eq_true, List.mem_map] using hm
      obtain ⟨hn, he⟩ := ih h
      refine ⟨hj ▸ hn, ?_⟩
      rw [hj, he]
      ext id
      simp only [List.map_append, List.map_cons, List.toFinset_append, Finset.mem_union,
        List.mem_toFinset, List.mem_cons]
      constructor
      · rintro (h | h)
        · exact Or.inl h
        · exact Or.inr (Or.inr h)
      · rintro (h | rfl | h)
        · exact Or.inl h
        · exact Or.inl hin
        · exact Or.inr h
    · have hj : joinMembers found (m :: rest) = joinMembers (found ++ [m]) rest := by
        simp only [joinMembers, List.foldl_cons, hm, Bool.false_eq_true, if_false]
      have hout : m.id ∉ found.map Peer.id := by
        simpa [List.any_eq_true, List.mem_map] using hm
      have hn : ((found ++ [m]).map Peer.id).Nodup := by
        rw [List.map_append, List.map_singleton]
        exact List.nodup_append.mpr ⟨h, List.nodup_singleton _, by
          rintro a ha b hb rfl
          rw [List.mem_singleton] at hb
          exact hout (hb ▸ ha)⟩
      rw [hj]
      simpa using ih hn

theorem joinMembers_length {found : List Peer} (h : (found.map Peer.id).Nodup)
    (members : List Peer) :
    (joinMembers found members).length = ((found ++ members).map Peer.id).toFinset.card := by
  obtain ⟨hn, he⟩ := joinMembers_distinct h members
  rw [← he, List.toFinset_card_of_nodup hn, List.length_map]

theorem takeIn_complete_iff {pursuit : Pursuit} (h : Distinct pursuit) (sender : Ident)
    (content : Content) :
    (takeIn sender pursuit content).2 = true ↔ CompletedBy pursuit content := by
  cases pursuit with
  | closest table => simp [takeIn, CompletedBy]
  | value found =>
    cases content with
    | value value => cases value <;> simp [takeIn, CompletedBy]
    | none => simp [takeIn, CompletedBy]
    | members members => simp [takeIn, CompletedBy]
  | members of wanted found =>
    cases content with
    | members members =>
      simp only [takeIn, CompletedBy, ← joinMembers_length h members]
      split
      next hw => simp [hw]
      next hw => simp [hw]
    | none => simp [takeIn, CompletedBy]
    | value value => simp [takeIn, CompletedBy]

theorem takeIn_distinct {pursuit : Pursuit} (h : Distinct pursuit) (sender : Ident)
    (content : Content) : Distinct (takeIn sender pursuit content).1 := by
  unfold takeIn
  split
  next => trivial
  next of wanted found members =>
    have hj := (joinMembers_distinct h members).1
    simp only []
    split
    · exact hj.sublist ((List.take_sublist _ _).map _)
    · exact hj
  next => exact h

theorem pump_pursuit {l : Lookup} (h : l.Coherent) (now : Time) :
    (l.pump now).1.pursuit = l.pursuit := by
  obtain ⟨m, out, ha, -, -, ⟨-, he⟩ | ⟨-, he⟩⟩ := pump_cases h now
  all_goals rw [he, ha.frame]

theorem distinct_compositional :
    Compositional fun l r => Distinct l.pursuit → Distinct r.1.pursuit where
  stay _ h := h
  trans _ _ _ _ hr hs h := hs (hr h)
  failure l now id _ hs _ _ _ h := by
    rw [pump_pursuit (settle_coherent hs.coherent id (by simp))]
    exact h
  answer l now sender peers content hs _ h := by
    have ht : Distinct (l.taken sender peers content).pursuit := takeIn_distinct h sender content
    unfold answered
    split
    · exact ht
    · rwa [pump_pursuit (taken_coherent hs.coherent sender peers content)]

/-- If it has ended, then because nothing was left to wait for. -/
def EndsExhausted (l : Lookup) : Prop := l.finished = true → l.Exhausted

theorem pump_endsExhausted {l : Lookup} (h : l.Coherent) (hf : l.finished = false) (now : Time) :
    (l.pump now).1.EndsExhausted := by
  obtain ⟨m, out, ha, -, -, ⟨hx, he⟩ | ⟨-, he⟩⟩ := pump_cases h now
  · rw [he]
    exact fun _ => hx
  · rw [he]
    intro hm
    rw [ha.frame] at hm
    simp [hf] at hm

theorem endsExhausted_sequential :
    Sequential fun l r => l.EndsExhausted → r.1.EndsExhausted where
  stay _ h := h
  trans _ _ _ _ hr hs h := hs (hr h)
  failure _ now id _ hs hf _ _ _ :=
    pump_endsExhausted (settle_coherent hs.coherent id (by simp)) hf now

theorem step_endsExhausted {l : Lookup} (hs : l.Steady) (hd : Distinct l.pursuit)
    (he : l.EndsExhausted) {c : Call} (hc : ¬ l.Completes c) : (l.step c).1.EndsExhausted := by
  cases c with
  | giveUp now id => exact endsExhausted_sequential.giveUp hs now id he
  | sweep now => exact endsExhausted_sequential.sweep hs now he
  | respond now sender peers content =>
    rcases l.respond_step now sender peers content with ⟨hw, hr, -⟩ | ⟨-, hr, -⟩
    · have hi : (takeIn sender l.pursuit content).2 = false := by
        rw [Bool.eq_false_iff, Ne, takeIn_complete_iff hd sender content]
        exact fun hcb => hc ⟨hw.1, ⟨_, respond_awaited hw now peers content⟩, hcb⟩
      have hp : l.answered now sender peers content =
          (l.taken sender peers content).pump now := by
        simp [answered, hi]
      rw [hr, hp]
      exact pump_endsExhausted (taken_coherent hs.coherent sender peers content)
        (by rw [taken_finished, hw.1]) now
    · rw [hr]
      exact he

theorem play_endsExhausted {l : Lookup} (hs : l.Steady) (hd : Distinct l.pursuit)
    (he : l.EndsExhausted) {calls : List Call} (hc : ¬ l.CutShort calls) :
    (l.play calls).1.EndsExhausted := by
  induction calls generalizing l with
  | nil => exact he
  | cons c calls ih =>
    rw [CutShort, not_or] at hc
    exact ih (step_steady hs c).1 (distinct_compositional.step hs c hd)
      (step_endsExhausted hs hd he hc.1) hc.2

end Completion

end Kademlia.Lookup
