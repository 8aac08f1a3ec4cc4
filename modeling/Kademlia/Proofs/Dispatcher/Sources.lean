import Kademlia.Proofs.Dispatcher.Moves
import Kademlia.Proofs.Lookup.Question

/-!
Where the content of findings comes from. A response is known to a lookup by its context only, and
whoever sends it chooses its kind. Main statement: in every run a value comes from a response about
a value, members come from responses about members, of groups of either kind, and a response of
another kind does no more than name closer peers.
-/

namespace Kademlia

abbrev Replies := List (Ident × Response)

def Replies.GiveValue (replies : Replies) (sender : Ident) (value : Bytes) : Prop :=
  ∃ context peers, (sender, .findValue context peers (some value)) ∈ replies

def Replies.NameMember (replies : Replies) (member : Peer) : Prop :=
  ∃ sender of context peers members,
    (sender, .findMembers of context peers members) ∈ replies ∧ member ∈ members

/-- The content that a finding shows comes from replies about content of its kind. -/
def Finding.BackedBy (replies : Replies) : Finding → Prop
  | .closest _ _ _ => True
  | .value _ shown _ _ _ => ∀ v, shown = some v → ∃ sender, replies.GiveValue sender v
  | .members _ _ shown => ∀ m ∈ shown, replies.NameMember m

def Pursuit.BackedBy (replies : Replies) : Pursuit → Prop
  | .closest _ => True
  | .value found => ∀ v sender, found = some (v, sender) → replies.GiveValue sender v
  | .members _ _ found => ∀ m ∈ found, replies.NameMember m

def Pursuit.FedBy : Pursuit → Response → Prop
  | .value _, .findValue _ _ _ => True
  | .members _ _ _, .findMembers _ _ _ _ => True
  | _, _ => False

section Backing

variable {replies more : Replies}

theorem Pursuit.BackedBy.mono {pursuit : Pursuit} (h : pursuit.BackedBy replies)
    (hs : replies ⊆ more) : pursuit.BackedBy more := by
  cases pursuit with
  | closest table => trivial
  | value found =>
    intro v sender hf
    obtain ⟨context, peers, hm⟩ := h v sender hf
    exact ⟨context, peers, hs hm⟩
  | members of wanted found =>
    intro m hm
    obtain ⟨sender, of, context, peers, members, ha, hin⟩ := h m hm
    exact ⟨sender, of, context, peers, members, hs ha, hin⟩

theorem Lookup.finding_backed {l : Lookup} (h : l.pursuit.BackedBy replies) :
    l.finding.BackedBy replies := by
  unfold finding
  cases hp : l.pursuit with
  | closest table => trivial
  | value found =>
    rw [hp] at h
    intro v hv
    obtain ⟨⟨v, sender⟩, hf, rfl⟩ := Option.map_eq_some_iff.mp hv
    exact ⟨sender, h v sender hf⟩
  | members of wanted found =>
    rw [hp] at h
    exact h

end Backing

namespace Lookup

section Taking

theorem Lived.question_eq {p : Parameters} {context : UInt64} {goal : Goal}
    {r : Lookup × Effects} (h : Lived p context goal r) : r.1.question = goal.question p.k := by
  obtain ⟨tables, start, calls, rfl⟩ := h
  exact (life_question context p tables goal start calls).1

theorem Lived.answers {p : Parameters} {context : UInt64} {goal : Goal} {r : Lookup × Effects}
    (h : Lived p context goal r) {f : Finding} (hf : r.2.finding = some f) :
    f.Answers (goal.question p.k) := by
  obtain ⟨tables, start, calls, rfl⟩ := h
  exact life_answers context p tables goal start calls hf

theorem mem_joinMembers {found members : List Peer} {m : Peer} (h : m ∈ joinMembers found members) :
    m ∈ found ∨ m ∈ members := by
  induction members generalizing found with
  | nil => exact Or.inl h
  | cons first rest ih =>
    rw [joinMembers, List.foldl_cons] at h
    rcases ih h with hm | hm
    · split at hm
      · exact Or.inl hm
      · rcases List.mem_append.mp hm with hm | hm
        · exact Or.inl hm
        · exact Or.inr (List.mem_cons.mpr (Or.inl (List.mem_singleton.mp hm)))
    · exact Or.inr (List.mem_cons_of_mem _ hm)

/-- A response of another kind is taken in like one that has no content. -/
theorem takeIn_unfed {pursuit : Pursuit} {response : Response} (h : ¬ pursuit.FedBy response)
    (sender : Ident) : takeIn sender pursuit response.content = (pursuit, false) := by
  cases pursuit <;> cases response <;> simp_all [Pursuit.FedBy, takeIn, Response.content]

theorem takeIn_backed {replies : Replies} {pursuit : Pursuit} (h : pursuit.BackedBy replies)
    (sender : Ident) (response : Response) :
    (takeIn sender pursuit response.content).1.BackedBy (replies ++ [(sender, response)]) := by
  have hmore := h.mono (List.subset_append_left replies [(sender, response)])
  have hlast : (sender, response) ∈ replies ++ [(sender, response)] := by simp
  by_cases hfed : pursuit.FedBy response
  · cases pursuit with
    | closest table => exact hfed.elim
    | value found =>
      cases response with
      | findNode => exact hfed.elim
      | findMembers => exact hfed.elim
      | findValue context peers value =>
        cases value with
        | none => exact hmore
        | some value =>
          intro v other hf
          cases hf
          exact ⟨context, peers, hlast⟩
    | members of wanted found =>
      cases response with
      | findNode => exact hfed.elim
      | findValue => exact hfed.elim
      | findMembers kind context peers members =>
        have hjoined : ∀ m ∈ joinMembers found members,
            Replies.NameMember (replies ++ [(sender, .findMembers kind context peers members)])
              m := by
          intro m hm
          rcases mem_joinMembers hm with hm | hm
          · exact hmore m hm
          · exact ⟨sender, kind, context, peers, members, hlast, hm⟩
        simp only [takeIn, Response.content]
        split
        · exact fun m hm => hjoined m (List.mem_of_mem_take hm)
        · exact hjoined
  · rw [takeIn_unfed hfed]
    exact hmore

theorem start_backed (replies : Replies) (context : UInt64) (p : Parameters) (tables : Directory)
    (goal : Goal) (now : Time) :
    ((Lookup.new context p tables goal).start now).1.pursuit.BackedBy replies := by
  rw [Lookup.start, pump_pursuit (new_coherent context p tables goal), new_pursuit]
  cases goal <;> simp [begin, Pursuit.BackedBy]

theorem respond_unfed {l : Lookup} {response : Response} (h : ¬ l.pursuit.FedBy response)
    (now : Time) (sender : Ident) :
    l.respond now sender response.closerPeers response.content =
      l.respond now sender response.closerPeers .none := by
  have hnone : takeIn sender l.pursuit .none = (l.pursuit, false) := by
    cases hp : l.pursuit <;> rfl
  have hsame : takeIn sender l.pursuit response.content = takeIn sender l.pursuit .none := by
    rw [takeIn_unfed h, hnone]
  have hpursuit : ((l.settle sender .finished).addPeers response.closerPeers).pursuit =
      l.pursuit := addPeers_pursuit _ _
  unfold respond
  simp only [hpursuit, hsame]

/-- A lookup gathers nothing from a response of another kind, and ends with it only when nothing is
left to wait for. -/
theorem step_unfed {l : Lookup} (hs : l.Steady) (hd : Distinct l.pursuit)
    (hf : l.finished = false) {response : Response} (h : ¬ l.pursuit.FedBy response) (now : Time)
    (sender : Ident) :
    let m := (l.step (.respond now sender response.closerPeers response.content)).1
    m.pursuit = l.pursuit ∧ m.EndsExhausted := by
  intro m
  have htake := takeIn_unfed h sender
  constructor
  · rcases step_pursuit hs (.respond now sender response.closerPeers response.content) with
      he | ⟨_, _, _, _, hcall, he⟩
    · exact he
    · cases hcall
      rw [htake] at he
      exact he
  · refine step_endsExhausted hs hd (fun hend => ?_) ?_
    · cases hf.symm.trans hend
    · rintro ⟨-, -, hcompleted⟩
      rw [← takeIn_complete_iff hd sender, htake] at hcompleted
      cases hcompleted

end Taking

end Lookup

namespace Dispatcher

variable {τ : Type}

section Inputs

/-- What a dispatcher gets to hear, with responses as their senders have made them. -/
inductive Input (τ : Type) where
  | start (now : Time) (tables : Directory) (goal : Goal) (ticket : τ)
  | respond (now : Time) (sender : Ident) (response : Response)
  | peerFailed (now : Time) (context : UInt64) (peer : Ident)
  | sweep (now : Time) (order : Arrangement (UInt64 × Running τ))
  | pop

def Input.call : Input τ → Call τ
  | .start now tables goal ticket => .start now tables goal ticket
  | .respond now sender response =>
    .respond now response.context sender response.closerPeers response.content
  | .peerFailed now context peer => .peerFailed now context peer
  | .sweep now order => .sweep now order
  | .pop => .pop

/-- Taking a response as an input is responding with it, apart from where its error goes. -/
theorem step_respond (d : Dispatcher τ) (now : Time) (sender : Ident) (response : Response) :
    d.step (Input.respond now sender response).call =
      match d.respond now sender response with
      | .ok r => (r.1, { delivered := r.2 })
      | .error e => (d, { faults := [(response.context, e)] }) := rfl

def Input.reply? (context : UInt64) : Input τ → Option (Ident × Response)
  | .respond _ sender response => if response.context = context then some (sender, response) else none
  | _ => none

def repliesTo (context : UInt64) (inputs : List (Input τ)) : Replies :=
  inputs.filterMap (Input.reply? context)

/-- The inputs begin a lookup for the goal and the holder of the ticket, which takes the context;
the others come since. -/
def Begun (p : Parameters) (inputs : List (Input τ)) (context : UInt64) (goal : Goal) (ticket : τ)
    (since : List (Input τ)) : Prop :=
  ∃ before now tables, inputs = before ++ .start now tables goal ticket :: since ∧
    ((Dispatcher.new p).play (before.map Input.call)).1.nextContext = context

variable {p : Parameters} {inputs since : List (Input τ)} {context : UInt64} {goal : Goal}
  {ticket : τ}

theorem Begun.snoc (h : Begun p inputs context goal ticket since) (i : Input τ) :
    Begun p (inputs ++ [i]) context goal ticket (since ++ [i]) := by
  obtain ⟨before, now, tables, rfl, hc⟩ := h
  exact ⟨before, now, tables, by simp, hc⟩

theorem heard_reply {i : Input τ} {now : Time} {sender : Ident} {peers : List Peer}
    {content : Content} (h : .respond now sender peers content ∈ i.call.heard context true) :
    ∃ response, i.reply? context = some (sender, response) ∧ response.content = content := by
  cases i with
  | start now tables goal ticket => cases h
  | pop => cases h
  | sweep now order => cases List.mem_singleton.mp h
  | peerFailed now other peer =>
    rw [Input.call, heard_named rfl] at h
    split at h
    · cases List.mem_singleton.mp h
    · cases h
  | respond now sender response =>
    rw [Input.call, heard_named rfl] at h
    split at h
    next hc =>
      cases List.mem_singleton.mp h
      exact ⟨response, if_pos hc, rfl⟩
    next => cases h

theorem repliesTo_snoc (context : UInt64) (since : List (Input τ)) (i : Input τ) :
    repliesTo context (since ++ [i]) = repliesTo context since ++ (i.reply? context).toList := by
  rw [repliesTo, List.filterMap_append]
  cases hi : i.reply? context <;> simp [repliesTo, hi]

theorem repliesTo_subset (context : UInt64) (since : List (Input τ)) (i : Input τ) :
    repliesTo context since ⊆ repliesTo context (since ++ [i]) := by
  rw [repliesTo_snoc]
  exact List.subset_append_left ..

end Inputs

section Tracing

/-- A lookup that has come to some state stems from an input that begins it, and what it has
gathered from replies that have come since. -/
structure Stems (p : Parameters) (inputs : List (Input τ)) (context : UInt64) (ticket : τ)
    (l : Lookup) (past : Effects) (goal : Goal) (since : List (Input τ)) : Prop where
  lived : Lookup.Lived p context goal (l, past)
  begun : Begun p inputs context goal ticket since
  backed : l.pursuit.BackedBy (repliesTo context since)

variable {p : Parameters} {inputs since : List (Input τ)} {context : UInt64} {goal : Goal}
  {ticket : τ} {l : Lookup} {past : Effects} {d : Dispatcher τ}

theorem Stems.snoc (h : Stems p inputs context ticket l past goal since) (i : Input τ) :
    Stems p (inputs ++ [i]) context ticket l past goal (since ++ [i]) :=
  ⟨h.lived, h.begun.snoc i, h.backed.mono (repliesTo_subset context since i)⟩

theorem Stems.turn (h : Stems p inputs context ticket l past goal since) {i : Input τ}
    {c : Lookup.Call} (hc : c ∈ i.call.heard context true) :
    Stems p (inputs ++ [i]) context ticket (l.step c).1 (past.append (l.step c).2) goal
      (since ++ [i]) := by
  refine ⟨h.lived.step c, h.begun.snoc i, ?_⟩
  have hsteady : l.Steady := h.lived.steady
  rcases Lookup.step_pursuit hsteady c with he | ⟨now, sender, peers, content, rfl, he⟩
  · rw [he]
    exact h.backed.mono (repliesTo_subset context since i)
  · obtain ⟨response, hi, rfl⟩ := heard_reply hc
    rw [he, repliesTo_snoc, hi]
    exact Lookup.takeIn_backed h.backed sender response

/-- What runs and what has been delivered stems from inputs. -/
structure Traced (p : Parameters) (inputs : List (Input τ)) (d : Dispatcher τ) (log : Log τ) :
    Prop where
  running : ∀ context r, d.lookups.get? context = some r →
    ∃ past goal since, Stems p inputs context r.ticket r.lookup past goal since
  delivered : ∀ δ ∈ log.delivered, ∃ context l past goal since,
    Stems p inputs context δ.ticket l past goal since ∧ past.finding = some δ.finding

theorem new_traced (p : Parameters) : Traced p [] (Dispatcher.new p : Dispatcher τ) {} :=
  ⟨fun _ _ hr => by simp [Dispatcher.new] at hr, nofun⟩

theorem Traced.move {log : Log τ} (h : Traced p inputs d log) (ht : Tidy p d)
    (hd : d = ((Dispatcher.new p).play (inputs.map Input.call)).1) {i : Input τ} {m : Move τ}
    (hm : m ∈ d.moves i.call) : ∃ (past : Effects) (goal : Goal) (since : List (Input τ)),
      past.finding = none ∧ Stems p (inputs ++ [i]) m.context m.ticket m.outcome.1
        (past.append m.outcome.2) goal since := by
  rcases ht.mem_moves.mp hm with
    ⟨now, tables, goal, ticket, hcall, rfl⟩ | ⟨context, r, c, hr, hc, rfl⟩
  · have hi : i = .start now tables goal ticket := by
      cases i <;> cases hcall
      rfl
    subst hi
    exact ⟨{}, goal, [], rfl, ht.opening_lived now tables goal ticket,
      ⟨inputs, now, tables, rfl, hd ▸ rfl⟩,
      Lookup.start_backed _ d.nextContext d.parameters tables goal now⟩
  · obtain ⟨past, goal, since, hs⟩ := h.running context r hr
    have hf := (ht.lives context r hr).1
    exact ⟨past, goal, _, by simpa [hf] using hs.lived.finding_eq, hs.turn hc⟩

theorem Traced.step {log : Log τ} (h : Traced p inputs d log) (ht : Tidy p d)
    (hd : d = ((Dispatcher.new p).play (inputs.map Input.call)).1) (i : Input τ) :
    Traced p (inputs ++ [i]) (d.step i.call).1 (log.append (d.step i.call).2) := by
  constructor
  case running =>
    intro context r hr
    rcases ht.running_step hr with hold | ⟨m, hm, rfl, hrun⟩
    · obtain ⟨past, goal, since, hs⟩ := h.running context r hold
      exact ⟨past, goal, _, hs.snoc i⟩
    · obtain ⟨-, rfl⟩ := Move.running_eq_some.mp hrun
      obtain ⟨past, goal, since, -, hs⟩ := h.move ht hd hm
      exact ⟨_, goal, since, hs⟩
  case delivered =>
    intro δ hδ
    rw [Log.append_delivered, List.mem_append, step_delivered, List.mem_flatMap] at hδ
    rcases hδ with hδ | ⟨m, hm, hδ⟩
    · obtain ⟨context, l, past, goal, since, hs, hf⟩ := h.delivered δ hδ
      exact ⟨context, l, past, goal, _, hs.snoc i, hf⟩
    · obtain ⟨f, hf, rfl⟩ := List.mem_map.mp hδ
      obtain ⟨past, goal, since, hnone, hs⟩ := h.move ht hd hm
      refine ⟨m.context, _, _, goal, since, hs, ?_⟩
      rw [Effects.append, hnone, Option.none_or, Option.mem_toList.mp hf]

theorem traced_play (p : Parameters) (inputs : List (Input τ)) :
    let r := (Dispatcher.new p).play (inputs.map Input.call)
    Traced p inputs r.1 r.2 := by
  induction inputs using List.reverseRecOn with
  | nil => exact new_traced p
  | append_singleton inputs i ih =>
    have ht : Tidy p ((Dispatcher.new p).play (inputs.map Input.call)).1 := (new_tidy p).play _
    have hs := ih.step ht rfl i
    simp only [List.map_append, List.map_singleton, play_append, Dispatcher.play, Log.append_idle]
    exact hs

end Tracing

section Kinds

variable {p : Parameters} {d : Dispatcher τ}

theorem respond_unfed {context : UInt64} {r : Running τ} (hr : d.lookups.get? context = some r)
    {response : Response} (hc : response.context = context)
    (h : ¬ r.lookup.pursuit.FedBy response) (now : Time) (sender : Ident) :
    d.respond now sender response =
      d.respond now sender (.findNode context response.closerPeers) := by
  have hleft : d.respond now sender response =
      (r.lookup.respond now sender response.closerPeers response.content).map
        (d.absorb r.ticket) := by
    simp only [Dispatcher.respond, answer, hc, hr]
  have hright : d.respond now sender (.findNode context response.closerPeers) =
      (r.lookup.respond now sender response.closerPeers .none).map (d.absorb r.ticket) := by
    change d.answer now context sender response.closerPeers .none = _
    simp only [answer, hr]
  rw [hleft, hright, Lookup.respond_unfed h]

/-- In every run a finding answers the goal with which its lookup has begun, the value that it shows
has come since in a response about a value, and each member in a response about members, both with
the context of the lookup. To a running lookup a response of any other kind does no more than one
that names the same closer peers and has no content: nothing is gathered from it, and the lookup
ends with it only when nothing is left to wait for. -/
theorem findings_backed_by_kind (p : Parameters) (inputs : List (Input τ)) :
    let r := (Dispatcher.new p).play (inputs.map Input.call)
    (∀ δ ∈ r.2.delivered, ∃ context goal since, Begun p inputs context goal δ.ticket since ∧
      δ.finding.Answers (goal.question p.k) ∧ δ.finding.BackedBy (repliesTo context since)) ∧
    ∀ context running, r.1.lookups.get? context = some running →
      (∃ goal since, Begun p inputs context goal running.ticket since ∧
        running.lookup.question = goal.question p.k ∧
        running.lookup.pursuit.BackedBy (repliesTo context since)) ∧
      ∀ now sender response, response.context = context →
        ¬ running.lookup.pursuit.FedBy response →
        r.1.respond now sender response =
          r.1.respond now sender (.findNode context response.closerPeers) ∧
        let l := (running.lookup.step
          (.respond now sender response.closerPeers response.content)).1
        l.pursuit = running.lookup.pursuit ∧ l.EndsExhausted := by
  intro r
  have ht : Tidy p r.1 := (new_tidy p).play _
  have htraced : Traced p inputs r.1 r.2 := traced_play p inputs
  constructor
  · intro δ hδ
    obtain ⟨context, l, past, goal, since, hs, hf⟩ := htraced.delivered δ hδ
    have hfinding := hs.lived.finding_eq
    refine ⟨context, goal, since, hs.begun, hs.lived.answers hf, ?_⟩
    rw [hf] at hfinding
    split at hfinding
    · rw [Option.some.inj hfinding]
      exact Lookup.finding_backed hs.backed
    · cases hfinding
  · intro context running hr
    constructor
    · obtain ⟨past, goal, since, hs⟩ := htraced.running context running hr
      exact ⟨goal, since, hs.begun, hs.lived.question_eq, hs.backed⟩
    · intro now sender response hc hfed
      obtain ⟨hf, goal, past, hlived⟩ := ht.lives context running hr
      exact ⟨respond_unfed hr hc hfed now sender,
        Lookup.step_unfed hlived.steady hlived.distinct hf hfed now sender⟩

end Kinds

section Walk

open Lookup (numbered pairTables)

/-- A lookup for a value asks peer 3, which answers with the members of a pool, and then peer 2,
which gives a value. -/
def poolForValue : List (Input Nat) :=
  [.start 0 pairTables (.value (numbered 3).id) 0,
    .respond 1 (numbered 3).id (.findMembers .pool 0 [] [numbered 8]),
    .respond 2 (numbered 2).id (.findValue 0 [] (some [7]))]

def pairRun (inputs : List (Input Nat)) : Dispatcher Nat × Log Nat :=
  (Dispatcher.new { k := 2, alpha := 1 }).play (inputs.map Input.call)

/-- The value that is delivered has been given to this lookup, and the members count for nothing. -/
theorem findings_backed_by_kind_value :
    (∃ δ ∈ (pairRun poolForValue).2.delivered, ∃ context goal since,
      Begun { k := 2, alpha := 1 } poolForValue context goal δ.ticket since ∧
      ∃ sender, (repliesTo context since).GiveValue sender [7]) ∧
    (pairRun (poolForValue.take 1)).1.respond 1 (numbered 3).id
        (.findMembers .pool 0 [] [numbered 8]) =
      (pairRun (poolForValue.take 1)).1.respond 1 (numbered 3).id (.findNode 0 []) := by
  constructor
  · have hdelivered : (pairRun poolForValue).2.delivered =
        [⟨0, .value (numbered 3).id (some [7]) (some (numbered 2)) (some (numbered 3))
          [numbered 3, numbered 2]⟩] := by cbv
    have hmem := hdelivered ▸ List.mem_singleton_self _
    obtain ⟨context, goal, since, hbegun, -, hbacked⟩ :=
      (findings_backed_by_kind { k := 2, alpha := 1 } poolForValue).1 _ hmem
    exact ⟨_, hmem, context, goal, since, hbegun, hbacked [7] rfl⟩
  · have hruns : ∃ l, (pairRun (poolForValue.take 1)).1.lookups.get? 0 = some ⟨0, l⟩ ∧
        l.pursuit = .value none := ⟨_, by cbv, by cbv⟩
    obtain ⟨l, hl, hp⟩ := hruns
    have hunfed : ¬ l.pursuit.FedBy (.findMembers .pool 0 [] [numbered 8]) := by
      rw [hp]
      exact not_false
    exact (((findings_backed_by_kind { k := 2, alpha := 1 } (poolForValue.take 1)).2 0 _ hl).2 1
      (numbered 3).id _ rfl hunfed).1

/-- A lookup for one member of a swarm asks peer 3, which answers with the members of a pool. -/
def poolForSwarm : List (Input Nat) :=
  [.start 0 pairTables (.members .swarm (numbered 3).id (some 1)) 0,
    .respond 1 (numbered 3).id (.findMembers .pool 0 [] [numbered 8])]

def swarmRun : Dispatcher Nat × Log Nat := pairRun poolForSwarm

/-- The member of the pool is delivered as one of the swarm, and peer 2 is not asked any more. -/
theorem swarm_finding_from_pool :
    swarmRun.2.delivered = [⟨0, .members (numbered 3).id [numbered 3] [numbered 8]⟩] ∧
    (∀ reply ∈ repliesTo 0 poolForSwarm, ∀ context peers members,
      reply.2 ≠ .findMembers .swarm context peers members) ∧
    swarmRun.1.outbound.map (fun o => o.recipient) = [numbered 3] := by
  refine ⟨by cbv, ?_, by cbv⟩
  have hreplies : repliesTo 0 poolForSwarm =
      [((numbered 3).id, .findMembers .pool 0 [] [numbered 8])] := by cbv
  simp [hreplies]

end Walk

end Dispatcher

end Kademlia
