import Mathlib
import Kademlia.Network
import Kademlia.Proofs.Dispatcher
import Kademlia.Proofs.Lookup.Convergence
import Kademlia.Proofs.Server

/-!
Lookups driven over a network. Each request is carried to its recipient and its response back, all
over the wire. Main statement: whatever the nodes hold, no message is lost on the way, no lookup
asks more peers than the tables of the nodes name, and in the end every lookup has been answered
once.
-/

namespace Kademlia

/-- What no request changes about a node. -/
def Node.fixed (node : Node) : Peer × Directory × Reach := (node.peer, node.tables, node.reach)

def Carried.address (c : Carried) : UInt64 × Ident := (c.context, c.recipient.id)

namespace Network

variable {τ : Type}

def named (nodes : List Node) : List Ident :=
  ((nodes.flatMap fun node => node.tables.peers).map Peer.id).dedup

def Answering (nodes : List Node) (id : Ident) : Prop :=
  ∃ node ∈ nodes, node.peer.id = id ∧ node.reach = .up

/-- The nodes of a network whose requests have been carried for a while: nothing but what the
servers keep has changed, and what they keep can be written. -/
structure Keeps (nodes : List Node) (n : Network τ) : Prop where
  fixed : n.nodes.map Node.fixed = nodes.map Node.fixed
  storable : ∀ node ∈ n.nodes, ∀ e ∈ node.server.values.values, e.2.length < 2 ^ 64

theorem named_of_mem {nodes : List Node} {node : Node} (h : node ∈ nodes) :
    ∀ p ∈ node.tables.peers, p.id ∈ named nodes := by
  intro p hp
  exact List.mem_dedup.mpr (List.mem_map_of_mem (List.mem_flatMap.mpr ⟨node, h, hp⟩))

section Nodes

variable {nodes : List Node} {n : Network τ}

theorem Keeps.exists_fixed (h : Keeps nodes n) {node : Node} (hm : node ∈ n.nodes) :
    ∃ before ∈ nodes, before.fixed = node.fixed :=
  List.mem_map.mp (h.fixed ▸ List.mem_map_of_mem hm)

theorem Keeps.node?_eq_none (h : Keeps nodes n) {id : Ident} (hn : n.node? id = none) :
    ∀ node ∈ nodes, node.peer.id ≠ id := by
  intro node hm he
  obtain ⟨after, ha, hf⟩ := List.mem_map.mp (h.fixed.symm ▸ List.mem_map_of_mem hm)
  have hpeer : after.peer = node.peer := congrArg Prod.fst hf
  have := List.find?_eq_none.mp hn after ha
  simp [hpeer, he] at this

theorem Keeps.setNode (h : Keeps nodes n) (hd : (nodes.map fun node => node.peer.id).Nodup)
    {before after : Node} (hm : before ∈ n.nodes) (hf : after.fixed = before.fixed)
    (hs : ∀ e ∈ after.server.values.values, e.2.length < 2 ^ 64) :
    Keeps nodes (n.setNode after) := by
  have hpeer : after.peer = before.peer := congrArg Prod.fst hf
  have hids : (n.nodes.map fun node => node.peer.id).Nodup := by
    have hi : ∀ nodes : List Node, nodes.map (fun node => node.peer.id) =
        (nodes.map Node.fixed).map fun f => f.1.id := fun nodes => by simp [Node.fixed]
    rw [hi, h.fixed, ← hi]
    exact hd
  constructor
  · rw [← h.fixed, Network.setNode, List.map_map]
    refine List.map_congr_left fun node hn => ?_
    by_cases he : node.peer.id = after.peer.id
    · have hsame : node = before := List.inj_on_of_nodup_map hids hn hm (by rw [he, hpeer])
      rw [Function.comp_apply, if_pos he, hf, hsame]
    · simp [he]
  · intro node hn
    obtain ⟨m, hmn, rfl⟩ := List.mem_map.mp hn
    by_cases he : m.peer.id = after.peer.id
    · rw [if_pos he]
      exact hs
    · rw [if_neg he]
      exact h.storable m hmn

end Nodes

section Exchange

theorem exchange_answers (choice : Choice) (now : Time) (sender : Peer) {request : Request}
    {context : UInt64} (hr : request.context? = some context) (hc : context.toNat < 2 ^ 63)
    {node : Node} (hs : ∀ e ∈ node.server.values.values, e.2.length < 2 ^ 64) :
    ∃ bytes response server, node.exchange choice now sender (Message.request request).toBytes =
        (bytes, .response response, { node with server }) ∧
      node.server.handle choice now node.tables sender request = (some response, server) ∧
      Server.Answers node.tables node.server context response server := by
  obtain ⟨response, server, hh, ha⟩ :=
    Server.handle_answers choice now node.tables sender node.server hr
  have hask : (Message.request request).Fits := by
    refine ⟨fun c h => ?_, fun b hb => ?_⟩
    · rw [Message.context?, hr, Option.some.injEq] at h
      exact h ▸ hc
    · cases request <;> simp_all [Message.blobs, Request.context?]
  have hback : (Message.response response).Fits := by
    refine ⟨fun c h => ?_, fun b hb => ?_⟩
    · rw [Message.context?, ha.context_eq, Option.some.injEq] at h
      exact h ▸ hc
    · obtain ⟨key, hk⟩ := ha.blobs b hb
      exact hs _ hk
  have hread := Message.ofBytes_toBytes hask []
  have hreply := Message.ofBytes_toBytes hback []
  rw [List.append_nil] at hread hreply
  refine ⟨(Message.response response).toBytes.length, response, server, ?_, hh, ha⟩
  simp only [Node.exchange, hread, Node.handle, hh, Reply.ofBytes, hreply]

variable {nodes : List Node} {n : Network τ}

/-- What comes back for a request of a lookup: a response when a node with the identifier takes
requests, and the news that it failed when there is none. -/
theorem Keeps.contact (h : Keeps nodes n) (hd : (nodes.map fun node => node.peer.id).Nodup)
    (hreach : ∀ node ∈ nodes, node.reach ≠ .silent) (choice : Choice) (now : Time) (sender : Peer)
    (id : Ident) {request : Request} {context : UInt64} (hr : request.context? = some context)
    (hc : context.toNat < 2 ^ 63) :
    ∃ bytes reply n', n.contact choice now sender id (Message.request request).toBytes =
        (bytes, reply, n') ∧ n'.searcher = n.searcher ∧ Keeps nodes n' ∧
      (¬ Answering nodes id ∧ reply = .failed ∨
        Answering nodes id ∧ ∃ response, reply = .response response ∧
          response.context = context ∧ ∀ p ∈ response.closerPeers, p.id ∈ named nodes) := by
  cases hn : n.node? id with
  | none =>
    refine ⟨0, .failed, n, by simp [Network.contact, hn], rfl, h, Or.inl ⟨?_, rfl⟩⟩
    rintro ⟨node, hm, rfl, -⟩
    exact h.node?_eq_none hn node hm rfl
  | some node =>
    have hm : node ∈ n.nodes := List.mem_of_find?_eq_some hn
    have hid : node.peer.id = id := by simpa using List.find?_some hn
    obtain ⟨before, hb, hf⟩ := h.exists_fixed hm
    obtain ⟨hpeer, htables, hup⟩ : before.peer = node.peer ∧ before.tables = node.tables ∧
        before.reach = node.reach := by simpa [Node.fixed] using hf
    have honly : Answering nodes id → node.reach = .up := by
      rintro ⟨other, ho, hoid, hou⟩
      have hsame : other = before := List.inj_on_of_nodup_map hd ho hb (by rw [hoid, hpeer, hid])
      rw [← hup, ← hsame, hou]
    cases hr' : node.reach with
    | down =>
      refine ⟨0, .failed, n, by simp [Network.contact, hn, hr'], rfl, h, Or.inl ⟨fun ha => ?_, rfl⟩⟩
      cases (honly ha).symm.trans hr'
    | silent => exact absurd (hup.trans hr') (hreach before hb)
    | up =>
      obtain ⟨bytes, response, server, he, -, ha⟩ :=
        exchange_answers choice now sender hr hc (h.storable node hm)
      refine ⟨bytes, .response response, n.setNode { node with server },
        by simp [Network.contact, hn, hr', he], rfl,
        h.setNode hd hm rfl fun e hm' => h.storable node hm e (ha.values e hm'),
        Or.inr ⟨⟨before, hb, by rw [hpeer, hid], hup.trans hr'⟩, response, rfl, ha.context_eq,
          fun p hp => named_of_mem hb p ?_⟩⟩
      rw [htables]
      exact ha.closer p hp

end Exchange

section Carry

variable {nodes : List Node} {n : Network τ} {scope : List UInt64} {tickets : List τ}
  {d : Dispatcher τ} {sent : List (UInt64 × Ident)} {delivered : List (Delivery τ)}

/-- The request was answered by a node that takes requests, and the answer was accepted; or there is
no such node, and the request failed. -/
def Fared (nodes : List Node) (c : Carried) : Prop :=
  ¬ Answering nodes c.recipient.id ∧ c.fate = .failed ∨
    Answering nodes c.recipient.id ∧ ∃ closer, c.fate = .answered closer none

theorem Keeps.carry (h : Keeps nodes n) (hd : (nodes.map fun node => node.peer.id).Nodup)
    (hreach : ∀ node ∈ nodes, node.reach ≠ .silent) (hscope : ∀ c ∈ scope, c.toNat < 2 ^ 63)
    (hl : Dispatcher.Ledger scope (named nodes) tickets d sent delivered) {o : Outgoing}
    {rest : List Outgoing} (ho : d.outbound = o :: rest) (choice : Choice) (now : Time)
    (sender : Peer) :
    ∃ c n' d' more, Network.carry choice now sender o
        { n with searcher := .plain { d with outbound := rest } } = (c, n', more) ∧
      n'.searcher = .plain d' ∧ Keeps nodes n' ∧
      Dispatcher.Ledger scope (named nodes) tickets d' (sent ++ [c.address]) (delivered ++ more) ∧
      Fared nodes c := by
  have hask := hl.asks o (by simp [ho])
  have hsmall : o.context.toNat < 2 ^ 63 := by
    refine hscope _ (hl.bounds o.address ?_).1
    rw [Dispatcher.queue_cons ho]
    simp
  have hk : Keeps nodes { n with searcher := .plain { d with outbound := rest } } :=
    ⟨h.fixed, h.storable⟩
  obtain ⟨bytes, reply, n', he, hsearch, hk', hreply⟩ :=
    hk.contact hd hreach choice now sender o.recipient.id hask hsmall
  rcases hreply with ⟨hn, rfl⟩ | ⟨hn, response, rfl, hc, hp⟩
  · have hfail := hl.peerFailed ho now
    generalize hr : ({ d with outbound := rest } : Dispatcher τ).peerFailed now o.context
      o.recipient.id = r at hfail
    refine ⟨⟨o.context, o.recipient, (Message.request o.request).toBytes.length + bytes, .failed⟩,
      { n' with searcher := .plain r.1 }, r.1, r.2, ?_, rfl, ⟨hk'.fixed, hk'.storable⟩, hfail,
      Or.inl ⟨hn, rfl⟩⟩
    simp only [Network.carry, he, conclude, hsearch, Searcher.peerFailed, Searcher.lift, hr]
  · obtain ⟨d', more, hr, hl'⟩ := hl.respond ho now hc hp
    refine ⟨⟨o.context, o.recipient, (Message.request o.request).toBytes.length + bytes,
      .answered response.closerPeers.length none⟩, { n' with searcher := .plain d' }, d', more, ?_,
      rfl, ⟨hk'.fixed, hk'.storable⟩, hl', Or.inr ⟨hn, _, rfl⟩⟩
    simp only [Network.carry, he, conclude, hsearch, Searcher.respond, hr, Except.map,
      Searcher.lift]

end Carry

section Drive

/-- Carries requests one after the other, each round with its own choices and at its own time, until
the rounds are over or no request is left. -/
def carryEach (sender : Peer) :
    (rounds : List (Choice × Time)) → Network τ → List Carried × Network τ × List (Delivery τ)
  | [], n => ([], n, [])
  | (choice, now) :: rounds, n =>
    match n.searcher.pop with
    | (none, _) => ([], n, [])
    | (some out, searcher) =>
      let (carried, n, delivered) := carry choice now sender out { n with searcher }
      let (rest, n, more) := carryEach sender rounds n
      (carried :: rest, n, delivered ++ more)

theorem carryAll_eq (choice : Choice) (now : Time) (sender : Peer) (rounds : Nat) (n : Network τ) :
    n.carryAll choice now sender rounds =
      n.carryEach sender (List.replicate rounds (choice, now)) := by
  induction rounds generalizing n with
  | zero => rfl
  | succ rounds ih =>
    rcases hp : n.searcher.pop with ⟨_ | out, searcher⟩
    · simp only [carryAll, carryEach, List.replicate_succ, hp]
    · simp only [carryAll, carryEach, List.replicate_succ, hp, ih]

variable {nodes : List Node} {n : Network τ} {scope : List UInt64} {tickets : List τ}
  {d : Dispatcher τ} {sent : List (UInt64 × Ident)} {delivered : List (Delivery τ)}

/-- Every round carries a request, until none is left, and all of them keep the books. -/
theorem Keeps.carryEach (h : Keeps nodes n) (hd : (nodes.map fun node => node.peer.id).Nodup)
    (hreach : ∀ node ∈ nodes, node.reach ≠ .silent) (hscope : ∀ c ∈ scope, c.toNat < 2 ^ 63)
    (hs : n.searcher = .plain d)
    (hl : Dispatcher.Ledger scope (named nodes) tickets d sent delivered) (sender : Peer)
    (rounds : List (Choice × Time)) :
    let r := n.carryEach sender rounds
    ∃ d', r.2.1.searcher = .plain d' ∧
      Dispatcher.Ledger scope (named nodes) tickets d' (sent ++ r.1.map Carried.address)
        (delivered ++ r.2.2) ∧
      (∀ c ∈ r.1, Fared nodes c) ∧ (d'.outbound = [] ∨ r.1.length = rounds.length) := by
  induction rounds generalizing n d sent delivered with
  | nil =>
    refine ⟨d, hs, ?_, nofun, Or.inr rfl⟩
    simpa [Network.carryEach] using hl
  | cons round rounds ih =>
    obtain ⟨choice, now⟩ := round
    cases ho : d.outbound with
    | nil =>
      have he : n.carryEach sender ((choice, now) :: rounds) = ([], n, []) := by
        simp [Network.carryEach, hs, Searcher.pop, Dispatcher.pop, ho]
      simp only [he]
      exact ⟨d, hs, by simpa using hl, nofun, Or.inl ho⟩
    | cons o rest =>
      obtain ⟨c, n', d', more, hc, hs', hk', hl', hfared⟩ :=
        h.carry hd hreach hscope hl ho choice now sender
      obtain ⟨d'', hs'', hl'', hf'', hend⟩ := ih hk' hs' hl'
      have he : n.carryEach sender ((choice, now) :: rounds) =
          (c :: (n'.carryEach sender rounds).1, (n'.carryEach sender rounds).2.1,
            more ++ (n'.carryEach sender rounds).2.2) := by
        simp [Network.carryEach, hs, Searcher.pop, Dispatcher.pop, ho, hc]
      simp only [he]
      refine ⟨d'', hs'', ?_, List.forall_mem_cons.mpr ⟨hfared, hf''⟩, ?_⟩
      · simpa using hl''
      · simpa using hend

theorem length_named_le (n : Network τ) : (named n.nodes).length ≤ n.tabled := by
  refine (List.dedup_sublist _).length_le.trans ?_
  rw [List.length_map, tabled]
  induction n.nodes with
  | nil => exact Nat.le_refl 0
  | cons node rest ih =>
    rw [List.flatMap_cons, List.length_append, Directory.length_peers, List.foldr_cons]
    exact Nat.add_le_add_left ih _

/-- What is left when all requests have been carried: no lookup, and every ticket has come back. -/
structure Settled (tickets : List τ) (early : List (Delivery τ))
    (r : List Carried × Network τ × List (Delivery τ)) : Prop where
  empty : r.2.1.searcher.outbound = []
  active : r.2.1.searcher.active = 0
  delivered : ((early ++ r.2.2).map Delivery.ticket).Perm tickets

/-- Any number of lookups, started on the first of some nodes, are driven to their ends: whatever
chance decides and whatever the clock shows in each round, no message is lost or refused, no lookup
asks more peers than the tables of the nodes name, and once as many rounds have passed as there are
running lookups times named peers, every lookup has been answered once. The rounds that a drive
allows for are enough. -/
theorem drive_answers_everybody (p : Parameters) (first : Node) (others : List Node)
    (starts : List (Time × Goal × τ)) (halpha : 1 ≤ p.alpha) (hstarts : starts.length < 2 ^ 63)
    (hdistinct : ((first :: others).map fun node => node.peer.id).Nodup)
    (hreach : ∀ node ∈ first :: others, node.reach ≠ .silent)
    (hstorable : ∀ node ∈ first :: others, ∀ e ∈ node.server.values.values,
      e.2.length < 2 ^ 64) :
    let nodes := first :: others
    let opened := (Dispatcher.new p).startAll first.tables starts
    let n : Network τ := ⟨nodes, .plain opened.1⟩
    let tickets := starts.map fun s => s.2.2
    (∀ rounds, let r := n.carryEach first.peer rounds
      (∀ c ∈ r.1, Fared nodes c) ∧
      (∀ context, r.1.countP (fun c => c.context = context) ≤ (named nodes).length) ∧
      (opened.1.active * (named nodes).length ≤ rounds.length → Settled tickets opened.2 r)) ∧
    ∀ choice now, let r := n.drive choice now
      (∀ c ∈ r.1, Fared nodes c) ∧
      (∀ context, r.1.countP (fun c => c.context = context) ≤ (named nodes).length) ∧
      Settled tickets opened.2 r := by
  intro nodes opened n tickets
  have hkeeps : Keeps nodes n := ⟨rfl, hstorable⟩
  have hin : ∀ q ∈ first.tables.peers, q.id ∈ named nodes := named_of_mem List.mem_cons_self
  have hopened : Dispatcher.Opened p (named nodes) tickets opened.1 opened.2 := by
    have hnew : Dispatcher.Opened p (named nodes) [] (Dispatcher.new p : Dispatcher τ) [] :=
      Dispatcher.new_opened p (named nodes)
    exact hnew.startAll halpha hin (by rw [List.length_nil]; omega)
  have hscope : ∀ c ∈ opened.1.lookups.keys, c.toNat < 2 ^ 63 := by
    intro c hc
    have hused := hopened.used c hc
    have hlen : tickets.length = starts.length := List.length_map ..
    omega
  have hrun : ∀ rounds, let r := n.carryEach first.peer rounds
      (∀ c ∈ r.1, Fared nodes c) ∧
      (∀ context, r.1.countP (fun c => c.context = context) ≤ (named nodes).length) ∧
      (opened.1.active * (named nodes).length ≤ rounds.length → Settled tickets opened.2 r) := by
    intro rounds r
    obtain ⟨d, hs, hl, hfared, hend⟩ :=
      hkeeps.carryEach hdistinct hreach hscope rfl hopened.ledger first.peer rounds
    refine ⟨hfared, fun context => ?_, fun hlong => ?_⟩
    · have hcount := hl.count_le context
      rw [List.nil_append, List.countP_map] at hcount
      exact hcount
    · have hbound := hl.length_le
      rw [List.nil_append, List.length_map] at hbound
      have hactive : opened.1.lookups.keys.length = opened.1.active := List.length_map ..
      rw [hactive] at hbound
      have hempty : d.outbound = [] := by
        rcases hend with he | he
        · exact he
        · exact List.length_eq_zero_iff.mp (by omega)
      obtain ⟨ha, ht⟩ := hl.finished hempty
      exact ⟨by rw [hs]; exact hempty, by rw [hs]; exact ha, ht⟩
  refine ⟨hrun, fun choice now => ?_⟩
  have hdrive : n.drive choice now =
      n.carryEach first.peer (List.replicate n.budget (choice, now)) :=
    carryAll_eq choice now first.peer n.budget n
  rw [hdrive]
  obtain ⟨hfared, hcount, hsettled⟩ := hrun (List.replicate n.budget (choice, now))
  refine ⟨hfared, hcount, hsettled ?_⟩
  rw [List.length_replicate]
  exact (Nat.mul_le_mul_left _ (length_named_le n)).trans (Nat.le_add_left _ _)

end Drive

section Chain

open Lookup (numbered)

/-- A node that knows the next one, and stores a value under its own identifier. -/
def chainNode (i : Nat) : Node where
  peer := numbered i
  tables :=
    { owner := (numbered i).id, k := 2, topicK := 2
      main := { owner := (numbered i).id, k := 2, last := ⟨2, [numbered (i + 1)]⟩ } }
  server := { Server.new {} with values := ⟨1, [((numbered i).id, [UInt8.ofNat i])]⟩ }

def chainStarts : List (Time × Goal × Nat) :=
  [(0, .closest mainTable (numbered 4).id, 0), (0, .value (numbered 3).id, 1)]

def chainOpened : Dispatcher Nat × List (Delivery Nat) :=
  (Dispatcher.new { k := 3, alpha := 1 }).startAll (chainNode 1).tables chainStarts

def chain : Network Nat := ⟨[chainNode 1, chainNode 2, chainNode 3], .plain chainOpened.1⟩

/-- Both lookups go along the chain; one ends with the value and the other with a failure. -/
theorem drive_answers_everybody_chain :
    (chain.drive Choice.lowest 5).1.map (fun c => (c.context, c.recipient, c.fate)) =
      [(0, numbered 2, .answered 1 none), (1, numbered 2, .answered 1 none),
        (0, numbered 3, .answered 1 none), (1, numbered 3, .answered 1 none),
        (0, numbered 4, .failed)] ∧
    Settled [0, 1] chainOpened.2 (chain.drive Choice.lowest 5) := by
  refine ⟨by cbv, ?_⟩
  exact ((drive_answers_everybody { k := 3, alpha := 1 } (chainNode 1) [chainNode 2, chainNode 3]
    chainStarts (by decide) (by decide) (by decide) (by simp [chainNode])
    (by simp [chainNode])).2 Choice.lowest 5).2.2

end Chain

end Network

end Kademlia
