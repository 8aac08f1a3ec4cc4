import Kademlia.Message.Wire
import Kademlia.Searcher
import Kademlia.Server

/-!
A network of nodes, one of which runs lookups. Its requests are carried one at a time: each goes
over the wire to the node it is for, is answered from the tables of that node, and the response
comes back over the wire, until no request is left.
-/

namespace Kademlia

inductive Reach where
  | up
  /-- Requests to the node are known to fail. -/
  | down
  /-- Requests to the node vanish. -/
  | silent
  deriving DecidableEq, Repr

structure Node where
  peer : Peer
  tables : Directory
  server : Server
  reach : Reach := .up

inductive Reply where
  /-- Nothing, and the request is known to have failed. -/
  | failed
  /-- Nothing at all. -/
  | vanished
  /-- The node has no response to such a request. -/
  | unanswered
  /-- A message could not be read on the other side. -/
  | garbled (fault : Error)
  | response (response : Response)
  deriving DecidableEq, Repr

inductive Fate where
  | failed
  | vanished
  | unanswered
  | garbled (fault : Error)
  /-- Answered with a number of closer peers; the searcher may refuse the response. -/
  | answered (closer : Nat) (refusal : Option Error)
  deriving DecidableEq, Repr

structure Carried where
  context : UInt64
  recipient : Peer
  bytes : Nat
  fate : Fate
  deriving Repr

def Reply.ofBytes (packet : Bytes) : Reply :=
  match Message.ofBytes packet with
  | .error fault => .garbled fault
  | .ok (.response r) => .response r
  | .ok _ => .unanswered

namespace Node

def handle (choice : Choice) (now : Time) (sender : Peer) (request : Request) (node : Node) :
    Option Response × Node :=
  let (response, server) := node.server.handle choice now node.tables sender request
  (response, { node with server })

/-- Hands a node the bytes of a request, and reads the bytes of its response. Their number comes
first. -/
def exchange (choice : Choice) (now : Time) (sender : Peer) (packet : Bytes) (node : Node) :
    Nat × Reply × Node :=
  match Message.ofBytes packet with
  | .error fault => (0, .garbled fault, node)
  | .ok (.request request) =>
    match node.handle choice now sender request with
    | (none, node) => (0, .unanswered, node)
    | (some response, node) =>
      let back := (Message.response response).toBytes
      (back.length, Reply.ofBytes back, node)
  | .ok _ => (0, .unanswered, node)

end Node

structure Network (τ : Type) where
  nodes : List Node
  searcher : Searcher τ

namespace Network

variable {τ : Type}

def node? (n : Network τ) (id : Ident) : Option Node :=
  n.nodes.find? fun node => node.peer.id = id

def setNode (n : Network τ) (node : Node) : Network τ :=
  { n with nodes := n.nodes.map fun m => if m.peer.id = node.peer.id then node else m }

def connect (n : Network τ) (i j : Nat) : Network τ :=
  match n.nodes[i]?, n.nodes[j]? with
  | some node, some other =>
    n.setNode { node with tables := (node.tables.addPeer mainTable other.peer).2 }
  | _, _ => n

def send (choice : Choice) (now : Time) (sender : Peer) (index : Nat) (request : Request)
    (n : Network τ) : Option Response × Network τ :=
  match n.nodes[index]? with
  | none => (none, n)
  | some node =>
    let (response, node) := node.handle choice now sender request
    (response, n.setNode node)

/-- Brings the bytes of a request to a node and its response back, whose number of bytes comes
first. A request to an unknown node fails. -/
def contact (choice : Choice) (now : Time) (sender : Peer) (id : Ident) (packet : Bytes)
    (n : Network τ) : Nat × Reply × Network τ :=
  match n.node? id with
  | none => (0, .failed, n)
  | some node =>
    match node.reach with
    | .down => (0, .failed, n)
    | .silent => (0, .vanished, n)
    | .up =>
      let (bytes, reply, node) := node.exchange choice now sender packet
      (bytes, reply, n.setNode node)

def conclude (now : Time) (out : Outgoing) (n : Network τ) :
    Reply → Fate × Network τ × List (Delivery τ)
  | .failed =>
    let (searcher, delivered) := n.searcher.peerFailed now out.context out.recipient.id
    (.failed, { n with searcher }, delivered)
  | .response response =>
    let closer := response.closerPeers.length
    match n.searcher.respond now out.recipient.id response with
    | .error e => (.answered closer (some e), n, [])
    | .ok (searcher, delivered) => (.answered closer none, { n with searcher }, delivered)
  | .vanished => (.vanished, n, [])
  | .unanswered => (.unanswered, n, [])
  | .garbled fault => (.garbled fault, n, [])

def carry (choice : Choice) (now : Time) (sender : Peer) (out : Outgoing) (n : Network τ) :
    Carried × Network τ × List (Delivery τ) :=
  let packet := (Message.request out.request).toBytes
  let (back, reply, n) := n.contact choice now sender out.recipient.id packet
  let (fate, n, delivered) := n.conclude now out reply
  (⟨out.context, out.recipient, packet.length + back, fate⟩, n, delivered)

def carryAll (choice : Choice) (now : Time) (sender : Peer) :
    (rounds : Nat) → Network τ → List Carried × Network τ × List (Delivery τ)
  | 0, n => ([], n, [])
  | rounds + 1, n =>
    match n.searcher.pop with
    | (none, _) => ([], n, [])
    | (some out, searcher) =>
      let (carried, n, delivered) := carry choice now sender out { n with searcher }
      let (rest, n, more) := carryAll choice now sender rounds n
      (carried :: rest, n, delivered ++ more)

def tabled (n : Network τ) : Nat := n.nodes.foldr (fun node k => node.tables.size + k) 0

/-- More requests than can come up: those that wait, and for each lookup one to every peer in the
tables of all nodes. -/
def budget (n : Network τ) : Nat := n.searcher.outbound.length + n.searcher.active * n.tabled

def drive (choice : Choice) (now : Time) (n : Network τ) :
    List Carried × Network τ × List (Delivery τ) :=
  match n.nodes with
  | [] => ([], n, [])
  | first :: _ => carryAll choice now first.peer n.budget n

end Network

end Kademlia
