import Kademlia.Directory
import Kademlia.Membership
import Kademlia.Message
import Kademlia.Store

/-!
Answering the requests of other nodes, and keeping what they ask to keep.
-/

namespace Kademlia

structure Server where
  /-- Greatest number of members in a response. -/
  sampleSize : Nat
  values : Store
  swarms : Membership
  pools : Membership
  deriving Repr

namespace Server

def new (p : Parameters) : Server :=
  { sampleSize := p.k
    values := Store.new p.maxValues
    swarms := Membership.new p.memberTtl
    pools := Membership.new p.memberTtl }

def members (s : Server) : GroupKind → Membership
  | .swarm => s.swarms
  | .pool => s.pools

def setMembers (s : Server) (of : GroupKind) (m : Membership) : Server :=
  match of with
  | .swarm => { s with swarms := m }
  | .pool => { s with pools := m }

/-- Handles a request. Requests to store and to join have no response. The peers in a response never
include the sender. -/
def handle (choice : Choice) (now : Time) (tables : Directory) (sender : Peer) (s : Server) :
    Request → Option Response × Server
  | .findNode context target table =>
    (some (.findNode context (tables.closest (table.getD mainTable) target (some sender.id))), s)
  | .findValue context key =>
    let (value, values) := s.values.read key
    (some (.findValue context (tables.closest mainTable key (some sender.id)) value),
      { s with values })
  | .findMembers of context id =>
    (some (.findMembers of context (tables.closest mainTable id (some sender.id))
      ((s.members of).sample choice now id s.sampleSize)), s)
  | .store key value => (none, { s with values := s.values.write key value })
  | .join of id => (none, s.setMembers of ((s.members of).join now id sender))

def clean (s : Server) (now : Time) : Server :=
  { s with swarms := s.swarms.clean now, pools := s.pools.clean now }

end Server

end Kademlia
