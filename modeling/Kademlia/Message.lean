import Kademlia.Peer

/-!
What nodes say to each other: requests, responses to them, and notices about broadcasts, which are
not answered.
-/

namespace Kademlia

inductive GroupKind where
  | swarm
  | pool
  deriving DecidableEq, Repr

inductive Request where
  /-- Closest peers to `target` in a routing table, the main one if none is named. -/
  | findNode (context : UInt64) (target : Ident) (table : Option Ident)
  | findValue (context : UInt64) (key : Ident)
  | findMembers (of : GroupKind) (context : UInt64) (id : Ident)
  | store (key : Ident) (value : Bytes)
  | join (of : GroupKind) (id : Ident)
  deriving DecidableEq, Repr

inductive Response where
  | findNode (context : UInt64) (peers : List Peer)
  | findValue (context : UInt64) (peers : List Peer) (value : Option Bytes)
  | findMembers (of : GroupKind) (context : UInt64) (peers members : List Peer)
  deriving DecidableEq, Repr

structure Broadcast where
  table : Ident
  id : MessageId
  /-- The peer that sent it first. -/
  origin : Peer
  hops : UInt8
  payload : Bytes
  deriving DecidableEq, Repr

inductive Notice where
  /-- The sender holds a broadcast. -/
  | offer (table : Ident) (id : MessageId)
  /-- The sender asks for a broadcast that was offered. -/
  | want (table : Ident) (id : MessageId)
  | carry (broadcast : Broadcast)
  deriving DecidableEq, Repr

inductive Message where
  | request (request : Request)
  | response (response : Response)
  | notice (notice : Notice)
  deriving DecidableEq, Repr

def Response.context : Response → UInt64
  | .findNode context _ => context
  | .findValue context _ _ => context
  | .findMembers _ context _ _ => context

def Response.closerPeers : Response → List Peer
  | .findNode _ peers => peers
  | .findValue _ peers _ => peers
  | .findMembers _ _ peers _ => peers

namespace Broadcast

def new (table : Ident) (origin : Peer) (payload : Bytes) (id : MessageId) : Broadcast :=
  ⟨table, id, origin, 0, payload⟩

/-- The message as it goes to the next peer; the count of hops stops at its greatest value. -/
def forwarded (b : Broadcast) : Broadcast :=
  { b with hops := if b.hops = 255 then 255 else b.hops + 1 }

end Broadcast

end Kademlia
