import Kademlia.Ident
import Kademlia.TtlMap

/-!
Which peers are known to hold which broadcasts. The record of each peer has an expiry of its own.
-/

namespace Kademlia

structure Holders where
  ttl : Duration
  /-- For each broadcast, its holders with the times until which they are remembered. -/
  broadcasts : TtlMap MessageId (Catalog Ident Time)
  deriving Repr

namespace Holders

def new (ttl : Duration) : Holders := { ttl, broadcasts := TtlMap.new ttl }

def add (h : Holders) (now : Time) (id : MessageId) (peer : Ident) : Holders :=
  let (known, broadcasts) := h.broadcasts.remove id
  let peers := (known.getD {}).filter fun _ expiry => Time.live expiry now
  { h with broadcasts := (broadcasts.insert now id (peers.put peer (now + h.ttl))).2 }

def contains (h : Holders) (now : Time) (id : MessageId) (peer : Ident) : Bool :=
  match (h.broadcasts.get? now id).bind fun peers => peers.get? peer with
  | some expiry => Time.live expiry now
  | none => false

def peers (h : Holders) (now : Time) (id : MessageId) : List Ident :=
  match h.broadcasts.get? now id with
  | none => []
  | some peers => (peers.filter fun _ expiry => Time.live expiry now).keys

def clean (h : Holders) (now : Time) : Holders :=
  { h with broadcasts := h.broadcasts.clean now }

def size (h : Holders) : Nat := h.broadcasts.size

def isEmpty (h : Holders) : Bool := h.broadcasts.isEmpty

end Holders

end Kademlia
