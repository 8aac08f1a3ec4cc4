import Kademlia.Message

/-!
What a lookup is after, and what it finds.
-/

namespace Kademlia

inductive Goal where
  /-- The peers closest to `target` in the routing table `table`. -/
  | closest (table target : Ident)
  /-- The value under a key, from the first peer that has it. -/
  | value (key : Ident)
  /-- Members of a group, until `sample` of them are known; `k` when nothing is said. -/
  | members (of : GroupKind) (id : Ident) (sample : Option Nat)
  deriving DecidableEq, Repr

namespace Goal

def table : Goal → Ident
  | .closest table _ => table
  | _ => mainTable

def target : Goal → Ident
  | .closest _ target => target
  | .value key => key
  | .members _ id _ => id

end Goal

inductive Finding where
  | closest (table target : Ident) (closest : List Peer)
  /-- A value with the peer that had it, and the closest other peer that answered, where the value
  may be kept as well. -/
  | value (key : Ident) (value : Option Bytes) (provider cacheTarget : Option Peer)
      (closest : List Peer)
  /-- Distinct members in the order in which they were found. -/
  | members (id : Ident) (closest members : List Peer)
  deriving DecidableEq, Repr

inductive Content where
  | none
  | value (value : Option Bytes)
  | members (members : List Peer)
  deriving DecidableEq, Repr

def Response.content : Response → Content
  | .findNode _ _ => .none
  | .findValue _ _ value => .value value
  | .findMembers _ _ _ members => .members members

end Kademlia
