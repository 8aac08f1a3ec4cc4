import Kademlia.Choice
import Kademlia.TtlMap

/-!
The members of groups. Each is forgotten a constant time after it last joined.
-/

namespace Kademlia

structure Membership where
  ttl : Duration
  groups : Catalog Ident (TtlMap Ident Address) := {}
  deriving Repr

namespace Membership

def new (ttl : Duration) : Membership := { ttl }

def join (m : Membership) (now : Time) (group : Ident) (p : Peer) : Membership :=
  let members := (m.groups.get? group).getD (TtlMap.new m.ttl)
  { m with groups := m.groups.put group (members.insert now p.id p.address).2 }

def contains (m : Membership) (now : Time) (group member : Ident) : Bool :=
  ((m.groups.get? group).map fun members => members.contains now member).getD false

def live (m : Membership) (now : Time) (group : Ident) : List Peer :=
  match m.groups.get? group with
  | none => []
  | some members => (members.toList now).map fun e => ⟨e.1, e.2⟩

def sample (choice : Choice) (m : Membership) (now : Time) (group : Ident) (n : Nat) :
    List Peer :=
  choice.pick n (m.live now group)

def clean (m : Membership) (now : Time) : Membership :=
  { m with
    groups := (m.groups.mapValues fun members => members.clean now).filter
      fun _ members => !members.isEmpty }

def size (m : Membership) : Nat := m.groups.size

def isEmpty (m : Membership) : Bool := m.groups.isEmpty

end Membership

end Kademlia
