import Kademlia.Message
import Kademlia.TtlMap

/-!
The broadcasts seen lately, each kept for a constant time.
-/

namespace Kademlia

structure Archive where
  broadcasts : TtlMap MessageId Broadcast
  deriving Repr

namespace Archive

def new (ttl : Duration) : Archive := { broadcasts := TtlMap.new ttl }

def add (a : Archive) (now : Time) (b : Broadcast) : Archive :=
  { a with broadcasts := (a.broadcasts.insert now b.id b).2 }

def get? (a : Archive) (now : Time) (id : MessageId) : Option Broadcast :=
  a.broadcasts.get? now id

def contains (a : Archive) (now : Time) (id : MessageId) : Bool :=
  a.broadcasts.contains now id

def clean (a : Archive) (now : Time) : Archive :=
  { a with broadcasts := a.broadcasts.clean now }

def size (a : Archive) : Nat := a.broadcasts.size

def isEmpty (a : Archive) : Bool := a.broadcasts.isEmpty

end Archive

end Kademlia
