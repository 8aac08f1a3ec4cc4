import Kademlia.Peer

/-!
Buckets: short lists of peers with distinct identifiers. A removed peer leaves its place to the last
one, so places are not stable.
-/

namespace Kademlia

/-- Removes the element at a place by moving the last one into it. -/
def swapRemove {α : Type} (xs : List α) (i : Nat) : List α :=
  match xs.getLast? with
  | none => []
  | some last => (xs.set i last).dropLast

structure Bucket where
  capacity : Nat
  peers : List Peer := []
  deriving DecidableEq, Repr

namespace Bucket

def new (capacity : Nat) : Bucket := { capacity }

def size (b : Bucket) : Nat := b.peers.length

def isEmpty (b : Bucket) : Bool := b.peers.isEmpty

def isFull (b : Bucket) : Bool := b.capacity ≤ b.peers.length

def get (b : Bucket) (i : Nat) : Except Error Peer :=
  match b.peers[i]? with
  | some p => .ok p
  | none => .error (.slotOutOfBounds i b.peers.length)

def position? (b : Bucket) (id : Ident) : Option Nat :=
  b.peers.findIdx? fun p => p.id = id

def contains (b : Bucket) (id : Ident) : Bool := (b.position? id).isSome

def add (b : Bucket) (p : Peer) : Bool × Bucket :=
  if b.isFull || b.contains p.id then (false, b)
  else (true, { b with peers := b.peers ++ [p] })

def removeAt (b : Bucket) (i : Nat) : Except Error (Peer × Bucket) := do
  let p ← b.get i
  return (p, { b with peers := swapRemove b.peers i })

def remove (b : Bucket) (id : Ident) : Bool × Bucket :=
  match b.position? id with
  | some i => (true, { b with peers := swapRemove b.peers i })
  | none => (false, b)

end Bucket

end Kademlia
