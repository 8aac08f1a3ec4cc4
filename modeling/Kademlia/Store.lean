import Kademlia.Ident

/-!
The values that a node stores for others, a bounded number of them. Reading or writing a value makes
it the most recently used one; a new value in a full store drops the least recently used one.
-/

namespace Kademlia

structure Store where
  capacity : Nat
  /-- The values with their keys, most recently used first. -/
  values : List (Ident × Bytes) := []
  deriving Repr

namespace Store

def new (maxValues : Nat) : Store := { capacity := max 1 maxValues }

def get? (s : Store) (key : Ident) : Option Bytes :=
  (s.values.find? fun e => e.1 = key).map Prod.snd

def touch (s : Store) (key : Ident) (value : Bytes) : Store :=
  { s with values := (key, value) :: s.values.filter fun e => e.1 ≠ key }

def read (s : Store) (key : Ident) : Option Bytes × Store :=
  match s.get? key with
  | some value => (some value, s.touch key value)
  | none => (none, s)

def write (s : Store) (key : Ident) (value : Bytes) : Store :=
  if (s.get? key).isSome then s.touch key value
  else { s with values := (key, value) :: s.values.take (s.capacity - 1) }

end Store

end Kademlia
