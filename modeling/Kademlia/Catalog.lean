/-!
A finite map kept as a list of entries, in the order in which the keys first came. Every operation
that writes a key leaves one entry for it.
-/

namespace Kademlia

structure Catalog (κ : Type) (α : Type) where
  entries : List (κ × α) := []
  deriving Repr, DecidableEq

namespace Catalog

variable {κ α β : Type} [DecidableEq κ]

def empty : Catalog κ α := ⟨[]⟩

def get? (m : Catalog κ α) (key : κ) : Option α :=
  (m.entries.find? fun e => e.1 = key).map Prod.snd

def contains (m : Catalog κ α) (key : κ) : Bool :=
  (m.get? key).isSome

def keys (m : Catalog κ α) : List κ :=
  m.entries.map Prod.fst

def values (m : Catalog κ α) : List α :=
  m.entries.map Prod.snd

def size (m : Catalog κ α) : Nat :=
  m.entries.length

def isEmpty (m : Catalog κ α) : Bool :=
  m.entries.isEmpty

/-- Writes the value of a key: in place when the key is known, else at the end. -/
def put (m : Catalog κ α) (key : κ) (value : α) : Catalog κ α :=
  if m.contains key then
    ⟨m.entries.map fun e => if e.1 = key then (key, value) else e⟩
  else
    ⟨m.entries ++ [(key, value)]⟩

def putNew (m : Catalog κ α) (key : κ) (value : α) : Catalog κ α :=
  if m.contains key then m else m.put key value

def erase (m : Catalog κ α) (key : κ) : Catalog κ α :=
  ⟨m.entries.filter fun e => e.1 ≠ key⟩

def filter (m : Catalog κ α) (keep : κ → α → Bool) : Catalog κ α :=
  ⟨m.entries.filter fun e => keep e.1 e.2⟩

def mapValues (m : Catalog κ α) (f : α → β) : Catalog κ β :=
  ⟨m.entries.map fun e => (e.1, f e.2)⟩

end Catalog

end Kademlia
