import Kademlia.Catalog
import Kademlia.Digest

/-!
The names of topics. A topic is known to all nodes by the identifier of its name; the registry turns
identifiers back into names.
-/

namespace Kademlia

structure Topics where
  names : Catalog Ident String := {}
  deriving Repr

namespace Topics

def identOf (name : String) : Ident :=
  Ident.ofContent name.toUTF8.toList

/-- Enters a name, unless its identifier has one, and returns the identifier. -/
def register (t : Topics) (name : String) : Ident × Topics :=
  let id := identOf name
  (id, { t with names := t.names.putNew id name })

def lookup (t : Topics) (id : Ident) : Option String := t.names.get? id

def contains (t : Topics) (id : Ident) : Bool := t.names.contains id

def unregister (t : Topics) (id : Ident) : Option String × Topics :=
  (t.names.get? id, { t with names := t.names.erase id })

def display (t : Topics) (id : Ident) : String :=
  (t.lookup id).getD id.text

end Topics

end Kademlia
