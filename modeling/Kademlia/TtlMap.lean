import Kademlia.Catalog
import Kademlia.Time

/-!
A map whose entries live for a constant time. Each insertion also joins a queue, which is in the
order of expiry because the time to live is constant, so that cleaning takes dead entries from its
front only. Cleaning happens at every insertion; until then a dead entry is stored but never shown.
-/

namespace Kademlia

structure TtlMap (κ : Type) (α : Type) where
  ttl : Duration
  /-- The keys in the order of their insertions, each with the expiry of that insertion. -/
  queue : List (κ × Time) := []
  /-- The values, each with the expiry of its last insertion. -/
  entries : Catalog κ (α × Time) := {}
  deriving Repr

namespace TtlMap

variable {κ α : Type} [DecidableEq κ]

def new (ttl : Duration) : TtlMap κ α := { ttl }

def get? (m : TtlMap κ α) (now : Time) (key : κ) : Option α :=
  ((m.entries.get? key).filter fun e => Time.live e.2 now).map Prod.fst

def contains (m : TtlMap κ α) (now : Time) (key : κ) : Bool :=
  (m.get? now key).isSome

/-- Takes the expired front off the queue. A key that was inserted again since has another expiry
and stays. -/
def sweep (now : Time) :
    List (κ × Time) → Catalog κ (α × Time) → List (κ × Time) × Catalog κ (α × Time)
  | [], entries => ([], entries)
  | (key, expiry) :: queue, entries =>
    if Time.live expiry now then ((key, expiry) :: queue, entries)
    else
      sweep now queue
        (if (entries.get? key).map Prod.snd = some expiry then entries.erase key else entries)

def clean (m : TtlMap κ α) (now : Time) : TtlMap κ α :=
  let (queue, entries) := sweep now m.queue m.entries
  { m with queue, entries }

def insert (m : TtlMap κ α) (now : Time) (key : κ) (value : α) : Option α × TtlMap κ α :=
  let m := m.clean now
  let expiry := now + m.ttl
  ((m.entries.get? key).map Prod.fst,
    { m with queue := m.queue ++ [(key, expiry)], entries := m.entries.put key (value, expiry) })

/-- Takes an entry out, and returns the value that was stored. Its place in the queue stays behind
until it expires. -/
def remove (m : TtlMap κ α) (key : κ) : Option α × TtlMap κ α :=
  ((m.entries.get? key).map Prod.fst, { m with entries := m.entries.erase key })

def toList (m : TtlMap κ α) (now : Time) : List (κ × α) :=
  (m.entries.entries.filter fun e => Time.live e.2.2 now).map fun e => (e.1, e.2.1)

/-- Number of entries that are stored, dead ones included. -/
def size (m : TtlMap κ α) : Nat := m.entries.size

def isEmpty (m : TtlMap κ α) : Bool := m.entries.isEmpty

end TtlMap

end Kademlia
