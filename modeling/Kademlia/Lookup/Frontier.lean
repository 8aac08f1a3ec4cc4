import Kademlia.Ident
import Kademlia.Lookup.Progress

/-!
The frontier of a lookup: all peers it knows, closest to the target first, each with the progress
made with it. Only pending peers among the `k` closest ones that have not failed are candidates, so
a lookup spends no request on a peer far from the target.
-/

namespace Kademlia

structure Contact where
  id : Ident
  progress : Progress
  deriving DecidableEq, Repr

structure Frontier where
  k : Nat
  target : Ident
  contacts : List Contact := []
  /-- Number of requests in flight, counted as they start and end. -/
  inFlight : Nat := 0
  deriving Repr

namespace Frontier

def new (k : Nat) (target : Ident) : Frontier := { k, target }

def size (f : Frontier) : Nat := f.contacts.length

def isEmpty (f : Frontier) : Bool := f.contacts.isEmpty

/-- Puts a contact in its place by distance, if no contact stands at that distance. -/
def place (target : Ident) (c : Contact) : List Contact → Option (List Contact)
  | [] => some [c]
  | d :: rest =>
    match (c.id.distance target).compare (d.id.distance target) with
    | .lt => some (c :: d :: rest)
    | .eq => none
    | .gt => (place target c rest).map (d :: ·)

def add (f : Frontier) (id : Ident) : Bool × Frontier :=
  match place f.target ⟨id, .pending⟩ f.contacts with
  | some contacts => (true, { f with contacts })
  | none => (false, f)

def meets (f : Frontier) (id : Ident) (c : Contact) : Bool :=
  c.id.distance f.target = id.distance f.target

def progress? (f : Frontier) (id : Ident) : Option Progress :=
  (f.contacts.find? (f.meets id)).map Contact.progress

def contains (f : Frontier) (id : Ident) : Bool :=
  (f.contacts.find? (f.meets id)).isSome

/-- Sets the progress of a peer, keeps the count of requests in flight, and tells whether the peer
is known. -/
def mark (f : Frontier) (id : Ident) (progress : Progress) : Bool × Frontier :=
  match f.progress? id with
  | none => (false, f)
  | some before =>
    let ended := if before = .inProgress then f.inFlight - 1 else f.inFlight
    (true,
      { f with
        contacts := f.contacts.map fun c => if f.meets id c then { c with progress } else c
        inFlight := if progress = .inProgress then ended + 1 else ended })

def window (f : Frontier) : List Contact :=
  (f.contacts.filter fun c => c.progress ≠ .failed).take f.k

def candidates (f : Frontier) : List Ident :=
  (f.window.filter fun c => c.progress = .pending).map Contact.id

def candidate? (f : Frontier) : Option Ident := f.candidates.head?

def finished (f : Frontier) : List Ident :=
  (f.contacts.filter fun c => c.progress = .finished).map Contact.id

def finishedClosest (f : Frontier) : List Ident := f.finished.take f.k

end Frontier

end Kademlia
