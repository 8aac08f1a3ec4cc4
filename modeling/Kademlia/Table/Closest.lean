import Kademlia.Choice
import Kademlia.Table

/-!
Selections of peers from a routing table: those close to a target, and random ones for a broadcast.
-/

namespace Kademlia.Table

def eligible (t : Table) (ignore : Option Ident) (i : Nat) : List Peer :=
  ((t.bucket? i).map Bucket.peers).getD [] |>.filter fun p => some p.id ≠ ignore

/-- The peers of the two buckets at some distance from a bucket, the lower bucket first. -/
def ring (t : Table) (ignore : Option Ident) (start offset : Nat) : List Peer :=
  (if offset ≤ start then t.eligible ignore (start - offset) else []) ++
    t.eligible ignore (start + offset)

/-- Adds ring after ring until at least `k` peers are found. -/
def gather (t : Table) (ignore : Option Ident) (start : Nat) :
    List Nat → List Peer → List Peer
  | [], found => found
  | offset :: offsets, found =>
    if t.k ≤ found.length then found
    else gather t ignore start offsets (found ++ t.ring ignore start offset)

/-- Up to `k` peers close to the target, closest first. The search starts at the bucket of the
target and goes outwards until `k` peers are found, so a closer peer may lie beyond. -/
def closest (t : Table) (target : Ident) (ignore : Option Ident) : List Peer :=
  let start := min (t.depth target) t.settled.length
  let offsets := (List.range t.buckets.length).drop 1
  let found := t.gather ignore start offsets (t.eligible ignore start)
  (sortByDistance Peer.id target found).take t.k

def leftShare (n : Nat) : Nat := min 2 n

def sides (t : Table) (left : Nat) : List Peer × List Peer :=
  let left := min left t.settled.length
  (((t.bucket? left).map Bucket.peers).getD [], (t.buckets.drop (left + 1)).flatMap Bucket.peers)

/-- A sample for a broadcast: two peers of one bucket and the rest from later ones. -/
def broadcastSample (choice : Choice) (t : Table) (left n : Nat) : List Peer :=
  let (near, far) := t.sides left
  choice.pick (leftShare n) near ++ choice.pick (n - leftShare n) far

end Kademlia.Table
