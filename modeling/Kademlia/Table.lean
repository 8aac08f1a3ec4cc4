import Kademlia.Bucket

/-!
The routing table of a node. Bucket `i` holds the peers that share exactly `i` leading bits with the
owner, except the last one, which holds all that share at least its index. The last bucket is split
when it is full and a peer comes for it, until there are as many buckets as bits.
-/

namespace Kademlia

structure Table where
  owner : Ident
  k : Nat
  settled : List Bucket := []
  last : Bucket

namespace Table

def new (owner : Ident) (k : Nat) : Table := { owner, k, last := Bucket.new k }

def buckets (t : Table) : List Bucket := t.settled ++ [t.last]

def bucket? (t : Table) (i : Nat) : Option Bucket := t.buckets[i]?

def depth (t : Table) (id : Ident) : Nat := t.owner.cpl id

def bucketAt (t : Table) (depth : Nat) : Bucket := t.settled[depth]?.getD t.last

def setBucketAt (t : Table) (depth : Nat) (b : Bucket) : Table :=
  if depth < t.settled.length then { t with settled := t.settled.set depth b }
  else { t with last := b }

/-- Sorts the peers of a bucket into those at the given depth, which stay in their places, and all
others, each of which leaves its place to the last peer. -/
def split (depthOf : Peer → Nat) (depth : Nat) : List Peer → List Peer × List Peer
  | [] => ([], [])
  | p :: rest =>
    if depthOf p = depth then
      let (kept, moved) := split depthOf depth rest
      (p :: kept, moved)
    else
      let (kept, moved) := split depthOf depth (swapRemove (p :: rest) 0)
      (kept, p :: moved)
termination_by peers => peers.length
decreasing_by
  · simp
  · simp only [swapRemove, List.getLast?_cons, List.set_cons_zero, List.length_dropLast,
      List.length_cons]
    omega

/-- Splits the last bucket: the peers that share more bits move to a new last bucket. -/
def unfoldLast (t : Table) : Table :=
  let (kept, moved) := split (fun p => t.depth p.id) t.settled.length t.last.peers
  { t with
    settled := t.settled ++ [{ t.last with peers := kept }]
    last := moved.foldl (fun b p => (b.add p).2) (Bucket.new t.k) }

/-- Splits the last bucket as long as it is the one for the given depth and full. -/
def makeRoom (t : Table) (depth : Nat) : Table :=
  if t.settled.length ≤ depth ∧ t.last.isFull ∧ t.settled.length + 1 < identBits then
    makeRoom t.unfoldLast depth
  else t
termination_by identBits - t.settled.length
decreasing_by
  simp only [unfoldLast, List.length_append, List.length_cons, List.length_nil]
  omega

/-- Adds a peer and tells whether it was admitted. The owner itself never is. -/
def add (t : Table) (p : Peer) : Bool × Table :=
  if p.id = t.owner then (false, t)
  else
    let depth := t.depth p.id
    let t := t.makeRoom depth
    let (added, b) := (t.bucketAt depth).add p
    (added, t.setBucketAt depth b)

def remove (t : Table) (id : Ident) : Bool × Table :=
  let depth := t.depth id
  let (removed, b) := (t.bucketAt depth).remove id
  (removed, t.setBucketAt depth b)

def contains (t : Table) (id : Ident) : Bool := (t.bucketAt (t.depth id)).contains id

def get? (t : Table) (id : Ident) : Option Peer :=
  let b := t.bucketAt (t.depth id)
  (b.position? id).bind fun i => b.peers[i]?

def peers (t : Table) : List Peer := t.buckets.flatMap Bucket.peers

def size (t : Table) : Nat := t.buckets.foldr (fun b n => b.size + n) 0

def isEmpty (t : Table) : Bool := t.buckets.all Bucket.isEmpty

def sample (t : Table) (n : Nat) : List Peer := t.peers.take n

end Table

end Kademlia
