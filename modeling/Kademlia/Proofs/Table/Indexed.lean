import Kademlia.Table.Closest
import Kademlia.Proofs.Table.Admission

/-!
The routing table with its buckets in one list, reached by index. Here an operation fails as soon as
it uses an index at which there is no bucket. Main statements: no operation fails, and each does what
it does to the table; and after any additions and removals every bucket holds what belongs there.
-/

namespace Kademlia

/-- A routing table whose buckets are reached by index. -/
structure IndexedTable where
  owner : Ident
  k : Nat
  buckets : List Bucket

namespace IndexedTable

variable (t : IndexedTable)

def new (owner : Ident) (k : Nat) : IndexedTable := ⟨owner, k, [Bucket.new k]⟩

def lastIndex : Nat := t.buckets.length - 1

def index (id : Ident) : Nat := min (t.owner.cpl id) t.lastIndex

section Changing

def unfoldLast : Option IndexedTable := do
  let last ← t.buckets[t.lastIndex]?
  let parts := Table.split (fun p => t.owner.cpl p.id) t.lastIndex last.peers
  let moved := parts.2.foldl (fun b p => (b.add p).2) (Bucket.new t.k)
  return { t with
    buckets := t.buckets.set t.lastIndex { last with peers := parts.1 } ++ [moved] }

variable {t} in
theorem length_unfoldLast {u : IndexedTable} (h : t.unfoldLast = some u) :
    u.buckets.length = t.buckets.length + 1 := by
  obtain ⟨last, -, hu⟩ := Option.bind_eq_some_iff.mp h
  cases hu
  simp

def makeRoom (t : IndexedTable) (depth : Nat) : Option IndexedTable :=
  match t.buckets[min depth t.lastIndex]? with
  | none => none
  | some b =>
    if min depth t.lastIndex = t.lastIndex ∧ b.isFull ∧ t.buckets.length < identBits then
      match _ : t.unfoldLast with
      | none => none
      | some u => u.makeRoom depth
    else some t
termination_by identBits - t.buckets.length
decreasing_by
  have := length_unfoldLast ‹t.unfoldLast = some _›
  omega

def add (p : Peer) : Option (Bool × IndexedTable) :=
  if p.id = t.owner then some (false, t)
  else do
    let t ← t.makeRoom (t.owner.cpl p.id)
    let b ← t.buckets[t.index p.id]?
    return ((b.add p).1, { t with buckets := t.buckets.set (t.index p.id) (b.add p).2 })

def remove (id : Ident) : Option (Bool × IndexedTable) := do
  let b ← t.buckets[t.index id]?
  return ((b.remove id).1, { t with buckets := t.buckets.set (t.index id) (b.remove id).2 })

def changes (t : IndexedTable) : List Table.Change → Option IndexedTable
  | [] => some t
  | .add p :: cs => do (← t.add p).2.changes cs
  | .remove id :: cs => do (← t.remove id).2.changes cs

end Changing

section Reading

def contains (id : Ident) : Option Bool := do
  let b ← t.buckets[t.index id]?
  return b.contains id

def get? (id : Ident) : Option (Option Peer) := do
  let b ← t.buckets[t.index id]?
  return (b.position? id).bind fun i => b.peers[i]?

def eligible (ignore : Option Ident) (i : Nat) : Option (List Peer) := do
  let b ← t.buckets[i]?
  return b.peers.filter fun p => some p.id ≠ ignore

/-- The peers of the bucket at some distance below a bucket. Below the first bucket none is looked
for. -/
def below (ignore : Option Ident) (start offset : Nat) : Option (List Peer) :=
  if offset ≤ start then t.eligible ignore (start - offset) else some []

/-- The peers of the bucket at some distance above a bucket. Above the last bucket none is looked
for. -/
def above (ignore : Option Ident) (start offset : Nat) : Option (List Peer) :=
  if start + offset < t.buckets.length then t.eligible ignore (start + offset) else some []

def ring (ignore : Option Ident) (start offset : Nat) : Option (List Peer) := do
  let lower ← t.below ignore start offset
  let upper ← t.above ignore start offset
  return lower ++ upper

def gather (ignore : Option Ident) (start : Nat) : List Nat → List Peer → Option (List Peer)
  | [], found => some found
  | offset :: offsets, found =>
    if t.k ≤ found.length then some found
    else do gather ignore start offsets (found ++ (← t.ring ignore start offset))

def closest (target : Ident) (ignore : Option Ident) : Option (List Peer) := do
  let nearest ← t.eligible ignore (t.index target)
  let offsets := (List.range t.buckets.length).drop 1
  let found ← t.gather ignore (t.index target) offsets nearest
  return (sortByDistance Peer.id target found).take t.k

/-- The buckets from an index on; an index just past the last bucket leaves none. -/
def bucketsFrom (i : Nat) : Option (List Bucket) :=
  if i ≤ t.buckets.length then some (t.buckets.drop i) else none

def broadcastSample (choice : Choice) (left n : Nat) : Option (List Peer) := do
  let left := min left t.lastIndex
  let near ← t.buckets[left]?
  let far ← t.bucketsFrom (left + 1)
  return choice.pick (Table.leftShare n) near.peers ++
    choice.pick (n - Table.leftShare n) (far.flatMap Bucket.peers)

end Reading

end IndexedTable

namespace Table

def indexed (t : Table) : IndexedTable := ⟨t.owner, t.k, t.buckets⟩

variable (t : Table)

theorem length_buckets : t.buckets.length = t.settled.length + 1 := by
  simp [buckets]

theorem indexed_lastIndex : t.indexed.lastIndex = t.settled.length := by
  simp [IndexedTable.lastIndex, indexed, length_buckets]

theorem indexed_index (id : Ident) : t.indexed.index id = min (t.depth id) t.settled.length := by
  rw [IndexedTable.index, indexed_lastIndex]
  rfl

theorem indexed_getElem? (depth : Nat) :
    t.indexed.buckets[min depth t.settled.length]? = some (t.bucketAt depth) :=
  bucketAt_eq t depth

theorem indexed_setBucketAt (depth : Nat) (b : Bucket) :
    (t.setBucketAt depth b).indexed =
      { t.indexed with buckets := t.indexed.buckets.set (min depth t.settled.length) b } := by
  rw [indexed, setBucketAt_owner, setBucketAt_k, buckets_setBucketAt]
  rfl

section Changing

theorem indexed_unfoldLast : t.indexed.unfoldLast = some t.unfoldLast.indexed := by
  have hlast : t.indexed.buckets[t.settled.length]? = some t.last := by simp [indexed, buckets]
  have hset : ∀ b, t.indexed.buckets.set t.settled.length b = t.settled ++ [b] := by
    intro b
    simp [indexed, buckets, List.set_append_right]
  rw [IndexedTable.unfoldLast, indexed_lastIndex, hlast]
  simp only [Option.bind_eq_bind, Option.bind_some, hset]
  rfl

theorem indexed_makeRoom (depth : Nat) :
    t.indexed.makeRoom depth = some (t.makeRoom depth).indexed := by
  -- the bucket that the loop looks at is the last one exactly when the depth is beyond the others
  have hcond : ∀ t : Table,
      (min depth t.settled.length = t.settled.length ∧ (t.bucketAt depth).isFull = true ∧
        t.indexed.buckets.length < identBits) ↔
      (t.settled.length ≤ depth ∧ t.last.isFull = true ∧ t.settled.length + 1 < identBits) := by
    intro t
    have hlen : t.indexed.buckets.length = t.settled.length + 1 := t.length_buckets
    have hmin : min depth t.settled.length = t.settled.length ↔ t.settled.length ≤ depth := by
      omega
    rw [hlen, hmin]
    refine and_congr_right fun hle => ?_
    rw [bucketAt, List.getElem?_eq_none hle, Option.getD_none]
  induction t using makeRoom.induct depth with
  | case1 t hfull ih =>
    rw [Table.makeRoom, if_pos hfull, ← ih, IndexedTable.makeRoom, indexed_lastIndex,
      indexed_getElem?]
    simp only [hcond, if_pos hfull]
    split
    next h => cases h.symm.trans t.indexed_unfoldLast
    next u h =>
      cases h.symm.trans t.indexed_unfoldLast
      rfl
  | case2 t hend =>
    rw [Table.makeRoom, if_neg hend, IndexedTable.makeRoom, indexed_lastIndex, indexed_getElem?]
    simp only [hcond, if_neg hend]

theorem makeRoom_owner (depth : Nat) : (t.makeRoom depth).owner = t.owner := by
  induction t using makeRoom.induct depth with
  | case1 t hfull ih =>
    rw [Table.makeRoom, if_pos hfull, ih]
    rfl
  | case2 t hend => rw [Table.makeRoom, if_neg hend]

theorem indexed_add (p : Peer) :
    t.indexed.add p = some ((t.add p).1, (t.add p).2.indexed) := by
  by_cases ho : p.id = t.owner
  · have hadd : t.add p = (false, t) := by simp [Table.add, ho]
    have hindexed : t.indexed.add p = some (false, t.indexed) := by
      simp [IndexedTable.add, indexed, ho]
    rw [hadd, hindexed]
  · have hne : p.id ≠ t.indexed.owner := ho
    have hdepth : t.indexed.owner.cpl p.id = t.depth p.id := rfl
    have howner : (t.makeRoom (t.depth p.id)).depth p.id = t.depth p.id := by
      rw [Table.depth, makeRoom_owner]
      rfl
    rw [IndexedTable.add, if_neg hne, hdepth, indexed_makeRoom]
    simp only [Option.bind_eq_bind, Option.bind_some, indexed_index, howner, indexed_getElem?,
      ← indexed_setBucketAt]
    simp [Table.add, ho]

theorem indexed_remove (id : Ident) :
    t.indexed.remove id = some ((t.remove id).1, (t.remove id).2.indexed) := by
  rw [IndexedTable.remove, indexed_index, indexed_getElem?]
  simp only [Option.bind_eq_bind, Option.bind_some, ← indexed_setBucketAt]
  rfl

theorem indexed_changes (cs : List Change) :
    t.indexed.changes cs = some (t.changes cs).indexed := by
  induction cs generalizing t with
  | nil => rfl
  | cons c cs ih =>
    cases c with
    | add p =>
      simp only [IndexedTable.changes, indexed_add, Option.bind_eq_bind, Option.bind_some, ih]
      rfl
    | remove id =>
      simp only [IndexedTable.changes, indexed_remove, Option.bind_eq_bind, Option.bind_some, ih]
      rfl

end Changing

section Reading

variable (ignore : Option Ident)

theorem indexed_eligible {i : Nat} (hi : i < t.buckets.length) :
    t.indexed.eligible ignore i = some (t.eligible ignore i) := by
  have hb : t.buckets[i]? = some t.buckets[i] := List.getElem?_eq_getElem hi
  have hi' : t.indexed.buckets[i]? = some t.buckets[i] := hb
  simp only [IndexedTable.eligible, hi', Table.eligible, bucket?, hb, Option.bind_eq_bind,
    Option.bind_some, Option.map_some, Option.getD_some]
  rfl

/-- Going down from a bucket stays inside the list, and going up stops at its end. -/
theorem indexed_ring {start : Nat} (hs : start < t.buckets.length) (offset : Nat) :
    t.indexed.ring ignore start offset = some (t.ring ignore start offset) := by
  have hlower : t.indexed.below ignore start offset =
      some (if offset ≤ start then t.eligible ignore (start - offset) else []) := by
    rw [IndexedTable.below]
    split
    · exact t.indexed_eligible ignore (by omega)
    · rfl
  have hupper : t.indexed.above ignore start offset =
      some (t.eligible ignore (start + offset)) := by
    rw [IndexedTable.above]
    split
    next h => exact t.indexed_eligible ignore h
    next h =>
      have hnone : t.buckets[start + offset]? = none :=
        List.getElem?_eq_none (Nat.le_of_not_lt h)
      simp [Table.eligible, bucket?, hnone]
  rw [IndexedTable.ring, hlower, hupper]
  rfl

theorem indexed_gather {start : Nat} (hs : start < t.buckets.length) (offsets : List Nat)
    (found : List Peer) :
    t.indexed.gather ignore start offsets found = some (t.gather ignore start offsets found) := by
  induction offsets generalizing found with
  | nil => rfl
  | cons offset offsets ih =>
    have hk : t.indexed.k = t.k := rfl
    rw [IndexedTable.gather, Table.gather, hk]
    split
    · rfl
    · rw [t.indexed_ring ignore hs]
      exact ih _

theorem indexed_closest (target : Ident) :
    t.indexed.closest target ignore = some (t.closest target ignore) := by
  have hs : min (t.depth target) t.settled.length < t.buckets.length := by
    rw [length_buckets]
    omega
  rw [IndexedTable.closest, indexed_index, t.indexed_eligible ignore hs]
  simp only [Option.bind_eq_bind, Option.bind_some, t.indexed_gather ignore hs]
  rfl

theorem indexed_broadcastSample (choice : Choice) (left n : Nat) :
    t.indexed.broadcastSample choice left n = some (t.broadcastSample choice left n) := by
  have hlen : t.indexed.buckets.length = t.settled.length + 1 := t.length_buckets
  have hfar : t.indexed.bucketsFrom (min left t.settled.length + 1) =
      some (t.buckets.drop (min left t.settled.length + 1)) :=
    if_pos (by omega)
  have hnear : t.bucket? (min left t.settled.length) = some (t.bucketAt left) :=
    bucketAt_eq t left
  rw [IndexedTable.broadcastSample]
  simp only [indexed_lastIndex, indexed_getElem?, hfar, Option.bind_eq_bind, Option.bind_some,
    Table.broadcastSample, sides, hnear, Option.map_some, Option.getD_some]
  rfl

/-- Reached by index, the buckets are there for every operation, and each operation does what it
does to the table. -/
structure InRange (t : Table) : Prop where
  add : ∀ p, t.indexed.add p = some ((t.add p).1, (t.add p).2.indexed)
  remove : ∀ id, t.indexed.remove id = some ((t.remove id).1, (t.remove id).2.indexed)
  contains : ∀ id, t.indexed.contains id = some (t.contains id)
  get : ∀ id, t.indexed.get? id = some (t.get? id)
  closest : ∀ target ignore, t.indexed.closest target ignore = some (t.closest target ignore)
  broadcastSample : ∀ choice left n,
    t.indexed.broadcastSample choice left n = some (t.broadcastSample choice left n)

theorem inRange : t.InRange where
  add := t.indexed_add
  remove := t.indexed_remove
  contains id := by
    rw [IndexedTable.contains, indexed_index, indexed_getElem?]
    rfl
  get id := by
    rw [IndexedTable.get?, indexed_index, indexed_getElem?]
    rfl
  closest target ignore := t.indexed_closest ignore target
  broadcastSample := t.indexed_broadcastSample

end Reading

section Shape

variable {t : Table}

theorem settled_le_makeRoom (t : Table) (depth : Nat) :
    t.settled.length ≤ (t.makeRoom depth).settled.length := by
  induction t using makeRoom.induct depth with
  | case1 t hfull ih =>
    rw [Table.makeRoom, if_pos hfull]
    refine Nat.le_trans ?_ ih
    simp [Table.unfoldLast]
  | case2 t hend =>
    have hsame : t.makeRoom depth = t := by rw [Table.makeRoom, if_neg hend]
    exact Nat.le_of_eq (congrArg (fun t => t.settled.length) hsame).symm

theorem settled_le_change (t : Table) (c : Change) :
    t.settled.length ≤ (t.change c).settled.length := by
  cases c with
  | add p =>
    simp only [Table.change, Table.add]
    split
    · exact Nat.le_refl _
    · rw [setBucketAt_settled_length]
      exact settled_le_makeRoom t _
  | remove id => simp [Table.change, Table.remove]

theorem settled_le_changes (t : Table) (cs : List Change) :
    t.settled.length ≤ (t.changes cs).settled.length := by
  induction cs generalizing t with
  | nil => exact Nat.le_refl _
  | cons c cs ih => exact Nat.le_trans (settled_le_change t c) (ih (t.change c))

/-- A bucket before the last one holds only peers at the depth that is its index, and the last one
only peers at least as deep as its index. -/
theorem WellFormed.depth_of_mem (h : t.WellFormed) {i : Nat} {b : Bucket}
    (hb : t.buckets[i]? = some b) {p : Peer} (hp : p ∈ b.peers) :
    (i < t.settled.length → t.depth p.id = i) ∧ (i = t.settled.length → i ≤ t.depth p.id) := by
  have := h.placed i b hb p hp
  constructor <;> omega

end Shape

/-- After any additions and removals a table has at least one and at most as many buckets as there
are bits, and further changes take none away. Each bucket holds at most `k` peers: those at the depth
that is its index, or deeper ones too if it is the last. No identifier stands twice, and the owner
not at all. With the buckets in one list, no change so far and no operation from now on uses an index
at which there is no bucket. -/
theorem keeps_shape_in_range (owner : Ident) (k : Nat) (cs : List Change) :
    let t := (new owner k).changes cs
    let last := t.buckets.length - 1
    (1 ≤ t.buckets.length ∧ t.buckets.length ≤ identBits) ∧
    (∀ more, t.buckets.length ≤ (t.changes more).buckets.length) ∧
    (∀ i b, t.buckets[i]? = some b → b.peers.length ≤ k ∧ ∀ p ∈ b.peers,
      (i < last → owner.cpl p.id = i) ∧ (i = last → i ≤ owner.cpl p.id)) ∧
    (t.peers.map Peer.id).Nodup ∧
    (∀ p ∈ t.peers, p.id ≠ owner) ∧
    (IndexedTable.new owner k).changes cs = some t.indexed ∧
    t.InRange := by
  intro t last
  obtain ⟨hw, ho, hk, -⟩ : t.WellFormed ∧ t.owner = owner ∧ t.k = k ∧ _ :=
    (new_wellFormed owner k).changes (.refl _) cs
  have hlen := t.length_buckets
  have hlast : last = t.settled.length := by omega
  have hdepth : ∀ id, t.depth id = owner.cpl id := fun id => by rw [Table.depth, ho]
  have hbound := hw.bounded
  refine ⟨?_, ?_, ?_, hw.distinct, ?_, (new owner k).indexed_changes cs, t.inRange⟩
  · constructor <;> omega
  · intro more
    have hgrow := settled_le_changes t more
    rw [length_buckets, length_buckets]
    omega
  · intro i b hb
    constructor
    · exact hk ▸ (hw.room b (List.mem_of_getElem? hb)).2
    · intro p hp
      rw [hlast, ← hdepth]
      exact hw.depth_of_mem hb hp
  · intro p hp
    rw [← ho]
    exact hw.owner_absent p hp

end Table

end Kademlia
