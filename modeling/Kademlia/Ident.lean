import Kademlia.Bytes

/-!
Identifiers: points of the 160-bit keyspace shared by nodes, stored keys, topics and routing tables,
with the XOR metric between them.
-/

namespace Kademlia

def identSize : Nat := 20

/-- Size of an identifier in bits, and the common prefix length of an identifier with itself. -/
def identBits : Nat := 160

structure Ident where
  bits : BitVec 160
  deriving DecidableEq, Repr

/-- XOR distance of two identifiers, ordered as an unsigned number. -/
structure Distance where
  bits : BitVec 160
  deriving DecidableEq, Repr

/-- Name of a broadcast message, not a point of the keyspace. -/
structure MessageId where
  bits : BitVec 128
  deriving DecidableEq, Repr

def messageIdSize : Nat := 16

namespace Distance

def toBytes (d : Distance) : Bytes := beBytes 20 d.bits.toNat

def text (d : Distance) : String := hexText d.toBytes

def isZero (d : Distance) : Bool := d.bits = 0

def leadingZeros (d : Distance) : Nat := d.bits.clz.toNat

def compare (a b : Distance) : Ordering := Ord.compare a.bits.toNat b.bits.toNat

instance : LT Distance := ⟨fun a b => a.bits.toNat < b.bits.toNat⟩
instance : LE Distance := ⟨fun a b => a.bits.toNat ≤ b.bits.toNat⟩

instance (a b : Distance) : Decidable (a < b) :=
  inferInstanceAs (Decidable (a.bits.toNat < b.bits.toNat))

instance (a b : Distance) : Decidable (a ≤ b) :=
  inferInstanceAs (Decidable (a.bits.toNat ≤ b.bits.toNat))

end Distance

namespace Ident

def zero : Ident := ⟨0⟩

def toBytes (a : Ident) : Bytes := beBytes 20 a.bits.toNat

def text (a : Ident) : String := hexText a.toBytes

/-- Identifiers are ordered as unsigned numbers, which is the order of their bytes. -/
def compare (a b : Ident) : Ordering := Ord.compare a.bits.toNat b.bits.toNat

def distance (a b : Ident) : Distance := ⟨a.bits ^^^ b.bits⟩

def cpl (a b : Ident) : Nat := (a.distance b).leadingZeros

/-- The identifier that shares exactly `n` leading bits with `reference` and takes the bits after
the first different one from `draw`. At full length this is `reference` itself. -/
def withPrefix (reference draw : Ident) (n : Nat) : Ident :=
  if 160 ≤ n then reference
  else
    let keep : BitVec 160 := BitVec.allOnes 160 <<< (160 - n)
    let flip : BitVec 160 := 1#160 <<< (159 - n)
    ⟨(reference.bits &&& keep) ||| (~~~reference.bits &&& flip) |||
      (draw.bits &&& ~~~(keep ||| flip))⟩

end Ident

namespace MessageId

def toBytes (m : MessageId) : Bytes := beBytes 16 m.bits.toNat

def text (m : MessageId) : String := hexText m.toBytes

def compare (a b : MessageId) : Ordering := Ord.compare a.bits.toNat b.bits.toNat

end MessageId

/-- Stably sorts things by the distance of their identifier to a target, closest first. -/
def sortByDistance {α : Type} (ident : α → Ident) (target : Ident) (xs : List α) : List α :=
  xs.mergeSort fun x y => (ident x).distance target ≤ (ident y).distance target

def mainTable : Ident := Ident.zero

end Kademlia
