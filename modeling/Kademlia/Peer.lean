import Kademlia.Ident.Text

/-!
Peers, and their compact form: the twenty bytes of the identifier, the four or sixteen bytes of the
host, and two bytes for the service number. The length alone tells the address family.
-/

namespace Kademlia

/-- An internet host. An IPv6 host is never taken for the IPv4 host that it may embed. -/
inductive Host where
  | v4 (bits : BitVec 32)
  | v6 (bits : BitVec 128)
  deriving DecidableEq, Repr

structure Address where
  host : Host
  service : UInt16
  deriving DecidableEq, Repr

structure Peer where
  id : Ident
  address : Address
  deriving DecidableEq, Repr

def Host.toBytes : Host → Bytes
  | .v4 bits => beBytes 4 bits.toNat
  | .v6 bits => beBytes 16 bits.toNat

namespace Address

def unspecified : Address := ⟨.v4 0, 0⟩

def loopback (service : UInt16) : Address := ⟨.v4 0x7F000001, service⟩

def toBytes (a : Address) : Bytes :=
  a.host.toBytes ++ beBytes 2 a.service.toNat

/-- Reads six bytes as an IPv4 address and eighteen as an IPv6 address. -/
def ofBytes? (bytes : Bytes) : Option Address :=
  if bytes.length = 6 then
    some ⟨.v4 (BitVec.ofNat 32 (beValue (bytes.take 4))), UInt16.ofNat (beValue (bytes.drop 4))⟩
  else if bytes.length = 18 then
    some ⟨.v6 (BitVec.ofNat 128 (beValue (bytes.take 16))), UInt16.ofNat (beValue (bytes.drop 16))⟩
  else none

end Address

namespace Peer

/-- The compact form: 26 bytes with an IPv4 address, 38 with an IPv6 address. -/
def toBytes (p : Peer) : Bytes :=
  p.id.toBytes ++ p.address.toBytes

/-- Reads the compact form and reports the whole length of anything else. -/
def ofBytes (bytes : Bytes) : Except Error Peer :=
  match Ident.ofBytes (bytes.take 20), Address.ofBytes? (bytes.drop 20) with
  | .ok id, some address => .ok ⟨id, address⟩
  | _, _ => .error (.compactPeerSize bytes.length)

/-- Reads a list of compact forms; the first bad one decides the error. -/
def listOfBytes (entries : List Bytes) : Except Error (List Peer) :=
  entries.mapM ofBytes

end Peer

end Kademlia
