import Mathlib.Algebra.Group.Nat.Defs
import Mathlib.Data.List.Basic
import Mathlib.Data.List.Induction
import Kademlia.Peer

/-!
Numbers and the bytes that spell them, and what is written with such bytes alone: identifiers and
compact peers. Each is read back as it was written.
-/

namespace Kademlia

@[simp] theorem length_beBytes (n v : Nat) : (beBytes n v).length = n := by
  induction n generalizing v with
  | zero => rfl
  | succ n ih => simp [beBytes, ih]

theorem beValue_concat (bytes : Bytes) (byte : UInt8) :
    beValue (bytes ++ [byte]) = beValue bytes * 256 + byte.toNat := by
  simp [beValue]

theorem beValue_beBytes (n v : Nat) : beValue (beBytes n v) = v % 256 ^ n := by
  induction n generalizing v with
  | zero => simp [beBytes, beValue, Nat.mod_one]
  | succ n ih =>
    calc
      beValue (beBytes (n + 1) v) = beValue (beBytes n (v / 256)) * 256 + v % 256 := by
        rw [beBytes, beValue_concat, UInt8.toNat_ofNat', Nat.mod_mod]
      _ = v / 256 % 256 ^ n * 256 + v % 256 := by rw [ih]
      _ = v % 256 ^ (n + 1) := by
        rw [Nat.pow_succ', Nat.mod_mul, Nat.add_comm, Nat.mul_comm]

theorem beValue_lt (bytes : Bytes) : beValue bytes < 256 ^ bytes.length := by
  induction bytes using List.reverseRecOn with
  | nil => decide
  | append_singleton bytes byte ih =>
    have hb := byte.toNat_lt
    rw [beValue_concat, List.length_append, List.length_singleton, Nat.pow_succ]
    omega

theorem beBytes_beValue (bytes : Bytes) : beBytes bytes.length (beValue bytes) = bytes := by
  induction bytes using List.reverseRecOn with
  | nil => rfl
  | append_singleton bytes byte ih =>
    have hb := byte.toNat_lt
    have hfront : (beValue bytes * 256 + byte.toNat) / 256 = beValue bytes := by omega
    have hlast : (beValue bytes * 256 + byte.toNat) % 256 = byte.toNat := by omega
    rw [beValue_concat, List.length_append, List.length_singleton, beBytes, hfront, hlast, ih,
      UInt8.ofNat_toNat]

theorem beBytes_mod_beValue {n m : Nat} {bytes : Bytes} (hn : bytes.length = n)
    (hm : 256 ^ n ≤ m) : beBytes n (beValue bytes % m) = bytes := by
  subst hn
  rw [Nat.mod_eq_of_lt (Nat.lt_of_lt_of_le (beValue_lt bytes) hm), beBytes_beValue]

theorem ofNat_beValue_beBytes {width : Nat} (n : Nat) (bits : BitVec width)
    (h : 2 ^ width ≤ 256 ^ n) : BitVec.ofNat width (beValue (beBytes n bits.toNat)) = bits := by
  rw [beValue_beBytes, Nat.mod_eq_of_lt (Nat.lt_of_lt_of_le bits.isLt h), BitVec.ofNat_toNat,
    BitVec.setWidth_eq]

namespace Ident

@[simp] theorem length_toBytes (a : Ident) : a.toBytes.length = 20 := length_beBytes ..

theorem ofBytes_toBytes (a : Ident) : ofBytes a.toBytes = .ok a := by
  rw [ofBytes, if_pos (length_toBytes a), toBytes, ofNat_beValue_beBytes 20 a.bits (by decide)]

end Ident

namespace Address

theorem ofBytes?_toBytes (a : Address) : ofBytes? a.toBytes = some a := by
  obtain ⟨host, service⟩ := a
  have hlt : service.toNat < 256 ^ 2 := by
    have := service.toNat_lt
    omega
  have hs : UInt16.ofNat (beValue (beBytes 2 service.toNat)) = service := by
    rw [beValue_beBytes, Nat.mod_eq_of_lt hlt, UInt16.ofNat_toNat]
  cases host with
  | v4 bits =>
    simp [ofBytes?, toBytes, Host.toBytes, hs, ofNat_beValue_beBytes 4 bits (by decide)]
  | v6 bits =>
    simp [ofBytes?, toBytes, Host.toBytes, hs, ofNat_beValue_beBytes 16 bits (by decide)]

end Address

namespace Peer

theorem length_toBytes_le (p : Peer) : p.toBytes.length ≤ 38 := by
  obtain ⟨id, ⟨host, service⟩⟩ := p
  cases host <;> simp [toBytes, Address.toBytes, Host.toBytes]

theorem ofBytes_toBytes (p : Peer) : ofBytes p.toBytes = .ok p := by
  have ht : p.toBytes.take 20 = p.id.toBytes := by
    rw [toBytes, List.take_append_of_le_length (by simp), List.take_of_length_le (by simp)]
  have hd : p.toBytes.drop 20 = p.address.toBytes := by
    rw [toBytes, List.drop_append_of_le_length (by simp), List.drop_of_length_le (by simp),
      List.nil_append]
  rw [ofBytes, ht, hd, Ident.ofBytes_toBytes, Address.ofBytes?_toBytes]

theorem listOfBytes_toBytes (ps : List Peer) : listOfBytes (ps.map toBytes) = .ok ps := by
  induction ps with
  | nil => rfl
  | cons p rest ih =>
    rw [listOfBytes, List.map_cons, List.mapM_cons, ofBytes_toBytes]
    rw [listOfBytes] at ih
    rw [ih]
    rfl

end Peer

end Kademlia
