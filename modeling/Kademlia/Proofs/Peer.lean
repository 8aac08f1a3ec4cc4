import Kademlia.Proofs.Bencode.Source
import Kademlia.Proofs.Bytes

/-!
Compact peers against byte strings of any length. What is read is written again as it was, and it is
the length alone that decides whether anything is read. A list of compact peers is read entry by
entry, and the first bad entry decides the error.
-/

namespace Kademlia

open Bencode

section Parts

theorem Ident.ofBytes_ok {bytes : Bytes} (h : bytes.length = 20) :
    ∃ a, ofBytes bytes = .ok a ∧ a.toBytes = bytes :=
  ⟨_, if_pos h, beBytes_mod_beValue h (by decide)⟩

namespace Address

theorem ofBytes?_isSome_iff (bytes : Bytes) :
    (ofBytes? bytes).isSome ↔ bytes.length = 6 ∨ bytes.length = 18 := by
  unfold ofBytes?
  split
  next h => simp [h]
  next h6 =>
    split
    next h => simp [h]
    next h18 => simp [h6, h18]

/-- The two kinds of hosts differ in their lengths, and the service follows either. -/
theorem toBytes_of_ofBytes? {bytes : Bytes} {a : Address} (h : ofBytes? bytes = some a) :
    a.toBytes = bytes := by
  have hhost : ∀ {n m : Nat}, bytes.length = n + 2 → 256 ^ n ≤ m →
      beBytes n (beValue (bytes.take n) % m) = bytes.take n := by
    intro n m hn hm
    apply beBytes_mod_beValue _ hm
    rw [List.length_take]
    omega
  have hservice : ∀ {n : Nat}, bytes.length = n + 2 →
      beBytes 2 (UInt16.ofNat (beValue (bytes.drop n))).toNat = bytes.drop n := by
    intro n hn
    rw [UInt16.toNat_ofNat']
    apply beBytes_mod_beValue _ (by decide)
    rw [List.length_drop]
    omega
  unfold ofBytes? at h
  split at h
  next h6 =>
    cases h
    simp only [toBytes, Host.toBytes, BitVec.toNat_ofNat, hhost h6 (m := 2 ^ 32) (by decide),
      hservice h6, List.take_append_drop]
  next =>
    split at h
    next h18 =>
      cases h
      simp only [toBytes, Host.toBytes, BitVec.toNat_ofNat, hhost h18 (m := 2 ^ 128) (by decide),
        hservice h18, List.take_append_drop]
    next => cases h

/-- Reads an address that stands behind an identifier, and reports the length of both together. -/
def ofBytesBehind (bytes : Bytes) : Except Error Address :=
  (ofBytes? bytes).elim (.error (.compactPeerSize (identSize + bytes.length))) .ok

end Address

end Parts

namespace Peer

section Entries

variable {bytes : Bytes}

def Compact (bytes : Bytes) : Prop := bytes.length = 26 ∨ bytes.length = 38

instance (bytes : Bytes) : Decidable (Compact bytes) :=
  inferInstanceAs (Decidable (bytes.length = 26 ∨ bytes.length = 38))

theorem toBytes_compact (p : Peer) : Compact p.toBytes := by
  obtain ⟨id, ⟨host, service⟩⟩ := p
  cases host with
  | v4 bits =>
    left
    simp [toBytes, Address.toBytes, Host.toBytes]
  | v6 bits =>
    right
    simp [toBytes, Address.toBytes, Host.toBytes]

theorem compact_iff_address (bytes : Bytes) :
    Compact bytes ↔ (Address.ofBytes? (bytes.drop 20)).isSome := by
  rw [Address.ofBytes?_isSome_iff, List.length_drop]
  unfold Compact
  omega

theorem ofBytes_of_compact (h : Compact bytes) :
    ∃ p, ofBytes bytes = .ok p ∧ p.toBytes = bytes := by
  have hlength : (bytes.take 20).length = 20 := by
    rcases h with h | h <;> simp [h]
  obtain ⟨id, hread, hid⟩ := Ident.ofBytes_ok hlength
  obtain ⟨address, hbehind⟩ := Option.isSome_iff_exists.mp ((compact_iff_address bytes).mp h)
  refine ⟨⟨id, address⟩, ?_, ?_⟩
  · rw [ofBytes, hread, hbehind]
  · rw [toBytes, hid, Address.toBytes_of_ofBytes? hbehind, List.take_append_drop]

theorem ofBytes_of_not_compact (h : ¬ Compact bytes) :
    ofBytes bytes = .error (.compactPeerSize bytes.length) := by
  rw [compact_iff_address, Option.not_isSome_iff_eq_none] at h
  simp [ofBytes, h]

theorem ofBytes_eq_ok_iff (bytes : Bytes) (p : Peer) :
    ofBytes bytes = .ok p ↔ p.toBytes = bytes := by
  constructor
  · intro h
    by_cases hc : Compact bytes
    · obtain ⟨q, hq, hbytes⟩ := ofBytes_of_compact hc
      cases h.symm.trans hq
      exact hbytes
    · cases h.symm.trans (ofBytes_of_not_compact hc)
  · rintro rfl
    exact ofBytes_toBytes p

/-- Reads a peer in two parts. The identifier is cut off only where there is room for it, and the
address judges by what is left. -/
def ofParts (bytes : Bytes) : Except Error Peer :=
  if bytes.length < identSize then .error (.compactPeerSize bytes.length)
  else do
    let id ← Ident.ofBytes (bytes.take identSize)
    let address ← Address.ofBytesBehind (bytes.drop identSize)
    return ⟨id, address⟩

/-- Whichever part is at fault, it is the whole length that is reported. -/
theorem ofParts_eq (bytes : Bytes) : ofParts bytes = ofBytes bytes := by
  unfold ofParts
  split
  next hshort =>
    refine (ofBytes_of_not_compact ?_).symm
    rw [identSize] at hshort
    unfold Compact
    omega
  next hlong =>
    have hlength : (bytes.take identSize).length = 20 := by
      rw [List.length_take]
      exact Nat.min_eq_left (Nat.not_lt.mp hlong)
    have hwhole : identSize + (bytes.drop identSize).length = bytes.length := by
      rw [List.length_drop]
      omega
    obtain ⟨id, hread, -⟩ := Ident.ofBytes_ok hlength
    simp only [Address.ofBytesBehind, hread, hwhole, bind, Except.bind]
    rw [identSize] at hread ⊢
    cases hbehind : Address.ofBytes? (bytes.drop 20) with
    | none => simp [ofBytes, hread, hbehind]
    | some address => simp [ofBytes, hread, hbehind, pure, Except.pure]

end Entries

section Lists

theorem listOfBytes_cons (bytes : Bytes) (entries : List Bytes) :
    listOfBytes (bytes :: entries) =
      ofBytes bytes >>= fun p => (listOfBytes entries).map (p :: ·) := by
  rw [listOfBytes, List.mapM_cons]
  rfl

theorem listOfBytes_append (entries others : List Bytes) :
    listOfBytes (entries ++ others) =
      listOfBytes entries >>= fun peers => (listOfBytes others).map (peers ++ ·) := by
  rw [listOfBytes, List.mapM_append]
  rfl

theorem listOfBytes_eq_ok_iff (entries : List Bytes) (peers : List Peer) :
    listOfBytes entries = .ok peers ↔ entries.map ofBytes = peers.map .ok := by
  induction entries generalizing peers with
  | nil => cases peers <;> simp [listOfBytes, pure, Except.pure]
  | cons bytes entries ih =>
    rw [listOfBytes_cons]
    constructor
    · intro h
      obtain ⟨p, hp, h⟩ := bind_eq_ok h
      obtain ⟨more, hmore, rfl⟩ := map_eq_ok h
      rw [List.map_cons, List.map_cons, hp, (ih more).mp hmore]
    · intro h
      cases peers with
      | nil => cases h
      | cons p peers =>
        obtain ⟨hp, hrest⟩ := List.cons.inj h
        rw [hp, (ih peers).mpr hrest]
        rfl

theorem toBytes_of_listOfBytes {entries : List Bytes} {peers : List Peer}
    (h : listOfBytes entries = .ok peers) : peers.map toBytes = entries := by
  induction entries generalizing peers with
  | nil =>
    cases h
    rfl
  | cons bytes entries ih =>
    rw [listOfBytes_cons] at h
    obtain ⟨p, hp, h⟩ := bind_eq_ok h
    obtain ⟨more, hmore, rfl⟩ := map_eq_ok h
    rw [List.map_cons, (ofBytes_eq_ok_iff bytes p).mp hp, ih hmore]

theorem listOfBytes_of_compact {entries : List Bytes} (h : ∀ bytes ∈ entries, Compact bytes) :
    ∃ peers, listOfBytes entries = .ok peers ∧ peers.map toBytes = entries := by
  induction entries with
  | nil => exact ⟨[], rfl, rfl⟩
  | cons bytes entries ih =>
    rw [List.forall_mem_cons] at h
    obtain ⟨p, hp, rfl⟩ := ofBytes_of_compact h.1
    obtain ⟨peers, hpeers, rfl⟩ := ih h.2
    refine ⟨p :: peers, ?_, rfl⟩
    rw [listOfBytes_cons, hp, hpeers]
    rfl

theorem listOfBytes_of_bad {front : List Bytes} (hfront : ∀ bytes ∈ front, Compact bytes)
    {bad : Bytes} (hbad : ¬ Compact bad) (back : List Bytes) :
    listOfBytes (front ++ bad :: back) = .error (.compactPeerSize bad.length) := by
  induction front with
  | nil =>
    rw [List.nil_append, listOfBytes_cons, ofBytes_of_not_compact hbad]
    rfl
  | cons bytes front ih =>
    rw [List.forall_mem_cons] at hfront
    obtain ⟨p, hp, -⟩ := ofBytes_of_compact hfront.1
    rw [List.cons_append, listOfBytes_cons, hp, ih hfront.2]
    rfl

end Lists

end Peer

end Kademlia
