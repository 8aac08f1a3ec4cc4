import Kademlia.Proofs.Message.Wire
import Kademlia.Proofs.Peer

/-!
The compact peers in a response. Main statement: a peer is read from every byte string of 26 or 38
bytes and from no other, the lists of a response are read entry by entry, and the first bad entry in
any of them makes the whole message fail and tells its length.
-/

namespace Kademlia

open Bencode

namespace Response

section Records

@[elab_as_elim]
theorem record_cases {motive : (k : ResponseKind) → (ResponseKind.arguments k).Record → Prop}
    (findNode : ∀ (context : UInt64) (peers : List Bytes), motive .findNode (context, peers, ()))
    (findValue : ∀ (context : UInt64) (peers : List Bytes) (value : Option Bytes),
      motive .findValue (context, peers, value, ()))
    (findMembers : ∀ (of : GroupKind) (context : UInt64) (peers members : List Bytes),
      motive (.findMembers of) (context, peers, members, ()))
    (k : ResponseKind) (record : (ResponseKind.arguments k).Record) : motive k record :=
  match k, record with
  | .findNode, (context, peers, ()) => findNode context peers
  | .findValue, (context, peers, value, ()) => findValue context peers value
  | .findMembers of, (context, peers, members, ()) => findMembers of context peers members

def compactPeers : (k : ResponseKind) → (ResponseKind.arguments k).Record → List Bytes
  | .findNode, (_, peers, ()) => peers
  | .findValue, (_, peers, _, ()) => peers
  | .findMembers _, (_, peers, members, ()) => List.append peers members

theorem ofRecord_findNode (context : UInt64) (peers : List Bytes) :
    ofRecord .findNode (context, peers, ()) =
      Peer.listOfBytes peers >>= fun read => .ok (.findNode context read) := rfl

theorem ofRecord_findValue (context : UInt64) (peers : List Bytes) (value : Option Bytes) :
    ofRecord .findValue (context, peers, value, ()) =
      Peer.listOfBytes peers >>= fun read => .ok (.findValue context read value) := rfl

theorem ofRecord_findMembers (of : GroupKind) (context : UInt64) (peers members : List Bytes) :
    ofRecord (.findMembers of) (context, peers, members, ()) =
      Peer.listOfBytes peers >>= fun read => Peer.listOfBytes members >>= fun others =>
        .ok (.findMembers of context read others) := rfl

variable {k : ResponseKind} {record : (ResponseKind.arguments k).Record}

/-- A response is read from the arguments that it is written with, and from no others. -/
theorem toRecord_of_ofRecord {r : Response} (h : ofRecord k record = .ok r) :
    r.toRecord = ⟨k, record⟩ := by
  induction k, record using record_cases with
  | findNode context peers =>
    obtain ⟨read, hp, h⟩ := bind_eq_ok h
    cases h
    rw [toRecord, Peer.toBytes_of_listOfBytes hp]
  | findValue context peers value =>
    obtain ⟨read, hp, h⟩ := bind_eq_ok h
    cases h
    rw [toRecord, Peer.toBytes_of_listOfBytes hp]
  | findMembers of context peers members =>
    obtain ⟨read, hp, h⟩ := bind_eq_ok h
    obtain ⟨others, hm, h⟩ := bind_eq_ok h
    cases h
    rw [toRecord, Peer.toBytes_of_listOfBytes hp, Peer.toBytes_of_listOfBytes hm]

theorem ofRecord_of_compact (h : ∀ bytes ∈ compactPeers k record, Peer.Compact bytes) :
    ∃ r, ofRecord k record = .ok r := by
  induction k, record using record_cases with
  | findNode context peers =>
    have hpeers : ∀ bytes ∈ peers, Peer.Compact bytes := h
    obtain ⟨read, hp, -⟩ := Peer.listOfBytes_of_compact hpeers
    exact ⟨.findNode context read, by rw [ofRecord_findNode, hp]; rfl⟩
  | findValue context peers value =>
    have hpeers : ∀ bytes ∈ peers, Peer.Compact bytes := h
    obtain ⟨read, hp, -⟩ := Peer.listOfBytes_of_compact hpeers
    exact ⟨.findValue context read value, by rw [ofRecord_findValue, hp]; rfl⟩
  | findMembers of context peers members =>
    obtain ⟨hpeers, hmembers⟩ := List.forall_mem_append.mp h
    obtain ⟨read, hp, -⟩ := Peer.listOfBytes_of_compact hpeers
    obtain ⟨others, hm, -⟩ := Peer.listOfBytes_of_compact hmembers
    exact ⟨.findMembers of context read others, by rw [ofRecord_findMembers, hp, hm]; rfl⟩

/-- The closer peers are read before the members. -/
theorem ofRecord_of_error {e : Error} (h : Peer.listOfBytes (compactPeers k record) = .error e) :
    ofRecord k record = .error e := by
  induction k, record using record_cases with
  | findNode context peers =>
    have hpeers : Peer.listOfBytes peers = .error e := h
    rw [ofRecord_findNode, hpeers]
    rfl
  | findValue context peers value =>
    have hpeers : Peer.listOfBytes peers = .error e := h
    rw [ofRecord_findValue, hpeers]
    rfl
  | findMembers of context peers members =>
    have hboth : Peer.listOfBytes (peers ++ members) = .error e := h
    rw [Peer.listOfBytes_append] at hboth
    rw [ofRecord_findMembers]
    cases hp : Peer.listOfBytes peers with
    | error fault =>
      rw [hp] at hboth
      cases hboth
      rfl
    | ok read =>
      rw [hp] at hboth
      cases hm : Peer.listOfBytes members with
      | error fault =>
        rw [hm] at hboth
        cases hboth
        rfl
      | ok others =>
        rw [hm] at hboth
        cases hboth

end Records

section Whole

/-- The bytes are those of a response of the kind with the arguments, no compact peer of which is
read yet. -/
def SpelledIn (bytes : Bytes) (k : ResponseKind) (record : (ResponseKind.arguments k).Record) :
    Prop :=
  ∃ v, Envelope.ofBytes bytes = .ok (.response, v) ∧
    ResponseKind.vocabulary.read v = .ok ⟨k, record⟩

variable {bytes : Bytes} {k : ResponseKind} {record : (ResponseKind.arguments k).Record}

theorem SpelledIn.ofBytes_eq (h : SpelledIn bytes k record) :
    Message.ofBytes bytes = (ofRecord k record).map .response := by
  obtain ⟨v, hv, hread⟩ := h
  simp only [Message.ofBytes, hv, Message.unreadable, Except.mapError, hread, bind, Except.bind]
  cases ofRecord k record with
  | error e => rfl
  | ok r => rfl

theorem ofBytes_eq_ok_iff (bytes : Bytes) (r : Response) :
    Message.ofBytes bytes = .ok (.response r) ↔ SpelledIn bytes r.toRecord.1 r.toRecord.2 := by
  constructor
  · intro h
    cases Message.readFrom_of_ofBytes h with
    | response hv hread hr =>
      rw [toRecord_of_ofRecord hr]
      exact ⟨_, hv, hread⟩
  · intro h
    rw [h.ofBytes_eq, ofRecord_toRecord]
    rfl

/-- Whatever the entries of the lists are, there are bytes that spell them. -/
theorem spelledIn_write (h : Record.Fits (ResponseKind.arguments k).fields record) :
    SpelledIn (ResponseKind.vocabulary.write k record).spell k record := by
  have hs := ResponseKind.vocabulary_sound
  have hread : (ResponseKind.vocabulary.arguments k).read
      ((ResponseKind.vocabulary.arguments k).write record) = .ok record :=
    Form.codec_faithful (hs.arguments k) record
  obtain ⟨v, hv, hr⟩ := hs.read_scattered hread (Value.fits_ofEntries h)
    (scattered_sorted ResponseKind.vocabulary.keys _) []
  rw [List.append_nil] at hv
  exact ⟨v, hv, hr⟩

end Whole

end Response

namespace Message

/-- A peer is read back from its compact form; every byte string of 26 or 38 bytes is the compact
form of what is read from it, and the length of any other is reported, whether its identifier or its
address is at fault. A list is read entry by entry. A response is read from just the bytes that
spell the arguments that it is written with. If all their compact peers are good, there is one; the
first that is bad, of the closer peers before the members, makes the whole message fail with its
length. Lists with any entries can be spelled. -/
theorem peers_read_entrywise :
    (∀ p : Peer, Peer.ofBytes p.toBytes = .ok p) ∧
    (∀ bytes, (∃ p, Peer.ofBytes bytes = .ok p) ↔ bytes.length = 26 ∨ bytes.length = 38) ∧
    (∀ bytes p, Peer.ofBytes bytes = .ok p → p.toBytes = bytes) ∧
    (∀ bytes, ¬ (bytes.length = 26 ∨ bytes.length = 38) →
      Peer.ofBytes bytes = .error (.compactPeerSize bytes.length)) ∧
    (∀ bytes, Peer.ofParts bytes = Peer.ofBytes bytes) ∧
    (∀ entries peers,
      Peer.listOfBytes entries = .ok peers ↔ entries.map Peer.ofBytes = peers.map .ok) ∧
    (∀ bytes (r : Response),
      ofBytes bytes = .ok (.response r) ↔
        Response.SpelledIn bytes r.toRecord.1 r.toRecord.2) ∧
    (∀ bytes k record, Response.SpelledIn bytes k record →
      ((∀ entry ∈ Response.compactPeers k record, Peer.Compact entry) →
        ∃ r, ofBytes bytes = .ok (.response r)) ∧
      ∀ front bad back, Response.compactPeers k record = front ++ bad :: back →
        (∀ entry ∈ front, Peer.Compact entry) → ¬ Peer.Compact bad →
        ofBytes bytes = .error (.compactPeerSize bad.length)) ∧
    ∀ k record, Record.Fits (ResponseKind.arguments k).fields record →
      Response.SpelledIn (ResponseKind.vocabulary.write k record).spell k record := by
  refine ⟨Peer.ofBytes_toBytes, ?_, fun bytes p => (Peer.ofBytes_eq_ok_iff bytes p).mp,
    fun bytes => Peer.ofBytes_of_not_compact, Peer.ofParts_eq, Peer.listOfBytes_eq_ok_iff,
    Response.ofBytes_eq_ok_iff, ?_, fun k record => Response.spelledIn_write⟩
  · intro bytes
    constructor
    · rintro ⟨p, hp⟩
      rw [← (Peer.ofBytes_eq_ok_iff bytes p).mp hp]
      exact p.toBytes_compact
    · intro h
      obtain ⟨p, hp, -⟩ := Peer.ofBytes_of_compact h
      exact ⟨p, hp⟩
  · intro bytes k record h
    rw [h.ofBytes_eq]
    constructor
    · intro hall
      obtain ⟨r, hr⟩ := Response.ofRecord_of_compact hall
      exact ⟨r, by rw [hr]; rfl⟩
    · intro front bad back hsplit hfront hbad
      have herror := Peer.listOfBytes_of_bad hfront hbad back
      rw [← hsplit] at herror
      rw [Response.ofRecord_of_error herror]
      rfl

/-- The second and the third member are bad. -/
def clippedMembers : List Bytes := [List.replicate 26 255, List.replicate 37 1, []]

/-- The members of a pool with two closer peers, the second of which has the length. -/
def clipped (length : Nat) : (ResponseKind.arguments (.findMembers .pool)).Record :=
  ((7 : UInt64), [List.replicate 38 (0 : UInt8), List.replicate length 0], clippedMembers, ())

/-- The first bad member decides, unless a closer peer is bad. -/
theorem peers_read_entrywise_clipped :
    ofBytes (ResponseKind.vocabulary.write _ (clipped 26)).spell =
      .error (.compactPeerSize 37) ∧
    ofBytes (ResponseKind.vocabulary.write _ (clipped 25)).spell =
      .error (.compactPeerSize 25) := by
  obtain ⟨-, -, -, -, -, -, -, hread, hwrite⟩ := peers_read_entrywise
  have hspelled : ∀ length < 2 ^ 64, Response.SpelledIn
      (ResponseKind.vocabulary.write _ (clipped length)).spell (.findMembers .pool)
      (clipped length) := by
    intro length hlength
    apply hwrite
    refine .required (by decide) (fits_context (by decide)) <|
      .required (by decide) (fits_sequence ?_) <|
      .required (by decide) (fits_sequence (by decide)) .nil
    simpa using hlength
  constructor
  · exact (hread _ _ _ (hspelled 26 (by decide))).2
      [List.replicate 38 0, List.replicate 26 0, List.replicate 26 255] (List.replicate 37 1) [[]]
      rfl (by decide) (by decide)
  · exact (hread _ _ _ (hspelled 25 (by decide))).2 [List.replicate 38 0] (List.replicate 25 0)
      clippedMembers rfl (by decide) (by decide)

end Message

end Kademlia
