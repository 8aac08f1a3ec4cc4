import Kademlia.Message.Wire
import Kademlia.Proofs.Bencode.Source
import Kademlia.Proofs.Message.Envelope

/-!
Messages on the wire. Main statement: a message whose context fits in a signed number of 64 bits is
read back from its bytes, whatever bytes stand behind them.
-/

namespace Kademlia

open Bencode

section Forms

theorem Codec.ident_faithful : Codec.ident.Faithful := fun a => by
  have h : (Codec.fixed 20 160).Faithful := Codec.fixed_faithful (by decide)
  simp only [Codec.ident, h a.bits, Except.map]

theorem Codec.messageId_faithful : Codec.messageId.Faithful := fun m => by
  have h : (Codec.fixed 16 128).Faithful := Codec.fixed_faithful (by decide)
  simp only [Codec.messageId, h m.bits, Except.map]

theorem contextField_faithful : contextField.Faithful := Codec.unsigned64_faithful

theorem identField_faithful (name : String) : (identField name).Faithful := Codec.ident_faithful

theorem bytesField_faithful (name : String) : (bytesField name).Faithful := Codec.bytes_faithful

theorem peersField_faithful (name : String) : (peersField name).Faithful :=
  Codec.sequence_faithful

theorem optionalBytes_faithful (name : String) : (Field.optional name Bytes .bytes).Faithful :=
  Codec.bytes_faithful

theorem RequestKind.arguments_sound (k : RequestKind) : (arguments k).Sound := by
  cases k with
  | findNode => exact ⟨by decide, by
      simp [arguments, contextField_faithful, identField_faithful,
        optionalBytes_faithful]⟩
  | findValue => exact ⟨by decide, by
      simp [arguments, contextField_faithful, identField_faithful]⟩
  | findMembers of => exact ⟨by cases of <;> decide, by
      simp [arguments, contextField_faithful, identField_faithful]⟩
  | store => exact ⟨by decide, by simp [arguments, identField_faithful, bytesField_faithful]⟩
  | join of => exact ⟨by cases of <;> decide, by simp [arguments, identField_faithful]⟩

theorem ResponseKind.arguments_sound (k : ResponseKind) : (arguments k).Sound := by
  cases k with
  | findNode => exact ⟨by decide, by
      simp [arguments, contextField_faithful, peersField_faithful]⟩
  | findValue => exact ⟨by decide, by
      simp [arguments, contextField_faithful, peersField_faithful,
        optionalBytes_faithful]⟩
  | findMembers of => exact ⟨by cases of <;> decide, by
      simp [arguments, contextField_faithful, peersField_faithful]⟩

theorem NoticeKind.arguments_sound (k : NoticeKind) : (arguments k).Sound := by
  have hm : messageIdField.Faithful := Codec.messageId_faithful
  have ho : (Field.required "hops" UInt8 .octet).Faithful := Codec.octet_faithful
  cases k with
  | offer => exact ⟨by decide, by simp [arguments, announcement, identField_faithful, hm]⟩
  | want => exact ⟨by decide, by simp [arguments, announcement, identField_faithful, hm]⟩
  | carry => exact ⟨by decide, by
      simp [arguments, identField_faithful, bytesField_faithful, hm, ho]⟩

end Forms

section Vocabularies

theorem RequestKind.vocabulary_sound : vocabulary.Sound where
  named k := by rcases k with _ | _ | ⟨_ | _⟩ | _ | ⟨_ | _⟩ <;> rfl
  short k := by rcases k with _ | _ | ⟨_ | _⟩ | _ | ⟨_ | _⟩ <;> decide
  argumentsShort := by decide
  arguments := arguments_sound
  apart := by decide

theorem ResponseKind.vocabulary_sound : vocabulary.Sound where
  named k := by rcases k with _ | _ | ⟨_ | _⟩ <;> rfl
  short k := by rcases k with _ | _ | ⟨_ | _⟩ <;> decide
  argumentsShort := by decide
  arguments := arguments_sound
  apart := by decide

theorem NoticeKind.vocabulary_sound : vocabulary.Sound where
  named k := by cases k <;> rfl
  short k := by cases k <;> decide
  argumentsShort := by decide
  arguments := arguments_sound
  apart := by decide

end Vocabularies

section Records

theorem Request.ofRecord_toRecord (r : Request) :
    ofRecord r.toRecord.1 r.toRecord.2 = .ok r := by
  cases r with
  | findNode context target table =>
    cases table with
    | none => rfl
    | some table =>
      simp [toRecord, ofRecord, Ident.ofBytes_toBytes, bind, Except.bind, pure, Except.pure,
        Functor.map, Except.map]
  | findValue context key => rfl
  | findMembers of context id => rfl
  | store key value => rfl
  | join of id => rfl

theorem Response.ofRecord_toRecord (r : Response) :
    ofRecord r.toRecord.1 r.toRecord.2 = .ok r := by
  cases r with
  | findNode context peers =>
    simp [toRecord, ofRecord, Peer.listOfBytes_toBytes, bind, Except.bind, pure, Except.pure]
  | findValue context peers value =>
    simp [toRecord, ofRecord, Peer.listOfBytes_toBytes, bind, Except.bind, pure, Except.pure]
  | findMembers of context peers members =>
    simp [toRecord, ofRecord, Peer.listOfBytes_toBytes, bind, Except.bind, pure, Except.pure]

theorem Notice.ofRecord_toRecord (n : Notice) :
    ofRecord n.toRecord.1 n.toRecord.2 = .ok n := by
  cases n with
  | offer table id => rfl
  | want table id => rfl
  | carry b =>
    simp [toRecord, ofRecord, Peer.ofBytes_toBytes, bind, Except.bind, pure, Except.pure]

end Records

section Layers

namespace Message

theorem ok_of_unreadable {α : Type} {x : Except Bencode.Error α} {a : α}
    (h : unreadable x = .ok a) : x = .ok a := by
  cases x with
  | error fault => cases h
  | ok b =>
    cases h
    rfl

/-- The layers of a message one by one: its class, its kind with the arguments, and what these
say. -/
inductive ReadFrom (bytes : Bytes) : Message → Prop where
  | request {v : Value} {k : RequestKind} {record : (RequestKind.arguments k).Record} {r : Request} :
      Envelope.ofBytes bytes = .ok (.request, v) →
      RequestKind.vocabulary.read v = .ok ⟨k, record⟩ →
      Request.ofRecord k record = .ok r → ReadFrom bytes (.request r)
  | response {v : Value} {k : ResponseKind} {record : (ResponseKind.arguments k).Record}
      {r : Response} :
      Envelope.ofBytes bytes = .ok (.response, v) →
      ResponseKind.vocabulary.read v = .ok ⟨k, record⟩ →
      Response.ofRecord k record = .ok r → ReadFrom bytes (.response r)
  | notice {v : Value} {k : NoticeKind} {record : (NoticeKind.arguments k).Record} {n : Notice} :
      Envelope.ofBytes bytes = .ok (.notice, v) →
      NoticeKind.vocabulary.read v = .ok ⟨k, record⟩ →
      Notice.ofRecord k record = .ok n → ReadFrom bytes (.notice n)

theorem readFrom_of_ofBytes {bytes : Bytes} {m : Message} (h : ofBytes bytes = .ok m) :
    ReadFrom bytes m := by
  obtain ⟨⟨c, v⟩, hv, h⟩ := bind_eq_ok h
  replace hv := ok_of_unreadable hv
  cases c with
  | request =>
    cases hread : RequestKind.vocabulary.read v with
    | error fault => simp [hread] at h
    | ok s =>
      simp only [hread] at h
      obtain ⟨r, hr, h⟩ := bind_eq_ok h
      cases h
      exact .request hv hread hr
  | response =>
    cases hread : ResponseKind.vocabulary.read v with
    | error fault => simp [hread] at h
    | ok s =>
      simp only [hread] at h
      obtain ⟨r, hr, h⟩ := bind_eq_ok h
      cases h
      exact .response hv hread hr
  | notice =>
    cases hread : NoticeKind.vocabulary.read v with
    | error fault => simp [hread] at h
    | ok s =>
      simp only [hread] at h
      obtain ⟨n, hn, h⟩ := bind_eq_ok h
      cases h
      exact .notice hv hread hn

end Message

end Layers

section Fitting

theorem fits_context {context : UInt64} (h : context.toNat < 2 ^ 63) :
    (Codec.unsigned64.write context).Fits :=
  Value.fits_natural h

theorem fits_fixed {size width : Nat} (h : size < 2 ^ 64) (n : BitVec width) :
    ((Codec.fixed size width).write n).Fits :=
  Value.fits_bytes (by rwa [length_beBytes])

theorem fits_ident (a : Ident) : (Codec.ident.write a).Fits :=
  fits_fixed (by decide) a.bits

theorem fits_sequence {items : List Bytes} (h : ∀ item ∈ items, item.length < 2 ^ 64) :
    (Codec.sequence.write items).Fits := by
  refine Value.fits_list fun v hv => ?_
  obtain ⟨item, hitem, rfl⟩ := List.mem_map.mp hv
  exact Value.fits_bytes (h item hitem)

theorem fits_peers (ps : List Peer) : (Codec.sequence.write (ps.map Peer.toBytes)).Fits := by
  refine fits_sequence fun item hitem => ?_
  obtain ⟨p, -, rfl⟩ := List.mem_map.mp hitem
  have := p.length_toBytes_le
  omega

end Fitting

namespace Request

def context? : Request → Option UInt64
  | .findNode context _ _ => some context
  | .findValue context _ => some context
  | .findMembers _ context _ => some context
  | _ => none

end Request

namespace Message

def context? : Message → Option UInt64
  | .request r => r.context?
  | .response r => some r.context
  | .notice _ => none

def blobs : Message → List Bytes
  | .request (.store _ value) => [value]
  | .response (.findValue _ _ value) => value.toList
  | .notice (.carry b) => [b.payload]
  | _ => []

structure Fits (m : Message) : Prop where
  context : ∀ c, m.context? = some c → c.toNat < 2 ^ 63
  blobs : ∀ b ∈ m.blobs, b.length < 2 ^ 64

def inner : Message → List (Bytes × Value)
  | .request r => Record.entries (RequestKind.arguments r.toRecord.1).fields r.toRecord.2
  | .response r => Record.entries (ResponseKind.arguments r.toRecord.1).fields r.toRecord.2
  | .notice n => Record.entries (NoticeKind.arguments n.toRecord.1).fields n.toRecord.2

/-- The names of the fields of such arguments, also of those that are left out. -/
def innerKeys : Message → List Bytes
  | .request r => (RequestKind.arguments r.toRecord.1).fields.map Field.key
  | .response r => (ResponseKind.arguments r.toRecord.1).fields.map Field.key
  | .notice n => (NoticeKind.arguments n.toRecord.1).fields.map Field.key

def outer (arguments : Value) : Message → List (Bytes × Value)
  | .request r => RequestKind.vocabulary.entries r.toRecord.1 arguments
  | .response r => ResponseKind.vocabulary.entries r.toRecord.1 arguments
  | .notice n => NoticeKind.vocabulary.entries n.toRecord.1 arguments

def outerKeys : Message → List Bytes
  | .request _ => RequestKind.vocabulary.keys
  | .response _ => ResponseKind.vocabulary.keys
  | .notice _ => NoticeKind.vocabulary.keys

theorem toValue_eq (m : Message) : m.toValue = .ofEntries (m.outer (.ofEntries m.inner)) := by
  cases m <;> rfl

theorem request_fits_inner {r : Request} (h : (Message.request r).Fits) :
    Record.Fits (RequestKind.arguments r.toRecord.1).fields r.toRecord.2 := by
  obtain ⟨hc, hb⟩ := h
  cases r with
  | findNode context target table =>
    refine .required (by decide) (fits_context (hc context rfl)) <|
      .required (by decide) (fits_ident target) <| .optional (by decide) ?_ .nil
    intro name hn
    obtain ⟨table, -, rfl⟩ := Option.map_eq_some_iff.mp hn
    exact Value.fits_bytes (by simp)
  | findValue context key =>
    exact .required (by decide) (fits_context (hc context rfl)) <|
      .required (by decide) (fits_ident key) .nil
  | findMembers of context id =>
    exact .required (by decide) (fits_context (hc context rfl)) <|
      .required (by decide) (fits_ident id) .nil
  | store key value =>
    exact .required (by decide) (fits_ident key) <|
      .required (by decide) (Value.fits_bytes (hb value (by simp [blobs]))) .nil
  | join of id => exact .required (by decide) (fits_ident id) .nil

theorem response_fits_inner {r : Response} (h : (Message.response r).Fits) :
    Record.Fits (ResponseKind.arguments r.toRecord.1).fields r.toRecord.2 := by
  obtain ⟨hc, hb⟩ := h
  cases r with
  | findNode context peers =>
    exact .required (by decide) (fits_context (hc context rfl)) <|
      .required (by decide) (fits_peers peers) .nil
  | findValue context peers value =>
    refine .required (by decide) (fits_context (hc context rfl)) <|
      .required (by decide) (fits_peers peers) <| .optional (by decide) ?_ .nil
    rintro v rfl
    exact Value.fits_bytes (hb v (by simp [blobs]))
  | findMembers of context peers members =>
    exact .required (by decide) (fits_context (hc context rfl)) <|
      .required (by decide) (fits_peers peers) <|
      .required (by decide) (fits_peers members) .nil

theorem notice_fits_inner {n : Notice} (h : (Message.notice n).Fits) :
    Record.Fits (NoticeKind.arguments n.toRecord.1).fields n.toRecord.2 := by
  obtain ⟨-, hb⟩ := h
  cases n with
  | offer table id =>
    exact .required (by decide) (fits_ident table) <|
      .required (by decide) (fits_fixed (by decide) id.bits) .nil
  | want table id =>
    exact .required (by decide) (fits_ident table) <|
      .required (by decide) (fits_fixed (by decide) id.bits) .nil
  | carry b =>
    have ho := b.origin.length_toBytes_le
    exact .required (by decide) (fits_ident b.table) <|
      .required (by decide) (fits_fixed (by decide) b.id.bits) <|
      .required (by decide) (Value.fits_bytes (by omega)) <|
      .required (by decide) (Value.fits_natural (by have := b.hops.toNat_lt; omega)) <|
      .required (by decide) (Value.fits_bytes (hb b.payload (by simp [blobs]))) .nil

theorem fits_inner {m : Message} (h : m.Fits) :
    ∀ e ∈ m.inner, e.1.length < 2 ^ 64 ∧ e.2.Fits := by
  cases m with
  | request r => exact request_fits_inner h
  | response r => exact response_fits_inner h
  | notice n => exact notice_fits_inner h

theorem fits_outer (m : Message) {v : Value} (hv : v.Fits) :
    ∀ e ∈ m.outer v, e.1.length < 2 ^ 64 ∧ e.2.Fits := by
  cases m with
  | request r => exact RequestKind.vocabulary_sound.fits_entries _ hv
  | response r => exact ResponseKind.vocabulary_sound.fits_entries _ hv
  | notice n => exact NoticeKind.vocabulary_sound.fits_entries _ hv

theorem fits_toValue {m : Message} (h : m.Fits) : m.toValue.Fits := by
  rw [toValue_eq]
  exact Value.fits_ofEntries (m.fits_outer (Value.fits_ofEntries (fits_inner h)))

/-- A message is read from its entries in any order, within its arguments and around them, whatever
foreign entries stand among them and whatever bytes behind them. -/
theorem ofBytes_scattered {m : Message} (h : m.Fits) {inner outer : List (Bytes × Value)}
    (hi : Scattered m.innerKeys m.inner inner)
    (ho : Scattered m.outerKeys (m.outer (.dict (keyed inner))) outer) (rest : Bytes) :
    ofBytes ((Value.dict (keyed outer)).spell ++ rest) = .ok m := by
  have hf : (Value.dict (keyed inner)).Fits := hi.fits (fits_inner h)
  rw [ofBytes]
  cases m with
  | request r =>
    have hs := RequestKind.vocabulary_sound
    obtain ⟨v, ho, hr⟩ := hs.read_scattered ((hs.arguments _).read_scattered hi) hf ho rest
    have hc : RequestKind.vocabulary.messageClass = .request := rfl
    simp only [ho, unreadable, Except.mapError, bind, Except.bind, hc, hr, r.ofRecord_toRecord,
      pure, Except.pure]
  | response r =>
    have hs := ResponseKind.vocabulary_sound
    obtain ⟨v, ho, hr⟩ := hs.read_scattered ((hs.arguments _).read_scattered hi) hf ho rest
    have hc : ResponseKind.vocabulary.messageClass = .response := rfl
    simp only [ho, unreadable, Except.mapError, bind, Except.bind, hc, hr, r.ofRecord_toRecord,
      pure, Except.pure]
  | notice n =>
    have hs := NoticeKind.vocabulary_sound
    obtain ⟨v, ho, hr⟩ := hs.read_scattered ((hs.arguments _).read_scattered hi) hf ho rest
    have hc : NoticeKind.vocabulary.messageClass = .notice := rfl
    simp only [ho, unreadable, Except.mapError, bind, Except.bind, hc, hr, n.ofRecord_toRecord,
      pure, Except.pure]

theorem ofBytes_toBytes {m : Message} (h : m.Fits) (rest : Bytes) :
    ofBytes (m.toBytes ++ rest) = .ok m := by
  rw [toBytes, toValue_eq]
  exact ofBytes_scattered h (scattered_sorted _ _) (scattered_sorted _ _) rest

end Message

end Kademlia
