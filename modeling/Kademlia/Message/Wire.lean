import Kademlia.Message
import Kademlia.Message.Envelope

/-!
The wire format of messages: the kinds of each class with their fields, and the two directions
between messages and bytes.
-/

namespace Kademlia

open Bencode

def GroupKind.text : GroupKind → String
  | .swarm => "swarm"
  | .pool => "pool"

def GroupKind.title : GroupKind → String
  | .swarm => "Swarm"
  | .pool => "Pool"

def Codec.ident : Codec Ident where
  read v := ((Codec.fixed 20 160).read v).map Ident.mk
  write a := (Codec.fixed 20 160).write a.bits

def Codec.messageId : Codec MessageId where
  read v := ((Codec.fixed 16 128).read v).map MessageId.mk
  write m := (Codec.fixed 16 128).write m.bits

def contextField : Field := .required "c" UInt64 .unsigned64

def identField (name : String) : Field := .required name Ident Codec.ident

def bytesField (name : String) : Field := .required name Bytes .bytes

def peersField (name : String) : Field := .required name (List Bytes) .sequence

inductive RequestKind where
  | findNode
  | findValue
  | findMembers (of : GroupKind)
  | store
  | join (of : GroupKind)
  deriving DecidableEq, Repr

inductive ResponseKind where
  | findNode
  | findValue
  | findMembers (of : GroupKind)
  deriving DecidableEq, Repr

inductive NoticeKind where
  | offer
  | want
  | carry
  deriving DecidableEq, Repr

namespace RequestKind

def name : RequestKind → String
  | .findNode => "find_node"
  | .findValue => "find_value"
  | .findMembers of => "find_" ++ of.text
  | .store => "store"
  | .join of => "join_" ++ of.text

def title : RequestKind → String
  | .findNode => "KadRequestSpecific::FindNode"
  | .findValue => "KadRequestSpecific::FindValue"
  | .findMembers of => "KadRequestSpecific::Find" ++ of.title
  | .store => "KadRequestSpecific::Store"
  | .join of => "KadRequestSpecific::Join" ++ of.title

def arguments : RequestKind → Form
  | .findNode =>
    ⟨"struct KadFindNodeRequestArguments",
      [contextField, identField "target", .optional "rtid" Bytes .bytes]⟩
  | .findValue => ⟨"struct KadFindValueRequestArguments", [contextField, identField "key"]⟩
  | .findMembers _ => ⟨"struct KadFindMembersRequestArguments", [contextField, identField "id"]⟩
  | .store => ⟨"struct KadStoreRequestArguments", [identField "key", bytesField "v"]⟩
  | .join _ => ⟨"struct KadJoinRequestArguments", [identField "id"]⟩

def vocabulary : Vocabulary RequestKind where
  messageClass := .request
  kinds := [.findNode, .findValue, .findMembers .swarm, .findMembers .pool, .store, .join .swarm,
    .join .pool]
  name := name
  argumentsName := "a"
  title := title
  arguments := arguments

end RequestKind

namespace ResponseKind

def name : ResponseKind → String
  | .findNode => "find_node"
  | .findValue => "find_value"
  | .findMembers of => "find_" ++ of.text

def title : ResponseKind → String
  | .findNode => "KadResponseSpecific::FindNode"
  | .findValue => "KadResponseSpecific::FindValue"
  | .findMembers of => "KadResponseSpecific::Find" ++ of.title

def arguments : ResponseKind → Form
  | .findNode => ⟨"struct KadFindNodeResponseArguments", [contextField, peersField "peers"]⟩
  | .findValue =>
    ⟨"struct KadFindValueResponseArguments",
      [contextField, peersField "peers", .optional "v" Bytes .bytes]⟩
  | .findMembers _ =>
    ⟨"struct KadFindMembersResponseArguments",
      [contextField, peersField "peers", peersField "members"]⟩

def vocabulary : Vocabulary ResponseKind where
  messageClass := .response
  kinds := [.findNode, .findValue, .findMembers .swarm, .findMembers .pool]
  name := name
  argumentsName := "r"
  title := title
  arguments := arguments

end ResponseKind

namespace NoticeKind

def name : NoticeKind → String
  | .offer => "have"
  | .want => "want"
  | .carry => "message"

def title : NoticeKind → String
  | .offer => "KadBroadcastSpecific::Have"
  | .want => "KadBroadcastSpecific::Want"
  | .carry => "KadBroadcastSpecific::Message"

def messageIdField : Field := .required "mid" MessageId Codec.messageId

def announcement : Form := ⟨"struct KadAnnounceArguments", [identField "rtid", messageIdField]⟩

def arguments : NoticeKind → Form
  | .offer => announcement
  | .want => announcement
  | .carry =>
    ⟨"struct KadBroadcastMessageArguments",
      [identField "rtid", messageIdField, bytesField "origin", .required "hops" UInt8 .octet,
        bytesField "payload"]⟩

def vocabulary : Vocabulary NoticeKind where
  messageClass := .notice
  kinds := [.offer, .want, .carry]
  name := name
  argumentsName := "a"
  title := title
  arguments := arguments

end NoticeKind

namespace Request

def toRecord : Request → (k : RequestKind) × (RequestKind.arguments k).Record
  | .findNode context target table =>
    ⟨.findNode, (context, target, table.map Ident.toBytes, ())⟩
  | .findValue context key => ⟨.findValue, (context, key, ())⟩
  | .findMembers of context id => ⟨.findMembers of, (context, id, ())⟩
  | .store key value => ⟨.store, (key, value, ())⟩
  | .join of id => ⟨.join of, (id, ())⟩

/-- The request with the given arguments, if a routing table that it names has a proper name. -/
def ofRecord : (k : RequestKind) → (RequestKind.arguments k).Record → Except Error Request
  | .findNode, (context, target, table, ()) => do
    return .findNode context target (← table.mapM Ident.ofBytes)
  | .findValue, (context, key, ()) => .ok (.findValue context key)
  | .findMembers of, (context, id, ()) => .ok (.findMembers of context id)
  | .store, (key, value, ()) => .ok (.store key value)
  | .join of, (id, ()) => .ok (.join of id)

end Request

namespace Response

def toRecord : Response → (k : ResponseKind) × (ResponseKind.arguments k).Record
  | .findNode context peers => ⟨.findNode, (context, peers.map Peer.toBytes, ())⟩
  | .findValue context peers value =>
    ⟨.findValue, (context, peers.map Peer.toBytes, value, ())⟩
  | .findMembers of context peers members =>
    ⟨.findMembers of, (context, peers.map Peer.toBytes, members.map Peer.toBytes, ())⟩

def ofRecord : (k : ResponseKind) → (ResponseKind.arguments k).Record → Except Error Response
  | .findNode, (context, peers, ()) => do
    return .findNode context (← Peer.listOfBytes peers)
  | .findValue, (context, peers, value, ()) => do
    return .findValue context (← Peer.listOfBytes peers) value
  | .findMembers of, (context, peers, members, ()) => do
    return .findMembers of context (← Peer.listOfBytes peers) (← Peer.listOfBytes members)

end Response

namespace Notice

def toRecord : Notice → (k : NoticeKind) × (NoticeKind.arguments k).Record
  | .offer table id => ⟨.offer, (table, id, ())⟩
  | .want table id => ⟨.want, (table, id, ())⟩
  | .carry b => ⟨.carry, (b.table, b.id, b.origin.toBytes, b.hops, b.payload, ())⟩

/-- The notice with the given arguments, if the first sender in it can be read. -/
def ofRecord : (k : NoticeKind) → (NoticeKind.arguments k).Record → Except Error Notice
  | .offer, (table, id, ()) => .ok (.offer table id)
  | .want, (table, id, ()) => .ok (.want table id)
  | .carry, (table, id, origin, hops, payload, ()) => do
    return .carry ⟨table, id, ← Peer.ofBytes origin, hops, payload⟩

end Notice

namespace Message

def toValue : Message → Value
  | .request r => RequestKind.vocabulary.write r.toRecord.1 r.toRecord.2
  | .response r => ResponseKind.vocabulary.write r.toRecord.1 r.toRecord.2
  | .notice n => NoticeKind.vocabulary.write n.toRecord.1 n.toRecord.2

def toBytes (m : Message) : Bytes := m.toValue.spell

def unreadable {α : Type} (x : Except Bencode.Error α) : Except Error α :=
  x.mapError .unreadable

def ofBytes (bytes : Bytes) : Except Error Message := do
  match ← unreadable (Envelope.ofBytes bytes) with
  | (.request, v) =>
    match RequestKind.vocabulary.read v with
    | .error fault => .error (.unreadable fault)
    | .ok ⟨k, record⟩ => return .request (← Request.ofRecord k record)
  | (.response, v) =>
    match ResponseKind.vocabulary.read v with
    | .error fault => .error (.unreadable fault)
    | .ok ⟨k, record⟩ => return .response (← Response.ofRecord k record)
  | (.notice, v) =>
    match NoticeKind.vocabulary.read v with
    | .error fault => .error (.unreadable fault)
    | .ok ⟨k, record⟩ => return .notice (← Notice.ofRecord k record)

end Message

end Kademlia
