import Kademlia.Bencode.Record

/-!
The outer layers of a message. The class stands under `y`, the kind under `q`, and the arguments
under a name that depends on the class. The class is settled while the bytes are read, so a wrong
class is reported before any fault behind it; the kind and the arguments are settled afterwards.
Each layer may also be a list that begins with the tag.
-/

namespace Kademlia

open Bencode

inductive MessageClass where
  | request
  | response
  | notice
  deriving DecidableEq, Repr

namespace MessageClass

def all : List MessageClass := [.request, .response, .notice]

def tag : MessageClass → String
  | .request => "q"
  | .response => "r"
  | .notice => "b"

def key : Bytes := asciiBytes "y"

def ofValue : Value → Except Bencode.Error MessageClass
  | .bytes content =>
    match Utf8.text? content with
    | none => .error .bytesNotText
    | some text =>
      match all.find? fun c => content = asciiBytes c.tag with
      | some c => .ok c
      | none => .error (.unknownKind text (all.map tag))
  | v => .error (v.misplaced .text)

/-- The fault where the value that names the class is not there or cannot be read to its end. -/
def faultAt : Ending → Bencode.Error
  | .closed => .missingText
  | .stopped none fault => fault
  | .stopped (some .list) _ => .wrongShape .list .text
  | .stopped (some .dict) _ => .wrongShape .dict .text

end MessageClass

namespace Envelope

/-- The fault where the container ends in place of a value. -/
def faultInValue : Ending → Bencode.Error
  | .closed => .endOfStream
  | .stopped _ fault => fault

/-- Settles the class among the alternating keys and values of a dictionary, in the order in which
they stand, and returns the other entries. -/
def openDict (ending : Ending) :
    Option MessageClass → List Value → Except Bencode.Error (MessageClass × List (Value × Value))
  | found, [] =>
    match ending, found with
    | .closed, some c => .ok (c, [])
    | .closed, none => .error (.missingField "y")
    | .stopped _ fault, _ => .error fault
  | found, [.bytes name] =>
    if name = MessageClass.key then
      if found.isSome then .error (.duplicateField "y")
      else .error (MessageClass.faultAt ending)
    else .error (faultInValue ending)
  | _, [_] => .error (faultInValue ending)
  | found, .bytes name :: v :: items =>
    if name = MessageClass.key then
      if found.isSome then .error (.duplicateField "y")
      else do openDict ending (some (← MessageClass.ofValue v)) items
    else do
      let (c, entries) ← openDict ending found items
      return (c, (.bytes name, v) :: entries)
  | found, key :: v :: items => do
    let (c, entries) ← openDict ending found items
    return (c, (key, v) :: entries)

def openList (ending : Ending) : List Value → Except Bencode.Error (MessageClass × List Value)
  | [] =>
    match ending with
    | .closed => .error (.missingField "y")
    | _ => .error (MessageClass.faultAt ending)
  | v :: items => do
    let c ← MessageClass.ofValue v
    match ending with
    | .closed => return (c, items)
    | .stopped _ fault => .error fault

def ofBytes (bytes : Bytes) : Except Bencode.Error (MessageClass × Value) := do
  match ← Body.ofBytes bytes with
  | (.dict, body) =>
    let (c, entries) ← openDict body.ending none body.items
    return (c, .dict entries)
  | (.list, body) =>
    let (c, items) ← openList body.ending body.items
    return (c, .list items)

end Envelope

/-- The kinds of one class of messages: their names, and the forms of their arguments. -/
structure Vocabulary (Kind : Type) where
  messageClass : MessageClass
  /-- All kinds, in the order in which faults list them. -/
  kinds : List Kind
  name : Kind → String
  /-- The name under which the arguments stand. -/
  argumentsName : String
  /-- The title of the layer that holds the arguments. -/
  title : Kind → String
  arguments : Kind → Form

namespace Vocabulary

variable {Kind : Type}

def key : Bytes := asciiBytes "q"

def kindOf (voc : Vocabulary Kind) : Value → Except Bencode.Error Kind
  | .bytes content =>
    match voc.kinds.find? fun k => content = asciiBytes (voc.name k) with
    | some k => .ok k
    | none => .error (.unknownKind (Utf8.lossyText content) (voc.kinds.map voc.name))
  | v => .error (v.misplaced .kindName)

def openDict (voc : Vocabulary Kind) :
    Option Kind → List (Value × Value) → Except Bencode.Error (Kind × List (Value × Value))
  | some k, [] => .ok (k, [])
  | none, [] => .error (.missingField "q")
  | found, (.bytes name, v) :: entries =>
    if name = key then
      if found.isSome then .error (.duplicateField "q")
      else do voc.openDict (some (← voc.kindOf v)) entries
    else do
      let (k, rest) ← voc.openDict found entries
      return (k, (.bytes name, v) :: rest)
  | found, entry :: entries => do
    let (k, rest) ← voc.openDict found entries
    return (k, entry :: rest)

def openValue (voc : Vocabulary Kind) : Value → Except Bencode.Error (Kind × Value)
  | .dict entries => do
    let (k, rest) ← voc.openDict none entries
    return (k, .dict rest)
  | .list [] => .error (.missingField "q")
  | .list (v :: items) => do return (← voc.kindOf v, .list items)
  | v => .error (v.misplaced .message)

def layer (voc : Vocabulary Kind) (k : Kind) : Form where
  title := "struct variant " ++ voc.title k
  fields := [.required voc.argumentsName (voc.arguments k).Record (voc.arguments k).codec]

def read (voc : Vocabulary Kind) (v : Value) :
    Except Bencode.Error ((k : Kind) × (voc.arguments k).Record) := do
  let (k, rest) ← voc.openValue v
  let (record, ()) ← (voc.layer k).read rest
  return ⟨k, record⟩

def write (voc : Vocabulary Kind) (k : Kind) (record : (voc.arguments k).Record) : Value :=
  .ofEntries
    ((MessageClass.key, .bytes (asciiBytes voc.messageClass.tag)) ::
      (key, .bytes (asciiBytes (voc.name k))) ::
      Bencode.Record.entries (voc.layer k).fields (record, ()))

end Vocabulary

end Kademlia
