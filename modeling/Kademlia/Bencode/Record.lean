import Kademlia.Bencode.Body

/-!
Records: dictionaries with known fields. A form lists the fields in order, each with a name and a
codec. A record is read from a dictionary in any order of its keys, unknown keys being ignored, or
from a list of its fields in the order of the form; it is written with its keys sorted.
-/

namespace Kademlia.Bencode

structure Codec (α : Type) where
  read : Value → Except Error α
  write : α → Value

def Value.found : Value → Found
  | .int n => .int n
  | .bytes _ => .bytes
  | .list _ => .list
  | .dict _ => .dict

def Value.misplaced (v : Value) (expected : Expected) : Error :=
  .wrongShape v.found expected

def readUnsigned (bits : Nat) : Value → Except Error Nat
  | .int n =>
    if 0 ≤ n ∧ n.toNat < 1 <<< bits then .ok n.toNat else .error (.outOfRange n bits)
  | v => .error (v.misplaced (.unsigned bits))

def readOctet (v : Value) : Except Error UInt8 :=
  (readUnsigned 8 v).map UInt8.ofNat

/-- Reads a byte string, which may also be spelled as a list of numbers below 256. -/
def readBytes : Value → Except Error Bytes
  | .bytes content => .ok content
  | .list items => items.mapM readOctet
  | v => .error (v.misplaced .anyBytes)

def readFixed (size : Nat) : Value → Except Error Bytes
  | .bytes content =>
    if content.length = size then .ok content
    else .error (.wrongLength content.length (.fixedBytes size))
  | .list items => do
    let content ← (items.take size).mapM readOctet
    if items.length < size then .error (.wrongLength items.length (.fixedBytes size))
    else if items.length > size then .error (.wrongLength items.length (.elements size))
    else .ok content
  | v => .error (v.misplaced (.fixedBytes size))

def readSequence : Value → Except Error (List Bytes)
  | .list items => items.mapM readBytes
  | v => .error (v.misplaced .sequence)

namespace Codec

def unsigned64 : Codec UInt64 where
  read v := (readUnsigned 64 v).map UInt64.ofNat
  write n := .int n.toNat

def octet : Codec UInt8 where
  read := readOctet
  write n := .int n.toNat

def bytes : Codec Bytes where
  read := readBytes
  write := .bytes

/-- Numbers of `size` bytes, most significant byte first. -/
def fixed (size width : Nat) : Codec (BitVec width) where
  read v := (readFixed size v).map fun content => BitVec.ofNat width (beValue content)
  write n := .bytes (beBytes size n.toNat)

def sequence : Codec (List Bytes) where
  read := readSequence
  write items := .list (items.map .bytes)

end Codec

/-- A field of a record; an optional one may be left out. -/
inductive Field where
  | required (name : String) (Carrier : Type) (codec : Codec Carrier)
  | optional (name : String) (Carrier : Type) (codec : Codec Carrier)

namespace Field

def name : Field → String
  | .required name _ _ => name
  | .optional name _ _ => name

def key (f : Field) : Bytes := asciiBytes f.name

abbrev Carrier : Field → Type
  | .required _ α _ => α
  | .optional _ α _ => α

abbrev Content : Field → Type
  | .required _ α _ => α
  | .optional _ α _ => Option α

def read : (f : Field) → Value → Except Error f.Carrier
  | .required _ _ codec, v => codec.read v
  | .optional _ _ codec, v => codec.read v

def settle : (f : Field) → Option f.Carrier → Except Error f.Content
  | .required _ _ _, some x => .ok x
  | .required name _ _, none => .error (.missingField name)
  | .optional _ _ _, x => .ok x

def absent (fault : Error) : (f : Field) → Except Error f.Content
  | .required _ _ _ => .error fault
  | .optional _ _ _ => .ok none

def present : (f : Field) → f.Carrier → f.Content
  | .required _ _ _, x => x
  | .optional _ _ _, x => some x

def entry : (f : Field) → f.Content → List (Bytes × Value)
  | .required name _ codec, x => [(asciiBytes name, codec.write x)]
  | .optional name _ codec, some x => [(asciiBytes name, codec.write x)]
  | .optional _ _ _, none => []

end Field

abbrev Record : List Field → Type
  | [] => Unit
  | f :: fields => f.Content × Record fields

abbrev Slots : List Field → Type
  | [] => Unit
  | f :: fields => Option f.Carrier × Slots fields

def Slots.empty : (fields : List Field) → Slots fields
  | [] => ()
  | _ :: fields => (none, Slots.empty fields)

/-- Takes in one entry of a dictionary. A field may be met once; an unknown key changes nothing. -/
def Slots.put : (fields : List Field) → Slots fields → Bytes → Value → Except Error (Slots fields)
  | [], slots, _, _ => .ok slots
  | f :: fields, (slot, slots), key, v =>
    if key = f.key then
      match slot with
      | some _ => .error (.duplicateField f.name)
      | none => (f.read v).map fun x => (some x, slots)
    else (Slots.put fields slots key v).map fun slots => (slot, slots)

/-- The record, or the first field in order that is missing. -/
def Slots.complete : (fields : List Field) → Slots fields → Except Error (Record fields)
  | [], _ => .ok ()
  | f :: fields, (slot, slots) => do
    let x ← f.settle slot
    let record ← Slots.complete fields slots
    return (x, record)

def Slots.fill (fields : List Field) :
    Slots fields → List (Value × Value) → Except Error (Slots fields)
  | slots, [] => .ok slots
  | slots, (.bytes key, v) :: entries => do
    Slots.fill fields (← Slots.put fields slots key v) entries
  | _, (key, _) :: _ => .error (key.misplaced .fieldName)

/-- Reads the fields from a list, `met` of them being read already. -/
def Record.ofList (title : String) (count : Nat) :
    (fields : List Field) → (met : Nat) → List Value → Except Error (Record fields)
  | [], met, items =>
    if items.isEmpty then .ok () else .error (.wrongLength (met + items.length) (.elements met))
  | f :: fields, met, [] => do
    let x ← f.absent (.wrongLength met (.fields title count))
    let record ← Record.ofList title count fields (met + 1) []
    return (x, record)
  | f :: fields, met, v :: items => do
    let x ← f.read v
    let record ← Record.ofList title count fields (met + 1) items
    return (f.present x, record)

def Record.entries : (fields : List Field) → Record fields → List (Bytes × Value)
  | [], _ => []
  | f :: fields, (x, record) => f.entry x ++ Record.entries fields record

/-- A dictionary with the given entries, sorted by their keys. -/
def Value.ofEntries (entries : List (Bytes × Value)) : Value :=
  .dict ((entries.mergeSort fun a b => a.1 ≤ b.1).map fun e => (.bytes e.1, e.2))

/-- The title of a kind of record, as faults name it, and its fields. -/
structure Form where
  title : String
  fields : List Field

abbrev Form.Record (form : Form) : Type := Bencode.Record form.fields

def Form.read (form : Form) : Value → Except Error form.Record
  | .dict entries => do
    Slots.complete form.fields (← Slots.fill form.fields (Slots.empty form.fields) entries)
  | .list items => Record.ofList form.title form.fields.length form.fields 0 items
  | v => .error (v.misplaced (.record form.title))

def Form.write (form : Form) (record : form.Record) : Value :=
  .ofEntries (Record.entries form.fields record)

def Form.codec (form : Form) : Codec form.Record where
  read := form.read
  write := form.write

end Kademlia.Bencode
