import Kademlia.Bytes

/-!
Why bytes are not a readable message: lexical faults, wrong shapes, and faults of the fields of a
record. The texts say what was met and what was expected.
-/

namespace Kademlia.Bencode

inductive Found where
  | int (n : Int)
  | bytes
  | list
  | dict
  deriving DecidableEq, Repr

inductive Expected where
  /-- The whole message: a dictionary or a list. -/
  | message
  | text
  | kindName
  | fieldName
  | record (title : String)
  /-- An unsigned number of so many bits. -/
  | unsigned (bits : Nat)
  /-- Exactly so many bytes. -/
  | fixedBytes (size : Nat)
  | anyBytes
  | sequence
  deriving DecidableEq, Repr

inductive ExpectedLength where
  | fixedBytes (size : Nat)
  | fields (title : String) (count : Nat)
  | elements (count : Nat)
  deriving DecidableEq, Repr

inductive Error where
  | endOfStream
  /-- A container ended where its text was due. -/
  | missingText
  | invalidCharacter (byte : UInt8)
  | invalidInteger (text : String)
  | invalidLengthText (text : String)
  | numberNotText
  | bytesNotText
  | outOfRange (n : Int) (bits : Nat)
  | wrongShape (found : Found) (expected : Expected)
  | wrongLength (length : Nat) (expected : ExpectedLength)
  | unknownKind (name : String) (known : List String)
  | missingField (name : String)
  | duplicateField (name : String)
  deriving DecidableEq, Repr

def Found.describe : Found → String
  | .int n => s!"integer `{n}`"
  | .bytes => "byte array"
  | .list => "sequence"
  | .dict => "map"

def Expected.describe : Expected → String
  | .message => "internally tagged enum KadMessage"
  | .text => "bytes"
  | .kindName => "variant identifier"
  | .fieldName => "field identifier"
  | .record title => title
  | .unsigned bits => s!"u{bits}"
  | .fixedBytes size => s!"a byte array of length {size}"
  | .anyBytes => "byte array"
  | .sequence => "a sequence"

def elementsText (count : Nat) : String :=
  if count = 1 then "1 element" else s!"{count} elements"

def ExpectedLength.describe : ExpectedLength → String
  | .fixedBytes size => (Expected.fixedBytes size).describe
  | .fields title count => title ++ " with " ++ elementsText count
  | .elements count => elementsText count ++ " in sequence"

def namesText (names : List String) : String :=
  "[" ++ ", ".intercalate (names.map fun name => "\"" ++ name ++ "\"") ++ "]"

def Error.message : Error → String
  | .endOfStream => "End of stream"
  | .missingText => "unexpected end, expected bytes"
  | .invalidCharacter byte =>
    "Invalid character `" ++ String.singleton (Char.ofNat byte.toNat) ++ "`"
  | .invalidInteger text => "Can't parse `" ++ text ++ "` as integer"
  | .invalidLengthText text => "Can't parse `" ++ text ++ "` as string length"
  | .numberNotText => "Non UTF-8 integer encoding"
  | .bytesNotText =>
    "Invalid Value: " ++ Found.bytes.describe ++ " (expected: `utf-8 string`)"
  | .outOfRange n bits =>
    "Invalid Value: " ++ (Found.int n).describe ++ " (expected: `" ++
      (Expected.unsigned bits).describe ++ "`)"
  | .wrongShape found expected =>
    "Invalid Type: " ++ found.describe ++ " (expected: `" ++ expected.describe ++ "`)"
  | .wrongLength length expected =>
    s!"Invalid Length: {length} (expected: " ++ expected.describe ++ ")"
  | .unknownKind name known =>
    "Unknown Variant: `" ++ name ++ "` (expected one of: " ++ namesText known ++ ")"
  | .missingField name => "Missing Field: `" ++ name ++ "`"
  | .duplicateField name => "Duplicate Field: `" ++ name ++ "`"

end Kademlia.Bencode
