import Kademlia.Ident

/-!
The SHA-1 digest, which turns any content into an identifier that every node computes alike.
-/

namespace Kademlia.Digest

def rotl (x : UInt32) (n : UInt32) : UInt32 := (x <<< n) ||| (x >>> (32 - n))

/-- Chaining value: the five words that every block updates. -/
structure Chain where
  a : UInt32
  b : UInt32
  c : UInt32
  d : UInt32
  e : UInt32
  deriving DecidableEq, Repr

def initial : Chain := ⟨0x67452301, 0xEFCDAB89, 0x98BADCFE, 0x10325476, 0xC3D2E1F0⟩

/-- The message, one set bit, zeros up to a block boundary, and the length in bits. -/
def pad (message : Bytes) : Bytes :=
  let zeros := (119 - message.length % 64) % 64
  message ++ 0x80 :: List.replicate zeros 0 ++ beBytes 8 (8 * message.length)

def words : Bytes → List UInt32
  | a :: b :: c :: d :: rest => UInt32.ofNat (beValue [a, b, c, d]) :: words rest
  | _ => []

/-- Grows the word schedule, newest word first, by `n` words. -/
def schedule : Nat → List UInt32 → List UInt32
  | 0, ws => ws
  | n + 1, ws =>
    let word := fun i => ws.getD i 0
    schedule n (rotl (word 2 ^^^ word 7 ^^^ word 13 ^^^ word 15) 1 :: ws)

def mix (t : Nat) (b c d : UInt32) : UInt32 :=
  if t < 20 then (b &&& c) ||| (~~~b &&& d)
  else if t < 40 then b ^^^ c ^^^ d
  else if t < 60 then (b &&& c) ||| (b &&& d) ||| (c &&& d)
  else b ^^^ c ^^^ d

def roundConstant (t : Nat) : UInt32 :=
  if t < 20 then 0x5A827999
  else if t < 40 then 0x6ED9EBA1
  else if t < 60 then 0x8F1BBCDC
  else 0xCA62C1D6

def round (s : Chain) (step : UInt32 × Nat) : Chain :=
  ⟨rotl s.a 5 + mix step.2 s.b s.c s.d + s.e + roundConstant step.2 + step.1,
    s.a, rotl s.b 30, s.c, s.d⟩

def compress (s : Chain) (block : List UInt32) : Chain :=
  let r := ((schedule 64 block.reverse).reverse.zipIdx).foldl round s
  ⟨s.a + r.a, s.b + r.b, s.c + r.c, s.d + r.d, s.e + r.e⟩

def blocks : Nat → List UInt32 → List (List UInt32)
  | 0, _ => []
  | n + 1, ws => ws.take 16 :: blocks n (ws.drop 16)

def sha1 (message : Bytes) : Ident :=
  let ws := words (pad message)
  let s := (blocks (ws.length / 16) ws).foldl compress initial
  ⟨BitVec.ofNat 160 ([s.a, s.b, s.c, s.d, s.e].foldl (fun acc w => acc <<< 32 + w.toNat) 0)⟩

end Kademlia.Digest

namespace Kademlia

def Ident.ofContent (content : Bytes) : Ident := Digest.sha1 content

end Kademlia
