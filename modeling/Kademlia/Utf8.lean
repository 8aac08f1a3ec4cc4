import Kademlia.Bytes

/-!
Reading UTF-8 with repair. Each maximal ill-formed part of the input becomes one gap, so a text is
valid exactly when it has no gap, and any text can be shown with U+FFFD in place of its gaps.
-/

namespace Kademlia.Utf8

def isContinuation (b : UInt8) : Bool := 0x80 ≤ b && b ≤ 0xBF

/-- Whether the two bytes can begin a sequence of three bytes: no overlong form, no surrogate. -/
def begins3 (a b : UInt8) : Bool :=
  if a = 0xE0 then 0xA0 ≤ b && b ≤ 0xBF
  else if a = 0xED then 0x80 ≤ b && b ≤ 0x9F
  else 0xE1 ≤ a && a ≤ 0xEF && isContinuation b

/-- Whether the two bytes can begin a sequence of four bytes: no overlong form, at most U+10FFFF. -/
def begins4 (a b : UInt8) : Bool :=
  if a = 0xF0 then 0x90 ≤ b && b ≤ 0xBF
  else if a = 0xF4 then 0x80 ≤ b && b ≤ 0x8F
  else 0xF1 ≤ a && a ≤ 0xF3 && isContinuation b

def payload (b : UInt8) : Nat := b.toNat % 64

def char2 (a b : UInt8) : Char :=
  Char.ofNat (a.toNat % 32 * 64 + payload b)

def char3 (a b c : UInt8) : Char :=
  Char.ofNat (a.toNat % 16 * 4096 + payload b * 64 + payload c)

def char4 (a b c d : UInt8) : Char :=
  Char.ofNat (a.toNat % 8 * 262144 + payload b * 4096 + payload c * 64 + payload d)

/-- The characters of the input, with `none` for each maximal ill-formed part. -/
def decode : Bytes → List (Option Char)
  | [] => []
  | a :: rest =>
    if a < 0x80 then some (Char.ofNat a.toNat) :: decode rest
    else if 0xC2 ≤ a && a ≤ 0xDF then
      match rest with
      | b :: more =>
        if isContinuation b then some (char2 a b) :: decode more else none :: decode (b :: more)
      | [] => [none]
    else if 0xE0 ≤ a && a ≤ 0xEF then
      match rest with
      | b :: more =>
        if begins3 a b then
          match more with
          | c :: more =>
            if isContinuation c then some (char3 a b c) :: decode more
            else none :: decode (c :: more)
          | [] => [none]
        else none :: decode (b :: more)
      | [] => [none]
    else if 0xF0 ≤ a && a ≤ 0xF4 then
      match rest with
      | b :: more =>
        if begins4 a b then
          match more with
          | c :: more =>
            if isContinuation c then
              match more with
              | d :: more =>
                if isContinuation d then some (char4 a b c d) :: decode more
                else none :: decode (d :: more)
              | [] => [none]
            else none :: decode (c :: more)
          | [] => [none]
        else none :: decode (b :: more)
      | [] => [none]
    else none :: decode rest

def text? (bytes : Bytes) : Option String :=
  ((decode bytes).mapM id).map String.ofList

/-- The text of any bytes, U+FFFD standing for what is ill-formed. -/
def lossyText (bytes : Bytes) : String :=
  String.ofList ((decode bytes).map fun c => c.getD (Char.ofNat 0xFFFD))

end Kademlia.Utf8
