import Kademlia.Bencode.Value
import Kademlia.Bencode.Error
import Kademlia.Utf8

/-!
Reading tokens from bytes. A scan yields every token in front of the first unreadable place, with
the fault found there; the end of the bytes is a fault as well, so that whoever consumes the tokens
decides whether it was reached too early.
-/

namespace Kademlia.Bencode

def isDigit (b : UInt8) : Bool := 48 ≤ b && b ≤ 57

/-- The number that one or more decimal digits spell; leading zeros are admitted. -/
def natOfDigits? (digits : Bytes) : Option Nat :=
  if digits ≠ [] ∧ digits.all isDigit then
    some (digits.foldl (fun n d => n * 10 + (d.toNat - 48)) 0)
  else none

/-- The integer that digits behind an optional sign spell, if it fits in 64 bits. -/
def intOfText? (text : Bytes) : Option Int :=
  let n : Option Int :=
    match text with
    | 45 :: digits => (natOfDigits? digits).map fun n => -(n : Int)
    | 43 :: digits => (natOfDigits? digits).map fun n => (n : Int)
    | digits => (natOfDigits? digits).map fun n => (n : Int)
  n.filter fun n => Int64.minValue.toInt ≤ n ∧ n ≤ Int64.maxValue.toInt

def lengthOfText? (text : Bytes) : Option Nat :=
  (natOfDigits? text).filter fun n => n < UInt64.size

/-- The bytes in front of the first `stop` and the bytes behind it. -/
def cut (stop : UInt8) : Bytes → Option (Bytes × Bytes)
  | [] => none
  | b :: rest =>
    if b = stop then some ([], rest)
    else (cut stop rest).map fun (front, back) => (b :: front, back)

/-- The fault of a number that cannot be read: its text is wrong, or it is no text at all. -/
def numberFault (fault : String → Error) (text : Bytes) : Error :=
  match Utf8.text? text with
  | some t => fault t
  | none => .numberNotText

def Token.next : Bytes → Except Error (Token × Bytes)
  | [] => .error .endOfStream
  | b :: rest =>
    if b = 105 then
      match cut 101 rest with
      | none => .error .endOfStream
      | some (text, back) =>
        match intOfText? text with
        | some n => .ok (.int n, back)
        | none => .error (numberFault .invalidInteger text)
    else if isDigit b then
      match cut 58 rest with
      | none => .error .endOfStream
      | some (more, back) =>
        match lengthOfText? (b :: more) with
        | some n =>
          if (back.take n).length = n then .ok (.bytes (back.take n), back.drop n)
          else .error .endOfStream
        | none => .error (numberFault .invalidLengthText (b :: more))
    else if b = 108 then .ok (.enter .list, rest)
    else if b = 100 then .ok (.enter .dict, rest)
    else if b = 101 then .ok (.leave, rest)
    else .error (.invalidCharacter b)

theorem length_of_cut {stop : UInt8} {bytes front back : Bytes}
    (h : cut stop bytes = some (front, back)) : bytes.length = front.length + 1 + back.length := by
  induction bytes generalizing front with
  | nil => simp [cut] at h
  | cons b rest ih =>
    simp only [cut] at h
    split at h
    · simp only [Option.some.injEq, Prod.mk.injEq] at h
      obtain ⟨rfl, rfl⟩ := h
      simp only [List.length_cons, List.length_nil]
      omega
    · obtain ⟨⟨f, r⟩, hr, he⟩ := Option.map_eq_some_iff.1 h
      simp only [Prod.mk.injEq] at he
      obtain ⟨rfl, rfl⟩ := he
      simp only [List.length_cons, ih hr]
      omega

theorem length_of_next {bytes rest : Bytes} {t : Token}
    (h : Token.next bytes = .ok (t, rest)) : rest.length < bytes.length := by
  cases bytes with
  | nil => simp [Token.next] at h
  | cons b tail =>
    simp only [Token.next] at h
    split at h
    · split at h
      · simp at h
      · rename_i front back hc
        have := length_of_cut hc
        split at h <;> simp only [Except.ok.injEq, Prod.mk.injEq, reduceCtorEq] at h
        obtain ⟨_, rfl⟩ := h
        simp only [List.length_cons]
        omega
    · split at h
      · split at h
        · simp at h
        · rename_i front back hc
          have := length_of_cut hc
          split at h
          · split at h <;> simp only [Except.ok.injEq, Prod.mk.injEq, reduceCtorEq] at h
            obtain ⟨_, rfl⟩ := h
            simp only [List.length_cons, List.length_drop]
            omega
          · simp at h
      · repeat' split at h
        all_goals simp only [Except.ok.injEq, Prod.mk.injEq, reduceCtorEq] at h
        all_goals
          obtain ⟨_, rfl⟩ := h
          simp

/-- The tokens in front of the first unreadable place, and the fault there. -/
def Token.scan (bytes : Bytes) : List Token × Error :=
  match h : Token.next bytes with
  | .error fault => ([], fault)
  | .ok (t, rest) =>
    have : rest.length < bytes.length := length_of_next h
    let (tokens, fault) := Token.scan rest
    (t :: tokens, fault)
termination_by bytes.length

end Kademlia.Bencode
