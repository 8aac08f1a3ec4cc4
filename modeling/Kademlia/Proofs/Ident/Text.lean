import Kademlia.Ident.Text
import Kademlia.Proofs.Bytes
import Kademlia.Proofs.Bytes.Hex

/-!
Reading identifiers from any text. A text is a string of UTF-8 bytes, in which a character outside
ASCII takes several, so that offsets in bytes may fall within a character. Main statement: exactly
the texts of forty hexadecimal digits are read, wherever they are cut they are cut between
characters, and reading and writing undo each other up to the case of letters.
-/

namespace Kademlia

section Slices

def utf8Bytes (text : String) : Bytes := text.toByteArray.data.toList

theorem utf8Bytes_ofList (cs : List Char) :
    utf8Bytes (String.ofList cs) = cs.flatMap String.utf8EncodeChar := by
  rw [utf8Bytes, String.toByteArray_ofList, List.utf8Encode, List.toList_data_toByteArray]

theorem utf8Bytes_eq (text : String) :
    utf8Bytes text = text.toList.flatMap String.utf8EncodeChar := by
  rw [← utf8Bytes_ofList, String.ofList_toList]

theorem length_utf8Bytes (text : String) : (utf8Bytes text).length = text.utf8ByteSize := rfl

/-- An offset in bytes that falls between two characters or at an end. -/
def IsBoundary (text : String) (offset : Nat) : Prop := String.Pos.Raw.IsValid text ⟨offset⟩

instance (text : String) (offset : Nat) : Decidable (IsBoundary text offset) :=
  inferInstanceAs (Decidable (String.Pos.Raw.IsValid text ⟨offset⟩))

/-- The part of a text between two offsets, both of which must be boundaries. -/
def slice? (text : String) (start stop : Nat) : Option String :=
  if h : IsBoundary text start ∧ IsBoundary text stop ∧ start ≤ stop then
    some (text.extract (text.pos ⟨start⟩ h.1) (text.pos ⟨stop⟩ h.2.1))
  else none

theorem slice?_append (front middle back : String) :
    slice? (front ++ middle ++ back) front.utf8ByteSize (front ++ middle).utf8ByteSize =
      some middle := by
  have hstart : IsBoundary (front ++ middle ++ back) front.utf8ByteSize := by
    apply String.Pos.Raw.isValid_iff_exists_append.mpr
    exact ⟨front, middle ++ back, String.append_assoc, rfl⟩
  have hstop : IsBoundary (front ++ middle ++ back) (front ++ middle).utf8ByteSize := by
    apply String.Pos.Raw.isValid_iff_exists_append.mpr
    exact ⟨front ++ middle, back, rfl, rfl⟩
  have hle : front.utf8ByteSize ≤ (front ++ middle).utf8ByteSize := by
    rw [String.utf8ByteSize_append]
    omega
  rw [slice?, dif_pos ⟨hstart, hstop, hle⟩]
  congr 1
  apply String.toByteArray_inj.mp
  rw [String.toByteArray_extract]
  change (front ++ middle ++ back).toByteArray.extract front.utf8ByteSize
    (front ++ middle).utf8ByteSize = middle.toByteArray
  have hcut := ByteArray.extract_append_size_add (a := front.toByteArray)
    (b := (middle ++ back).toByteArray) (i := 0) (j := middle.utf8ByteSize)
  rw [String.toByteArray_append (s := middle),
    ByteArray.extract_append_eq_left String.size_toByteArray.symm] at hcut
  rw [String.append_assoc, String.toByteArray_append, String.toByteArray_append,
    String.utf8ByteSize_append]
  exact hcut

end Slices

section Ascii

def isHexByte (byte : UInt8) : Bool :=
  (0x30 ≤ byte && byte ≤ 0x39) || (0x61 ≤ byte && byte ≤ 0x66) || (0x41 ≤ byte && byte ≤ 0x46)

/-- All later bytes of a character have their top bit set, so none of them passes for a digit. -/
theorem isHexByte_continuation (byte : UInt8) : isHexByte (byte &&& 0x3f ||| 0x80) = false := by
  have hall : ∀ n < 256, isHexByte (UInt8.ofNat n &&& 0x3f ||| 0x80) = false := by decide +kernel
  have hbyte := hall byte.toNat byte.toNat_lt
  rwa [UInt8.ofNat_toNat] at hbyte

theorem utf8EncodeChar_of_lt {c : Char} (h : c.toNat < 128) :
    String.utf8EncodeChar c = [UInt8.ofNat c.toNat] ∧
      (isHexByte (UInt8.ofNat c.toNat) = true ↔ IsHexDigit c) := by
  refine forall_ascii ?_ h
  decide +kernel

theorem continuation_mem {c : Char} (h : c.utf8Size ≠ 1) :
    c.val.toUInt8 &&& 0x3f ||| 0x80 ∈ String.utf8EncodeChar c := by
  rcases Char.utf8Size_eq c with h1 | h2 | h3 | h4
  · exact absurd h1 h
  · simp [String.utf8EncodeChar_eq_cons_cons h2]
  · simp [String.utf8EncodeChar_eq_cons_cons_cons h3]
  · simp [String.utf8EncodeChar_eq_cons_cons_cons_cons h4]

theorem hexBytes_iff_of_char (c : Char) :
    (∀ byte ∈ String.utf8EncodeChar c, isHexByte byte = true) ↔ IsHexDigit c := by
  constructor
  · intro h
    have hsize : c.utf8Size = 1 := by
      by_contra hlong
      have hbyte := h _ (continuation_mem hlong)
      rw [isHexByte_continuation] at hbyte
      cases hbyte
    have hlt : c.toNat < 128 := Nat.lt_succ_of_le (Char.utf8Size_eq_one_iff.mp hsize)
    obtain ⟨hone, hdigit⟩ := utf8EncodeChar_of_lt hlt
    apply hdigit.mp
    apply h
    simp [hone]
  · intro h byte hmem
    obtain ⟨hone, hdigit⟩ := utf8EncodeChar_of_lt h.toNat_lt
    rw [hone, List.mem_singleton] at hmem
    rw [hmem]
    exact hdigit.mpr h

theorem all_isHexByte_iff (text : String) :
    (utf8Bytes text).all isHexByte = true ↔ ∀ c ∈ text.toList, IsHexDigit c := by
  rw [utf8Bytes_eq, List.all_flatMap, List.all_eq_true]
  refine forall₂_congr fun c _ => ?_
  rw [List.all_eq_true, hexBytes_iff_of_char]

theorem utf8ByteSize_of_digits {cs : List Char} (h : ∀ c ∈ cs, IsHexDigit c) :
    (String.ofList cs).utf8ByteSize = cs.length := by
  rw [← length_utf8Bytes, utf8Bytes_ofList]
  induction cs with
  | nil => rfl
  | cons c cs ih =>
    rw [List.forall_mem_cons] at h
    obtain ⟨hone, -⟩ := utf8EncodeChar_of_lt h.1.toNat_lt
    rw [List.flatMap_cons, List.length_append, hone, ih h.2, List.length_singleton,
      List.length_cons, Nat.add_comm]

end Ascii

section Octets

/-- Reads a byte in base 16. A plus sign may stand before the digits, and the number must fit. -/
def octetOfText? (text : List Char) : Option UInt8 :=
  let digits := if text.head? = some '+' then text.tail else text
  if digits = [] then none
  else do
    let values ← digits.mapM hexValue?
    let value := values.foldl (fun acc v => acc * 16 + v) 0
    if value < 256 then some (UInt8.ofNat value) else none

theorem octetOfText?_digits {high low : Char} {h l : Nat} (hh : hexValue? high = some h)
    (hl : hexValue? low = some l) : octetOfText? [high, low] = some (UInt8.ofNat (16 * h + l)) := by
  have hsign : high ≠ '+' := by
    rintro rfl
    cases hh
  have hh16 := (hexDigit_of_hexValue? hh).1
  have hl16 := (hexDigit_of_hexValue? hl).1
  have hfits : h * 16 + l < 256 := by omega
  simp [octetOfText?, hsign, hh, hl, hfits, Nat.mul_comm]

end Octets

namespace Ident

section Cutting

/-- The byte that is spelled by the two digits at its place. Without a result the text cannot be cut
there. -/
def octetAt (text : String) (i : Nat) : ExceptT Error Option UInt8 := do
  let digits ← liftM (slice? text (2 * i) (2 * i + 2))
  match octetOfText? digits.toList with
  | some byte => return byte
  | none => throw (.identText text)

/-- Reads an identifier by cutting its text in twenty places. All bytes are looked at before the
first cut. -/
def ofSlices (text : String) : ExceptT Error Option Ident :=
  if text.utf8ByteSize ≠ 40 ∨ (utf8Bytes text).all isHexByte = false then throw (.identText text)
  else do
    let bytes ← (List.range 20).mapM (octetAt text)
    return ⟨BitVec.ofNat 160 (beValue bytes)⟩

theorem octetAt_append {front rest : List Char} {high low : Char} {h l i : Nat}
    (hfront : ∀ c ∈ front, IsHexDigit c) (hlength : front.length = 2 * i)
    (hh : hexValue? high = some h) (hl : hexValue? low = some l) :
    octetAt (String.ofList (front ++ high :: low :: rest)) i =
      pure (UInt8.ofNat (16 * h + l)) := by
  have hpair : ∀ c ∈ front ++ [high, low], IsHexDigit c := by
    simp only [List.forall_mem_append, List.forall_mem_cons]
    exact ⟨hfront, isHexDigit_of_hexValue? hh, isHexDigit_of_hexValue? hl, by simp⟩
  have hcut := slice?_append (String.ofList front) (String.ofList [high, low]) (String.ofList rest)
  rw [← String.ofList_append, ← String.ofList_append, utf8ByteSize_of_digits hfront,
    utf8ByteSize_of_digits hpair, List.length_append, hlength, List.append_assoc] at hcut
  rw [octetAt]
  simp only [List.cons_append, List.nil_append, List.length_cons, List.length_nil] at hcut
  rw [hcut]
  change (match octetOfText? (String.ofList [high, low]).toList with
    | some byte => pure byte
    | none => throw (Error.identText (String.ofList (front ++ high :: low :: rest)))) = _
  rw [String.toList_ofList, octetOfText?_digits hh hl]

theorem mapM_octetAt {front rest : List Char} {bytes : Bytes} {i : Nat}
    (hfront : ∀ c ∈ front, IsHexDigit c) (hlength : front.length = 2 * i)
    (hread : unhex? rest = some bytes) :
    (List.range' i bytes.length).mapM (octetAt (String.ofList (front ++ rest))) = pure bytes := by
  fun_induction unhex? rest generalizing front bytes i with
  | case1 =>
    cases hread
    rfl
  | case2 => cases hread
  | case3 high low rest ih =>
    obtain ⟨h, l, more, hh, hl, hmore, rfl⟩ := unhex?_cons_eq_some hread
    have hpair : ∀ c ∈ front ++ [high, low], IsHexDigit c := by
      simp only [List.forall_mem_append, List.forall_mem_cons]
      exact ⟨hfront, isHexDigit_of_hexValue? hh, isHexDigit_of_hexValue? hl, by simp⟩
    have hlonger : (front ++ [high, low]).length = 2 * (i + 1) := by
      rw [List.length_append, hlength]
      rfl
    have hbehind := ih hpair hlonger hmore
    rw [List.append_assoc, List.cons_append, List.cons_append, List.nil_append] at hbehind
    rw [List.length_cons, List.range'_succ, List.mapM_cons, octetAt_append hfront hlength hh hl,
      pure_bind, hbehind, pure_bind]

end Cutting

section Reading

def Spelled (text : String) : Prop :=
  text.toList.length = 40 ∧ ∀ c ∈ text.toList, IsHexDigit c

instance (text : String) : Decidable (Spelled text) :=
  inferInstanceAs (Decidable (_ ∧ _))

theorem spelled_iff_bytes (text : String) :
    Spelled text ↔ text.utf8ByteSize = 40 ∧ (utf8Bytes text).all isHexByte = true := by
  rw [Spelled, all_isHexByte_iff]
  refine and_congr_left fun hdigits => ?_
  have hsize := utf8ByteSize_of_digits hdigits
  rw [String.ofList_toList] at hsize
  rw [hsize]

theorem ofText_of_unhex? {text : String} {bytes : Bytes} (hread : unhex? text.toList = some bytes)
    (hlength : bytes.length = 20) :
    ofText text = .ok ⟨BitVec.ofNat 160 (beValue bytes)⟩ := by
  rw [ofText, hread]
  exact if_pos hlength

theorem Spelled.exists_bytes {text : String} (h : Spelled text) :
    ∃ bytes, unhex? text.toList = some bytes ∧ bytes.length = 20 := by
  obtain ⟨bytes, hread⟩ := exists_unhex? (n := 20) h.1 h.2
  obtain ⟨hlength, -, -⟩ := hexChars_of_unhex? hread
  rw [h.1] at hlength
  exact ⟨bytes, hread, by omega⟩

theorem ofText_of_not_spelled {text : String} (h : ¬ Spelled text) :
    ofText text = .error (.identText text) := by
  unfold ofText
  split
  next => rfl
  next bytes hread =>
    apply if_neg
    intro hlength
    obtain ⟨hpairs, hdigits, -⟩ := hexChars_of_unhex? hread
    rw [hlength] at hpairs
    exact h ⟨hpairs, hdigits⟩

/-- Every cut falls between two characters, and cutting reads the same. -/
theorem ofSlices_eq (text : String) : (ofSlices text).run = some (ofText text) := by
  by_cases h : Spelled text
  · obtain ⟨hsize, hdigits⟩ := (spelled_iff_bytes text).mp h
    obtain ⟨bytes, hread, hlength⟩ := h.exists_bytes
    have hnone : ∀ c ∈ ([] : List Char), IsHexDigit c := by simp
    have hall := mapM_octetAt hnone (i := 0) rfl hread
    rw [hlength, List.nil_append, String.ofList_toList, ← List.range_eq_range'] at hall
    rw [ofSlices, if_neg (by simp [hsize, hdigits]), hall, pure_bind,
      ofText_of_unhex? hread hlength]
    rfl
  · have hguard : text.utf8ByteSize ≠ 40 ∨ (utf8Bytes text).all isHexByte = false := by
      rw [spelled_iff_bytes, not_and_or, Bool.not_eq_true] at h
      exact h
    rw [ofSlices, if_pos hguard, ofText_of_not_spelled h]
    rfl

theorem text_of_ofText {text : String} {a : Ident} (h : ofText text = .ok a) :
    a.text = text.toLower := by
  by_cases hs : Spelled text
  · obtain ⟨bytes, hread, hlength⟩ := hs.exists_bytes
    obtain ⟨-, -, hwritten⟩ := hexChars_of_unhex? hread
    cases h.symm.trans (ofText_of_unhex? hread hlength)
    apply String.toList_inj.mp
    rw [Ident.text, hexText, String.toList_ofList, toBytes, BitVec.toNat_ofNat,
      beBytes_mod_beValue hlength (by decide), hwritten]
    exact String.toList_map.symm
  · cases h.symm.trans (ofText_of_not_spelled hs)

theorem ofText_text (a : Ident) : ofText a.text = .ok a := by
  have hread : unhex? a.text.toList = some a.toBytes := by
    rw [Ident.text, hexText, String.toList_ofList, unhex?_hexChars]
  rw [ofText_of_unhex? hread (length_toBytes a), toBytes,
    ofNat_beValue_beBytes 20 a.bits (by decide)]

/-- Whatever the text, an identifier is read from it exactly if it consists of forty hexadecimal
digits, and any other text is refused as a whole. A reader that looks at all bytes first and then
cuts out pair after pair never cuts within a character, and comes to the same. Writing what was read
gives the digits in lower case, and every identifier is read back from its text. -/
theorem ofText_reads_forty_digits (text : String) :
    ((∃ a, ofText text = .ok a) ↔ text.toList.length = 40 ∧ ∀ c ∈ text.toList, IsHexDigit c) ∧
    (ofText text = .error (.identText text) ↔
      ¬ (text.toList.length = 40 ∧ ∀ c ∈ text.toList, IsHexDigit c)) ∧
    (ofSlices text).run = some (ofText text) ∧
    (∀ a, ofText text = .ok a → a.text = text.toLower) ∧
    ∀ a : Ident, ofText a.text = .ok a := by
  have hread : Spelled text → ∃ a, ofText text = .ok a := by
    intro hs
    obtain ⟨bytes, hbytes, hlength⟩ := hs.exists_bytes
    exact ⟨_, ofText_of_unhex? hbytes hlength⟩
  refine ⟨⟨?_, hread⟩, ⟨?_, ofText_of_not_spelled⟩, ofSlices_eq text, fun a => text_of_ofText,
    ofText_text⟩
  · rintro ⟨a, ha⟩
    by_contra hs
    cases ha.symm.trans (ofText_of_not_spelled hs)
  · intro herror hs
    obtain ⟨a, ha⟩ := hread hs
    cases ha.symm.trans herror

def repeated (n : Nat) (cs : List Char) : String := String.ofList (List.replicate n cs).flatten

/-- Digits of both cases are read. A digit with a sign is a number, but forty such characters are not
read. Thirteen letters of three bytes and a digit have the right length in bytes, and are refused
before they are cut within a letter. -/
theorem ofText_reads_forty_digits_mixed :
    (∃ a, ofText (repeated 20 ['A', 'b']) = .ok a ∧ a.text = (repeated 20 ['A', 'b']).toLower) ∧
    octetOfText? ['+', 'a'] = some 10 ∧
    ofText (repeated 20 ['+', 'a']) = .error (.identText (repeated 20 ['+', 'a'])) ∧
    slice? (repeated 13 ['€'] ++ "0") 0 2 = none ∧
    (ofSlices (repeated 13 ['€'] ++ "0")).run =
      some (.error (.identText (repeated 13 ['€'] ++ "0"))) := by
  obtain ⟨hmixed, -, -, hlower, -⟩ := ofText_reads_forty_digits (repeated 20 ['A', 'b'])
  obtain ⟨-, hsigned, -⟩ := ofText_reads_forty_digits (repeated 20 ['+', 'a'])
  obtain ⟨-, hwide, hcut, -⟩ := ofText_reads_forty_digits (repeated 13 ['€'] ++ "0")
  rw [repeated, String.toList_ofList] at hmixed hsigned
  rw [String.toList_append, repeated, String.toList_ofList] at hwide
  have hpair : ∀ c ∈ ['A', 'b'], IsHexDigit c := by
    rw [List.forall_mem_cons, List.forall_mem_singleton]
    decide
  have hdigits : ∀ c ∈ (List.replicate 20 ['A', 'b']).flatten, IsHexDigit c := by
    simp only [List.mem_flatten, List.mem_replicate]
    rintro c ⟨_, ⟨-, rfl⟩, hc⟩
    exact hpair c hc
  have hsign : ¬ ∀ c ∈ (List.replicate 20 ['+', 'a']).flatten, IsHexDigit c := by
    intro h
    exact absurd (h '+' (by simp)) (by decide)
  obtain ⟨a, ha⟩ := hmixed.mpr ⟨by simp, hdigits⟩
  refine ⟨⟨a, ha, hlower a ha⟩, by decide +kernel, hsigned.mpr fun h => hsign h.2,
    by decide +kernel, ?_⟩
  rw [hcut]
  exact congrArg some (hwide.mpr fun h => absurd h.1 (by simp))

end Reading

end Ident

end Kademlia
