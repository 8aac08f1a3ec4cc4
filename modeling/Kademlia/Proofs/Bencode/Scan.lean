import Mathlib.Algebra.Group.Nat.Defs
import Mathlib.Data.List.Basic
import Kademlia.Bencode.Scan

/-!
Scanning what was spelled. Whatever bytes stand behind a token, the token in front of them is read
back, so the tokens of a value are read back from its bytes.
-/

namespace Kademlia.Bencode

section Decimal

theorem isDigit_ofNat {n : Nat} (h : n < 10) :
    isDigit (UInt8.ofNat (48 + n)) = true ∧ (UInt8.ofNat (48 + n)).toNat - 48 = n := by
  have hn : (UInt8.ofNat (48 + n)).toNat = 48 + n := by
    rw [UInt8.toNat_ofNat', Nat.mod_eq_of_lt (by omega)]
  refine ⟨?_, by omega⟩
  simp only [isDigit, Bool.and_eq_true, decide_eq_true_eq, UInt8.le_iff_toNat_le, hn]
  simp
  omega

theorem decimal_ne_nil (n : Nat) : decimal n ≠ [] := by
  unfold decimal
  split <;> simp

theorem decimal_digits (n : Nat) : ∀ b ∈ decimal n, isDigit b = true := by
  induction n using decimal.induct with
  | case1 n hn =>
    rw [decimal, if_pos hn]
    intro b hb
    rw [List.mem_singleton] at hb
    rw [hb]
    exact (isDigit_ofNat hn).1
  | case2 n hn ih =>
    rw [decimal, if_neg hn]
    intro b hb
    rcases List.mem_append.mp hb with hb | hb
    · exact ih b hb
    · rw [List.mem_singleton] at hb
      rw [hb]
      exact (isDigit_ofNat (Nat.mod_lt n (by decide))).1

theorem foldl_decimal (n : Nat) :
    (decimal n).foldl (fun n d => n * 10 + (d.toNat - 48)) 0 = n := by
  induction n using decimal.induct with
  | case1 n hn =>
    rw [decimal, if_pos hn]
    simpa using (isDigit_ofNat hn).2
  | case2 n hn ih =>
    rw [decimal, if_neg hn, List.foldl_append, ih, List.foldl_cons, List.foldl_nil,
      (isDigit_ofNat (Nat.mod_lt n (by decide))).2]
    omega

theorem natOfDigits?_decimal (n : Nat) : natOfDigits? (decimal n) = some n := by
  rw [natOfDigits?, if_pos ⟨decimal_ne_nil n, List.all_eq_true.mpr (decimal_digits n)⟩,
    foldl_decimal]

theorem not_isDigit {b : UInt8} (h : isDigit b = true) : b ≠ 45 ∧ b ≠ 43 ∧ b ≠ 101 ∧ b ≠ 58 := by
  refine ⟨?_, ?_, ?_, ?_⟩
  all_goals
    rintro rfl
    revert h
    decide

theorem lengthOfText?_decimal (n : Nat) :
    lengthOfText? (decimal n) = if n < 2 ^ 64 then some n else none := by
  have hsize : UInt64.size = 2 ^ 64 := rfl
  rw [lengthOfText?, natOfDigits?_decimal, Option.filter_some, hsize]
  simp only [decide_eq_true_eq]

/-- An integer is read back from its text if it fits in 64 bits, and else nothing is read. -/
theorem intOfText?_signedDecimal (n : Int) :
    intOfText? (signedDecimal n) =
      if Int64.minValue.toInt ≤ n ∧ n ≤ Int64.maxValue.toInt then some n else none := by
  cases n with
  | ofNat n =>
    obtain ⟨b, rest, hb⟩ := List.exists_cons_of_ne_nil (decimal_ne_nil n)
    have hd := natOfDigits?_decimal n
    have hs := not_isDigit (decimal_digits n b (by simp [hb]))
    rw [hb] at hd
    simp only [signedDecimal, hb, intOfText?]
    split
    next he => exact absurd (List.cons.inj he).1 hs.1
    next he => exact absurd (List.cons.inj he).1 hs.2.1
    next => simp [hd, Option.filter_some]
  | negSucc n =>
    have hn : (natOfDigits? (decimal (n + 1))).map (fun n => -(n : Int)) = some (.negSucc n) := by
      rw [natOfDigits?_decimal]
      rfl
    simp only [signedDecimal, intOfText?, hn, Option.filter_some, decide_eq_true_eq]

end Decimal

section Tokens

theorem cut_of_notMem {stop : UInt8} {front : Bytes} (h : stop ∉ front) (back : Bytes) :
    cut stop (front ++ stop :: back) = some (front, back) := by
  induction front with
  | nil => simp [cut]
  | cons b rest ih =>
    rw [List.mem_cons, not_or] at h
    simp [cut, Ne.symm h.1, ih h.2]

def Token.Fits : Token → Prop
  | .int n => Int64.minValue.toInt ≤ n ∧ n ≤ Int64.maxValue.toInt
  | .bytes content => content.length < 2 ^ 64
  | _ => True

instance Token.decidableFits : DecidablePred Token.Fits
  | .int _ => inferInstanceAs (Decidable (_ ∧ _))
  | .bytes content => inferInstanceAs (Decidable (content.length < 2 ^ 64))
  | .enter _ => .isTrue trivial
  | .leave => .isTrue trivial

theorem signedDecimal_end (n : Int) : 101 ∉ signedDecimal n := by
  have hd : ∀ n, 101 ∉ decimal n := fun n hm => (not_isDigit (decimal_digits n _ hm)).2.2.1 rfl
  cases n with
  | ofNat n => exact hd n
  | negSucc n =>
    rw [signedDecimal, List.mem_cons, not_or]
    exact ⟨by decide, hd _⟩

theorem Token.next_int (n : Int) (rest : Bytes) :
    Token.next ((Token.int n).spell ++ rest) =
      if (Token.int n).Fits then .ok (.int n, rest)
      else .error (numberFault .invalidInteger (signedDecimal n)) := by
  have hc := cut_of_notMem (signedDecimal_end n) rest
  simp only [Token.spell, List.cons_append, List.append_assoc, List.nil_append, Token.next,
    if_true, hc, intOfText?_signedDecimal]
  split
  next he =>
    split at he
    next hn =>
      cases he
      exact (if_pos hn).symm
    next => cases he
  next he =>
    split at he
    next => cases he
    next hn => exact (if_neg hn).symm

theorem Token.next_bytes (content rest : Bytes) :
    Token.next ((Token.bytes content).spell ++ rest) =
      if (Token.bytes content).Fits then .ok (.bytes content, rest)
      else .error (numberFault .invalidLengthText (decimal content.length)) := by
  obtain ⟨b, more, hb⟩ := List.exists_cons_of_ne_nil (decimal_ne_nil content.length)
  have hdigits := decimal_digits content.length
  have hl := lengthOfText?_decimal content.length
  rw [hb] at hdigits hl
  have hbd := hdigits b List.mem_cons_self
  have hne : b ≠ 105 := by
    rintro rfl
    revert hbd
    decide
  have hc : cut 58 (more ++ 58 :: (content ++ rest)) = some (more, content ++ rest) :=
    cut_of_notMem (fun hm => (not_isDigit (hdigits _ (List.mem_cons_of_mem _ hm))).2.2.2 rfl) _
  simp only [Token.spell, hb, List.cons_append, List.append_assoc, Token.next, hne, if_false,
    hbd, if_true, hc, hl]
  by_cases hn : (Token.bytes content).Fits
  · have hlt : content.length < 2 ^ 64 := hn
    rw [if_pos hlt, if_pos hn]
    simp
  · have hlt : ¬ content.length < 2 ^ 64 := hn
    rw [if_neg hlt, if_neg hn]

theorem Token.next_spell {t : Token} (h : t.Fits) (rest : Bytes) :
    Token.next (t.spell ++ rest) = .ok (t, rest) := by
  cases t with
  | int n => rw [Token.next_int, if_pos h]
  | bytes content => rw [Token.next_bytes, if_pos h]
  | enter container => cases container <;> rfl
  | leave => rfl

theorem Token.next_unfit {t : Token} (h : ¬ t.Fits) (rest : Bytes) :
    ∃ fault, Token.next (t.spell ++ rest) = .error fault := by
  cases t with
  | int n => exact ⟨_, by rw [Token.next_int, if_neg h]⟩
  | bytes content => exact ⟨_, by rw [Token.next_bytes, if_neg h]⟩
  | enter container => exact absurd trivial h
  | leave => exact absurd trivial h

theorem Token.scan_cons {t : Token} (h : t.Fits) (rest : Bytes) :
    Token.scan (t.spell ++ rest) = (t :: (Token.scan rest).1, (Token.scan rest).2) := by
  have hn := Token.next_spell h rest
  rw [Token.scan]
  split
  next fault he =>
    rw [hn] at he
    cases he
  next u more he =>
    rw [hn] at he
    cases he
    rfl

theorem Token.scan_spell {tokens : List Token} (h : ∀ t ∈ tokens, t.Fits) (rest : Bytes) :
    Token.scan (tokens.flatMap Token.spell ++ rest) =
      (tokens ++ (Token.scan rest).1, (Token.scan rest).2) := by
  induction tokens with
  | nil => rfl
  | cons t tokens ih =>
    rw [List.flatMap_cons, List.append_assoc, Token.scan_cons (h t List.mem_cons_self),
      ih fun t ht => h t (List.mem_cons_of_mem _ ht)]
    rfl

theorem Token.scan_of_error {bytes : Bytes} {fault : Error}
    (h : Token.next bytes = .error fault) : Token.scan bytes = ([], fault) := by
  rw [Token.scan]
  split
  next other he =>
    rw [h] at he
    cases he
    rfl
  next u more he =>
    rw [h] at he
    cases he

theorem Token.scan_unfit {tokens : List Token} (h : ∃ t ∈ tokens, ¬ t.Fits) :
    ∃ front t back fault, tokens = front ++ t :: back ∧ ¬ t.Fits ∧
      Token.scan (tokens.flatMap Token.spell) = (front, fault) := by
  obtain ⟨t, ht⟩ : ∃ t, tokens.find? (fun t => ¬ t.Fits) = some t := by
    obtain ⟨t, hm, hn⟩ := h
    apply Option.isSome_iff_exists.mp
    rw [List.find?_isSome]
    exact ⟨t, hm, decide_eq_true hn⟩
  obtain ⟨hn, front, back, rfl, hfront⟩ := List.find?_eq_some_iff_append.mp ht
  rw [decide_eq_true_eq] at hn
  have hfits : ∀ u ∈ front, u.Fits := by
    intro u hu
    simpa using hfront u hu
  obtain ⟨fault, hf⟩ := Token.next_unfit hn (back.flatMap Token.spell)
  refine ⟨front, t, back, fault, rfl, hn, ?_⟩
  rw [List.flatMap_append, Token.scan_spell hfits, List.flatMap_cons, Token.scan_of_error hf,
    List.append_nil]

end Tokens

end Kademlia.Bencode
