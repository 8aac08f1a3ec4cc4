import Mathlib.Data.List.Basic
import Kademlia.Bytes

/-!
Hexadecimal text against the bytes that it spells. What is read is an even number of digits of
either case, and writing it again gives the same digits in lower case.
-/

namespace Kademlia

section Digits

def IsHexDigit (c : Char) : Prop :=
  '0' ≤ c ∧ c ≤ '9' ∨ 'a' ≤ c ∧ c ≤ 'f' ∨ 'A' ≤ c ∧ c ≤ 'F'

instance (c : Char) : Decidable (IsHexDigit c) :=
  inferInstanceAs (Decidable (_ ∨ _ ∨ _))

theorem isSome_hexValue?_iff (c : Char) : (hexValue? c).isSome ↔ IsHexDigit c := by
  unfold hexValue? IsHexDigit
  split_ifs <;> simp_all

theorem exists_hexValue? {c : Char} (h : IsHexDigit c) : ∃ v, hexValue? c = some v :=
  Option.isSome_iff_exists.mp ((isSome_hexValue?_iff c).mpr h)

theorem isHexDigit_of_hexValue? {c : Char} {v : Nat} (h : hexValue? c = some v) :
    IsHexDigit c :=
  (isSome_hexValue?_iff c).mp (Option.isSome_of_eq_some h)

theorem IsHexDigit.toNat_lt {c : Char} (h : IsHexDigit c) : c.toNat < 128 := by
  have hle : ∀ d : Char, c ≤ d → c.toNat ≤ d.toNat := fun d hd => hd
  rcases h with h | h | h
  · exact Nat.lt_of_le_of_lt (hle _ h.2) (by decide)
  · exact Nat.lt_of_le_of_lt (hle _ h.2) (by decide)
  · exact Nat.lt_of_le_of_lt (hle _ h.2) (by decide)

/-- To look at all ASCII characters is to look at as many numbers. -/
@[elab_as_elim]
theorem forall_ascii {p : Char → Prop} (h : ∀ n < 128, p (Char.ofNat n)) {c : Char}
    (hc : c.toNat < 128) : p c := by
  have hp := h c.toNat hc
  rwa [Char.ofNat_toNat] at hp

theorem hexDigit_of_hexValue? {c : Char} {v : Nat} (h : hexValue? c = some v) :
    v < 16 ∧ hexDigit v = c.toLower := by
  have hc := (isHexDigit_of_hexValue? h).toNat_lt
  have hall : ∀ v ∈ hexValue? c, v < 16 ∧ hexDigit v = c.toLower := by
    refine forall_ascii ?_ hc
    decide +kernel
  exact hall v h

theorem hexValue?_hexDigit {v : Nat} (h : v < 16) : hexValue? (hexDigit v) = some v := by
  have hall : ∀ v < 16, hexValue? (hexDigit v) = some v := by decide
  exact hall v h

end Digits

section Pairs

theorem unhex?_cons_cons {high low : Char} {h l : Nat} (hh : hexValue? high = some h)
    (hl : hexValue? low = some l) (rest : List Char) :
    unhex? (high :: low :: rest) = (unhex? rest).map (UInt8.ofNat (16 * h + l) :: ·) := by
  rw [unhex?, hh, hl]
  cases unhex? rest <;> rfl

theorem unhex?_cons_eq_some {high low : Char} {rest : List Char} {bytes : Bytes}
    (hread : unhex? (high :: low :: rest) = some bytes) :
    ∃ h l more, hexValue? high = some h ∧ hexValue? low = some l ∧ unhex? rest = some more ∧
      bytes = UInt8.ofNat (16 * h + l) :: more := by
  obtain ⟨h, hh, hread⟩ := Option.bind_eq_some_iff.mp hread
  obtain ⟨l, hl, hread⟩ := Option.bind_eq_some_iff.mp hread
  obtain ⟨more, hmore, hread⟩ := Option.bind_eq_some_iff.mp hread
  exact ⟨h, l, more, hh, hl, hmore, (Option.some.inj hread).symm⟩

theorem unhex?_hexChars (bytes : Bytes) : unhex? (hexChars bytes) = some bytes := by
  induction bytes with
  | nil => rfl
  | cons byte rest ih =>
    have hbyte := byte.toNat_lt
    have hhigh := hexValue?_hexDigit (v := byte.toNat / 16) (by omega)
    have hlow := hexValue?_hexDigit (v := byte.toNat % 16) (by omega)
    rw [hexChars] at ih
    rw [hexChars, List.flatMap_cons, List.cons_append, List.cons_append, List.nil_append,
      unhex?_cons_cons hhigh hlow, ih, Nat.div_add_mod, UInt8.ofNat_toNat]
    rfl

theorem exists_unhex? {n : Nat} {cs : List Char} (hlength : cs.length = 2 * n)
    (hdigits : ∀ c ∈ cs, IsHexDigit c) : ∃ bytes, unhex? cs = some bytes := by
  induction n generalizing cs with
  | zero =>
    cases List.eq_nil_of_length_eq_zero hlength
    exact ⟨[], rfl⟩
  | succ n ih =>
    match cs with
    | high :: low :: rest =>
      simp only [List.forall_mem_cons] at hdigits
      obtain ⟨hhigh, hlow, hrest⟩ := hdigits
      obtain ⟨h, hh⟩ := exists_hexValue? hhigh
      obtain ⟨l, hl⟩ := exists_hexValue? hlow
      obtain ⟨bytes, hbytes⟩ := ih (by simp at hlength; omega) hrest
      exact ⟨_, by rw [unhex?_cons_cons hh hl, hbytes]; rfl⟩
    | [_] => simp at hlength; omega
    | [] => simp at hlength

/-- Nothing but pairs of digits is read, and they are written again in lower case. -/
theorem hexChars_of_unhex? {cs : List Char} {bytes : Bytes} (hread : unhex? cs = some bytes) :
    cs.length = 2 * bytes.length ∧ (∀ c ∈ cs, IsHexDigit c) ∧
      hexChars bytes = cs.map Char.toLower := by
  fun_induction unhex? cs generalizing bytes with
  | case1 =>
    cases hread
    exact ⟨rfl, by simp, rfl⟩
  | case2 => cases hread
  | case3 high low rest ih =>
    obtain ⟨h, l, more, hh, hl, hmore, rfl⟩ := unhex?_cons_eq_some hread
    obtain ⟨hlength, hdigits, hwritten⟩ := ih hmore
    obtain ⟨hh16, hhigh⟩ := hexDigit_of_hexValue? hh
    obtain ⟨hl16, hlow⟩ := hexDigit_of_hexValue? hl
    refine ⟨?_, ?_, ?_⟩
    · rw [List.length_cons, List.length_cons, List.length_cons, hlength]
      omega
    · simp only [List.forall_mem_cons]
      exact ⟨isHexDigit_of_hexValue? hh, isHexDigit_of_hexValue? hl, hdigits⟩
    · have hvalue : (UInt8.ofNat (16 * h + l)).toNat = 16 * h + l := by
        rw [UInt8.toNat_ofNat']
        omega
      have hfront : (16 * h + l) / 16 = h := by omega
      have hback : (16 * h + l) % 16 = l := by omega
      rw [hexChars] at hwritten
      rw [hexChars, List.flatMap_cons, hvalue, hfront, hback, hhigh, hlow, hwritten]
      rfl

end Pairs

end Kademlia
