import Mathlib.Data.List.Basic

/-!
Histories, with what is latest at the end. What has started at some place in a history lasts as long
as nothing behind that place ends it.
-/

namespace Kademlia

variable {ε : Type} {starts ends : ε → Prop} {history : List ε}

/-- Something started at the place, and nothing behind it is an end. -/
structure LastsFrom (starts ends : ε → Prop) (history : List ε) (i : Nat) : Prop where
  started : ∃ e, history[i]? = some e ∧ starts e
  kept : ∀ j, i < j → ∀ e, history[j]? = some e → ¬ ends e

def Lasts (starts ends : ε → Prop) (history : List ε) : Prop :=
  ∃ i, LastsFrom starts ends history i

theorem lt_length_of_getElem? {i : Nat} {x : ε} (h : history[i]? = some x) :
    i < history.length :=
  (List.getElem?_eq_some_iff.mp h).1

theorem LastsFrom.lt_length {i : Nat} (h : LastsFrom starts ends history i) :
    i < history.length := by
  obtain ⟨e, he, -⟩ := h.started
  exact lt_length_of_getElem? he

theorem lasts_nil : ¬ Lasts starts ends [] := by
  rintro ⟨i, h⟩
  exact Nat.not_lt_zero i h.lt_length

theorem getElem?_concat_iff (e x : ε) (i : Nat) : (history ++ [e])[i]? = some x ↔
    history[i]? = some x ∨ (i = history.length ∧ e = x) := by
  rcases Nat.lt_trichotomy i history.length with hi | rfl | hi
  · rw [List.getElem?_append_left hi]
    simp [Nat.ne_of_lt hi]
  · simp
  · have hnone : history[i]? = none := List.getElem?_eq_none (Nat.le_of_lt hi)
    have hlength : (history ++ [e])[i]? = none := by
      apply List.getElem?_eq_none
      rw [List.length_append, List.length_singleton]
      omega
    simp [hnone, hlength, Nat.ne_of_gt hi]

theorem lastsFrom_concat (e : ε) (i : Nat) :
    LastsFrom starts ends (history ++ [e]) i ↔
      (i = history.length ∧ starts e) ∨ (LastsFrom starts ends history i ∧ ¬ ends e) := by
  constructor
  · rintro ⟨⟨x, hx, hs⟩, hkept⟩
    rcases (getElem?_concat_iff e x i).mp hx with hi | ⟨hi, rfl⟩
    · refine .inr ⟨⟨⟨x, hi, hs⟩, ?_⟩, ?_⟩
      · intro j hij y hy
        exact hkept j hij y ((getElem?_concat_iff e y j).mpr (.inl hy))
      · apply hkept _ (lt_length_of_getElem? hi) e
        exact (getElem?_concat_iff e e _).mpr (.inr ⟨rfl, rfl⟩)
    · exact .inl ⟨hi, hs⟩
  · rintro (⟨rfl, hs⟩ | ⟨⟨⟨x, hx, hs⟩, hkept⟩, he⟩)
    · refine ⟨⟨e, (getElem?_concat_iff e e _).mpr (.inr ⟨rfl, rfl⟩), hs⟩, ?_⟩
      intro j hij y hy
      rcases (getElem?_concat_iff e y j).mp hy with hj | ⟨hj, -⟩
      · have := lt_length_of_getElem? hj
        omega
      · omega
    · refine ⟨⟨x, (getElem?_concat_iff e x i).mpr (.inl hx), hs⟩, ?_⟩
      intro j hij y hy
      rcases (getElem?_concat_iff e y j).mp hy with hj | ⟨-, rfl⟩
      · exact hkept j hij y hj
      · exact he

theorem lasts_concat (e : ε) :
    Lasts starts ends (history ++ [e]) ↔ starts e ∨ (Lasts starts ends history ∧ ¬ ends e) := by
  simp only [Lasts, lastsFrom_concat, exists_or, exists_and_right, exists_eq, true_and]

theorem LastsFrom.latest {i j : Nat} (hi : LastsFrom starts starts history i)
    (hj : LastsFrom starts starts history j) : i = j := by
  obtain ⟨x, hx, hxs⟩ := hi.started
  obtain ⟨y, hy, hys⟩ := hj.started
  rcases Nat.lt_trichotomy i j with hlt | heq | hgt
  · exact absurd hys (hi.kept j hlt y hy)
  · exact heq
  · exact absurd hxs (hj.kept i hgt x hx)

theorem LastsFrom.take {i j k : Nat} (h : LastsFrom starts ends (history.take j) i) (hik : i < k)
    (hkj : k ≤ j) : LastsFrom starts ends (history.take k) i := by
  obtain ⟨⟨e, he, hs⟩, hkept⟩ := h
  have hlater : ∀ n, n < k → (history.take k)[n]? = (history.take j)[n]? := by
    intro n hn
    rw [List.getElem?_take_of_lt hn, List.getElem?_take_of_lt (Nat.lt_of_lt_of_le hn hkj)]
  refine ⟨⟨e, (hlater i hik).trans he, hs⟩, ?_⟩
  intro n hin x hx
  have hn : n < k := by
    have := lt_length_of_getElem? hx
    rw [List.length_take] at this
    omega
  exact hkept n hin x ((hlater n hn).symm.trans hx)

end Kademlia
