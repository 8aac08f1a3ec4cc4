import Kademlia.Proofs.Bencode.Body

/-!
What any bytes can be read as. A scan yields only tokens that can be read back, and whatever is
gathered from them is spelled by some of them.
-/

namespace Kademlia.Bencode

section Scanned

theorem intOfText?_fits {text : Bytes} {n : Int} (h : intOfText? text = some n) :
    (Token.int n).Fits := by
  unfold intOfText? at h
  obtain ⟨-, hn⟩ := Option.filter_eq_some_iff.mp h
  exact of_decide_eq_true hn

theorem lengthOfText?_lt {text : Bytes} {n : Nat} (h : lengthOfText? text = some n) :
    n < 2 ^ 64 := by
  obtain ⟨-, hn⟩ := Option.filter_eq_some_iff.mp h
  exact of_decide_eq_true hn

theorem Token.next_fits {bytes rest : Bytes} {t : Token}
    (h : Token.next bytes = .ok (t, rest)) : t.Fits := by
  cases bytes with
  | nil => cases h
  | cons b tail =>
    simp only [Token.next] at h
    split at h
    · split at h
      · cases h
      next text back _ =>
        split at h
        next n hn =>
          cases h
          exact intOfText?_fits hn
        next => cases h
    · split at h
      · split at h
        · cases h
        next more back _ =>
          split at h
          next n hn =>
            split at h
            next hl =>
              cases h
              have := lengthOfText?_lt hn
              simp only [Token.Fits]
              omega
            next => cases h
          next => cases h
      · repeat' split at h
        all_goals cases h
        all_goals trivial

theorem Token.scan_fits (bytes : Bytes) :
    (∀ t ∈ (Token.scan bytes).1, t.Fits) ∧ (Token.scan bytes).1.length ≤ bytes.length := by
  fun_induction Token.scan bytes with
  | case1 bytes fault h => simp
  | case2 bytes t rest h hlt tokens fault hs ih =>
    rw [hs] at ih
    constructor
    · intro u hu
      rcases List.mem_cons.mp hu with rfl | hu
      · exact Token.next_fits h
      · exact ih.1 u hu
    · have := ih.2
      simp only [List.length_cons] at this ⊢
      omega

end Scanned

section Gathered

theorem tokens_length_pos (v : Value) : 0 < v.tokens.length := by
  cases v <;> simp [Value.tokens]

theorem listTokens_append (vs ws : List Value) :
    Value.listTokens (vs ++ ws) = Value.listTokens vs ++ Value.listTokens ws := by
  induction vs with
  | nil => rfl
  | cons v rest ih => simp [Value.listTokens, ih]

theorem listTokens_alternate (entries : List (Value × Value)) :
    Value.listTokens (alternate entries) = Value.entryTokens entries := by
  induction entries with
  | nil => rfl
  | cons e rest ih =>
    have ha : alternate (e :: rest) = e.1 :: e.2 :: alternate rest := rfl
    rw [ha, Value.listTokens, Value.listTokens, ih]
    rfl

theorem alternate_of_pairs? {vs : List Value} {entries : List (Value × Value)}
    (h : pairs? vs = some entries) : alternate entries = vs := by
  induction vs using pairs?.induct generalizing entries with
  | case1 =>
    cases h
    rfl
  | case2 v => cases h
  | case3 key v rest ih =>
    rw [pairs?] at h
    obtain ⟨more, hm, rfl⟩ := Option.map_eq_some_iff.mp h
    have ha : alternate ((key, v) :: more) = key :: v :: alternate more := rfl
    rw [ha, ih hm]

theorem tokens_sublist {vs : List Value} {v : Value} (h : v ∈ vs) :
    v.tokens.Sublist (Value.listTokens vs) := by
  obtain ⟨front, back, rfl⟩ := List.append_of_mem h
  rw [listTokens_append, Value.listTokens]
  exact (List.sublist_append_left _ _).trans (List.sublist_append_right _ _)

/-- The tokens that have been taken in when some values are finished and some containers open. -/
def taken (items : List Value) (frames : List Frame) : List Token :=
  Value.listTokens items.reverse ++
    frames.reverse.flatMap fun f => .enter f.container :: Value.listTokens f.items.reverse

theorem taken_push (v : Value) (items : List Value) (frames : List Frame) :
    taken (push v items frames).1 (push v items frames).2 = taken items frames ++ v.tokens := by
  cases frames with
  | nil => simp [push, taken, listTokens_append, Value.listTokens]
  | cons f outer => simp [push, taken, listTokens_append, Value.listTokens]

theorem close?_tokens {f : Frame} {v : Value} (h : f.close? = some v) :
    v.tokens = .enter f.container :: (Value.listTokens f.items.reverse ++ [.leave]) := by
  obtain ⟨container, items⟩ := f
  cases container with
  | list =>
    cases h
    rfl
  | dict =>
    obtain ⟨entries, he, rfl⟩ := Option.map_eq_some_iff.mp h
    rw [Value.tokens, ← listTokens_alternate, alternate_of_pairs? he]

theorem gather_sublist (fault : Error) (ts : List Token) (items : List Value)
    (frames : List Frame) :
    (Value.listTokens (Body.gather fault ts items frames).items).Sublist
      (taken items frames ++ ts) := by
  have hitems : ∀ items frames ts,
      (Value.listTokens (List.reverse items)).Sublist (taken items frames ++ ts) := by
    intro items frames ts
    rw [taken, List.append_assoc]
    exact List.sublist_append_left _ _
  induction ts generalizing items frames with
  | nil => exact hitems items frames []
  | cons t ts ih =>
    cases t with
    | int n =>
      have := ih (push (.int n) items frames).1 (push (.int n) items frames).2
      rwa [taken_push, List.append_assoc] at this
    | bytes content =>
      have := ih (push (.bytes content) items frames).1 (push (.bytes content) items frames).2
      rwa [taken_push, List.append_assoc] at this
    | enter container =>
      have := ih items (⟨container, []⟩ :: frames)
      simpa [Body.gather, taken, Value.listTokens] using this
    | leave =>
      cases frames with
      | nil => exact hitems items [] _
      | cons f outer =>
        rw [Body.gather]
        split
        next => exact hitems items (f :: outer) _
        next v hv =>
          have := ih (push v items outer).1 (push v items outer).2
          rw [taken_push, close?_tokens hv] at this
          simpa [taken] using this

def Value.SpelledBy (ts : List Token) (v : Value) : Prop := v.tokens.Sublist ts

/-- Whatever is read from some bytes is spelled by tokens that can be read back, of which there are
no more than bytes. -/
theorem Body.spelled_of_ofBytes {bytes : Bytes} {container : Container} {body : Body}
    (h : Body.ofBytes bytes = .ok (container, body)) :
    ∃ ts : List Token, (∀ t ∈ ts, t.Fits) ∧ ts.length ≤ bytes.length ∧
      ∀ v ∈ body.items, v.SpelledBy ts := by
  obtain ⟨hfits, hlength⟩ := Token.scan_fits bytes
  unfold Body.ofBytes at h
  split at h
  · cases h
  · cases h
  · cases h
  · cases h
  next opened ts fault hs =>
    cases h
    rw [hs] at hfits hlength
    refine ⟨ts, ?_, ?_, ?_⟩
    · intro t ht
      exact hfits t (List.mem_cons_of_mem _ ht)
    · simp only [List.length_cons] at hlength
      omega
    · intro v hv
      exact (tokens_sublist hv).trans (gather_sublist fault ts [] [])

end Gathered

end Kademlia.Bencode
