import Kademlia.Proofs.Bencode.Reading

/-!
Bytes that cannot be read to their end. When the spelling of a value is cut off anywhere, or a token
in it cannot be read back, the tokens in front of that place are read, and then a fault is met. Main
statement: of a dictionary the values in front of the fault are read, and it does not close.
-/

namespace Kademlia.Bencode

section Tokens

theorem prefix_of_concat {α : Type} {xs front back : List α} {x : α}
    (h : xs ++ [x] = front ++ back) (hb : back ≠ []) : front <+: xs := by
  rcases List.prefix_concat_iff.mp ⟨back, h.symm⟩ with hall | hfront
  · have := congrArg List.length h
    rw [← hall, List.length_append] at this
    have := List.length_pos_of_ne_nil hb
    omega
  · exact hfront

theorem cut_behind_or_within {α : Type} {xs ys front back : List α}
    (h : xs ++ ys = front ++ back) :
    (∃ more, front = xs ++ more ∧ ys = more ++ back) ∨ ∃ left, left ≠ [] ∧ xs = front ++ left := by
  rcases List.append_eq_append_iff.mp h with ⟨more, hf, hy⟩ | ⟨left, hx, hb⟩
  · exact .inl ⟨more, hf, hy⟩
  · by_cases hl : left = []
    · subst hl
      exact .inl ⟨[], by rw [hx, List.append_nil, List.append_nil], hb.symm⟩
    · exact .inr ⟨left, hl, hx⟩

theorem cut_eq_none {stop : UInt8} {bytes : Bytes} (h : stop ∉ bytes) : cut stop bytes = none := by
  induction bytes with
  | nil => rfl
  | cons b rest ih =>
    rw [List.mem_cons, not_or] at h
    simp [cut, Ne.symm h.1, ih h.2]

theorem Token.next_int_cut {n : Int} {front back : Bytes} (h : (Token.int n).spell = front ++ back)
    (hb : back ≠ []) : Token.next front = .error .endOfStream := by
  cases front with
  | nil => rfl
  | cons b more =>
    obtain ⟨rfl, hmore⟩ := List.cons.inj h
    obtain ⟨rest, hrest⟩ := prefix_of_concat hmore hb
    have hend : 101 ∉ more := fun hm =>
      signedDecimal_end n (hrest ▸ List.mem_append_left rest hm)
    simp [Token.next, cut_eq_none hend]

/-- The end is met within the length, or among the bytes, which are fewer than the length says. -/
theorem Token.next_bytes_cut {content front back : Bytes} (hf : (Token.bytes content).Fits)
    (h : (Token.bytes content).spell = front ++ back) (hb : back ≠ []) :
    Token.next front = .error .endOfStream := by
  cases front with
  | nil => rfl
  | cons b more =>
    obtain ⟨d, digits, hd⟩ := List.exists_cons_of_ne_nil (decimal_ne_nil content.length)
    have hdigits := decimal_digits content.length
    have hlength := lengthOfText?_decimal content.length
    have hlt : content.length < 2 ^ 64 := hf
    rw [hd] at hdigits hlength
    rw [if_pos hlt] at hlength
    rw [Token.spell, hd, List.cons_append] at h
    obtain ⟨rfl, hmore⟩ := List.cons.inj h
    have hdigit := hdigits d List.mem_cons_self
    have hne : d ≠ 105 := by
      rintro rfl
      revert hdigit
      decide
    have hcolon : 58 ∉ digits := fun hm =>
      (not_isDigit (hdigits _ (List.mem_cons_of_mem _ hm))).2.2.2 rfl
    simp only [Token.next, hne, if_false, hdigit, if_true]
    rcases List.append_eq_append_iff.mp hmore with ⟨taken, rfl, htaken⟩ | ⟨left, rfl, -⟩
    · cases taken with
      | nil => rw [List.append_nil, cut_eq_none hcolon]
      | cons colon taken =>
        obtain ⟨rfl, hsplit⟩ := List.cons.inj htaken
        have hcontent : content = taken ++ back := hsplit
        have hless : taken.length < content.length := by
          have := List.length_pos_of_ne_nil hb
          rw [hcontent, List.length_append]
          omega
        have hshort : ¬min content.length taken.length = content.length := by omega
        simp [cut_of_notMem hcolon, hlength, hshort]
    · rw [cut_eq_none fun hm => hcolon (List.mem_append_left left hm)]

theorem Token.next_cut {t : Token} (hf : t.Fits) {front back : Bytes}
    (h : t.spell = front ++ back) (hb : back ≠ []) : Token.next front = .error .endOfStream := by
  have hsingle : ∀ b : UInt8, [b] = front ++ back → Token.next front = .error .endOfStream := by
    intro b hs
    have hprefix : front <+: [] := prefix_of_concat hs hb
    rw [List.prefix_nil.mp hprefix]
    rfl
  cases t with
  | int n => exact Token.next_int_cut h hb
  | bytes content => exact Token.next_bytes_cut hf h hb
  | enter container => cases container <;> exact hsingle _ h
  | leave => exact hsingle _ h

/-- A scan of spelled tokens that are cut off yields those in front of the cut, and the end. -/
theorem Token.scan_cut {tokens : List Token} (hf : ∀ t ∈ tokens, t.Fits) {front back : Bytes}
    (h : tokens.flatMap Token.spell = front ++ back) (hb : back ≠ []) :
    ∃ read left, tokens = read ++ left ∧ left ≠ [] ∧ Token.scan front = (read, .endOfStream) := by
  induction tokens generalizing front with
  | nil => exact absurd (List.append_eq_nil_iff.mp h.symm).2 hb
  | cons t tokens ih =>
    have ht := hf t List.mem_cons_self
    rw [List.flatMap_cons] at h
    rcases cut_behind_or_within h with ⟨more, rfl, hmore⟩ | ⟨left, hleft, hin⟩
    · obtain ⟨read, left, rfl, hleft, hscan⟩ :=
        ih (fun u hu => hf u (List.mem_cons_of_mem t hu)) hmore
      refine ⟨t :: read, left, rfl, hleft, ?_⟩
      rw [Token.scan_cons ht, hscan]
    · exact ⟨[], t :: tokens, rfl, by simp, Token.scan_of_error (Token.next_cut ht hin hleft)⟩

end Tokens

section Values

def Value.container? : Value → Option Container
  | .int _ => none
  | .bytes _ => none
  | .list _ => some .list
  | .dict _ => some .dict

/-- Of a value that is cut off nothing is taken in, or a front of what stands in the container. -/
theorem tokens_cut {v : Value} {ts rest : List Token} (h : v.tokens = ts ++ rest)
    (hr : rest ≠ []) : ts = [] ∨ ∃ container inner vs tail, v.container? = some container ∧
      ts = .enter container :: inner ∧ Value.listTokens vs = inner ++ tail := by
  cases ts with
  | nil => exact .inl rfl
  | cons t inner =>
    have hscalar : ∀ u : Token, [u] ≠ t :: inner ++ rest := by
      intro u hu
      exact hr (List.append_eq_nil_iff.mp (List.cons.inj hu).2.symm).2
    cases v with
    | int n => exact absurd h (hscalar (.int n))
    | bytes content => exact absurd h (hscalar (.bytes content))
    | list vs =>
      obtain ⟨rfl, hinner⟩ := List.cons.inj h
      obtain ⟨tail, htail⟩ := prefix_of_concat hinner hr
      exact .inr ⟨.list, inner, vs, tail, rfl, rfl, htail.symm⟩
    | dict entries =>
      obtain ⟨rfl, hinner⟩ := List.cons.inj h
      obtain ⟨tail, htail⟩ := prefix_of_concat hinner hr
      refine .inr ⟨.dict, inner, alternate entries, tail, rfl, rfl, ?_⟩
      rw [listTokens_alternate, htail]

theorem push_within (v : Value) (items : List Value) {frames : List Frame} (h : frames ≠ []) :
    (push v items frames).1 = items ∧ (push v items frames).2 ≠ [] ∧
      outermost? (push v items frames).2 = outermost? frames := by
  obtain ⟨f, outer, rfl⟩ := List.exists_cons_of_ne_nil h
  refine ⟨rfl, List.cons_ne_nil _ _, ?_⟩
  cases outer with
  | nil => rfl
  | cons g outer => simp [push, outermost?, List.getLast?_cons_cons]

theorem outermost?_cons (f : Frame) {frames : List Frame} (h : frames ≠ []) :
    outermost? (f :: frames) = outermost? frames := by
  obtain ⟨g, outer, rfl⟩ := List.exists_cons_of_ne_nil h
  rw [outermost?, outermost?, List.getLast?_cons_cons]

theorem gather_within (fault : Error) {vs : List Value} {ts rest : List Token}
    (h : Value.listTokens vs = ts ++ rest) (items : List Value) {frames : List Frame}
    (hf : frames ≠ []) :
    Body.gather fault ts items frames = ⟨items.reverse, .stopped (outermost? frames) fault⟩ := by
  -- A cut value hands over to the values in its container, so the induction is on the tokens.
  induction hn : ts.length using Nat.strongRecOn generalizing vs ts rest frames with
  | ind n ih =>
    subst hn
    cases vs with
    | nil =>
      obtain ⟨rfl, -⟩ := List.append_eq_nil_iff.mp h.symm
      rfl
    | cons v vs =>
      rw [Value.listTokens] at h
      rcases cut_behind_or_within h with ⟨more, rfl, hmore⟩ | ⟨left, hleft, hin⟩
      · obtain ⟨hitems, hopen, houter⟩ := push_within v items hf
        have hless : more.length < (v.tokens ++ more).length := by
          have := tokens_length_pos v
          rw [List.length_append]
          omega
        rw [gather_tokens, hitems, ih more.length hless hmore hopen rfl, houter]
      · rcases tokens_cut hin hleft with rfl | ⟨container, inner, ws, tail, -, rfl, hinner⟩
        · rfl
        · rw [Body.gather, ih inner.length (Nat.lt_succ_self _) hinner (List.cons_ne_nil _ _) rfl,
            outermost?_cons _ hf]

/-- Of the values `vs` those in `read` are finished when a fault is met. The next one is not begun,
or it is a container that is entered. -/
inductive Stops (fault : Error) : List Value → List Value → Ending → Prop where
  | between (vs : List Value) : Stops fault vs [] (.stopped none fault)
  | inside {v : Value} {container : Container} (h : v.container? = some container)
      (vs : List Value) : Stops fault (v :: vs) [] (.stopped (some container) fault)
  | next {vs read : List Value} {ending : Ending} (v : Value) (h : Stops fault vs read ending) :
      Stops fault (v :: vs) (v :: read) ending

theorem gather_stops (fault : Error) {vs : List Value} {ts rest : List Token}
    (h : Value.listTokens vs = ts ++ rest) (items : List Value) :
    ∃ read ending, Stops fault vs read ending ∧
      Body.gather fault ts items [] = ⟨items.reverse ++ read, ending⟩ := by
  have hnothing : ∀ items, Body.gather fault [] items [] =
      ⟨items.reverse ++ [], .stopped none fault⟩ := by
    intro items
    rw [List.append_nil]
    rfl
  induction vs generalizing ts items with
  | nil =>
    obtain ⟨rfl, -⟩ := List.append_eq_nil_iff.mp h.symm
    exact ⟨[], _, .between [], hnothing items⟩
  | cons v vs ih =>
    rw [Value.listTokens] at h
    rcases cut_behind_or_within h with ⟨more, rfl, hmore⟩ | ⟨left, hleft, hin⟩
    · obtain ⟨read, ending, hstops, hread⟩ := ih hmore (v :: items)
      refine ⟨v :: read, ending, .next v hstops, ?_⟩
      rw [gather_tokens]
      simpa [push] using hread
    · rcases tokens_cut hin hleft with rfl | ⟨container, inner, ws, tail, hv, rfl, hinner⟩
      · exact ⟨[], _, .between _, hnothing items⟩
      · refine ⟨[], _, .inside hv vs, ?_⟩
        rw [Body.gather, gather_within fault hinner items (List.cons_ne_nil _ _), List.append_nil]
        rfl

theorem Stops.not_closed {fault : Error} {vs read : List Value} {ending : Ending}
    (h : Stops fault vs read ending) : ending ≠ .closed := by
  induction h with
  | between vs => simp
  | inside h vs => simp
  | next v h ih => exact ih

theorem Body.ofBytes_stops {entries : List (Value × Value)} {bytes : Bytes} {ts rest : List Token}
    {fault : Error} (hs : Token.scan bytes = (.enter .dict :: ts, fault))
    (h : Value.entryTokens entries ++ [.leave] = ts ++ rest) (hr : rest ≠ []) :
    ∃ read ending, Stops fault (alternate entries) read ending ∧
      Body.ofBytes bytes = .ok (.dict, ⟨read, ending⟩) := by
  obtain ⟨tail, htail⟩ := prefix_of_concat h hr
  rw [← listTokens_alternate] at htail
  obtain ⟨read, ending, hstops, hread⟩ := gather_stops fault htail.symm []
  refine ⟨read, ending, hstops, ?_⟩
  rw [Body.ofBytes, hs]
  simpa using hread

/-- A dictionary that is cut off is not begun, or it stops at the end of the bytes. -/
theorem Body.ofBytes_cut {entries : List (Value × Value)} (hf : (Value.dict entries).Fits)
    {front back : Bytes} (h : (Value.dict entries).spell = front ++ back) (hb : back ≠ []) :
    Body.ofBytes front = .error .endOfStream ∨
      ∃ read ending, Stops .endOfStream (alternate entries) read ending ∧
        Body.ofBytes front = .ok (.dict, ⟨read, ending⟩) := by
  obtain ⟨ts, left, htokens, hleft, hscan⟩ := Token.scan_cut hf h hb
  cases ts with
  | nil => exact .inl (by rw [Body.ofBytes, hscan])
  | cons t ts =>
    obtain ⟨rfl, hinner⟩ := List.cons.inj htokens
    exact .inr (Body.ofBytes_stops hscan hinner hleft)

/-- When a dictionary cannot be read back as a whole, it is read as one that does not close. -/
theorem Body.ofBytes_unfit {entries : List (Value × Value)} (h : ¬ (Value.dict entries).Fits) :
    ∃ body : Body, body.ending ≠ .closed ∧
      Body.ofBytes (Value.dict entries).spell = .ok (.dict, body) := by
  have hbad : ∃ t ∈ (Value.dict entries).tokens, ¬ t.Fits := by
    simpa [Value.Fits] using h
  obtain ⟨front, t, back, fault, he, ht, hs⟩ := Token.scan_unfit hbad
  cases front with
  | nil =>
    cases he
    exact absurd trivial ht
  | cons u ts =>
    obtain ⟨rfl, hinner⟩ := List.cons.inj he
    obtain ⟨read, ending, hstops, hread⟩ := Body.ofBytes_stops hs hinner (List.cons_ne_nil _ _)
    exact ⟨⟨read, ending⟩, hstops.not_closed, hread⟩

end Values

end Kademlia.Bencode
