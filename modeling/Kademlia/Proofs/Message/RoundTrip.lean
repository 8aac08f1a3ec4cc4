import Kademlia.Proofs.Bencode.Source
import Kademlia.Proofs.Bencode.Truncation
import Kademlia.Proofs.Message.Wire

/-!
What can come over the wire. Main statement: a message is read back from its bytes exactly if its
context fits in a signed number of 64 bits, and whatever message is read from any bytes at all has
such a context, so it can be sent on and is then read as the same message.
-/

namespace Kademlia

open Bencode

section Layers

theorem mem_cons_cons {entries : List (Value × Value)} {items : List Value} {key v : Value}
    (h : ∀ e ∈ entries, e.2 ∈ items) : ∀ e ∈ (key, v) :: entries, e.2 ∈ key :: v :: items := by
  intro e he
  rcases List.mem_cons.mp he with rfl | he
  · simp
  · exact List.mem_cons_of_mem _ (List.mem_cons_of_mem _ (h e he))

namespace Envelope

/-- Only a dictionary that closes is opened, and what is left in it are values that stand there. -/
theorem openDict_ok {ending : Ending} {found : Option MessageClass} {items : List Value}
    {c : MessageClass} {entries : List (Value × Value)}
    (h : openDict ending found items = .ok (c, entries)) :
    ending = .closed ∧ ∀ e ∈ entries, e.2 ∈ items := by
  fun_induction openDict ending found items generalizing entries with
  | case1 found hc =>
    cases h
    exact ⟨hc, nofun⟩
  | case9 found v items hf ih =>
    obtain ⟨named, -, h⟩ := bind_eq_ok h
    obtain ⟨hc, hm⟩ := ih named h
    refine ⟨hc, ?_⟩
    intro e he
    exact List.mem_cons_of_mem _ (List.mem_cons_of_mem _ (hm e he))
  | case10 found name v items hn ih =>
    obtain ⟨⟨named, rest⟩, hr, h⟩ := bind_eq_ok h
    cases h
    obtain ⟨hc, hm⟩ := ih hr
    exact ⟨hc, mem_cons_cons hm⟩
  | case11 found key v items hn ih =>
    obtain ⟨⟨named, rest⟩, hr, h⟩ := bind_eq_ok h
    cases h
    obtain ⟨hc, hm⟩ := ih hr
    exact ⟨hc, mem_cons_cons hm⟩
  | _ => cases h

theorem openList_ok {ending : Ending} {items rest : List Value} {c : MessageClass}
    (h : openList ending items = .ok (c, rest)) : ∀ v ∈ rest, v ∈ items := by
  cases items with
  | nil => cases ending <;> cases h
  | cons v items =>
    obtain ⟨named, -, h⟩ := bind_eq_ok h
    split at h
    · cases h
      intro w hw
      exact List.mem_cons_of_mem _ hw
    · cases h

/-- What is found in some bytes besides the class is spelled by tokens that can be read back. -/
theorem ofBytes_holds {bytes : Bytes} {c : MessageClass} {v : Value}
    (h : ofBytes bytes = .ok (c, v)) :
    ∃ ts : List Token, (∀ t ∈ ts, t.Fits) ∧ ts.length ≤ bytes.length ∧
      Holds (Value.SpelledBy ts) v := by
  obtain ⟨⟨container, body⟩, hb, h⟩ := bind_eq_ok h
  obtain ⟨ts, hfits, hlength, hitems⟩ := Body.spelled_of_ofBytes hb
  refine ⟨ts, hfits, hlength, ?_⟩
  cases container with
  | dict =>
    obtain ⟨⟨named, entries⟩, ho, h⟩ := bind_eq_ok h
    cases h
    intro e he
    exact hitems e.2 ((openDict_ok ho).2 e he)
  | list =>
    obtain ⟨⟨named, items⟩, ho, h⟩ := bind_eq_ok h
    cases h
    intro w hw
    exact hitems w (openList_ok ho w hw)

theorem ofBytes_unfit {entries : List (Value × Value)} (h : ¬ (Value.dict entries).Fits) :
    ∃ fault, ofBytes (Value.dict entries).spell = .error fault := by
  obtain ⟨body, hending, hb⟩ := Body.ofBytes_unfit h
  cases ho : openDict body.ending none body.items with
  | error fault => exact ⟨fault, by simp [ofBytes, hb, ho, bind, Except.bind]⟩
  | ok r => exact absurd (openDict_ok ho).1 hending

end Envelope

namespace Vocabulary

variable {Kind : Type} {voc : Vocabulary Kind} {P : Value → Prop}

theorem openDict_ok {found : Option Kind} {entries rest : List (Value × Value)} {k : Kind}
    (h : voc.openDict found entries = .ok (k, rest)) : ∀ e ∈ rest, e ∈ entries := by
  fun_induction openDict voc found entries generalizing rest with
  | case1 k =>
    cases h
    exact nofun
  | case4 found v entries hf ih =>
    obtain ⟨named, -, h⟩ := bind_eq_ok h
    intro e he
    exact List.mem_cons_of_mem _ (ih named h e he)
  | case5 found name v entries hn ih =>
    obtain ⟨⟨named, more⟩, hr, h⟩ := bind_eq_ok h
    cases h
    exact List.cons_subset_cons _ (ih hr)
  | case6 found entry entries hn ih =>
    obtain ⟨⟨named, more⟩, hr, h⟩ := bind_eq_ok h
    cases h
    exact List.cons_subset_cons _ (ih hr)
  | _ => cases h

theorem openValue_holds {v rest : Value} {k : Kind} (h : Holds P v)
    (ho : voc.openValue v = .ok (k, rest)) : Holds P rest := by
  cases v with
  | int n => cases ho
  | bytes content => cases ho
  | dict entries =>
    obtain ⟨⟨named, more⟩, hr, ho⟩ := bind_eq_ok ho
    cases ho
    intro e he
    exact h e (openDict_ok hr e he)
  | list items =>
    cases items with
    | nil => cases ho
    | cons v items =>
      obtain ⟨named, -, ho⟩ := bind_eq_ok ho
      cases ho
      intro w hw
      exact h w (List.mem_cons_of_mem _ hw)

theorem read_from {v : Value} {k : Kind} {record : (voc.arguments k).Record}
    (hP : ∀ w, P w → Holds P w) (h : Holds P v) (hr : voc.read v = .ok ⟨k, record⟩) :
    Record.From P (voc.arguments k).fields record := by
  obtain ⟨⟨named, rest⟩, ho, hr⟩ := bind_eq_ok hr
  obtain ⟨⟨arguments, _⟩, hl, hr⟩ := bind_eq_ok hr
  cases hr
  obtain ⟨⟨w, hw, hread⟩, -⟩ := Form.read_from (openValue_holds h ho) hl
  exact Form.read_from (hP w hw) hread

end Vocabulary

end Layers

section Values

variable {ts : List Token}

theorem SpelledBy.holds (v : Value) (h : v.SpelledBy ts) : Holds (Value.SpelledBy ts) v := by
  cases v with
  | int n => trivial
  | bytes content => trivial
  | list items =>
    intro v hv
    have hin : (Value.listTokens items).Sublist (Value.list items).tokens := by
      rw [Value.tokens]
      exact (List.sublist_append_left _ _).cons _
    exact ((tokens_sublist hv).trans hin).trans h
  | dict entries =>
    intro e he
    have hmem : e.2 ∈ alternate entries := List.mem_flatMap.mpr ⟨e, he, by simp⟩
    have hin : (Value.listTokens (alternate entries)).Sublist (Value.dict entries).tokens := by
      rw [Value.tokens, listTokens_alternate]
      exact (List.sublist_append_left _ _).cons _
    exact ((tokens_sublist hmem).trans hin).trans h

theorem context_lt (hfits : ∀ t ∈ ts, t.Fits) {c : UInt64}
    (h : Codec.unsigned64.From (Value.SpelledBy ts) c) : c.toNat < 2 ^ 63 := by
  obtain ⟨v, hv, hr⟩ := h
  obtain ⟨n, hn, rfl⟩ := map_eq_ok hr
  cases v with
  | int m =>
    have hm : (Token.int m).Fits := hfits _ (hv.subset (by simp [Value.tokens]))
    rw [readUnsigned] at hn
    split at hn
    next hrange =>
      cases hn
      rw [← Int.toNat_of_nonneg hrange.1, Token.fits_natural] at hm
      exact Nat.lt_of_le_of_lt (Nat.mod_le _ _) hm
    next => cases hn
  | bytes content => cases hn
  | list items => cases hn
  | dict entries => cases hn

theorem length_le_listTokens (items : List Value) :
    items.length ≤ (Value.listTokens items).length := by
  induction items with
  | nil => exact Nat.le_refl 0
  | cons v rest ih =>
    have hv := tokens_length_pos v
    rw [Value.listTokens, List.length_append, List.length_cons]
    omega

theorem blob_lt (hfits : ∀ t ∈ ts, t.Fits) (hlength : ts.length < 2 ^ 64) {b : Bytes}
    (h : Codec.bytes.From (Value.SpelledBy ts) b) : b.length < 2 ^ 64 := by
  obtain ⟨v, hv, hr⟩ := h
  cases v with
  | int m => cases hr
  | bytes content =>
    cases hr
    exact hfits (.bytes b) (hv.subset (by simp [Value.tokens]))
  | list items =>
    have hb : b.length = items.length := length_of_mapM hr
    have hitems := length_le_listTokens items
    have hle := hv.length_le
    rw [Value.tokens, List.length_cons, List.length_append] at hle
    omega
  | dict entries => cases hr

end Values

section Messages

variable {P : Value → Prop}

structure Message.From (P : Value → Prop) (m : Message) : Prop where
  context : ∀ c, m.context? = some c → Codec.unsigned64.From P c
  blobs : ∀ b ∈ m.blobs, Codec.bytes.From P b

theorem Request.from_record {k : RequestKind} {record : (RequestKind.arguments k).Record}
    {r : Request} (h : Record.From P (RequestKind.arguments k).fields record)
    (hr : ofRecord k record = .ok r) : (Message.request r).From P := by
  cases k with
  | findNode =>
    obtain ⟨table, -, hr⟩ := bind_eq_ok hr
    cases hr
    refine ⟨?_, nofun⟩
    rintro c ⟨⟩
    exact h.1
  | findValue =>
    cases hr
    refine ⟨?_, nofun⟩
    rintro c ⟨⟩
    exact h.1
  | findMembers of =>
    cases hr
    refine ⟨?_, nofun⟩
    rintro c ⟨⟩
    exact h.1
  | store =>
    cases hr
    refine ⟨nofun, ?_⟩
    rintro b (_ | ⟨_, ⟨⟩⟩)
    exact h.2.1
  | join of =>
    cases hr
    exact ⟨nofun, nofun⟩

theorem Response.from_record {k : ResponseKind} {record : (ResponseKind.arguments k).Record}
    {r : Response} (h : Record.From P (ResponseKind.arguments k).fields record)
    (hr : ofRecord k record = .ok r) : (Message.response r).From P := by
  cases k with
  | findNode =>
    obtain ⟨peers, -, hr⟩ := bind_eq_ok hr
    cases hr
    refine ⟨?_, nofun⟩
    rintro c ⟨⟩
    exact h.1
  | findValue =>
    obtain ⟨peers, -, hr⟩ := bind_eq_ok hr
    cases hr
    refine ⟨?_, ?_⟩
    · rintro c ⟨⟩
      exact h.1
    · intro b hb
      exact h.2.2.1 b (Option.mem_toList.mp hb)
  | findMembers of =>
    obtain ⟨peers, -, hr⟩ := bind_eq_ok hr
    obtain ⟨members, -, hr⟩ := bind_eq_ok hr
    cases hr
    refine ⟨?_, nofun⟩
    rintro c ⟨⟩
    exact h.1

theorem Notice.from_record {k : NoticeKind} {record : (NoticeKind.arguments k).Record}
    {n : Notice} (h : Record.From P (NoticeKind.arguments k).fields record)
    (hr : ofRecord k record = .ok n) : (Message.notice n).From P := by
  cases k with
  | offer =>
    cases hr
    exact ⟨nofun, nofun⟩
  | want =>
    cases hr
    exact ⟨nofun, nofun⟩
  | carry =>
    obtain ⟨origin, -, hr⟩ := bind_eq_ok hr
    cases hr
    refine ⟨nofun, ?_⟩
    rintro b (_ | ⟨_, ⟨⟩⟩)
    exact h.2.2.2.2.1

namespace Message

/-- A message that is read from some bytes is made of tokens that can be read back. -/
theorem ofBytes_from {bytes : Bytes} {m : Message} (h : ofBytes bytes = .ok m) :
    ∃ ts : List Token, (∀ t ∈ ts, t.Fits) ∧ ts.length ≤ bytes.length ∧
      m.From (Value.SpelledBy ts) := by
  cases readFrom_of_ofBytes h with
  | request hv hread hr =>
    obtain ⟨ts, hfits, hlength, hv⟩ := Envelope.ofBytes_holds hv
    exact ⟨ts, hfits, hlength,
      Request.from_record (Vocabulary.read_from SpelledBy.holds hv hread) hr⟩
  | response hv hread hr =>
    obtain ⟨ts, hfits, hlength, hv⟩ := Envelope.ofBytes_holds hv
    exact ⟨ts, hfits, hlength,
      Response.from_record (Vocabulary.read_from SpelledBy.holds hv hread) hr⟩
  | notice hv hread hr =>
    obtain ⟨ts, hfits, hlength, hv⟩ := Envelope.ofBytes_holds hv
    exact ⟨ts, hfits, hlength,
      Notice.from_record (Vocabulary.read_from SpelledBy.holds hv hread) hr⟩

end Message

end Messages

section Refused

theorem tokens_subset_ofEntries {entries : List (Bytes × Value)} {e : Bytes × Value}
    (h : e ∈ entries) : e.2.tokens ⊆ (Value.ofEntries entries).tokens := by
  have hs : e ∈ sorted entries := (sorted_perm entries).mem_iff.mpr h
  have hmem : e.2 ∈ alternate (keyed (sorted entries)) :=
    List.mem_flatMap.mpr ⟨(.bytes e.1, e.2), List.mem_map_of_mem hs, by simp⟩
  rw [ofEntries_eq, Value.tokens, ← listTokens_alternate]
  intro t ht
  exact List.mem_cons_of_mem _ (List.mem_append_left _ ((tokens_sublist hmem).subset ht))

theorem Vocabulary.tokens_subset_write {Kind : Type} {voc : Vocabulary Kind} {k : Kind}
    {record : (voc.arguments k).Record} {e : Bytes × Value}
    (h : e ∈ Bencode.Record.entries (voc.arguments k).fields record) :
    e.2.tokens ⊆ (voc.write k record).tokens := by
  have harguments : (asciiBytes voc.argumentsName, (voc.arguments k).write record) ∈
      (MessageClass.key, Value.bytes (asciiBytes voc.messageClass.tag)) ::
        (key, .bytes (asciiBytes (voc.name k))) ::
        Bencode.Record.entries (voc.layer k).fields (record, ()) := by
    apply List.mem_cons_of_mem
    apply List.mem_cons_of_mem
    exact List.mem_cons_self
  exact List.Subset.trans (tokens_subset_ofEntries h) (tokens_subset_ofEntries harguments)

namespace Message

theorem context_mem_tokens {m : Message} {c : UInt64} (h : m.context? = some c) :
    Token.int c.toNat ∈ m.toValue.tokens := by
  have hself : Token.int c.toNat ∈ (Codec.unsigned64.write c).tokens := List.mem_singleton_self _
  cases m with
  | request r =>
    cases r <;> cases h
    all_goals exact Vocabulary.tokens_subset_write List.mem_cons_self hself
  | response r =>
    cases r <;> cases h
    all_goals exact Vocabulary.tokens_subset_write List.mem_cons_self hself
  | notice n => cases h

theorem not_fits_of_context {m : Message} {c : UInt64} (h : m.context? = some c)
    (hc : 2 ^ 63 ≤ c.toNat) : ¬ m.toValue.Fits := by
  intro hf
  have ht : (Token.int c.toNat).Fits := hf _ (context_mem_tokens h)
  exact Nat.not_lt_of_le hc (Token.fits_natural.mp ht)

theorem ofBytes_unfit {m : Message} (h : ¬ m.toValue.Fits) :
    ∃ fault, ofBytes m.toBytes = .error (.unreadable fault) := by
  obtain ⟨entries, he⟩ : ∃ entries, m.toValue = .dict entries := by
    cases m <;> exact ⟨_, rfl⟩
  rw [he] at h
  obtain ⟨fault, hf⟩ := Envelope.ofBytes_unfit h
  refine ⟨fault, ?_⟩
  simp [ofBytes, toBytes, he, hf, unreadable, Except.mapError, bind, Except.bind]

/-- A message is read back from its bytes exactly if its context, if it has one, is below `2 ^ 63`,
and else nothing is read from them. Any message that is read from any bytes has such a context, and
is read again from the bytes that it is written as. The lengths are those of byte strings that fit
in memory. -/
theorem reads_back_iff_context_fits :
    (∀ m : Message, (∀ b ∈ m.blobs, b.length < 2 ^ 64) →
      (ofBytes m.toBytes = .ok m ↔ ∀ c, m.context? = some c → c.toNat < 2 ^ 63) ∧
      (∀ c, m.context? = some c → 2 ^ 63 ≤ c.toNat →
        ∃ fault, ofBytes m.toBytes = .error (.unreadable fault))) ∧
    ∀ bytes m, ofBytes bytes = .ok m →
      (∀ c, m.context? = some c → c.toNat < 2 ^ 63) ∧
      (bytes.length < 2 ^ 64 → ofBytes m.toBytes = .ok m) := by
  have hread : ∀ m : Message, m.Fits → ofBytes m.toBytes = .ok m := by
    intro m hm
    have := ofBytes_toBytes hm []
    rwa [List.append_nil] at this
  have hrefused : ∀ (m : Message) c, m.context? = some c → 2 ^ 63 ≤ c.toNat →
      ∃ fault, ofBytes m.toBytes = .error (.unreadable fault) := by
    intro m c hc hlarge
    exact ofBytes_unfit (not_fits_of_context hc hlarge)
  constructor
  · intro m hblobs
    refine ⟨⟨?_, ?_⟩, hrefused m⟩
    · intro h c hc
      by_contra hlarge
      obtain ⟨fault, hf⟩ := hrefused m c hc (Nat.le_of_not_lt hlarge)
      cases h.symm.trans hf
    · intro hcontext
      exact hread m ⟨hcontext, hblobs⟩
  · intro bytes m h
    obtain ⟨ts, hfits, hle, hfrom⟩ := ofBytes_from h
    have hcontext : ∀ c, m.context? = some c → c.toNat < 2 ^ 63 := by
      intro c hc
      exact context_lt hfits (hfrom.context c hc)
    refine ⟨hcontext, ?_⟩
    intro hlength
    apply hread m
    refine ⟨hcontext, ?_⟩
    intro b hb
    exact blob_lt hfits (by omega) (hfrom.blobs b hb)

def lookedFor (context : UInt64) : Message := .request (.findValue context ⟨0⟩)

/-- The request under the context 7, with all its layers spelled as lists. -/
def listed : Bytes :=
  asciiBytes "l1:q10:find_valueli7e20:" ++ List.replicate 20 0 ++ asciiBytes "ee"

/-- The request is read from bytes that nobody writes, and is read again when it is sent on. Under
the least context that is too large nothing is read. -/
theorem reads_back_iff_context_fits_listed :
    ofBytes listed = .ok (lookedFor 7) ∧ (lookedFor 7).toBytes ≠ listed ∧
    ofBytes (lookedFor 7).toBytes = .ok (lookedFor 7) ∧
    ∃ fault, ofBytes (lookedFor 9223372036854775808).toBytes = .error (.unreadable fault) := by
  have hlisted : ofBytes listed = .ok (lookedFor 7) := by decide +kernel
  refine ⟨hlisted, by decide +kernel, ?_, ?_⟩
  · exact (reads_back_iff_context_fits.2 listed (lookedFor 7) hlisted).2 (by decide)
  · exact (reads_back_iff_context_fits.1 (lookedFor 9223372036854775808) nofun).2 _ rfl (by decide)

end Message

end Refused

end Kademlia
