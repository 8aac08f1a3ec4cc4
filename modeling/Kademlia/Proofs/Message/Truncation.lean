import Mathlib
import Kademlia.Proofs.Message.RoundTrip

/-!
Messages whose bytes end too early. Wherever the bytes of a message are cut off, what is read in
front of the cut opens no layer, and the end of the bytes is reported. Main statement: the bytes of
a message tell where they end, so none of their fronts is a message, and nothing behind them matters.
-/

namespace Kademlia

open Bencode

namespace Envelope

variable {fault : Bencode.Error} {entries : List (Bytes × Value)} {read : List Value}
  {ending : Ending}

theorem openDict_found_cut (c : MessageClass) (h : under MessageClass.key entries = [])
    (hr : Stops fault (alternate (keyed entries)) read ending) :
    openDict ending (some c) read = .error fault := by
  induction entries generalizing read with
  | nil =>
    cases hr with
    | between => rfl
  | cons e rest ih =>
    obtain ⟨hne, hrest⟩ := under_cons_eq_nil h
    rw [alternate_keyed_cons] at hr
    cases hr with
    | between => rfl
    | inside hkey => cases hkey
    | next _ hr =>
      cases hr with
      | between => rw [openDict, if_neg hne, faultInValue]
      | inside _ => rw [openDict, if_neg hne, faultInValue]
      | next _ hr =>
        rw [openDict, if_neg hne, ih hrest hr]
        rfl

/-- The class is no container, so no other fault is reported where its value is due. -/
theorem openDict_none_cut {v : Value} {c : MessageClass} (hv : MessageClass.ofValue v = .ok c)
    (hscalar : v.container? = none) (h : under MessageClass.key entries = [(MessageClass.key, v)])
    (hr : Stops fault (alternate (keyed entries)) read ending) :
    openDict ending none read = .error fault := by
  induction entries generalizing read with
  | nil => cases h
  | cons e rest ih =>
    rw [alternate_keyed_cons] at hr
    cases hr with
    | between => rfl
    | inside hkey => cases hkey
    | next _ hr =>
      rcases under_cons_eq_singleton h with ⟨rfl, hrest, -⟩ | ⟨hne, hrest, -⟩
      · cases hr with
        | between => rw [openDict, if_pos rfl, MessageClass.faultAt]; rfl
        | inside hcontainer => cases hscalar.symm.trans hcontainer
        | next _ hr =>
          rw [openDict, if_pos rfl, hv]
          exact openDict_found_cut c hrest hr
      · cases hr with
        | between => rw [openDict, if_neg hne, faultInValue]
        | inside _ => rw [openDict, if_neg hne, faultInValue]
        | next _ hr =>
          rw [openDict, if_neg hne, ih hrest hr]
          rfl

theorem ofBytes_cut {c : MessageClass} (hf : (Value.dict (keyed entries)).Fits)
    (h : under MessageClass.key entries = [(MessageClass.key, .bytes (asciiBytes c.tag))])
    {front back : Bytes} (hcut : (Value.dict (keyed entries)).spell = front ++ back)
    (hb : back ≠ []) : ofBytes front = .error .endOfStream := by
  rcases Body.ofBytes_cut hf hcut hb with hnone | ⟨read, ending, hstops, hread⟩
  · rw [ofBytes, hnone]
    rfl
  · have ho := openDict_none_cut (MessageClass.ofValue_tag c) rfl h hstops
    rw [ofBytes, hread]
    simp [ho, bind, Except.bind]

end Envelope

theorem Vocabulary.write_cut {Kind : Type} {voc : Vocabulary Kind} (hs : voc.Sound) {k : Kind}
    {record : (voc.arguments k).Record} (hf : (voc.write k record).Fits) {front back : Bytes}
    (hcut : (voc.write k record).spell = front ++ back) (hb : back ≠ []) :
    Envelope.ofBytes front = .error .endOfStream := by
  obtain ⟨entries, he, ht⟩ := write_tells hs k record
  rw [he] at hf hcut
  exact Envelope.ofBytes_cut hf ht.messageClass hcut hb

namespace Message

theorem ofBytes_cut {m : Message} (h : m.Fits) {front back : Bytes}
    (hcut : m.toBytes = front ++ back) (hb : back ≠ []) :
    ofBytes front = .error (.unreadable .endOfStream) := by
  have hv := fits_toValue h
  have he : Envelope.ofBytes front = .error .endOfStream := by
    cases m with
    | request r => exact Vocabulary.write_cut RequestKind.vocabulary_sound hv hcut hb
    | response r => exact Vocabulary.write_cut ResponseKind.vocabulary_sound hv hcut hb
    | notice n => exact Vocabulary.write_cut NoticeKind.vocabulary_sound hv hcut hb
  rw [ofBytes, he]
  rfl

def asked : Message := .request (.findNode 7 ⟨0⟩ (some ⟨1⟩))

end Message

end Kademlia
