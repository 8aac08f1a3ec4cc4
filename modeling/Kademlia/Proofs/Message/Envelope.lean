import Kademlia.Message.Envelope
import Kademlia.Proofs.Bencode.Record

/-!
Opening the layers of a message. The class and the kind are found under their keys, wherever these
stand among the entries, and what is left tells the arguments.
-/

namespace Kademlia

open Bencode

theorem MessageClass.ofValue_tag (c : MessageClass) :
    ofValue (.bytes (asciiBytes c.tag)) = .ok c := by
  cases c <;> rfl

namespace Envelope

theorem alternate_keyed_cons (e : Bytes × Value) (rest : List (Bytes × Value)) :
    alternate (keyed (e :: rest)) = .bytes e.1 :: e.2 :: alternate (keyed rest) := rfl

theorem openDict_found (c : MessageClass) {entries : List (Bytes × Value)}
    (h : under MessageClass.key entries = []) :
    openDict .closed (some c) (alternate (keyed entries)) = .ok (c, keyed entries) := by
  induction entries with
  | nil => rfl
  | cons e rest ih =>
    obtain ⟨hne, hr⟩ := under_cons_eq_nil h
    rw [alternate_keyed_cons, openDict, if_neg hne, ih hr]
    rfl

theorem openDict_none {v : Value} {c : MessageClass} (hv : MessageClass.ofValue v = .ok c)
    {entries : List (Bytes × Value)}
    (h : under MessageClass.key entries = [(MessageClass.key, v)]) :
    openDict .closed none (alternate (keyed entries)) =
      .ok (c, keyed (beside MessageClass.key entries)) := by
  induction entries with
  | nil => cases h
  | cons e rest ih =>
    rcases under_cons_eq_singleton h with ⟨rfl, hr, hb⟩ | ⟨hne, hr, hb⟩
    · have ho := openDict_found c hr
      rw [alternate_keyed_cons, openDict, if_pos rfl, hb]
      simp [hv, ho, bind, Except.bind]
    · rw [alternate_keyed_cons, openDict, if_neg hne, ih hr, hb]
      rfl

theorem ofBytes_dict {c : MessageClass} {entries : List (Bytes × Value)}
    (hf : (Value.dict (keyed entries)).Fits)
    (h : under MessageClass.key entries = [(MessageClass.key, .bytes (asciiBytes c.tag))])
    (rest : Bytes) :
    ofBytes ((Value.dict (keyed entries)).spell ++ rest) =
      .ok (c, .dict (keyed (beside MessageClass.key entries))) := by
  have ho := openDict_none (MessageClass.ofValue_tag c) h
  rw [ofBytes, Body.ofBytes_dict hf]
  simp [ho, bind, Except.bind, pure, Except.pure]

end Envelope

namespace Vocabulary

variable {Kind : Type} {voc : Vocabulary Kind}

theorem openDict_found (k : Kind) {entries : List (Bytes × Value)} (h : under key entries = []) :
    voc.openDict (some k) (keyed entries) = .ok (k, keyed entries) := by
  induction entries with
  | nil => rfl
  | cons e rest ih =>
    obtain ⟨hne, hr⟩ := under_cons_eq_nil h
    have hk : keyed (e :: rest) = (.bytes e.1, e.2) :: keyed rest := rfl
    rw [hk, openDict, if_neg hne, ih hr]
    rfl

theorem openDict_none {v : Value} {k : Kind} (hv : voc.kindOf v = .ok k)
    {entries : List (Bytes × Value)} (h : under key entries = [(key, v)]) :
    voc.openDict none (keyed entries) = .ok (k, keyed (beside key entries)) := by
  induction entries with
  | nil => cases h
  | cons e rest ih =>
    have hk : keyed (e :: rest) = (.bytes e.1, e.2) :: keyed rest := rfl
    rcases under_cons_eq_singleton h with ⟨rfl, hr, hb⟩ | ⟨hne, hr, hb⟩
    · have ho : voc.openDict (some k) (keyed rest) = .ok (k, keyed rest) := openDict_found k hr
      rw [hk, openDict, if_pos rfl, hb]
      simp [hv, ho, bind, Except.bind]
    · rw [hk, openDict, if_neg hne, ih hr, hb]
      rfl

/-- Every kind is read back by its name, every record of arguments as it is written, and the names
of the layers are different. -/
structure Sound (voc : Vocabulary Kind) : Prop where
  named : ∀ k, voc.kindOf (.bytes (asciiBytes (voc.name k))) = .ok k
  short : ∀ k, (asciiBytes (voc.name k)).length < 2 ^ 64
  argumentsShort : (asciiBytes voc.argumentsName).length < 2 ^ 64
  arguments : ∀ k, (voc.arguments k).Sound
  apart : asciiBytes voc.argumentsName ≠ MessageClass.key ∧ asciiBytes voc.argumentsName ≠ key

structure Tells (voc : Vocabulary Kind) (k : Kind) (record : (voc.arguments k).Record)
    (entries : List (Bytes × Value)) : Prop where
  messageClass : under MessageClass.key entries =
    [(MessageClass.key, .bytes (asciiBytes voc.messageClass.tag))]
  kind : under key entries = [(key, .bytes (asciiBytes (voc.name k)))]
  arguments : ∃ v, under (asciiBytes voc.argumentsName) entries =
    [(asciiBytes voc.argumentsName, v)] ∧ (voc.arguments k).read v = .ok record

theorem Tells.read (hs : voc.Sound) {k : Kind} {record : (voc.arguments k).Record}
    {entries : List (Bytes × Value)} (h : voc.Tells k record entries) :
    voc.read (.dict (keyed (beside MessageClass.key entries))) = .ok ⟨k, record⟩ := by
  have hk : under key (beside MessageClass.key entries) =
      [(key, .bytes (asciiBytes (voc.name k)))] := by
    rw [under_beside (by decide), h.kind]
  obtain ⟨v, hv, hr⟩ := h.arguments
  have ha : under (asciiBytes voc.argumentsName) (beside key (beside MessageClass.key entries)) =
      [(asciiBytes voc.argumentsName, v)] := by
    rw [under_beside hs.apart.2, under_beside hs.apart.1, hv]
  have hl : (voc.layer k).read (.dict (keyed (beside key (beside MessageClass.key entries)))) =
      .ok (record, ()) := by
    have hn : ((voc.layer k).fields.map Field.key).Nodup := List.nodup_singleton _
    refine Form.read_dict hn ⟨⟨some record, ?_, rfl⟩, trivial⟩
    have hkey : Field.key (.required voc.argumentsName (voc.arguments k).Record
        (voc.arguments k).codec) = asciiBytes voc.argumentsName := rfl
    rw [hkey, ha]
    simp [keyed, Slots.fill, Slots.put, Field.key, Field.name, Field.read, Form.codec, hr,
      Except.map, bind, Except.bind]
  simp [Vocabulary.read, openValue, openDict_none (hs.named k) hk, hl, bind, Except.bind, pure,
    Except.pure]

def entries (voc : Vocabulary Kind) (k : Kind) (arguments : Value) : List (Bytes × Value) :=
  [(MessageClass.key, .bytes (asciiBytes voc.messageClass.tag)),
    (key, .bytes (asciiBytes (voc.name k))), (asciiBytes voc.argumentsName, arguments)]

def keys (voc : Vocabulary Kind) : List Bytes :=
  [MessageClass.key, key, asciiBytes voc.argumentsName]

variable {k : Kind} {record : (voc.arguments k).Record} {v : Value}

theorem Sound.keys_nodup (hs : voc.Sound) : voc.keys.Nodup := by
  have hyq : MessageClass.key ≠ key := by decide
  simp [keys, hyq, hs.apart.1.symm, hs.apart.2.symm]

/-- The entries of a message tell of it in any order, and with foreign ones among them. -/
theorem Sound.tells_scattered (hs : voc.Sound) (hv : (voc.arguments k).read v = .ok record)
    {others : List (Bytes × Value)} (h : Scattered voc.keys (voc.entries k v) others) :
    voc.Tells k record others := by
  have hu : ∀ key ∈ voc.keys, under key others = under key (voc.entries k v) := fun key hk =>
    h.under_eq hs.keys_nodup hk
  have hyq : MessageClass.key ≠ key := by decide
  refine ⟨?_, ?_, v, ?_, hv⟩
  · rw [hu _ (by simp [keys])]
    simp [entries, under, hyq.symm, hs.apart.1]
  · rw [hu _ (by simp [keys])]
    simp [entries, under, hyq, hs.apart.2]
  · rw [hu _ (by simp [keys])]
    simp [entries, under, hs.apart.1.symm, hs.apart.2.symm]

theorem write_tells (hs : voc.Sound) (k : Kind) (record : (voc.arguments k).Record) :
    ∃ entries, voc.write k record = .dict (keyed entries) ∧ voc.Tells k record entries := by
  have hv : (voc.arguments k).read ((voc.arguments k).write record) = .ok record :=
    Form.codec_faithful (hs.arguments k) record
  exact ⟨_, ofEntries_eq _, hs.tells_scattered hv (scattered_sorted _ _)⟩

theorem Sound.fits_entries (hs : voc.Sound) (k : Kind) (hv : v.Fits) :
    ∀ e ∈ voc.entries k v, e.1.length < 2 ^ 64 ∧ e.2.Fits := by
  have hy : MessageClass.key.length < 2 ^ 64 := by decide
  have hq : key.length < 2 ^ 64 := by decide
  have ht : (asciiBytes voc.messageClass.tag).length < 2 ^ 64 := by
    cases voc.messageClass <;> decide
  rintro e (_ | ⟨_, _ | ⟨_, _ | ⟨_, ⟨⟩⟩⟩⟩)
  · exact ⟨hy, Value.fits_bytes ht⟩
  · exact ⟨hq, Value.fits_bytes (hs.short k)⟩
  · exact ⟨hs.argumentsShort, hv⟩

/-- A message is opened and read from its entries in any order, whatever foreign ones stand among
them and whatever bytes behind them. -/
theorem Sound.read_scattered (hs : voc.Sound) (hv : (voc.arguments k).read v = .ok record)
    (hf : v.Fits) {others : List (Bytes × Value)}
    (h : Scattered voc.keys (voc.entries k v) others) (rest : Bytes) :
    ∃ w, Envelope.ofBytes ((Value.dict (keyed others)).spell ++ rest) =
        .ok (voc.messageClass, w) ∧ voc.read w = .ok ⟨k, record⟩ := by
  have ht := hs.tells_scattered hv h
  exact ⟨_, Envelope.ofBytes_dict (h.fits (hs.fits_entries k hf)) ht.messageClass rest,
    ht.read hs⟩

end Vocabulary

end Kademlia
