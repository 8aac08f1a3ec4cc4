import Mathlib.Data.List.Nodup
import Mathlib.Data.List.Perm.Basic
import Kademlia.Bencode.Record
import Kademlia.Proofs.Bytes
import Kademlia.Proofs.Bencode.Body

/-!
Reading records back. A field is read from the entries under its own key, so neither the order of
the entries nor any other key matters, and a record is read back from what it writes.
-/

namespace Kademlia.Bencode

def Codec.Faithful {α : Type} (codec : Codec α) : Prop :=
  ∀ x, codec.read (codec.write x) = .ok x

def Field.Faithful : Field → Prop
  | .required _ _ codec => codec.Faithful
  | .optional _ _ codec => codec.Faithful

def keyed (entries : List (Bytes × Value)) : List (Value × Value) :=
  entries.map fun e => (.bytes e.1, e.2)

def under (key : Bytes) (entries : List (Bytes × Value)) : List (Bytes × Value) :=
  entries.filter fun e => e.1 = key

def beside (key : Bytes) (entries : List (Bytes × Value)) : List (Bytes × Value) :=
  entries.filter fun e => e.1 ≠ key

theorem under_beside {key other : Bytes} (h : other ≠ key) (entries : List (Bytes × Value)) :
    under other (beside key entries) = under other entries := by
  rw [under, beside, List.filter_filter, under]
  refine List.filter_congr fun e _ => ?_
  by_cases he : e.1 = other
  · simp [he, h]
  · simp [he]

theorem under_eq_nil {key : Bytes} {entries : List (Bytes × Value)}
    (h : key ∉ entries.map Prod.fst) : under key entries = [] :=
  List.filter_eq_nil_iff.mpr fun e he hk =>
    h (List.mem_map.mpr ⟨e, he, of_decide_eq_true hk⟩)

theorem under_append (key : Bytes) (entries more : List (Bytes × Value)) :
    under key (entries ++ more) = under key entries ++ under key more :=
  List.filter_append ..

theorem under_cons_eq_nil {key : Bytes} {e : Bytes × Value} {rest : List (Bytes × Value)}
    (h : under key (e :: rest) = []) : e.1 ≠ key ∧ under key rest = [] := by
  have hne : e.1 ≠ key := by
    intro he
    simp [under, he] at h
  exact ⟨hne, by simpa [under, hne] using h⟩

theorem under_cons_eq_singleton {key : Bytes} {v : Value} {e : Bytes × Value}
    {rest : List (Bytes × Value)} (h : under key (e :: rest) = [(key, v)]) :
    e = (key, v) ∧ under key rest = [] ∧ beside key (e :: rest) = rest ∨
      e.1 ≠ key ∧ under key rest = [(key, v)] ∧
        beside key (e :: rest) = e :: beside key rest := by
  by_cases he : e.1 = key
  · have hu : under key (e :: rest) = e :: under key rest := by simp [under, he]
    have hb : beside key (e :: rest) = beside key rest := by simp [beside, he]
    rw [hu, List.cons.injEq] at h
    refine Or.inl ⟨h.1, h.2, hb.trans ?_⟩
    exact List.filter_eq_self.mpr fun d hd => decide_eq_true fun hk =>
      List.filter_eq_nil_iff.mp h.2 d hd (decide_eq_true hk)
  · exact Or.inr ⟨he, by simpa [under, he] using h, by simp [beside, he]⟩

theorem under_congr {key : Bytes} {entries others : List (Bytes × Value)}
    (hn : (entries.map Prod.fst).Nodup) (hp : (under key others).Perm (under key entries)) :
    under key others = under key entries := by
  have hkey : ∀ e ∈ under key entries, e.1 = key := fun e he =>
    of_decide_eq_true (List.mem_filter.mp he).2
  have hd : ((under key entries).map Prod.fst).Nodup := hn.sublist (List.filter_sublist.map _)
  match hu : under key entries with
  | [] => exact (hu ▸ hp).eq_nil
  | [e] => exact (hu ▸ hp).eq_singleton
  | e :: d :: rest =>
    rw [hu] at hkey hd
    have he := hkey e (by simp)
    have hd' := hkey d (by simp)
    simp [he, hd'] at hd

theorem Field.entry_keys (f : Field) (x : f.Content) :
    ((f.entry x).map Prod.fst).Sublist [f.key] := by
  cases f with
  | required => exact .refl _
  | optional =>
    cases x with
    | none => exact List.nil_sublist _
    | some x => exact .refl _

theorem Record.entries_keys {fields : List Field} (record : Record fields) :
    ((Record.entries fields record).map Prod.fst).Sublist (fields.map Field.key) := by
  induction fields with
  | nil => exact .refl _
  | cons f fields ih =>
    obtain ⟨x, record⟩ := record
    rw [Record.entries, List.map_append]
    exact (f.entry_keys x).append (ih record)

section Fill

theorem Slots.fill_cons {f : Field} {fields : List Field} {slot slot' : Option f.Carrier}
    {slots slots' : Slots fields} {entries : List (Bytes × Value)}
    (hf : Slots.fill [f] (slot, ()) (keyed (under f.key entries)) = .ok (slot', ()))
    (hr : Slots.fill fields slots (keyed (beside f.key entries)) = .ok slots') :
    Slots.fill (f :: fields) (slot, slots) (keyed entries) = .ok (slot', slots') := by
  induction entries generalizing slot slots with
  | nil =>
    cases hf
    cases hr
    rfl
  | cons e entries ih =>
    obtain ⟨key, v⟩ := e
    by_cases hk : key = f.key
    · have hu : under f.key ((key, v) :: entries) = (key, v) :: under f.key entries := by
        simp [under, hk]
      have hb : beside f.key ((key, v) :: entries) = beside f.key entries := by
        simp [beside, hk]
      rw [hb] at hr
      rw [hu] at hf
      subst hk
      cases slot with
      | some y =>
        simp [keyed, Slots.fill, Slots.put, bind, Except.bind] at hf
      | none =>
        cases hv : f.read v with
        | error fault =>
          simp [keyed, Slots.fill, Slots.put, hv, Except.map, bind, Except.bind] at hf
        | ok y =>
          have hf' : Slots.fill [f] (some y, ()) (keyed (under f.key entries)) =
              .ok (slot', ()) := by
            simpa [keyed, Slots.fill, Slots.put, hv, Except.map, bind, Except.bind] using hf
          simpa [keyed, Slots.fill, Slots.put, hv, Except.map, bind, Except.bind] using ih hf' hr
    · have hu : under f.key ((key, v) :: entries) = under f.key entries := by
        simp [under, hk]
      have hb : beside f.key ((key, v) :: entries) = (key, v) :: beside f.key entries := by
        simp [beside, hk]
      rw [hu] at hf
      rw [hb] at hr
      cases hp : Slots.put fields slots key v with
      | error fault => simp [keyed, Slots.fill, hp, bind, Except.bind] at hr
      | ok more =>
        have hr' : Slots.fill fields more (keyed (beside f.key entries)) = .ok slots' := by
          simpa [keyed, Slots.fill, hp, bind, Except.bind] using hr
        simpa [keyed, Slots.fill, Slots.put, hk, hp, Except.map, bind, Except.bind] using ih hf hr'

theorem Slots.fill_nil (entries : List (Bytes × Value)) :
    Slots.fill [] () (keyed entries) = .ok () := by
  induction entries with
  | nil => rfl
  | cons e entries ih => exact ih

def Field.Tells (f : Field) (x : f.Content) (entries : List (Bytes × Value)) : Prop :=
  ∃ slot, Slots.fill [f] (none, ()) (keyed (under f.key entries)) = .ok (slot, ()) ∧
    f.settle slot = .ok x

def Tells : (fields : List Field) → Record fields → List (Bytes × Value) → Prop
  | [], _, _ => True
  | f :: fields, (x, record), entries => f.Tells x entries ∧ Tells fields record entries

theorem Tells.congr {fields : List Field} {record : Record fields}
    {entries others : List (Bytes × Value)} (h : Tells fields record entries)
    (hu : ∀ key ∈ fields.map Field.key, under key others = under key entries) :
    Tells fields record others := by
  induction fields with
  | nil => trivial
  | cons f fields ih =>
    obtain ⟨x, record⟩ := record
    rw [List.map_cons, List.forall_mem_cons] at hu
    exact ⟨by rw [Field.Tells, hu.1]; exact h.1, ih h.2 hu.2⟩

theorem Slots.fill_complete {fields : List Field} (hn : (fields.map Field.key).Nodup)
    {record : Record fields} {entries : List (Bytes × Value)} (h : Tells fields record entries) :
    ∃ slots, Slots.fill fields (Slots.empty fields) (keyed entries) = .ok slots ∧
      Slots.complete fields slots = .ok record := by
  induction fields generalizing entries with
  | nil => exact ⟨(), Slots.fill_nil entries, rfl⟩
  | cons f fields ih =>
    obtain ⟨x, record⟩ := record
    obtain ⟨hnew, hn⟩ := List.nodup_cons.mp hn
    obtain ⟨⟨slot, hs, hx⟩, hrest⟩ := h
    have hrest : Tells fields record (beside f.key entries) :=
      hrest.congr fun key hk => under_beside (fun he : key = f.key => hnew (he ▸ hk)) entries
    obtain ⟨slots, hr, hc⟩ := ih hn hrest
    refine ⟨(slot, slots), Slots.fill_cons hs hr, ?_⟩
    simp [Slots.complete, hx, hc, bind, Except.bind, pure, Except.pure]

theorem Form.read_dict {form : Form} (hn : (form.fields.map Field.key).Nodup)
    {record : form.Record} {entries : List (Bytes × Value)} (h : Tells form.fields record entries) :
    form.read (.dict (keyed entries)) = .ok record := by
  obtain ⟨slots, hf, hc⟩ := Slots.fill_complete hn h
  simp [Form.read, hf, hc, bind, Except.bind]

end Fill

section Write

theorem Field.tells_entry {f : Field} (hf : f.Faithful) (x : f.Content) :
    f.Tells x (f.entry x) := by
  have hu : under f.key (f.entry x) = f.entry x := by
    refine List.filter_eq_self.mpr fun e he => decide_eq_true ?_
    exact List.mem_singleton.mp ((f.entry_keys x).subset (List.mem_map_of_mem he))
  rw [Field.Tells, hu]
  cases f with
  | required name α codec =>
    refine ⟨some x, ?_, rfl⟩
    simp [Field.entry, keyed, Slots.fill, Slots.put, Field.key, Field.name, Field.read, hf x,
      Except.map, bind, Except.bind]
  | optional name α codec =>
    cases x with
    | none => exact ⟨none, rfl, rfl⟩
    | some x =>
      refine ⟨some x, ?_, rfl⟩
      simp [Field.entry, keyed, Slots.fill, Slots.put, Field.key, Field.name, Field.read, hf x,
        Except.map, bind, Except.bind]

/-- The fields of the form have names of their own, and each is read back as it is written. -/
structure Form.Sound (form : Form) : Prop where
  distinct : (form.fields.map Field.key).Nodup
  faithful : ∀ f ∈ form.fields, f.Faithful

theorem Record.tells_entries {fields : List Field} (hn : (fields.map Field.key).Nodup)
    (hf : ∀ f ∈ fields, f.Faithful) (record : Record fields) :
    Tells fields record (Record.entries fields record) := by
  induction fields with
  | nil => trivial
  | cons f fields ih =>
    obtain ⟨x, record⟩ := record
    obtain ⟨hnew, hn⟩ := List.nodup_cons.mp hn
    rw [List.forall_mem_cons] at hf
    refine ⟨?_, (ih hn hf.2 record).congr fun key hk => ?_⟩
    · have hr : under f.key (Record.entries fields record) = [] :=
        under_eq_nil fun hm => hnew ((Record.entries_keys record).subset hm)
      rw [Field.Tells, Record.entries, under_append, hr, List.append_nil]
      exact Field.tells_entry hf.1 x
    · have hx : under key (f.entry x) = [] := under_eq_nil fun hm =>
        hnew (List.mem_singleton.mp ((f.entry_keys x).subset hm) ▸ hk)
      rw [Record.entries, under_append, hx, List.nil_append]

def sorted (entries : List (Bytes × Value)) : List (Bytes × Value) :=
  entries.mergeSort fun a b => a.1 ≤ b.1

theorem ofEntries_eq (entries : List (Bytes × Value)) :
    Value.ofEntries entries = .dict (keyed (sorted entries)) := rfl

theorem sorted_perm (entries : List (Bytes × Value)) : (sorted entries).Perm entries :=
  List.mergeSort_perm ..

/-- The entries in any order, and among them foreign ones that can be read: their keys are not among
the known keys, and may repeat each other. -/
def Scattered (known : List Bytes) (entries others : List (Bytes × Value)) : Prop :=
  ∃ foreign, others.Perm (entries ++ foreign) ∧
    ∀ e ∈ foreign, e.1 ∉ known ∧ e.1.length < 2 ^ 64 ∧ e.2.Fits

variable {known : List Bytes} {entries others : List (Bytes × Value)}

theorem scattered_sorted (known : List Bytes) (entries : List (Bytes × Value)) :
    Scattered known entries (sorted entries) :=
  ⟨[], by simpa using sorted_perm entries, List.forall_mem_nil _⟩

theorem Scattered.under_eq (h : Scattered known entries others)
    (hn : (entries.map Prod.fst).Nodup) {key : Bytes} (hk : key ∈ known) :
    under key others = under key entries := by
  obtain ⟨foreign, hp, hf⟩ := h
  have hnone : under key foreign = [] := by
    refine under_eq_nil fun hm => ?_
    obtain ⟨e, he, rfl⟩ := List.mem_map.mp hm
    exact (hf e he).1 hk
  have hu : (under key others).Perm (under key (entries ++ foreign)) := hp.filter _
  rw [under_append, hnone, List.append_nil] at hu
  exact under_congr hn hu

/-- A record is read from its entries in any order, and from foreign ones nothing is read. -/
theorem Form.Sound.read_scattered {form : Form} (hs : form.Sound) {record : form.Record}
    (h : Scattered (form.fields.map Field.key) (Record.entries form.fields record) others) :
    form.read (.dict (keyed others)) = .ok record := by
  have hn := hs.distinct.sublist (Record.entries_keys record)
  refine Form.read_dict hs.distinct ?_
  exact (Record.tells_entries hs.distinct hs.faithful record).congr fun _ hk => h.under_eq hn hk

theorem Form.codec_faithful {form : Form} (hs : form.Sound) : form.codec.Faithful := fun _ =>
  hs.read_scattered (scattered_sorted _ _)

end Write

section Fits

theorem Token.fits_natural {n : Nat} : (Token.int n).Fits ↔ n < 2 ^ 63 := by
  have hmin : Int64.minValue.toInt = -9223372036854775808 := by decide
  have hmax : Int64.maxValue.toInt = 9223372036854775807 := by decide
  rw [Token.Fits, hmin, hmax]
  omega

theorem Value.fits_natural {n : Nat} (h : n < 2 ^ 63) : (Value.int n).Fits := by
  simpa [Value.Fits, Value.tokens] using Token.fits_natural.mpr h

theorem Value.fits_bytes {content : Bytes} (h : content.length < 2 ^ 64) :
    (Value.bytes content).Fits := by
  simpa [Value.Fits, Value.tokens, Token.Fits] using h

theorem Value.fits_list {items : List Value} (h : ∀ v ∈ items, v.Fits) :
    (Value.list items).Fits := by
  have hi : ∀ t ∈ Value.listTokens items, t.Fits := by
    induction items with
    | nil => simp [Value.listTokens]
    | cons v rest ih =>
      rw [List.forall_mem_cons] at h
      rw [Value.listTokens]
      exact List.forall_mem_append.mpr ⟨h.1, ih h.2⟩
  rw [Value.Fits, Value.tokens]
  exact List.forall_mem_cons.mpr ⟨trivial, List.forall_mem_append.mpr ⟨hi, by simp [Token.Fits]⟩⟩

theorem Value.fits_dict {entries : List (Bytes × Value)}
    (h : ∀ e ∈ entries, e.1.length < 2 ^ 64 ∧ e.2.Fits) : (Value.dict (keyed entries)).Fits := by
  have hi : ∀ t ∈ Value.entryTokens (keyed entries), t.Fits := by
    induction entries with
    | nil => simp [keyed, Value.entryTokens]
    | cons e rest ih =>
      rw [List.forall_mem_cons] at h
      have ht : Value.entryTokens (keyed (e :: rest)) =
          (Value.bytes e.1).tokens ++ (e.2.tokens ++ Value.entryTokens (keyed rest)) := rfl
      rw [ht]
      exact List.forall_mem_append.mpr ⟨Value.fits_bytes h.1.1,
        List.forall_mem_append.mpr ⟨h.1.2, ih h.2⟩⟩
  rw [Value.Fits, Value.tokens]
  exact List.forall_mem_cons.mpr ⟨trivial, List.forall_mem_append.mpr ⟨hi, by simp [Token.Fits]⟩⟩

theorem Scattered.fits {known : List Bytes} {entries others : List (Bytes × Value)}
    (h : Scattered known entries others)
    (hf : ∀ e ∈ entries, e.1.length < 2 ^ 64 ∧ e.2.Fits) : (Value.dict (keyed others)).Fits := by
  obtain ⟨foreign, hp, hforeign⟩ := h
  refine Value.fits_dict fun e he => ?_
  rcases List.mem_append.mp (hp.mem_iff.mp he) with he | he
  · exact hf e he
  · exact (hforeign e he).2

theorem Value.fits_ofEntries {entries : List (Bytes × Value)}
    (h : ∀ e ∈ entries, e.1.length < 2 ^ 64 ∧ e.2.Fits) : (Value.ofEntries entries).Fits :=
  (scattered_sorted [] entries).fits h

def Record.Fits (fields : List Field) (record : Record fields) : Prop :=
  ∀ e ∈ Record.entries fields record, e.1.length < 2 ^ 64 ∧ e.2.Fits

theorem Record.Fits.nil : Record.Fits [] () := by simp [Record.Fits, Record.entries]

variable {name : String} {α : Type} {codec : Codec α} {fields : List Field}
  {record : Record fields}

theorem Record.Fits.required (hn : (asciiBytes name).length < 2 ^ 64) {x : α}
    (hx : (codec.write x).Fits) (hr : Record.Fits fields record) :
    Record.Fits (.required name α codec :: fields) (x, record) :=
  List.forall_mem_cons.mpr ⟨⟨hn, hx⟩, hr⟩

theorem Record.Fits.optional (hn : (asciiBytes name).length < 2 ^ 64) {x : Option α}
    (hx : ∀ y, x = some y → (codec.write y).Fits) (hr : Record.Fits fields record) :
    Record.Fits (.optional name α codec :: fields) (x, record) := by
  cases x with
  | none => exact hr
  | some y => exact List.forall_mem_cons.mpr ⟨⟨hn, hx y rfl⟩, hr⟩

end Fits

section Codecs

theorem readUnsigned_toNat {bits n : Nat} (h : n < 2 ^ bits) :
    readUnsigned bits (.int n) = .ok n := by
  have hn : (0 : Int) ≤ n ∧ (n : Int).toNat < 1 <<< bits :=
    ⟨Int.natCast_nonneg n, by rwa [Int.toNat_natCast, Nat.one_shiftLeft]⟩
  rw [readUnsigned, if_pos hn, Int.toNat_natCast]

theorem toNat_lt_width (n : UInt64) : n.toNat < 2 ^ 64 := by
  have := n.toNat_lt
  omega

theorem Codec.unsigned64_faithful : Codec.unsigned64.Faithful := by
  intro n
  simp only [Codec.unsigned64]
  rw [readUnsigned_toNat (toNat_lt_width n)]
  simp only [Except.map, UInt64.ofNat_toNat]

theorem Codec.octet_faithful : Codec.octet.Faithful := by
  intro n
  have hn : readUnsigned 8 (.int n.toNat) = .ok n.toNat :=
    readUnsigned_toNat (by have := n.toNat_lt; omega)
  simp only [Codec.octet, readOctet]
  rw [hn]
  simp only [Except.map, UInt8.ofNat_toNat]

theorem Codec.bytes_faithful : Codec.bytes.Faithful := fun _ => rfl

theorem Codec.fixed_faithful {size width : Nat} (h : 2 ^ width ≤ 256 ^ size) :
    (Codec.fixed size width).Faithful := fun n => by
  simp [Codec.fixed, readFixed, Except.map, ofNat_beValue_beBytes size n h]

theorem Codec.sequence_faithful : Codec.sequence.Faithful := fun items => by
  have hm : (items.map Value.bytes).mapM readBytes = .ok items := by
    induction items with
    | nil => rfl
    | cons item rest ih =>
      rw [List.map_cons, List.mapM_cons, ih]
      rfl
  exact hm

end Codecs

end Kademlia.Bencode
