import Kademlia.Proofs.Bencode.Record

/-!
Where the content of a record comes from. Whether a record is read from a dictionary or from a list,
each of its fields is read from one of the values that stand there, so what holds of these values
holds of the sources of all fields.
-/

namespace Kademlia.Bencode

section Results

variable {ε α β : Type} {x : Except ε α}

theorem bind_eq_ok {f : α → Except ε β} {y : β} (h : x >>= f = .ok y) :
    ∃ a, x = .ok a ∧ f a = .ok y := by
  cases x with
  | error fault => cases h
  | ok a => exact ⟨a, rfl, h⟩

theorem map_eq_ok {f : α → β} {y : β} (h : x.map f = .ok y) : ∃ a, x = .ok a ∧ f a = y := by
  cases x with
  | error fault => cases h
  | ok a =>
    cases h
    exact ⟨a, rfl, rfl⟩

theorem length_of_mapM {f : α → Except ε β} {xs : List α} {ys : List β}
    (h : xs.mapM f = .ok ys) : ys.length = xs.length := by
  induction xs generalizing ys with
  | nil =>
    cases h
    rfl
  | cons x rest ih =>
    rw [List.mapM_cons] at h
    obtain ⟨y, -, h⟩ := bind_eq_ok h
    obtain ⟨more, hm, h⟩ := bind_eq_ok h
    cases h
    rw [List.length_cons, List.length_cons, ih hm]

end Results

variable {P : Value → Prop}

def Holds (P : Value → Prop) : Value → Prop
  | .dict entries => ∀ e ∈ entries, P e.2
  | .list items => ∀ v ∈ items, P v
  | _ => True

def Codec.From {α : Type} (codec : Codec α) (P : Value → Prop) (x : α) : Prop :=
  ∃ v, P v ∧ codec.read v = .ok x

def Field.From (P : Value → Prop) : (f : Field) → f.Content → Prop
  | .required _ _ codec, x => codec.From P x
  | .optional _ _ codec, x => ∀ y, x = some y → codec.From P y

def Record.From (P : Value → Prop) : (fields : List Field) → Record fields → Prop
  | [], _ => True
  | f :: fields, (x, record) => f.From P x ∧ Record.From P fields record

def Slots.From (P : Value → Prop) : (fields : List Field) → Slots fields → Prop
  | [], _ => True
  | f :: fields, (slot, slots) =>
    (∀ x, slot = some x → ∃ v, P v ∧ f.read v = .ok x) ∧ Slots.From P fields slots

section Dictionary

theorem Slots.empty_from (fields : List Field) : Slots.From P fields (Slots.empty fields) := by
  induction fields with
  | nil => trivial
  | cons f fields ih => exact ⟨nofun, ih⟩

theorem Slots.From.put {fields : List Field} {slots slots' : Slots fields} {key : Bytes}
    {v : Value} (h : Slots.From P fields slots) (hv : P v)
    (hp : Slots.put fields slots key v = .ok slots') : Slots.From P fields slots' := by
  induction fields with
  | nil => trivial
  | cons f fields ih =>
    obtain ⟨slot, slots⟩ := slots
    simp only [Slots.put] at hp
    split at hp
    · cases slot with
      | some y => cases hp
      | none =>
        obtain ⟨x, hx, rfl⟩ := map_eq_ok hp
        refine ⟨?_, h.2⟩
        intro y hy
        cases hy
        exact ⟨v, hv, hx⟩
    · obtain ⟨more, hm, rfl⟩ := map_eq_ok hp
      exact ⟨h.1, ih h.2 hm⟩

theorem Slots.From.fill {fields : List Field} {slots slots' : Slots fields}
    {entries : List (Value × Value)} (h : Slots.From P fields slots) (he : ∀ e ∈ entries, P e.2)
    (hf : Slots.fill fields slots entries = .ok slots') : Slots.From P fields slots' := by
  induction entries generalizing slots with
  | nil =>
    cases hf
    exact h
  | cons e entries ih =>
    obtain ⟨key, v⟩ := e
    rw [List.forall_mem_cons] at he
    cases key with
    | bytes key =>
      rw [Slots.fill] at hf
      obtain ⟨more, hm, hf⟩ := bind_eq_ok hf
      exact ih (h.put he.1 hm) he.2 hf
    | int n => cases hf
    | list items => cases hf
    | dict entries => cases hf

theorem Slots.From.complete {fields : List Field} {slots : Slots fields} {record : Record fields}
    (h : Slots.From P fields slots) (hc : Slots.complete fields slots = .ok record) :
    Record.From P fields record := by
  induction fields with
  | nil => trivial
  | cons f fields ih =>
    obtain ⟨slot, slots⟩ := slots
    rw [Slots.complete] at hc
    obtain ⟨x, hx, hc⟩ := bind_eq_ok hc
    obtain ⟨rest, hr, hc⟩ := bind_eq_ok hc
    cases hc
    refine ⟨?_, ih h.2 hr⟩
    cases f with
    | required name α codec =>
      cases slot with
      | none => cases hx
      | some y =>
        cases hx
        exact h.1 x rfl
    | optional name α codec =>
      cases hx
      exact h.1

end Dictionary

section Listing

theorem Record.ofList_from {title : String} {count met : Nat} {fields : List Field}
    {items : List Value} {record : Record fields} (h : ∀ v ∈ items, P v)
    (hr : Record.ofList title count fields met items = .ok record) :
    Record.From P fields record := by
  induction fields generalizing met items with
  | nil => trivial
  | cons f fields ih =>
    cases items with
    | nil =>
      rw [Record.ofList] at hr
      obtain ⟨x, hx, hr⟩ := bind_eq_ok hr
      obtain ⟨rest, hrest, hr⟩ := bind_eq_ok hr
      cases hr
      refine ⟨?_, ih h hrest⟩
      cases f with
      | required name α codec => cases hx
      | optional name α codec =>
        cases hx
        exact nofun
    | cons v items =>
      rw [List.forall_mem_cons] at h
      rw [Record.ofList] at hr
      obtain ⟨x, hx, hr⟩ := bind_eq_ok hr
      obtain ⟨rest, hrest, hr⟩ := bind_eq_ok hr
      cases hr
      refine ⟨?_, ih h.2 hrest⟩
      cases f with
      | required name α codec => exact ⟨v, h.1, hx⟩
      | optional name α codec =>
        intro y hy
        cases hy
        exact ⟨v, h.1, hx⟩

end Listing

/-- Every field of a record is read from a value that stands in what the record is read from. -/
theorem Form.read_from {form : Form} {v : Value} {record : form.Record} (h : Holds P v)
    (hr : form.read v = .ok record) : Record.From P form.fields record := by
  cases v with
  | int n => cases hr
  | bytes content => cases hr
  | list items => exact Record.ofList_from h hr
  | dict entries =>
    rw [Form.read] at hr
    obtain ⟨slots, hf, hc⟩ := bind_eq_ok hr
    exact ((Slots.empty_from form.fields).fill h hf).complete hc

end Kademlia.Bencode
