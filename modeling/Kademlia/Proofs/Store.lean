import Mathlib.Data.Finset.Card
import Mathlib.Data.List.Nodup
import Kademlia.Store

/-!
The store as a list in the order of recency: it holds the keys that were touched most recently, as
many as it has room for, and of each the value that was written last.
-/

namespace Kademlia.Store

section Recency

variable {κ : Type} [DecidableEq κ]

/-- The keys that were touched, each once, the most recent one first. -/
def recents (touches : List κ) : List κ :=
  touches.foldl (fun keys key => key :: keys.filter (· ≠ key)) []

/-- What was touched after the last touch of a key, backwards. -/
def since (touches : List κ) (key : κ) : List κ :=
  touches.reverse.takeWhile (· ≠ key)

theorem recents_concat (touches : List κ) (key : κ) :
    recents (touches ++ [key]) = key :: (recents touches).filter (· ≠ key) := by
  rw [recents, List.foldl_append]
  rfl

theorem since_concat (touches : List κ) (other key : κ) :
    since (touches ++ [other]) key = if other = key then [] else other :: since touches key := by
  by_cases ho : other = key <;> simp [since, ho]

theorem mem_recents (touches : List κ) (key : κ) : key ∈ recents touches ↔ key ∈ touches := by
  induction touches using List.reverseRecOn with
  | nil => rfl
  | append_singleton touches last ih =>
    rw [recents_concat, List.mem_cons, List.mem_filter, ih, List.mem_append, List.mem_singleton]
    by_cases hk : key = last <;> simp [hk]

theorem recents_nodup (touches : List κ) : (recents touches).Nodup := by
  induction touches using List.reverseRecOn with
  | nil => exact List.nodup_nil
  | append_singleton touches last ih =>
    rw [recents_concat]
    exact List.nodup_cons.mpr ⟨by simp, ih.filter _⟩

theorem takeWhile_filter {l : List κ} {key other : κ} (ho : other ≠ key) :
    (l.filter (· ≠ other)).takeWhile (· ≠ key) =
      (l.takeWhile (· ≠ key)).filter (· ≠ other) := by
  induction l with
  | nil => rfl
  | cons a l ih =>
    by_cases hk : a = key
    · subst hk
      simp [Ne.symm ho]
    · by_cases hother : a = other
      · simpa [hother, ho] using ih
      · simpa [hk, hother] using ih

/-- The keys that are more recent than a key are those that were touched since. -/
theorem mem_takeWhile_recents (touches : List κ) (key other : κ) :
    other ∈ (recents touches).takeWhile (· ≠ key) ↔ other ∈ since touches key := by
  induction touches using List.reverseRecOn with
  | nil => rfl
  | append_singleton touches last ih =>
    -- A touch of the key itself empties both sides, any other one comes to the front of both.
    rw [recents_concat, since_concat]
    by_cases hl : last = key
    · simp [hl]
    · rw [if_neg hl, List.takeWhile_cons_of_pos (by simpa using hl), takeWhile_filter hl,
        List.mem_cons, List.mem_cons, List.mem_filter, ih]
      by_cases ho : other = last <;> simp [ho]

theorem length_takeWhile_recents (touches : List κ) (key : κ) :
    ((recents touches).takeWhile (· ≠ key)).length = (since touches key).toFinset.card := by
  have hn : ((recents touches).takeWhile (· ≠ key)).Nodup :=
    (recents_nodup touches).sublist (List.takeWhile_sublist _)
  rw [← List.toFinset_card_of_nodup hn]
  congr 1
  ext other
  rw [List.mem_toFinset, List.mem_toFinset]
  exact mem_takeWhile_recents touches key other

theorem mem_take_iff (l : List κ) (n : Nat) (key : κ) :
    key ∈ l.take n ↔ key ∈ l ∧ (l.takeWhile (· ≠ key)).length < n := by
  induction l generalizing n with
  | nil => simp
  | cons a l ih =>
    cases n with
    | zero => simp
    | succ n =>
      by_cases hk : a = key
      · simp [hk]
      · simp [hk, Ne.symm hk, ih]

theorem filter_ne_self {l : List κ} {key : κ} (h : key ∉ l) : l.filter (· ≠ key) = l :=
  List.filter_eq_self.mpr fun _ hb => decide_eq_true fun hbk => h (hbk ▸ hb)

/-- Leaving a key out before or after the first ones are taken is the same for those that have room
behind it. -/
theorem take_filter_take {l : List κ} (hn : l.Nodup) (n : Nat) (key : κ) :
    ((l.take (n + 1)).filter (· ≠ key)).take n = (l.filter (· ≠ key)).take n := by
  induction l generalizing n with
  | nil => rfl
  | cons a l ih =>
    obtain ⟨ha, hl⟩ := List.nodup_cons.mp hn
    rw [List.take_succ_cons]
    by_cases hk : a = key
    · subst hk
      have hfront : a ∉ l.take n := fun hm => ha (List.mem_of_mem_take hm)
      rw [List.filter_cons_of_neg (by simp), List.filter_cons_of_neg (by simp),
        filter_ne_self hfront, filter_ne_self ha, List.take_take, Nat.min_self]
    · rw [List.filter_cons_of_pos (by simp [hk]), List.filter_cons_of_pos (by simp [hk])]
      cases n with
      | zero => rfl
      | succ n => rw [List.take_succ_cons, List.take_succ_cons, ih hl]

end Recency

section Contents

variable {room : Nat} {s : Store} {touches : List Ident} {last : Ident → Option Bytes} {key : Ident}
  {value : Bytes}

theorem mem_of_get? (h : s.get? key = some value) : (key, value) ∈ s.values := by
  obtain ⟨e, he, rfl⟩ := Option.map_eq_some_iff.mp h
  have hk : e.1 = key := by simpa using List.find?_some he
  exact hk ▸ List.mem_of_find?_eq_some he

theorem get?_isSome_iff : (s.get? key).isSome ↔ key ∈ s.values.map Prod.fst := by
  simp [get?]

theorem read_subset (s : Store) (key : Ident) :
    (∀ value, (s.read key).1 = some value → (key, value) ∈ s.values) ∧
      ∀ e ∈ (s.read key).2.values, e ∈ s.values := by
  unfold read
  split
  next value hv =>
    have hm := mem_of_get? hv
    refine ⟨fun _ he => Option.some.inj he ▸ hm, fun e he => ?_⟩
    rcases List.mem_cons.mp he with rfl | he
    · exact hm
    · exact (List.mem_filter.mp he).1
  next => exact ⟨nofun, fun _ he => he⟩

/-- What is stored where there is room for some values, after the keys were touched in this order,
and for every key this was written last. -/
structure Holds (room : Nat) (s : Store) (touches : List Ident) (last : Ident → Option Bytes) :
    Prop where
  capacity_eq : s.capacity = room
  room_pos : 0 < room
  keys : s.values.map Prod.fst = (recents touches).take room
  written : ∀ e ∈ s.values, last e.1 = some e.2
  touched : ∀ key value, last key = some value → key ∈ touches

theorem new_holds (maxValues : Nat) :
    Holds (max 1 maxValues) (Store.new maxValues) [] fun _ => none := by
  refine ⟨rfl, Nat.le_max_left 1 maxValues, ?_, List.forall_mem_nil _, fun _ _ => nofun⟩
  exact List.take_nil.symm

theorem Holds.nodup (h : Holds room s touches last) : (s.values.map Prod.fst).Nodup := by
  rw [h.keys]
  exact (recents_nodup touches).sublist (List.take_sublist _ _)

theorem Holds.length_le (h : Holds room s touches last) : s.values.length ≤ room := by
  rw [← List.length_map Prod.fst, h.keys]
  exact List.length_take_le _ _

/-- A key is found as long as fewer others have been touched since than there is room for. -/
theorem Holds.get?_iff (h : Holds room s touches last) (key : Ident) (value : Bytes) :
    s.get? key = some value ↔
      last key = some value ∧ (since touches key).toFinset.card < room := by
  have hstored : (s.get? key).isSome ↔
      key ∈ touches ∧ (since touches key).toFinset.card < room := by
    rw [get?_isSome_iff, h.keys, mem_take_iff, mem_recents, length_takeWhile_recents]
  constructor
  · intro hg
    exact ⟨h.written _ (mem_of_get? hg), (hstored.mp (Option.isSome_of_eq_some hg)).2⟩
  · rintro ⟨hl, hc⟩
    obtain ⟨found, hg⟩ := Option.isSome_iff_exists.mp (hstored.mpr ⟨h.touched key value hl, hc⟩)
    have hw : last key = some found := h.written _ (mem_of_get? hg)
    rw [hg, ← hw, hl]

/-- The entry of a key comes to the front, and the last one goes when there is no room for it. -/
def promoted (s : Store) (key : Ident) (value : Bytes) : Store :=
  { s with values := ((key, value) :: s.values.filter fun e => e.1 ≠ key).take s.capacity }

theorem filter_length_lt (hk : key ∈ s.values.map Prod.fst) :
    (s.values.filter fun e => e.1 ≠ key).length < s.values.length := by
  obtain ⟨e, he, rfl⟩ := List.mem_map.mp hk
  refine List.length_filter_lt_length_iff_exists.mpr ⟨e, he, by simp⟩

theorem Holds.touch_eq (h : Holds room s touches last) (hk : key ∈ s.values.map Prod.fst)
    (value : Bytes) : s.touch key value = s.promoted key value := by
  have hfits : ((key, value) :: s.values.filter fun e => e.1 ≠ key).length ≤ s.capacity :=
    h.capacity_eq ▸ Nat.le_trans (filter_length_lt hk) h.length_le
  rw [touch, promoted, List.take_of_length_le hfits]

theorem Holds.write_eq (h : Holds room s touches last) (key : Ident) (value : Bytes) :
    s.write key value = s.promoted key value := by
  rw [write]
  split
  next hk => exact h.touch_eq (get?_isSome_iff.mp hk) value
  next hk =>
    have hall : (s.values.filter fun e => e.1 ≠ key) = s.values :=
      List.filter_eq_self.mpr fun e he => decide_eq_true fun hek =>
        hk (get?_isSome_iff.mpr (List.mem_map.mpr ⟨e, he, hek⟩))
    obtain ⟨rest, hrest⟩ := Nat.exists_eq_succ_of_ne_zero (Nat.ne_of_gt h.room_pos)
    rw [promoted, hall, h.capacity_eq, hrest, List.take_succ_cons, Nat.succ_sub_one]

theorem Holds.promoted (h : Holds room s touches last) (key : Ident) (value : Bytes) :
    Holds room (s.promoted key value) (touches ++ [key])
      (Function.update last key (some value)) := by
  constructor
  case capacity_eq => exact h.capacity_eq
  case room_pos => exact h.room_pos
  case keys =>
    have hmap : (s.values.filter fun e => e.1 ≠ key).map Prod.fst =
        ((recents touches).take room).filter (· ≠ key) := by
      rw [← h.keys, List.filter_map]
      rfl
    obtain ⟨rest, hrest⟩ := Nat.exists_eq_succ_of_ne_zero (Nat.ne_of_gt h.room_pos)
    rw [Store.promoted, h.capacity_eq, List.map_take, List.map_cons, hmap, recents_concat, hrest,
      List.take_succ_cons, List.take_succ_cons, take_filter_take (recents_nodup touches)]
  case written =>
    intro e he
    rcases List.mem_cons.mp (List.mem_of_mem_take he) with rfl | he
    · exact Function.update_self ..
    · obtain ⟨he, hne⟩ := List.mem_filter.mp he
      rw [Function.update_of_ne (of_decide_eq_true hne)]
      exact h.written e he
  case touched =>
    intro other v hv
    by_cases ho : other = key
    · exact ho ▸ List.mem_append_right _ (List.mem_singleton_self _)
    · rw [Function.update_of_ne ho] at hv
      exact List.mem_append_left _ (h.touched other v hv)

theorem Holds.write (h : Holds room s touches last) (key : Ident) (value : Bytes) :
    Holds room (s.write key value) (touches ++ [key]) (Function.update last key (some value)) :=
  h.write_eq key value ▸ h.promoted key value

theorem Holds.read (h : Holds room s touches last) (hg : s.get? key = some value) :
    Holds room (s.read key).2 (touches ++ [key]) last := by
  have hread : (s.read key).2 = s.promoted key value := by
    rw [Store.read, hg]
    exact h.touch_eq (get?_isSome_iff.mp (Option.isSome_of_eq_some hg)) value
  have hsame : Function.update last key (some value) = last := by
    rw [← h.written _ (mem_of_get? hg)]
    exact Function.update_eq_self key last
  have hp := h.promoted key value
  rwa [hsame, ← hread] at hp

theorem read_of_none (hg : s.get? key = none) : s.read key = (none, s) := by
  rw [read, hg]

theorem read_fst (s : Store) (key : Ident) : (s.read key).1 = s.get? key := by
  rw [read]
  cases s.get? key <;> rfl

end Contents

end Kademlia.Store
