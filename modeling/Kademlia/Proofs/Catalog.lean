import Mathlib.Data.List.Basic
import Mathlib.Data.List.Nodup
import Kademlia.Catalog

/-!
A catalog read as a partial function: what each way of writing does to the value of every key.
-/

namespace Kademlia.Catalog

variable {κ α : Type} [DecidableEq κ]

@[simp] theorem get?_nil (key : κ) : (⟨[]⟩ : Catalog κ α).get? key = none := rfl

theorem find?_overwrite (l : List (κ × α)) (key other : κ) (value : α) :
    (l.map fun e => if e.1 = key then (key, value) else e).find? (fun e => e.1 = other) =
      if other = key then (l.find? fun e => e.1 = key).map fun _ => (key, value)
      else l.find? fun e => e.1 = other := by
  induction l with
  | nil => simp
  | cons e rest ih =>
    by_cases he : e.1 = key
    · by_cases ho : other = key
      · simp [he, ho]
      · have hk : key ≠ other := Ne.symm ho
        simpa [he, ho, hk] using ih
    · by_cases ho : e.1 = other
      · have hk : other ≠ key := fun h => he (ho.trans h)
        simp [ho, hk]
      · simpa [he, ho] using ih

theorem get?_put (m : Catalog κ α) (key other : κ) (value : α) :
    (m.put key value).get? other = if other = key then some value else m.get? other := by
  by_cases hk : m.contains key
  · simp only [put, hk, if_true, get?, find?_overwrite]
    simp only [contains, get?, Option.isSome_map] at hk
    obtain ⟨e, he⟩ := Option.isSome_iff_exists.1 hk
    by_cases ho : other = key
    · simp [ho, he]
    · simp [ho]
  · have hn : m.get? key = none := by simpa [contains] using hk
    simp only [get?, Option.map_eq_none_iff] at hn
    simp only [put, hk, Bool.false_eq_true, if_false]
    by_cases ho : other = key
    · subst ho
      simp [get?, hn]
    · have hk : key ≠ other := Ne.symm ho
      simp [get?, ho, hk]

theorem get?_putNew (m : Catalog κ α) (key other : κ) (value : α) :
    (m.putNew key value).get? other =
      if other = key then some ((m.get? key).getD value) else m.get? other := by
  unfold putNew
  by_cases hk : m.contains key
  · obtain ⟨v, hv⟩ := Option.isSome_iff_exists.1 hk
    by_cases ho : other = key
    · simp [hk, ho, hv]
    · simp [hk, ho]
  · have hn : m.get? key = none := by simpa [contains] using hk
    simp [hk, get?_put, hn]

theorem get?_erase (m : Catalog κ α) (key other : κ) :
    (m.erase key).get? other = if other = key then none else m.get? other := by
  by_cases ho : other = key
  · subst ho
    simp [erase, get?, List.find?_filter]
  · simp only [erase, get?, List.find?_filter, if_neg ho]
    congr 2
    funext e
    by_cases he : e.1 = other
    · simp [he, ho]
    · simp [he]

theorem get?_mapValues {β : Type} (m : Catalog κ α) (f : α → β) (key : κ) :
    (m.mapValues f).get? key = (m.get? key).map f := by
  simp only [mapValues, get?, List.find?_map, Option.map_map]
  rfl

omit [DecidableEq κ] in
@[simp] theorem keys_mapValues {β : Type} (m : Catalog κ α) (f : α → β) :
    (m.mapValues f).keys = m.keys := by
  simp only [mapValues, keys, List.map_map]
  rfl

theorem mem_keys_iff (m : Catalog κ α) (key : κ) : key ∈ m.keys ↔ m.get? key ≠ none := by
  simp [keys, get?]

theorem mem_of_get? {m : Catalog κ α} {key : κ} {value : α} (h : m.get? key = some value) :
    (key, value) ∈ m.entries := by
  obtain ⟨e, he, rfl⟩ := Option.map_eq_some_iff.mp h
  have hk : e.1 = key := by simpa using List.find?_some he
  exact hk ▸ List.mem_of_find?_eq_some he

theorem get?_of_mem {m : Catalog κ α} (hn : m.keys.Nodup) {e : κ × α} (h : e ∈ m.entries) :
    m.get? e.1 = some e.2 := by
  obtain ⟨value, hv⟩ := Option.ne_none_iff_exists'.mp
    ((mem_keys_iff m e.1).mp (List.mem_map_of_mem h))
  have he := List.inj_on_of_nodup_map hn h (mem_of_get? hv) rfl
  rw [hv, he]

theorem erase_of_absent {m : Catalog κ α} {key : κ} (h : m.get? key = none) : m.erase key = m := by
  have hn : key ∉ m.keys := fun hk => (mem_keys_iff m key).mp hk h
  have he : m.entries.filter (fun e => e.1 ≠ key) = m.entries :=
    List.filter_eq_self.mpr fun e he => decide_eq_true fun hk =>
      hn (List.mem_map.mpr ⟨e, he, hk⟩)
  simp only [erase, he]

theorem put_same {m : Catalog κ α} (hn : m.keys.Nodup) {key : κ} {value : α}
    (h : m.get? key = some value) : m.put key value = m := by
  have hsame : ∀ e ∈ m.entries, (if e.1 = key then (key, value) else e) = e := by
    intro e he
    split
    next hk =>
      have hv := get?_of_mem hn he
      rw [hk, h] at hv
      exact Prod.ext hk.symm (Option.some.inj hv)
    next => rfl
  have hentries := (List.map_congr_left hsame).trans (List.map_id' m.entries)
  simp only [put, contains, h, Option.isSome_some, if_true, hentries]

section Perm

variable {m : Catalog κ α} {key : κ}

theorem entries_perm (hn : m.keys.Nodup) {value : α} (h : m.get? key = some value) :
    m.entries.Perm ((key, value) :: (m.erase key).entries) := by
  obtain ⟨front, back, he⟩ := List.append_of_mem (mem_of_get? h)
  have hk := hn
  rw [keys, he, List.map_append, List.map_cons, List.nodup_append, List.nodup_cons] at hk
  have hf : front.filter (fun e => e.1 ≠ key) = front :=
    List.filter_eq_self.mpr fun e hm => decide_eq_true fun hek =>
      hk.2.2 _ (List.mem_map_of_mem hm) _ List.mem_cons_self hek
  have hb : back.filter (fun e => e.1 ≠ key) = back :=
    List.filter_eq_self.mpr fun e hm => decide_eq_true fun hek =>
      hk.2.1.1 (List.mem_map.mpr ⟨e, hm, hek⟩)
  have herase : (m.erase key).entries = front ++ back := by
    rw [erase, he, List.filter_append, List.filter_cons_of_neg (by simp), hf, hb]
  rw [herase, he]
  exact List.perm_middle

theorem put_perm (hn : m.keys.Nodup) (value : α) :
    (m.put key value).entries.Perm ((key, value) :: (m.erase key).entries) := by
  cases hk : m.get? key with
  | none =>
    have hp : m.put key value = ⟨m.entries ++ [(key, value)]⟩ := by simp [put, contains, hk]
    rw [hp, erase_of_absent hk]
    exact List.perm_append_singleton _ _
  | some before =>
    have hp : (m.put key value).entries =
        m.entries.map fun e => if e.1 = key then (key, value) else e := by
      simp [put, contains, hk]
    have ho : (m.erase key).entries.map (fun e => if e.1 = key then (key, value) else e) =
        (m.erase key).entries := by
      refine (List.map_congr_left fun e he => ?_).trans (List.map_id' _)
      exact if_neg (of_decide_eq_true (List.mem_filter.mp he).2)
    rw [hp]
    simpa [ho] using (entries_perm hn hk).map fun e => if e.1 = key then (key, value) else e

theorem erase_nodup (hn : m.keys.Nodup) (key : κ) : (m.erase key).keys.Nodup :=
  hn.sublist (List.filter_sublist.map _)

omit [DecidableEq κ] in
theorem filter_nodup (hn : m.keys.Nodup) (keep : κ → α → Bool) : (m.filter keep).keys.Nodup :=
  hn.sublist (List.filter_sublist.map _)

theorem get?_filter (hn : m.keys.Nodup) (keep : κ → α → Bool) (key : κ) :
    (m.filter keep).get? key = (m.get? key).filter (keep key) := by
  ext value
  rw [Option.filter_eq_some_iff]
  constructor
  · intro h
    obtain ⟨hm, hk⟩ := List.mem_filter.mp (mem_of_get? h)
    exact ⟨get?_of_mem hn hm, hk⟩
  · rintro ⟨h, hk⟩
    have hm : (key, value) ∈ (m.filter keep).entries :=
      List.mem_filter.mpr ⟨mem_of_get? h, hk⟩
    exact get?_of_mem (filter_nodup hn keep) hm

theorem put_nodup (hn : m.keys.Nodup) (key : κ) (value : α) : (m.put key value).keys.Nodup := by
  refine (((put_perm hn value).map Prod.fst).nodup_iff).mpr ?_
  refine List.nodup_cons.mpr ⟨fun hm => ?_, erase_nodup hn key⟩
  exact (mem_keys_iff (m.erase key) key).mp hm (by rw [get?_erase, if_pos rfl])

end Perm

end Kademlia.Catalog
