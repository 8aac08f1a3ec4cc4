import Mathlib.Data.List.Basic
import Mathlib.Data.List.Nodup
import Kademlia.Lookup.Frontier
import Kademlia.Proofs.Ident

/-!
The frontier as a set of contacts. Its list stands in strict order of distance, so every identifier
has at most one contact, and each operation changes the progress made with one identifier only.
-/

namespace Kademlia.Frontier

def Ordered (target : Ident) (contacts : List Contact) : Prop :=
  contacts.Pairwise fun c d => c.id.distance target < d.id.distance target

structure Sound (f : Frontier) : Prop where
  ordered : Ordered f.target f.contacts
  counted : f.inFlight = f.contacts.countP fun c => c.progress = .inProgress

theorem Ordered.ids_nodup {target : Ident} {contacts : List Contact}
    (h : Ordered target contacts) : (contacts.map Contact.id).Nodup := by
  rw [List.Nodup, List.pairwise_map]
  refine List.Pairwise.imp ?_ h
  intro c d hlt he
  rw [he] at hlt
  exact Distance.lt_irrefl _ hlt

theorem Ordered.eq_of_id_eq {target : Ident} {contacts : List Contact}
    (h : Ordered target contacts) {c d : Contact} (hc : c ∈ contacts) (hd : d ∈ contacts)
    (he : c.id = d.id) : c = d :=
  List.inj_on_of_nodup_map h.ids_nodup hc hd he

@[simp] theorem meets_iff (f : Frontier) (id : Ident) (c : Contact) :
    f.meets id c = true ↔ c.id = id := by
  simp [meets]

theorem progress?_eq_some {f : Frontier} (h : Ordered f.target f.contacts) {id : Ident}
    {p : Progress} : f.progress? id = some p ↔ ⟨id, p⟩ ∈ f.contacts := by
  simp only [progress?, Option.map_eq_some_iff]
  constructor
  · rintro ⟨c, hc, rfl⟩
    have hid := (meets_iff f id c).mp (List.find?_some hc)
    subst hid
    exact List.mem_of_find?_eq_some hc
  · intro hm
    have hs : (f.contacts.find? (f.meets id)).isSome :=
      List.find?_isSome.mpr ⟨_, hm, (meets_iff f id _).mpr rfl⟩
    obtain ⟨c, hc⟩ := Option.isSome_iff_exists.mp hs
    have hid := (meets_iff f id c).mp (List.find?_some hc)
    have he := h.eq_of_id_eq (List.mem_of_find?_eq_some hc) hm hid
    exact ⟨c, hc, by rw [he]⟩

theorem progress?_eq_none {f : Frontier} {id : Ident} :
    f.progress? id = none ↔ ∀ c ∈ f.contacts, c.id ≠ id := by
  simp [progress?, meets]

theorem progress?_of_mem {f : Frontier} (h : Ordered f.target f.contacts) {c : Contact}
    (hc : c ∈ f.contacts) : f.progress? c.id = some c.progress :=
  (progress?_eq_some h).mpr hc

section Add

variable {target : Ident} {c : Contact} {contacts placed : List Contact}

theorem place_perm (h : place target c contacts = some placed) : placed.Perm (c :: contacts) := by
  induction contacts generalizing placed with
  | nil =>
    simp only [place, Option.some.injEq] at h
    subst h
    exact .refl _
  | cons d rest ih =>
    simp only [place] at h
    split at h
    · simp only [Option.some.injEq] at h
      subst h
      exact .refl _
    · cases h
    · obtain ⟨more, hm, rfl⟩ := Option.map_eq_some_iff.mp h
      exact ((ih hm).cons d).trans (.swap c d rest)

theorem place_ordered (ho : Ordered target contacts) (h : place target c contacts = some placed) :
    Ordered target placed := by
  induction contacts generalizing placed with
  | nil =>
    simp only [place, Option.some.injEq] at h
    subst h
    exact List.pairwise_singleton _ _
  | cons d rest ih =>
    obtain ⟨hd, hr⟩ := List.pairwise_cons.mp ho
    simp only [place] at h
    split at h
    next hc =>
      simp only [Option.some.injEq] at h
      subst h
      have hcd := Distance.compare_eq_lt.mp hc
      refine List.pairwise_cons.mpr ⟨?_, ho⟩
      intro e he
      rcases List.mem_cons.mp he with rfl | he
      · exact hcd
      · exact Distance.lt_trans hcd (hd e he)
    next => cases h
    next hc =>
      obtain ⟨more, hm, rfl⟩ := Option.map_eq_some_iff.mp h
      refine List.pairwise_cons.mpr ⟨?_, ih hr hm⟩
      intro e he
      rcases List.mem_cons.mp ((place_perm hm).mem_iff.mp he) with rfl | he
      · exact Distance.compare_eq_gt.mp hc
      · exact hd e he

/-- A contact finds its place unless one with its identifier is there already. -/
theorem place_eq_none (ho : Ordered target contacts) :
    place target c contacts = none ↔ ∃ d ∈ contacts, d.id = c.id := by
  induction contacts with
  | nil => simp [place]
  | cons d rest ih =>
    obtain ⟨hd, hr⟩ := List.pairwise_cons.mp ho
    simp only [place]
    split
    next hc =>
      have hcd := Distance.compare_eq_lt.mp hc
      refine iff_of_false (by simp) ?_
      rintro ⟨e, he, hid⟩
      rcases List.mem_cons.mp he with rfl | he
      · rw [hid] at hcd
        exact Distance.lt_irrefl _ hcd
      · have hde := hd e he
        rw [hid] at hde
        exact Distance.lt_asymm hcd hde
    next hc =>
      have hid := Ident.distance_inj.mp (Distance.compare_eq_eq.mp hc)
      exact iff_of_true rfl ⟨d, List.mem_cons_self, hid.symm⟩
    next hc =>
      have hne : d.id ≠ c.id := by
        intro hid
        rw [Distance.compare_eq_gt, hid] at hc
        exact Distance.lt_irrefl _ hc
      simp [ih hr, hne]

end Add

theorem add_sound {f : Frontier} (h : f.Sound) (id : Ident) : (f.add id).2.Sound := by
  unfold add
  split
  next placed hp =>
    refine ⟨place_ordered h.ordered hp, ?_⟩
    rw [(place_perm hp).countP_eq]
    simpa using h.counted
  next => exact h

theorem progress?_add {f : Frontier} (h : f.Sound) (id other : Ident) :
    (f.add id).2.progress? other =
      if other = id then some ((f.progress? id).getD .pending) else f.progress? other := by
  cases hp : place f.target ⟨id, .pending⟩ f.contacts with
  | some placed =>
    have hs : (f.add id).2 = { f with contacts := placed } := by simp [add, hp]
    have hn : f.progress? id = none := by
      rw [progress?_eq_none]
      intro c hc he
      have := (place_eq_none (c := ⟨id, .pending⟩) h.ordered).mpr ⟨c, hc, he⟩
      rw [hp] at this
      cases this
    rw [hs]
    ext p
    rw [progress?_eq_some (f := { f with contacts := placed }) (place_ordered h.ordered hp),
      (place_perm hp).mem_iff]
    by_cases ho : other = id
    · subst ho
      rw [progress?_eq_none] at hn
      have : ∀ p, (⟨other, p⟩ : Contact) ∉ f.contacts := fun p hc => hn _ hc rfl
      simp [progress?_eq_none.mpr hn, this, eq_comm]
    · simp [ho, ← progress?_eq_some h.ordered]
  | none =>
    have hs : (f.add id).2 = f := by simp [add, hp]
    obtain ⟨c, hc, he⟩ := (place_eq_none h.ordered).mp hp
    have hk := progress?_of_mem h.ordered hc
    rw [hs]
    by_cases ho : other = id
    · subst ho
      simp only [] at he
      rw [if_pos rfl, ← he, hk]
      rfl
    · rw [if_neg ho]

@[simp] theorem add_k (f : Frontier) (id : Ident) : (f.add id).2.k = f.k := by
  unfold add
  split <;> rfl

@[simp] theorem add_target (f : Frontier) (id : Ident) : (f.add id).2.target = f.target := by
  unfold add
  split <;> rfl

@[simp] theorem add_inFlight (f : Frontier) (id : Ident) : (f.add id).2.inFlight = f.inFlight := by
  unfold add
  split <;> rfl

section Mark

def remark (id : Ident) (progress : Progress) (c : Contact) : Contact :=
  if c.id = id then { c with progress } else c

@[simp] theorem remark_id (id : Ident) (progress : Progress) (c : Contact) :
    (remark id progress c).id = c.id := by
  unfold remark
  split <;> rfl

theorem remark_others {contacts : List Contact} {id : Ident} (progress : Progress)
    (h : ∀ c ∈ contacts, c.id ≠ id) : contacts.map (remark id progress) = contacts := by
  have he : ∀ c ∈ contacts, remark id progress c = c := fun c hc => if_neg (h c hc)
  rw [List.map_congr_left he, List.map_id']

theorem mark_contacts (f : Frontier) (id : Ident) (progress : Progress) :
    (f.mark id progress).2.contacts = f.contacts.map (remark id progress) := by
  unfold mark
  split
  next hn => exact (remark_others progress (progress?_eq_none.mp hn)).symm
  next => simp [remark]

@[simp] theorem mark_k (f : Frontier) (id : Ident) (progress : Progress) :
    (f.mark id progress).2.k = f.k := by
  unfold mark
  split <;> rfl

@[simp] theorem mark_target (f : Frontier) (id : Ident) (progress : Progress) :
    (f.mark id progress).2.target = f.target := by
  unfold mark
  split <;> rfl

theorem remark_ordered {target : Ident} {contacts : List Contact} (h : Ordered target contacts)
    (id : Ident) (progress : Progress) :
    Ordered target (contacts.map (remark id progress)) := by
  simpa [Ordered, List.pairwise_map] using h

theorem countP_remark {target : Ident} {contacts : List Contact} (h : Ordered target contacts)
    {id : Ident} {before : Progress} (hb : (⟨id, before⟩ : Contact) ∈ contacts)
    (progress : Progress) (q : Contact → Bool) :
    (contacts.map (remark id progress)).countP q + (if q ⟨id, before⟩ then 1 else 0) =
      contacts.countP q + (if q ⟨id, progress⟩ then 1 else 0) := by
  obtain ⟨front, back, rfl⟩ := List.append_of_mem hb
  have hnd := h.ids_nodup
  simp only [List.map_append, List.map_cons, List.nodup_append, List.nodup_cons] at hnd
  have hf : ∀ c ∈ front, c.id ≠ id := fun c hc =>
    hnd.2.2 _ (List.mem_map_of_mem hc) _ List.mem_cons_self
  have hk : ∀ c ∈ back, c.id ≠ id := fun c hc he =>
    hnd.2.1.1 (List.mem_map.mpr ⟨c, hc, he⟩)
  have hc : remark id progress ⟨id, before⟩ = ⟨id, progress⟩ := if_pos rfl
  simp only [List.map_append, List.map_cons, remark_others progress hf, remark_others progress hk,
    hc, List.countP_append, List.countP_cons]
  omega

theorem mark_inFlight {f : Frontier} {id : Ident} {before : Progress}
    (h : f.progress? id = some before) (progress : Progress) :
    (f.mark id progress).2.inFlight =
      (f.inFlight - if before = .inProgress then 1 else 0) +
        if progress = .inProgress then 1 else 0 := by
  simp only [mark, h]
  split <;> split <;> simp_all

theorem inFlight_pos {f : Frontier} (h : f.Sound) {id : Ident}
    (hp : f.progress? id = some .inProgress) : 0 < f.inFlight := by
  rw [h.counted]
  exact List.countP_pos_iff.mpr ⟨_, (progress?_eq_some h.ordered).mp hp, by simp⟩

theorem mark_sound {f : Frontier} (h : f.Sound) (id : Ident) (progress : Progress) :
    (f.mark id progress).2.Sound := by
  constructor
  · rw [mark_contacts, mark_target]
    exact remark_ordered h.ordered id progress
  · rw [mark_contacts]
    cases hp : f.progress? id with
    | none =>
      rw [remark_others progress (progress?_eq_none.mp hp), ← h.counted]
      simp [mark, hp]
    | some before =>
      have hc := countP_remark h.ordered ((progress?_eq_some h.ordered).mp hp) progress
        fun c => c.progress = .inProgress
      have hle : (if before = .inProgress then 1 else 0) ≤ f.inFlight := by
        split
        next hb =>
          subst hb
          exact inFlight_pos h hp
        next => exact Nat.zero_le _
      rw [mark_inFlight hp, h.counted]
      rw [h.counted] at hle
      simp only [decide_eq_true_eq] at hc
      omega

theorem progress?_mark {f : Frontier} (h : f.Sound) (id other : Ident) (progress : Progress) :
    (f.mark id progress).2.progress? other =
      if other = id then (f.progress? id).map fun _ => progress else f.progress? other := by
  have ho := (mark_sound h id progress).ordered
  ext p
  rw [progress?_eq_some ho, mark_contacts, List.mem_map]
  by_cases he : other = id
  · subst he
    rw [if_pos rfl, Option.map_eq_some_iff]
    constructor
    · rintro ⟨c, hc, hr⟩
      have hid : c.id = other := by simpa using congrArg Contact.id hr
      refine ⟨c.progress, (progress?_eq_some h.ordered).mpr (hid ▸ hc), ?_⟩
      simpa [remark, hid] using congrArg Contact.progress hr
    · rintro ⟨q, hq, rfl⟩
      exact ⟨_, (progress?_eq_some h.ordered).mp hq, if_pos rfl⟩
  · rw [if_neg he, progress?_eq_some h.ordered]
    constructor
    · rintro ⟨c, hc, hr⟩
      have hid : c.id = other := by simpa using congrArg Contact.id hr
      have hne : c.id ≠ id := fun hi => he (hid.symm.trans hi)
      rwa [← hr, remark, if_neg hne]
    · intro hm
      exact ⟨_, hm, if_neg he⟩

end Mark

section Window

theorem progress?_candidate {f : Frontier} (h : f.Sound) {id : Ident}
    (hc : id ∈ f.candidates) : f.progress? id = some .pending := by
  simp only [candidates, window, List.mem_map, List.mem_filter, decide_eq_true_eq] at hc
  obtain ⟨c, ⟨hw, hp⟩, rfl⟩ := hc
  rw [progress?_of_mem h.ordered (List.mem_filter.mp (List.mem_of_mem_take hw)).1, hp]

theorem candidate?_mem {f : Frontier} {id : Ident} (h : f.candidate? = some id) :
    id ∈ f.candidates :=
  List.mem_of_head? h

theorem candidates_eq_nil {f : Frontier} : f.candidates = [] ↔ f.candidate? = none := by
  simp [candidate?]

end Window

end Kademlia.Frontier
