import Kademlia.Lookup
import Kademlia.Proofs.Catalog
import Kademlia.Proofs.Lookup.Frontier

/-!
What a lookup does on its own accord: it enters peers, ends requests, and sends requests to
candidates. Everything else that it does is put together from these.
-/

namespace Kademlia.Lookup

/-- The records of a lookup agree: a request is active exactly for the peers in progress, every
contact has an address, the owner is no contact, and no slot is used twice. -/
structure Coherent (l : Lookup) : Prop where
  frontier : l.frontier.Sound
  active_nodup : (l.active.map Prod.fst).Nodup
  active_iff : ∀ id, id ∈ l.active.map Prod.fst ↔ l.frontier.progress? id = some .inProgress
  addressed : ∀ id, (l.frontier.progress? id).isSome = (l.peer? id).isSome
  owner_unknown : l.frontier.progress? l.owner = none
  bounded : l.frontier.inFlight ≤ l.alpha

theorem Coherent.active_perm {l : Lookup} (h : l.Coherent) :
    (l.active.map Prod.fst).Perm
      ((l.frontier.contacts.filter fun c => c.progress = .inProgress).map Contact.id) := by
  have hs : ((l.frontier.contacts.filter fun c => c.progress = .inProgress).map
      Contact.id).Nodup :=
    h.frontier.ordered.ids_nodup.sublist (List.filter_sublist.map _)
  refine (List.perm_ext_iff_of_nodup h.active_nodup hs).mpr fun id => ?_
  rw [h.active_iff, Frontier.progress?_eq_some h.frontier.ordered, List.mem_map]
  constructor
  · intro hm
    exact ⟨_, List.mem_filter.mpr ⟨hm, by simp⟩, rfl⟩
  · rintro ⟨c, hc, rfl⟩
    obtain ⟨hm, hp⟩ := List.mem_filter.mp hc
    rw [decide_eq_true_eq] at hp
    rwa [← hp]

theorem Coherent.inFlight_eq {l : Lookup} (h : l.Coherent) :
    l.frontier.inFlight = l.active.length := by
  rw [h.frontier.counted, List.countP_eq_length_filter]
  simpa using h.active_perm.length_eq.symm

theorem peer?_id {l : Lookup} {id : Ident} {p : Peer} (h : l.peer? id = some p) : p.id = id := by
  simp only [peer?, Option.map_eq_some_iff] at h
  obtain ⟨_, _, rfl⟩ := h
  rfl

section Enter

def addPeer (l : Lookup) (p : Peer) : Lookup :=
  if p.id = l.owner then l
  else
    { l with
      addresses := l.addresses.putNew p.id p.address
      frontier := (l.frontier.add p.id).2 }

theorem addPeers_eq (l : Lookup) (peers : List Peer) : l.addPeers peers = peers.foldl addPeer l :=
  rfl

theorem peer?_addPeer {l : Lookup} {p : Peer} (hp : p.id ≠ l.owner) (id : Ident) :
    (l.addPeer p).peer? id =
      if id = p.id then some ((l.peer? id).getD p) else l.peer? id := by
  simp only [addPeer, if_neg hp, peer?, Catalog.get?_putNew]
  by_cases hi : id = p.id
  · subst hi
    cases l.addresses.get? p.id <;> simp
  · simp [hi]

theorem progress?_addPeer {l : Lookup} (h : l.frontier.Sound) {p : Peer} (hp : p.id ≠ l.owner)
    (id : Ident) :
    (l.addPeer p).frontier.progress? id =
      if id = p.id then some ((l.frontier.progress? p.id).getD .pending)
      else l.frontier.progress? id := by
  simp only [addPeer, if_neg hp]
  exact Frontier.progress?_add h p.id id

theorem addPeer_coherent {l : Lookup} (h : l.Coherent) (p : Peer) : (l.addPeer p).Coherent := by
  by_cases hp : p.id = l.owner
  · rwa [addPeer, if_pos hp]
  have hpr := progress?_addPeer h.frontier hp
  have hpe := peer?_addPeer (l := l) hp
  refine ⟨?_, ?_, ?_, ?_, ?_, ?_⟩
  · simpa [addPeer, if_neg hp] using Frontier.add_sound h.frontier p.id
  · simpa [addPeer, if_neg hp] using h.active_nodup
  · intro id
    have ha : (l.addPeer p).active = l.active := by simp [addPeer, if_neg hp]
    rw [ha, h.active_iff, hpr]
    by_cases hi : id = p.id
    · subst hi
      cases l.frontier.progress? p.id <;> simp
    · simp [hi]
  · intro id
    rw [hpr, hpe]
    by_cases hi : id = p.id
    · simp [hi]
    · simpa [hi] using h.addressed id
  · have ho : (l.addPeer p).owner = l.owner := by simp [addPeer, if_neg hp]
    rw [ho, hpr, if_neg (Ne.symm hp)]
    exact h.owner_unknown
  · simpa [addPeer, if_neg hp] using h.bounded

theorem addPeers_coherent {l : Lookup} (h : l.Coherent) (peers : List Peer) :
    (l.addPeers peers).Coherent := by
  rw [addPeers_eq]
  induction peers generalizing l with
  | nil => exact h
  | cons p rest ih => exact ih (addPeer_coherent h p)

theorem addPeers_frame (l : Lookup) (peers : List Peer) :
    ∃ frontier addresses, l.addPeers peers = { l with frontier, addresses } ∧
      frontier.inFlight = l.frontier.inFlight ∧ frontier.k = l.frontier.k ∧
      frontier.target = l.frontier.target := by
  rw [addPeers_eq]
  induction peers generalizing l with
  | nil => exact ⟨_, _, rfl, rfl, rfl, rfl⟩
  | cons p rest ih =>
    obtain ⟨f, a, he, hi, hk, ht⟩ := ih (l.addPeer p)
    refine ⟨f, a, ?_, ?_⟩
    · rw [List.foldl_cons, he]
      unfold addPeer
      split <;> rfl
    · unfold addPeer at hi hk ht
      split at hi <;> simp_all

theorem addPeers_progress {l : Lookup} (h : l.Coherent) (peers : List Peer) (id : Ident) :
    (l.addPeers peers).frontier.progress? id = l.frontier.progress? id ∨
      l.frontier.progress? id = none ∧
        (l.addPeers peers).frontier.progress? id = some .pending := by
  rw [addPeers_eq]
  induction peers generalizing l with
  | nil => exact Or.inl rfl
  | cons p rest ih =>
    by_cases hp : p.id = l.owner
    · rw [List.foldl_cons, addPeer, if_pos hp]
      exact ih h
    have hk := progress?_addPeer h.frontier hp id
    rw [List.foldl_cons]
    rcases ih (addPeer_coherent h p) with hr | ⟨hn, hr⟩
    · rw [hr, hk]
      by_cases hi : id = p.id
      · subst hi
        cases l.frontier.progress? p.id <;> simp
      · exact Or.inl (if_neg hi)
    · rw [hr]
      rw [hk] at hn
      by_cases hi : id = p.id
      · rw [if_pos hi] at hn
        cases hn
      · rw [if_neg hi] at hn
        exact Or.inr ⟨hn, rfl⟩

end Enter

section Settle

theorem progress?_settle {l : Lookup} (h : l.frontier.Sound) (id other : Ident)
    (progress : Progress) :
    (l.settle id progress).frontier.progress? other =
      if other = id then (l.frontier.progress? id).map fun _ => progress
      else l.frontier.progress? other :=
  Frontier.progress?_mark h id other progress

theorem mem_active_settle (l : Lookup) (id other : Ident) (progress : Progress) :
    other ∈ (l.settle id progress).active.map Prod.fst ↔
      other ∈ l.active.map Prod.fst ∧ other ≠ id := by
  simp only [settle, List.mem_map, List.mem_filter, decide_eq_true_eq]
  constructor
  · rintro ⟨a, ⟨ha, hne⟩, rfl⟩
    exact ⟨⟨a, ha, rfl⟩, hne⟩
  · rintro ⟨⟨a, ha, rfl⟩, hne⟩
    exact ⟨a, ⟨ha, hne⟩, rfl⟩

theorem settle_coherent {l : Lookup} (h : l.Coherent) (id : Ident) {progress : Progress}
    (hp : progress ≠ .inProgress) : (l.settle id progress).Coherent := by
  have hpr := fun other => progress?_settle h.frontier id other progress
  refine ⟨Frontier.mark_sound h.frontier id progress, ?_, ?_, ?_, ?_, ?_⟩
  · exact h.active_nodup.sublist (List.filter_sublist.map _)
  · intro other
    rw [mem_active_settle, h.active_iff, hpr]
    by_cases ho : other = id
    · cases l.frontier.progress? id <;> simp [ho, hp]
    · simp [ho]
  · intro other
    have ha := h.addressed other
    rw [hpr]
    by_cases ho : other = id
    · simpa [ho, settle, peer?] using h.addressed id
    · simpa [ho, settle, peer?] using ha
  · rw [hpr]
    have hu := h.owner_unknown
    by_cases ho : l.owner = id
    · simpa [settle, ho] using hu
    · simpa [settle, ho] using hu
  · have hb := h.bounded
    cases hk : l.frontier.progress? id with
    | none => simpa [settle, Frontier.mark, hk] using hb
    | some before =>
      have hi := Frontier.mark_inFlight hk progress
      simp only [hp, if_false, Nat.add_zero] at hi
      simp only [settle, hi]
      omega

end Settle

section Ask

/-- `m` is `l` after the requests `out` have been sent: each went to a pending contact under its
known address, and only the progress made with these contacts has changed. -/
structure Asked (now : Time) (l m : Lookup) (out : List Outgoing) : Prop where
  frame : m = { l with
    frontier := m.frontier
    active := l.active ++ out.map fun o => (o.recipient.id, now) }
  k : m.frontier.k = l.frontier.k
  target : m.frontier.target = l.frontier.target
  distinct : (out.map fun o => o.recipient.id).Nodup
  sent : ∀ o ∈ out, o.context = l.context ∧ o.request = l.request ∧
    l.peer? o.recipient.id = some o.recipient ∧
    l.frontier.progress? o.recipient.id = some .pending
  progress : ∀ id, m.frontier.progress? id =
    if id ∈ out.map fun o => o.recipient.id then some .inProgress else l.frontier.progress? id

theorem Asked.refl (now : Time) (l : Lookup) : Asked now l l [] :=
  ⟨by simp, rfl, rfl, by simp, by simp, by simp⟩

theorem ask_asked {l : Lookup} (h : l.Coherent) (now : Time) {id : Ident}
    (hp : l.frontier.progress? id = some .pending) :
    ∃ o, (l.ask now id).2 = [o] ∧ o.recipient.id = id ∧ Asked now l (l.ask now id).1 [o] := by
  have hs : (l.peer? id).isSome := by rw [← h.addressed id, hp]; rfl
  obtain ⟨p, hpeer⟩ := Option.isSome_iff_exists.mp hs
  have hid := peer?_id hpeer
  refine ⟨⟨l.context, p, l.request⟩, by simp [ask, hpeer], hid, ?_⟩
  refine ⟨by simp [ask, hid], by simp [ask], by simp [ask], by simp, ?_, ?_⟩
  · intro o ho
    rw [List.mem_singleton] at ho
    subst ho
    exact ⟨rfl, rfl, hid ▸ hpeer, hid ▸ hp⟩
  · intro other
    have hm := Frontier.progress?_mark h.frontier id other .inProgress
    rw [hp] at hm
    simpa [ask, hid] using hm

theorem ask_coherent {l : Lookup} (h : l.Coherent) (now : Time) {id : Ident}
    (hp : l.frontier.progress? id = some .pending) (hb : l.frontier.inFlight < l.alpha) :
    (l.ask now id).1.Coherent ∧
      (l.ask now id).1.frontier.inFlight = l.frontier.inFlight + 1 := by
  have hi : (l.ask now id).1.frontier.inFlight = l.frontier.inFlight + 1 := by
    simp [ask, Frontier.mark_inFlight hp]
  have hpr : ∀ other, (l.ask now id).1.frontier.progress? other =
      if other = id then some .inProgress else l.frontier.progress? other := by
    intro other
    have hm := Frontier.progress?_mark h.frontier id other .inProgress
    rwa [hp] at hm
  have hnew : id ∉ l.active.map Prod.fst := by
    rw [h.active_iff, hp]
    simp
  refine ⟨⟨Frontier.mark_sound h.frontier id .inProgress, ?_, ?_, ?_, ?_, ?_⟩, hi⟩
  · simpa [ask, List.nodup_append, h.active_nodup] using fun a b hm he => hnew
      (List.mem_map.mpr ⟨_, he ▸ hm, rfl⟩)
  · intro other
    rw [hpr]
    have ha := h.active_iff other
    by_cases ho : other = id
    · simp [ask, ho]
    · simpa [ask, ho] using ha
  · intro other
    rw [hpr]
    by_cases ho : other = id
    · have ha := h.addressed id
      rw [hp] at ha
      simpa [ask, peer?, ho] using ha
    · simpa [ask, peer?, ho] using h.addressed other
  · have hne : l.owner ≠ id := by
      intro he
      have hu := h.owner_unknown
      rw [he, hp] at hu
      cases hu
    rw [hpr]
    simpa [ask, hne] using h.owner_unknown
  · rw [hi]
    exact hb

theorem Asked.trans {now : Time} {l m n : Lookup} {out more : List Outgoing}
    (h : Asked now l m out) (k : Asked now m n more) : Asked now l n (out ++ more) := by
  have hnew : ∀ o ∈ more, o.recipient.id ∉ out.map fun o => o.recipient.id := by
    intro o ho hm
    have hp := (k.sent o ho).2.2.2
    rw [h.progress, if_pos hm] at hp
    cases hp
  refine ⟨?_, k.k.trans h.k, k.target.trans h.target, ?_, ?_, ?_⟩
  · rw [k.frame, h.frame]
    simp
  · rw [List.map_append, List.nodup_append]
    refine ⟨h.distinct, k.distinct, ?_⟩
    rintro a ha b hb rfl
    obtain ⟨o, ho, rfl⟩ := List.mem_map.mp hb
    exact hnew o ho ha
  · intro o ho
    rcases List.mem_append.mp ho with ho | ho
    · exact h.sent o ho
    · obtain ⟨hc, hr, hp, hg⟩ := k.sent o ho
      rw [h.progress, if_neg (hnew o ho)] at hg
      rw [h.frame] at hc hr hp
      exact ⟨hc, hr, hp, hg⟩
  · intro id
    rw [k.progress, h.progress]
    by_cases hm : id ∈ more.map fun o => o.recipient.id
    · simp [hm]
    · simp [hm]

theorem fill_asked (now : Time) (slots : Nat) {l : Lookup} (h : l.Coherent)
    (hs : slots ≤ l.alpha - l.frontier.inFlight) :
    Asked now l (l.fill now slots).1 (l.fill now slots).2 ∧ (l.fill now slots).1.Coherent ∧
      ((l.fill now slots).1.frontier.inFlight = l.frontier.inFlight + slots ∨
        (l.fill now slots).1.frontier.candidate? = none) := by
  induction slots generalizing l with
  | zero => exact ⟨.refl now l, h, Or.inl rfl⟩
  | succ slots ih =>
    cases hc : l.frontier.candidate? with
    | none =>
      simp only [fill, hc]
      exact ⟨.refl now l, h, Or.inr trivial⟩
    | some id =>
      have hp := Frontier.progress?_candidate h.frontier (Frontier.candidate?_mem hc)
      obtain ⟨o, ho, _, ha⟩ := ask_asked h now hp
      obtain ⟨hk, hi⟩ := ask_coherent h now hp (by omega)
      have hal : (l.ask now id).1.alpha = l.alpha := rfl
      obtain ⟨hm, hcm, hend⟩ := ih hk (by omega)
      have hf : l.fill now (slots + 1) = (((l.ask now id).1.fill now slots).1,
          [o] ++ ((l.ask now id).1.fill now slots).2) := by
        simp [fill, hc, ho]
      rw [hf]
      refine ⟨ha.trans hm, hcm, hend.imp_left fun he => ?_⟩
      rw [he, hi]
      omega

/-- The slots are used up, or nobody is left to be asked. -/
def Busy (l : Lookup) : Prop :=
  l.frontier.inFlight = l.alpha ∨ l.frontier.candidate? = none

def Exhausted (l : Lookup) : Prop :=
  l.frontier.inFlight = 0 ∧ l.frontier.candidates = []

/-- All that pumping does: it sends requests until the lookup is busy, and ends the lookup when
nothing is in flight even then. -/
theorem pump_cases {l : Lookup} (h : l.Coherent) (now : Time) :
    ∃ m out, Asked now l m out ∧ m.Coherent ∧ m.Busy ∧
      (m.Exhausted ∧ l.pump now = ({ m with finished := true }, ⟨out, some m.finding⟩) ∨
        ¬ m.Exhausted ∧ l.pump now = (m, ⟨out, none⟩)) := by
  obtain ⟨ha, hk, hb⟩ := fill_asked now (l.alpha - l.frontier.inFlight) h (Nat.le_refl _)
  have hal : (l.fill now (l.alpha - l.frontier.inFlight)).1.alpha = l.alpha := by
    rw [ha.frame]
  refine ⟨_, _, ha, hk, hb.imp_left fun he => ?_, ?_⟩
  · have := h.bounded
    omega
  · unfold pump
    by_cases he : (l.fill now (l.alpha - l.frontier.inFlight)).1.Exhausted
    · obtain ⟨h0, hc⟩ := he
      exact Or.inl ⟨⟨h0, hc⟩, by simp [h0, hc, finish]⟩
    · refine Or.inr ⟨he, ?_⟩
      simp only [Exhausted, ← List.isEmpty_iff] at he
      simp only [he, if_false]

theorem pump_progress {l : Lookup} (h : l.Coherent) (now : Time) (id : Ident) :
    (l.pump now).1.frontier.progress? id = l.frontier.progress? id ∨
      l.frontier.progress? id = some .pending ∧
        (l.pump now).1.frontier.progress? id = some .inProgress := by
  obtain ⟨m, out, ha, -, -, hc⟩ := pump_cases h now
  have hm : (l.pump now).1.frontier.progress? id = m.frontier.progress? id := by
    rcases hc with ⟨-, he⟩ | ⟨-, he⟩
    all_goals rw [he]
  rw [hm, ha.progress]
  split
  next hout =>
    obtain ⟨o, ho, rfl⟩ := List.mem_map.mp hout
    exact Or.inr ⟨(ha.sent o ho).2.2.2, rfl⟩
  next => exact Or.inl rfl

end Ask

end Kademlia.Lookup
