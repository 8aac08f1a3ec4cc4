import Kademlia.Proofs.Catalog
import Kademlia.Proofs.Lookup.Question

/-!
The entries of a coalescer, and who waits behind them. For each question a queue of tickets waits
while a lookup runs for it, and is handed the finding as a whole.
-/

namespace Kademlia

namespace Coalescer

variable {τ : Type}

section Entries

def entry (c : Coalescer τ) (q : Question) : CacheEntry τ := (c.entries.get? q).getD {}

def waiting (c : Coalescer τ) (q : Question) : List τ := (c.entry q).waiting

/-- What is known about a question, but for a finding that is too old. -/
def standing (c : Coalescer τ) (now : Time) (q : Question) : CacheEntry τ :=
  let e := c.entry q
  if !e.running && e.expired c.ttl now then { e with finding := none } else e

theorem entry_put (c : Coalescer τ) (q other : Question) (e : CacheEntry τ) :
    ({ c with entries := c.entries.put q e } : Coalescer τ).entry other =
      if other = q then e else c.entry other := by
  simp only [entry, Catalog.get?_put]
  split <;> rfl

theorem standing_cases (c : Coalescer τ) (now : Time) (q : Question) :
    c.standing now q = c.entry q ∨
      (c.entry q).running = false ∧ c.standing now q = { c.entry q with finding := none } := by
  unfold standing
  dsimp only
  split
  next h =>
    rw [Bool.and_eq_true, Bool.not_eq_true'] at h
    exact Or.inr ⟨h.1, rfl⟩
  next => exact Or.inl rfl

theorem expired_iff {e : CacheEntry τ} {f : Finding} {time : Time}
    (hf : e.finding = some (f, time)) (ttl : Duration) (now : Time) :
    e.expired ttl now = true ↔ time + ttl < now := by
  simp [CacheEntry.expired, hf, Time.overdue]

/-- Purging forgets only entries without a running lookup whose finding is too old. -/
theorem entry_purge {c : Coalescer τ} (hk : c.entries.keys.Nodup) (now : Time) (q : Question) :
    (c.purge now).entry q = c.entry q ∨
      (c.entry q).running = false ∧ (c.entry q).expired c.ttl now = true ∧
        (c.purge now).entry q = {} := by
  simp only [entry, purge, Catalog.get?_filter hk]
  cases hq : c.entries.get? q with
  | none => exact Or.inl rfl
  | some e =>
    by_cases hkeep : (e.running || !e.expired c.ttl now) = true
    · exact Or.inl (by simp [Option.filter, hkeep])
    · have hdrop := hkeep
      rw [Bool.not_eq_true, Bool.or_eq_false_iff, Bool.not_eq_false'] at hdrop
      exact Or.inr ⟨hdrop.1, hdrop.2, by simp [Option.filter, hkeep]⟩

end Entries

section Serving

/-- What one entry owes to its question: nobody waits without a running lookup, nothing is kept
beside one, and what is kept answers the question. -/
structure Sound (q : Question) (e : CacheEntry τ) : Prop where
  idle : e.running = false → e.waiting = []
  awaited : e.running = true → e.finding = none
  kept : ∀ f time, e.finding = some (f, time) → f.Answers q

def served (q : Question) (answered : List (Question × Delivery τ)) : List τ :=
  (answered.filter fun a => a.1 = q).map fun a => a.2.ticket

/-- The entries of a coalescer when lookups run for the questions `active`, and the deliveries
`answered` have been made, each for a question: a question's tickets have been answered or wait, in
the order in which they came. -/
structure Serving (c : Coalescer τ) (active : List Question) (asked : Question → List τ)
    (answered : List (Question × Delivery τ)) : Prop where
  keys : c.entries.keys.Nodup
  once : active.Nodup
  sound : ∀ q, Sound q (c.entry q)
  running : ∀ q, q ∈ active ↔ (c.entry q).running = true
  order : ∀ q, served q answered ++ c.waiting q = asked q
  answers : ∀ a ∈ answered, a.2.finding.Answers a.1

variable {c : Coalescer τ} {active : List Question} {asked : Question → List τ}
  {answered : List (Question × Delivery τ)}

theorem served_append (q : Question) (answered more : List (Question × Delivery τ)) :
    served q (answered ++ more) = served q answered ++ served q more := by
  simp [served]

theorem Serving.perm (h : Serving c active asked answered) {other : List Question}
    (hp : other.Perm active) : Serving c other asked answered :=
  ⟨h.keys, hp.nodup_iff.mpr h.once, h.sound, fun q => hp.mem_iff.trans (h.running q), h.order,
    h.answers⟩

theorem Serving.waiting_of_not_mem (h : Serving c active asked answered) {q : Question}
    (hq : q ∉ active) : c.waiting q = [] :=
  (h.sound q).idle (by rwa [h.running, Bool.not_eq_true] at hq)

def handout (c : Coalescer τ) (δ : Delivery Question) : List (Question × Delivery τ) :=
  (c.waiting δ.ticket).map fun ticket => (δ.ticket, ⟨ticket, δ.finding⟩)

theorem served_handout (c : Coalescer τ) (δ : Delivery Question) (q : Question) :
    served q (c.handout δ) = if q = δ.ticket then c.waiting q else [] := by
  by_cases hq : q = δ.ticket
  · subst hq
    simp [served, handout, List.filter_map, Function.comp_def]
  · simp [served, handout, List.filter_map, Function.comp_def, hq, Ne.symm hq]

theorem fill_waiting (c : Coalescer τ) (now : Time) (δ : Delivery Question) (q : Question) :
    (c.fill now δ).1.waiting q = if q = δ.ticket then [] else c.waiting q := by
  have he := c.entry_put δ.ticket q ⟨false, some (δ.finding, now), []⟩
  rw [waiting, fill, he]
  split <;> rfl

theorem Serving.fill {δ : Delivery Question} (h : Serving c (δ.ticket :: active) asked answered)
    (hδ : δ.finding.Answers δ.ticket) (now : Time) :
    Serving (c.fill now δ).1 active asked (answered ++ c.handout δ) := by
  have he : ∀ q, (c.fill now δ).1.entry q =
      if q = δ.ticket then ⟨false, some (δ.finding, now), []⟩ else c.entry q := fun q =>
    c.entry_put δ.ticket q _
  obtain ⟨hout, honce⟩ := List.nodup_cons.mp h.once
  refine ⟨Catalog.put_nodup h.keys _ _, honce, ?_, ?_, ?_, ?_⟩
  · intro q
    rw [he]
    split
    next hq => exact ⟨fun _ => rfl, nofun, fun f time hf => by cases hf; exact hq ▸ hδ⟩
    next => exact h.sound q
  · intro q
    rw [he, ← Bool.not_eq_false]
    have hr := h.running q
    by_cases hq : q = δ.ticket
    · simp [hq, hout]
    · rw [if_neg hq, Bool.not_eq_false, ← hr, List.mem_cons, or_iff_right hq]
  · intro q
    rw [served_append, served_handout, fill_waiting, ← h.order q]
    by_cases hq : q = δ.ticket
    · simp [hq]
    · simp [hq]
  · rw [List.forall_mem_append]
    refine ⟨h.answers, ?_⟩
    intro a ha
    obtain ⟨ticket, -, rfl⟩ := List.mem_map.mp ha
    exact hδ

/-- All lookups that end in a step end one after the other, and each hands out its finding to those
who waited for it before. -/
theorem Serving.fillAll {ended : List (Delivery Question)}
    (h : Serving c (ended.map Delivery.ticket ++ active) asked answered)
    (hended : ∀ δ ∈ ended, δ.finding.Answers δ.ticket) (now : Time) :
    Serving (c.fillAll now ended).1 active asked (answered ++ ended.flatMap c.handout) ∧
      (c.fillAll now ended).2 = (ended.flatMap c.handout).map Prod.snd := by
  induction ended generalizing c answered with
  | nil => exact ⟨by simpa [Coalescer.fillAll] using h, rfl⟩
  | cons δ ended ih =>
    rw [List.forall_mem_cons] at hended
    obtain ⟨hs, hd⟩ := ih (h.fill hended.1 now) hended.2
    have hout : δ.ticket ∉ ended.map Delivery.ticket := fun hm =>
      (List.nodup_cons.mp h.once).1 (List.mem_append_left _ hm)
    -- the queues of the other questions are still what they were
    have hrest : ended.flatMap (c.fill now δ).1.handout = ended.flatMap c.handout := by
      apply List.flatMap_congr
      intro other ho
      have hne : other.ticket ≠ δ.ticket := fun he => hout (he ▸ List.mem_map_of_mem ho)
      rw [handout, handout, fill_waiting, if_neg hne]
    rw [hrest] at hs hd
    constructor
    · rwa [List.flatMap_cons, ← List.append_assoc]
    · have hfirst : (c.fill now δ).2 = (c.handout δ).map Prod.snd := by
        simp [Coalescer.fill, handout, waiting, entry]
      rw [List.flatMap_cons, List.map_append, ← hfirst, ← hd]
      rfl

theorem Serving.enroll (h : Serving c active asked answered) (q : Question) (ticket : τ) :
    Serving { c with entries := c.entries.put q ⟨true, none, c.waiting q ++ [ticket]⟩ }
      (if (c.entry q).running = true then active else q :: active)
      (fun other => asked other ++ if q = other then [ticket] else []) answered := by
  have he := fun other => c.entry_put q other ⟨true, none, c.waiting q ++ [ticket]⟩
  refine ⟨Catalog.put_nodup h.keys _ _, ?_, ?_, ?_, ?_,
    h.answers⟩
  · split
    next => exact h.once
    next hr => exact List.nodup_cons.mpr ⟨fun hm => hr ((h.running q).mp hm), h.once⟩
  · intro other
    rw [he]
    split
    next => exact ⟨nofun, fun _ => rfl, nofun⟩
    next => exact h.sound other
  · intro other
    rw [he]
    have ho := h.running other
    by_cases hq : other = q
    · subst hq
      split
      next hr => simp [ho, hr]
      next => simp
    · rw [if_neg hq, ← ho]
      split
      next => rfl
      next => rw [List.mem_cons, or_iff_right hq]
  · intro other
    rw [waiting, he, ← h.order other]
    by_cases hq : other = q
    · simp [hq]
    · simp [hq, Ne.symm hq, waiting]

theorem Serving.replay (h : Serving c active asked answered) {q : Question} {f : Finding}
    {time : Time} (hf : (c.entry q).finding = some (f, time)) (ticket : τ) :
    Serving { c with entries := c.entries.put q (c.entry q) } active
      (fun other => asked other ++ if q = other then [ticket] else [])
      (answered ++ [(q, ⟨ticket, f⟩)]) := by
  have hentry : ∀ other, ({ c with entries := c.entries.put q (c.entry q) } : Coalescer τ).entry
      other = c.entry other := by
    intro other
    rw [c.entry_put]
    split
    next hq => rw [hq]
    next => rfl
  have hidle : (c.entry q).running = false := by
    by_contra hr
    rw [Bool.not_eq_false] at hr
    simp [(h.sound q).awaited hr] at hf
  have hnone : c.waiting q = [] := (h.sound q).idle hidle
  refine ⟨Catalog.put_nodup h.keys _ _, h.once, fun other => (hentry other).symm ▸ h.sound other,
    fun other => (hentry other).symm ▸ h.running other, ?_, ?_⟩
  · intro other
    rw [waiting, hentry, served_append, ← h.order other]
    by_cases hq : q = other
    · subst hq
      have hw : (c.entry q).waiting = [] := hnone
      simp [served, hw, hnone]
    · simp [served, hq, waiting]
  · rw [List.forall_mem_append]
    refine ⟨h.answers, ?_⟩
    intro a ha
    rw [List.mem_singleton.mp ha]
    exact (h.sound q).kept f time hf

theorem Serving.waiting_purge (h : Serving c active asked answered) (now : Time) (q : Question) :
    (c.purge now).waiting q = c.waiting q := by
  rcases entry_purge h.keys now q with he | ⟨hr, -, he⟩
  · rw [waiting, he, waiting]
  · rw [waiting, he, waiting, (h.sound q).idle hr]

theorem Serving.purge (h : Serving c active asked answered) (now : Time) :
    Serving (c.purge now) active asked answered := by
  refine ⟨Catalog.filter_nodup h.keys _, h.once, ?_, ?_, ?_, h.answers⟩
  · intro q
    rcases entry_purge h.keys now q with he | ⟨-, -, he⟩
    · exact he.symm ▸ h.sound q
    · exact he.symm ▸ ⟨fun _ => rfl, nofun, nofun⟩
  · intro q
    rw [h.running]
    rcases entry_purge h.keys now q with he | ⟨hr, -, he⟩
    · rw [he]
    · rw [he, hr]
  · intro q
    rw [h.waiting_purge now, h.order]

end Serving

end Coalescer

end Kademlia
