import Kademlia.Proofs.Coalescer.Recall

/-!
How long a coalescer goes on giving a finding. Main statements: whoever asks is given the finding of
the last lookup as long as that is good; a coalescer that forgets nothing gives the same; and after a
sweep just the running lookups and the good findings are kept.
-/

namespace Kademlia

namespace Coalescer

variable {τ : Type}

section Keeping

/-- Two coalescers that nobody can tell apart from some time on, though one may have forgotten
findings that the other one keeps. -/
structure Alike (clock : Time) (c k : Coalescer τ) : Prop where
  inner : k.inner = c.inner
  ttl : k.ttl = c.ttl
  sample : k.defaultSample = c.defaultSample
  standing : ∀ now q, clock ≤ now → k.standing now q = c.standing now q

variable {c k : Coalescer τ} {clock now : Time}

theorem Alike.mono (h : Alike clock c k) (hc : clock ≤ now) : Alike now c k :=
  ⟨h.inner, h.ttl, h.sample, fun later q hl => h.standing later q (Nat.le_trans hc hl)⟩

theorem standing_waiting (c : Coalescer τ) (now : Time) (q : Question) :
    (c.standing now q).waiting = c.waiting q := by
  rcases c.standing_cases now q with he | ⟨-, he⟩
  · rw [he, waiting]
  · rw [he, waiting]

theorem standing_put (c : Coalescer τ) (q other : Question) (e : CacheEntry τ) (now : Time) :
    ({ c with entries := c.entries.put q e } : Coalescer τ).standing now other =
      if other = q then
        if !e.running && e.expired c.ttl now then { e with finding := none } else e
      else c.standing now other := by
  unfold standing
  rw [c.entry_put]
  by_cases hq : other = q
  · simp only [if_pos hq]
  · simp only [if_neg hq]

theorem Alike.write (h : Alike clock c k) (q : Question) (e : CacheEntry τ) :
    Alike clock { c with entries := c.entries.put q e } { k with entries := k.entries.put q e } := by
  refine ⟨h.inner, h.ttl, h.sample, ?_⟩
  intro now other hn
  rw [standing_put, standing_put, h.ttl, h.standing now other hn]

theorem Alike.waiting (h : Alike clock c k) (q : Question) : k.waiting q = c.waiting q := by
  rw [← standing_waiting k clock, ← standing_waiting c clock, h.standing clock q (Nat.le_refl _)]

theorem Alike.fillAll (h : Alike clock c k) (now : Time) (ended : List (Delivery Question)) :
    Alike clock (c.fillAll now ended).1 (k.fillAll now ended).1 ∧
      (k.fillAll now ended).2 = (c.fillAll now ended).2 := by
  induction ended generalizing c k with
  | nil => exact ⟨h, rfl⟩
  | cons δ ended ih =>
    have hnext : Alike clock (c.fill now δ).1 (k.fill now δ).1 :=
      h.write δ.ticket ⟨false, some (δ.finding, now), []⟩
    have hgiven : (k.fill now δ).2 = (c.fill now δ).2 := by
      change (k.waiting δ.ticket).map _ = (c.waiting δ.ticket).map _
      rw [h.waiting]
    obtain ⟨ha, hd⟩ := ih hnext
    constructor
    · exact ha
    · simp only [Coalescer.fillAll, hgiven, hd]

theorem Alike.absorb (h : Alike clock c k) (now : Time)
    (s : Dispatcher Question × List (Delivery Question)) :
    Alike clock (c.absorb now s).1 (k.absorb now s).1 ∧ (k.absorb now s).2 = (c.absorb now s).2 := by
  have hopen : Alike clock { c with inner := s.1 } { k with inner := s.1 } :=
    ⟨rfl, h.ttl, h.sample, h.standing⟩
  exact hopen.fillAll now s.2

theorem Alike.start (h : Alike now c k) (tables : Directory) (goal : Goal) (ticket : τ) :
    Alike now (c.start now tables goal ticket).1 (k.start now tables goal ticket).1 ∧
      (k.start now tables goal ticket).2 = (c.start now tables goal ticket).2 := by
  have hq : goal.question k.defaultSample = goal.question c.defaultSample := by rw [h.sample]
  have hinner : k.inner.start now tables goal (goal.question c.defaultSample) =
      c.inner.start now tables goal (goal.question c.defaultSample) := by rw [h.inner]
  rw [c.start_eq now tables ticket rfl, k.start_eq now tables ticket hq,
    h.standing now _ (Nat.le_refl _), hinner]
  dsimp only
  split
  · exact ⟨h.write _ _, rfl⟩
  · split
    · exact ⟨h.write _ _, rfl⟩
    · exact (h.write _ _).absorb now _

/-- What a purge forgets could not have been given any more. -/
theorem standing_purge {active : List Question} {asked : Question → List τ}
    {answered : List (Question × Delivery τ)} (hs : Serving c active asked answered)
    {later : Time} (hl : now ≤ later) (q : Question) :
    (c.purge now).standing later q = c.standing later q := by
  rcases entry_purge hs.keys now q with he | ⟨hidle, hold, he⟩
  · have hsame : (c.purge now).ttl = c.ttl := rfl
    simp only [standing, he, hsame]
  · have hnone : (c.entry q).waiting = [] := (hs.sound q).idle hidle
    have hstill : (c.entry q).expired c.ttl later = true := by
      cases hf : (c.entry q).finding with
      | none => simp [CacheEntry.expired, hf] at hold
      | some found =>
        rw [expired_iff hf] at hold ⊢
        exact Nat.lt_of_lt_of_le hold hl
    have hpurged : (c.purge now).standing later q = {} := by
      simp [standing, he, CacheEntry.expired]
    rw [hpurged]
    simp [standing, hidle, hstill, hnone]

/-- Takes one call without forgetting anything. -/
def stepKeeping (c : Coalescer τ) : Call τ → Coalescer τ × List (Delivery τ)
  | .sweep now order => c.absorb now (c.inner.sweep now order)
  | call => c.step call

def playKeeping (c : Coalescer τ) : List (Call τ) → Coalescer τ × List (Delivery τ)
  | [] => (c, [])
  | call :: calls =>
    let (c, delivered) := c.stepKeeping call
    let (c, more) := c.playKeeping calls
    (c, delivered ++ more)

variable {p : Parameters} {started : Nat} {asked : Question → List τ}
  {answered : List (Question × Delivery τ)}

theorem Alike.step (h : Alike clock c k) (hl : Ledger p started c asked answered) (call : Call τ)
    (ht : ∀ now, call.time? = some now → clock ≤ now) :
    Alike (call.time?.getD clock) (c.step call).1 (k.stepKeeping call).1 ∧
      (k.stepKeeping call).2 = (c.step call).2 := by
  cases call with
  | start now tables goal ticket => exact (h.mono (ht now rfl)).start tables goal ticket
  | respond now sender response =>
    have h' := h.mono (ht now rfl)
    cases hr : c.inner.respond now sender response with
    | ok s =>
      have hc := (step_respond_ok hr).2
      have hk : k.stepKeeping (.respond now sender response) = k.absorb now s :=
        (step_respond_ok (h.inner ▸ hr)).2
      rw [hc, hk]
      exact h'.absorb now s
    | error fault =>
      have hc := (step_respond_error hr).2
      have hk : k.stepKeeping (.respond now sender response) = (k, []) :=
        (step_respond_error (h.inner ▸ hr)).2
      rw [hc, hk]
      exact ⟨h', rfl⟩
  | peerFailed now context peer =>
    have hk : k.stepKeeping (.peerFailed now context peer) =
        k.absorb now (c.inner.peerFailed now context peer) := by
      simp [stepKeeping, Coalescer.step, peerFailed, h.inner]
    rw [hk]
    exact (h.mono (ht now rfl)).absorb now _
  | sweep now order =>
    have hk : k.stepKeeping (.sweep now order) = k.absorb now (c.inner.sweep now order) := by
      rw [stepKeeping, h.inner]
    obtain ⟨ha, hd⟩ := (h.mono (ht now rfl)).absorb now (c.inner.sweep now order)
    obtain ⟨_, hl', -, -⟩ := hl.absorb_sweep now order
    rw [hk]
    refine ⟨⟨ha.inner, ha.ttl, ha.sample, ?_⟩, hd⟩
    intro later q hlater
    rw [ha.standing later q hlater]
    exact (standing_purge hl'.serving hlater q).symm
  | pop =>
    have hinner : k.inner.pop.2 = c.inner.pop.2 := by rw [h.inner]
    exact ⟨⟨hinner, h.ttl, h.sample, h.standing⟩, rfl⟩

theorem Alike.play (h : Alike clock c k) (hl : Ledger p started c asked answered)
    (calls : List (Call τ)) (hs : started + calls.countP Call.isStart < 2 ^ 64)
    (ht : (clock :: (times calls ++ [now])).Pairwise (· ≤ ·)) :
    (k.playKeeping calls).1.inner = (c.play calls).1.inner ∧
      (k.playKeeping calls).2 = (c.play calls).2 := by
  induction calls generalizing c k clock started asked answered with
  | nil => exact ⟨h.inner, rfl⟩
  | cons call calls ih =>
    obtain ⟨hnow, hnext⟩ := ordered_cons ht
    rw [countP_cons_eq, ← Nat.add_assoc] at hs
    obtain ⟨_, hl', -, -⟩ := hl.step call (by omega)
    obtain ⟨ha, hd⟩ := h.step hl call hnow
    obtain ⟨hinner, hrest⟩ := ih ha hl' hs hnext
    constructor
    · exact hinner
    · simp only [playKeeping, Coalescer.play, hd, hrest]

end Keeping

section Asking

/-- What becomes of whoever asks a question. The finding of the last lookup is given, and no lookup
touched, if and only if none runs for the question and the finding is good. A running lookup is
waited for. Else one lookup starts, and what it finds at once is given. -/
structure Serves (ttl : Duration) (done : List Completion) (c : Coalescer τ) (now : Time)
    (tables : Directory) (goal : Goal) (q : Question) (ticket : τ)
    (r : Coalescer τ × List (Delivery τ)) : Prop where
  replays : ∀ f, (r.1.inner = c.inner ∧ r.2 = [⟨ticket, f⟩]) ↔
    (q ∉ c.questions ∧ Fresh ttl now done q f)
  waits : q ∈ c.questions →
    r.1.inner = c.inner ∧ r.2 = [] ∧ r.1.waiting q = c.waiting q ++ [ticket]
  starts : q ∉ c.questions → (∀ f, ¬ Fresh ttl now done q f) →
    r.1.inner = (c.inner.start now tables goal q).1 ∧
      r.2 = (c.inner.start now tables goal q).2.map fun δ => ⟨ticket, δ.finding⟩

variable {p : Parameters} {c : Coalescer τ} {now : Time} {done : List Completion}
  {started : Nat} {asked : Question → List τ} {answered : List (Question × Delivery τ)}

theorem Fresh.unique {ttl : Duration} {q : Question} {f g : Finding} (hf : Fresh ttl now done q f)
    (hg : Fresh ttl now done q g) : f = g := by
  obtain ⟨x, hx, rfl, -⟩ := hf
  obtain ⟨y, hy, rfl, -⟩ := hg
  rw [hx, Option.some.injEq] at hy
  rw [hy]

theorem good_iff (time ttl now : Nat) : now - time ≤ ttl ↔ ¬ time + ttl < now := by
  omega

theorem Recalls.standing_iff (h : Recalls p c now done) {q : Question}
    (hidle : (c.entry q).running = false) (f : Finding) :
    (∃ time, (c.standing now q).finding = some (f, time)) ↔ Fresh p.resultTtl now done q f := by
  have hstanding : c.standing now q =
      if (c.entry q).expired c.ttl now = true then { c.entry q with finding := none }
      else c.entry q := by
    simp [standing, hidle]
  rw [hstanding, ← h.ttl]
  cases hf : (c.entry q).finding with
  | none =>
    have hnone : (c.entry q).expired c.ttl now = false := by simp [CacheEntry.expired, hf]
    rw [hnone, if_neg (by simp), hf]
    constructor
    · rintro ⟨time, ht⟩
      cases ht
    · rintro ⟨x, hx, -, hgood⟩
      exact absurd (h.lost q x hidle hf hx) ((good_iff ..).mp hgood)
  | some found =>
    obtain ⟨g, time⟩ := found
    have hlast := h.kept q g time hf
    by_cases hold : (c.entry q).expired c.ttl now = true
    · rw [if_pos hold]
      rw [expired_iff hf] at hold
      constructor
      · rintro ⟨_, ht⟩
        cases ht
      · rintro ⟨x, hx, -, hgood⟩
        rw [hlast, Option.some.injEq] at hx
        rw [← hx] at hgood
        exact absurd hold ((good_iff ..).mp hgood)
    · rw [if_neg hold, hf]
      rw [expired_iff hf, ← good_iff] at hold
      constructor
      · rintro ⟨_, ht⟩
        cases ht
        exact ⟨_, hlast, rfl, hold⟩
      · rintro ⟨x, hx, rfl, -⟩
        rw [hlast, Option.some.injEq] at hx
        exact ⟨time, by rw [← hx]⟩

theorem Ledger.mem_questions (h : Ledger p started c asked answered) (q : Question) :
    q ∈ c.questions ↔ (c.entry q).running = true := by
  rw [h.questions_eq]
  exact h.serving.running q

theorem start_inner_ne (d : Dispatcher Question) (now : Time) (tables : Directory) (goal : Goal)
    (q : Question) : (d.start now tables goal q).1 ≠ d := by
  intro he
  have hnext : d.nextContext + 1 = d.nextContext := congrArg Dispatcher.nextContext he
  have := congrArg UInt64.toNat hnext
  have hlt := d.nextContext.toNat_lt
  rw [UInt64.toNat_add, UInt64.toNat_one] at this
  omega

theorem start_handouts (q : Question) (tables : Directory) (goal : Goal) (ticket : τ)
    (queue : Question → List τ) (hq : queue q = [ticket]) :
    ((c.inner.start now tables goal q).2.flatMap fun δ =>
      (queue δ.ticket).map fun t => (⟨t, δ.finding⟩ : Delivery τ)) =
      (c.inner.start now tables goal q).2.map fun δ => ⟨ticket, δ.finding⟩ := by
  have htickets : ∀ δ ∈ (c.inner.start now tables goal q).2, δ.ticket = q := by
    intro δ hδ
    obtain ⟨f, -, rfl⟩ := List.mem_map.mp hδ
    rfl
  rw [List.map_eq_flatMap]
  apply List.flatMap_congr
  intro δ hδ
  rw [htickets δ hδ, hq]
  rfl

variable (tables : Directory) (goal : Goal) (ticket : τ)

theorem Ledger.serves_running (hl : Ledger p started c asked answered) {q : Question}
    (hq : goal.question p.k = q) (hrunning : q ∈ c.questions) :
    Serves p.resultTtl done c now tables goal q ticket
      (c.step (.start now tables goal ticket)) := by
  have hq' : goal.question c.defaultSample = q := by rw [hl.sample, hq]
  have hr : (c.entry q).running = true := (hl.mem_questions q).mp hrunning
  have hstanding : c.standing now q = c.entry q := by simp [standing, hr]
  have hnone : (c.entry q).finding = none := (hl.serving.sound q).awaited hr
  have hcall : c.step (.start now tables goal ticket) =
      ({ c with entries := c.entries.put q ⟨true, none, c.waiting q ++ [ticket]⟩ }, []) := by
    rw [Coalescer.step, c.start_eq now tables ticket hq', hstanding]
    simp only [hnone, hr, if_true]
    rfl
  rw [hcall]
  constructor
  case replays =>
    intro f
    constructor
    · rintro ⟨-, hd⟩
      cases hd
    · rintro ⟨hnot, -⟩
      exact absurd hrunning hnot
  case waits =>
    intro _
    refine ⟨rfl, rfl, ?_⟩
    rw [waiting, c.entry_put, if_pos rfl]
  case starts =>
    intro hnot
    exact absurd hrunning hnot

theorem Recalls.serves_fresh (h : Recalls p c now done) (hl : Ledger p started c asked answered)
    {q : Question} (hq : goal.question p.k = q) (hidle : q ∉ c.questions) {f : Finding}
    (hf : Fresh p.resultTtl now done q f) :
    Serves p.resultTtl done c now tables goal q ticket
      (c.step (.start now tables goal ticket)) := by
  have hq' : goal.question c.defaultSample = q := by rw [hl.sample, hq]
  have hr : (c.entry q).running = false := by
    rwa [hl.mem_questions, Bool.not_eq_true] at hidle
  obtain ⟨time, hfound⟩ := (h.standing_iff hr f).mpr hf
  have hcall : c.step (.start now tables goal ticket) =
      ({ c with entries := c.entries.put q (c.standing now q) }, [⟨ticket, f⟩]) := by
    rw [Coalescer.step, c.start_eq now tables ticket hq']
    simp only [hfound]
  rw [hcall]
  constructor
  case replays =>
    intro g
    constructor
    · rintro ⟨-, hd⟩
      have hg : f = g := by simpa using hd
      exact ⟨hidle, hg ▸ hf⟩
    · rintro ⟨-, hg⟩
      exact ⟨rfl, by rw [hf.unique hg]⟩
  case waits =>
    intro hrunning
    exact absurd hrunning hidle
  case starts =>
    intro _ hnone
    exact absurd hf (hnone f)

theorem Recalls.serves_stale (h : Recalls p c now done) (hl : Ledger p started c asked answered)
    (hs : started + 1 < 2 ^ 64) {q : Question} (hq : goal.question p.k = q)
    (hidle : q ∉ c.questions) (hstale : ∀ f, ¬ Fresh p.resultTtl now done q f) :
    Serves p.resultTtl done c now tables goal q ticket
      (c.step (.start now tables goal ticket)) := by
  have hq' : goal.question c.defaultSample = q := by rw [hl.sample, hq]
  have hr : (c.entry q).running = false := by
    rwa [hl.mem_questions, Bool.not_eq_true] at hidle
  have hnone : (c.standing now q).finding = none := by
    by_contra hsome
    obtain ⟨found, hfound⟩ := Option.ne_none_iff_exists'.mp hsome
    exact hstale found.1 ((h.standing_iff hr found.1).mp ⟨found.2, hfound⟩)
  have hstanding : (c.standing now q).running = false := by
    rcases c.standing_cases now q with he | ⟨-, he⟩
    · rw [he, hr]
    · rw [he, hr]
  have hstep : c.innerStep (.start now tables goal ticket) = c.inner.start now tables goal q := by
    simp [innerStep, hq', hnone, hstanding]
  have hreplayed : c.replayed (.start now tables goal ticket) = [] := by
    simp [replayed, hq', hnone]
  have hqueue : c.queue (.start now tables goal ticket) q = [ticket] := by
    have hwaiting : c.waiting q = [] := (hl.serving.sound q).idle hr
    simp [queue, Call.asking, hq', hwaiting]
  obtain ⟨_, -, -, hsettles⟩ := hl.step (.start now tables goal ticket) hs
  have hinner := hsettles.inner
  rw [hstep] at hinner
  constructor
  case replays =>
    intro f
    constructor
    · rintro ⟨hsame, -⟩
      exact absurd (hinner.symm.trans hsame) (start_inner_ne c.inner now tables goal q)
    · rintro ⟨-, hf⟩
      exact absurd hf (hstale f)
  case waits =>
    intro hrunning
    exact absurd hrunning hidle
  case starts =>
    intro _ _
    constructor
    · exact hinner
    · rw [hsettles.delivers, hreplayed, hstep, List.nil_append]
      exact start_handouts q tables goal ticket _ hqueue

theorem Recalls.serves (h : Recalls p c now done) (hl : Ledger p started c asked answered)
    (hs : started + 1 < 2 ^ 64) :
    Serves p.resultTtl done c now tables goal (goal.question p.k) ticket
      (c.step (.start now tables goal ticket)) := by
  by_cases hrunning : goal.question p.k ∈ c.questions
  · exact hl.serves_running tables goal ticket rfl hrunning
  · by_cases hfresh : ∃ f, Fresh p.resultTtl now done (goal.question p.k) f
    · obtain ⟨f, hf⟩ := hfresh
      exact h.serves_fresh tables goal ticket hl rfl hrunning hf
    · exact h.serves_stale tables goal ticket hl hs rfl hrunning fun f hf => hfresh ⟨f, hf⟩

end Asking

section Counting

variable {p : Parameters} {c : Coalescer τ} {now : Time} {done : List Completion}
  {started : Nat} {asked : Question → List τ} {answered : List (Question × Delivery τ)}

theorem Recalls.fresh_iff (h : Recalls p c now done) (ttl : Duration) (q : Question) :
    (∃ f, Fresh ttl now done q f) ↔ ∃ x ∈ done, x.question = q ∧ now - x.time ≤ ttl := by
  constructor
  · rintro ⟨f, x, hx, -, hgood⟩
    exact ⟨x, (mem_of_latest hx).1, (mem_of_latest hx).2, hgood⟩
  · rintro ⟨x, hx, rfl, hgood⟩
    obtain ⟨y, hy, hxy⟩ := exists_latest h.sorted hx
    exact ⟨y.finding, y, hy, rfl, Nat.le_trans (Nat.sub_le_sub_left hxy now) hgood⟩

theorem Recalls.entry_iff (h : Recalls p c now done) (hl : Ledger p started c asked answered)
    (q : Question) :
    (∃ e, c.entries.get? q = some e ∧ (e.running || !e.expired c.ttl now) = true) ↔
      q ∈ c.questions ∨ ∃ x ∈ done, x.question = q ∧ now - x.time ≤ p.resultTtl := by
  rw [hl.mem_questions, ← h.fresh_iff]
  cases he : c.entries.get? q with
  | none =>
    have hentry : c.entry q = {} := by rw [entry, he]; rfl
    have hidle : (c.entry q).running = false := by rw [hentry]
    constructor
    · rintro ⟨e, hn, -⟩
      cases hn
    · rintro (hr | ⟨f, hf⟩)
      · rw [hidle] at hr
        cases hr
      · obtain ⟨time, hfound⟩ := (h.standing_iff hidle f).mpr hf
        simp [standing, hentry, CacheEntry.expired] at hfound
  | some e =>
    have hentry : c.entry q = e := by rw [entry, he]; rfl
    by_cases hr : (c.entry q).running = true
    · have hgood : (e.running || !e.expired c.ttl now) = true := by rw [← hentry, hr]; rfl
      exact ⟨fun _ => Or.inl hr, fun _ => ⟨e, rfl, hgood⟩⟩
    · have hidle : (c.entry q).running = false := by rwa [Bool.not_eq_true] at hr
      have hsome := (h.present q e he).resolve_left (hentry ▸ hr)
      obtain ⟨⟨f, time⟩, hf⟩ := Option.isSome_iff_exists.mp hsome
      constructor
      · rintro ⟨e', he', hgood⟩
        cases he'
        have hyoung : e.expired c.ttl now = false := by simpa [← hentry, hidle] using hgood
        have hfound : (c.standing now q).finding = some (f, time) := by
          simp [standing, hentry, hyoung, hf]
        exact Or.inr ⟨f, (h.standing_iff hidle f).mp ⟨time, hfound⟩⟩
      · rintro (hrunning | ⟨g, hg⟩)
        · exact absurd hrunning hr
        · obtain ⟨later, hfound⟩ := (h.standing_iff hidle g).mpr hg
          have hyoung : e.expired c.ttl now = false := by
            by_contra hold
            rw [Bool.not_eq_false] at hold
            have hrun : e.running = false := hentry ▸ hidle
            simp [standing, hentry, hrun, hold] at hfound
          exact ⟨e, rfl, by simp [hyoung]⟩

theorem Recalls.cached_sweep (h : Recalls p c now done) (hl : Ledger p started c asked answered) :
    ∃ S : Finset Question, (c.purge now).cached = S.card ∧ ∀ q, q ∈ S ↔
      q ∈ c.questions ∨ ∃ x ∈ done, x.question = q ∧ now - x.time ≤ p.resultTtl := by
  have hkeys : (c.purge now).entries.keys.Nodup := Catalog.filter_nodup hl.serving.keys _
  refine ⟨(c.purge now).entries.keys.toFinset, ?_, ?_⟩
  · rw [List.toFinset_card_of_nodup hkeys, Catalog.keys, List.length_map]
    rfl
  · intro q
    rw [List.mem_toFinset, Catalog.mem_keys_iff, ← h.entry_iff hl q, Option.ne_none_iff_exists',
      Coalescer.purge, Catalog.get?_filter hl.serving.keys]
    apply exists_congr
    intro e
    exact Option.filter_eq_some_iff

end Counting

/-- Take a run with fewer questions than there are contexts, in which time only goes on. Whoever asks
after it is given the finding of the last lookup for the question if and only if none runs and that
one has ended no longer ago than the time to live; a running lookup is waited for, and else one is
started. A coalescer that forgets nothing has given the same and runs the same lookups. After a sweep
in any order just those questions are kept for which a lookup runs or has ended no longer ago. -/
theorem replays_while_fresh (p : Parameters) (calls : List (Call τ)) (now : Time)
    (hstarts : calls.countP Call.isStart + 1 < 2 ^ 64)
    (htimes : (times calls ++ [now]).Pairwise (· ≤ ·)) :
    let new := (Coalescer.new p : Coalescer τ)
    let c := (new.play calls).1
    let done := new.completions calls
    (∀ tables goal ticket, Serves p.resultTtl done c now tables goal (goal.question p.k) ticket
      (c.start now tables goal ticket)) ∧
    ((new.playKeeping calls).1.inner = c.inner ∧
      (new.playKeeping calls).2 = (new.play calls).2) ∧
    ∀ order, ∃ S : Finset Question, (c.sweep now order).1.cached = S.card ∧ ∀ q, q ∈ S ↔
      q ∈ (c.sweep now order).1.questions ∨ ∃ x ∈ done ++ c.completed (.sweep now order),
        x.question = q ∧ now - x.time ≤ p.resultTtl := by
  intro new c done
  have hclock : (0 :: (times calls ++ [now])).Pairwise (· ≤ ·) :=
    List.pairwise_cons.mpr ⟨fun _ _ => Nat.zero_le _, htimes⟩
  obtain ⟨answered, hl, -⟩ := (new_ledger p).play calls (by omega)
  have hrecalls : Recalls p c now done := by
    have := (new_recalls p 0).play (new_ledger p) calls (by omega) hclock
    rwa [List.nil_append] at this
  refine ⟨?_, ?_, ?_⟩
  · intro tables goal ticket
    exact hrecalls.serves tables goal ticket hl (by omega)
  · have halike : Alike 0 new new := ⟨rfl, rfl, rfl, fun _ _ _ => rfl⟩
    exact halike.play (new_ledger p) calls (by omega) hclock
  · intro order
    obtain ⟨_, hl', -, -⟩ := hl.absorb_sweep now order
    have habsorbed := hrecalls.absorb (c.inner.sweep now order)
    exact habsorbed.cached_sweep hl'

section Walk

open Lookup (numbered pairTables)

/-- The lookup that two wait for ends with the answer of peer 3. -/
def keptCalls : List (Call Nat) :=
  sharedCalls ++ [.respond 2 (numbered 3).id (.findValue 0 [] (some [7]))]

def keptRun : Coalescer Nat × List (Delivery Nat) :=
  (Coalescer.new { k := 2, alpha := 1, resultTtl := 5 }).play keptCalls

def keptDone : List Completion :=
  (Coalescer.new { k := 2, alpha := 1, resultTtl := 5 }).completions keptCalls

/-- The finding is given once more at the end of its time to live, and one step later a lookup
starts. -/
theorem replays_while_fresh_kept :
    keptDone.map Completion.time = [2] ∧ keptRun.1.questions = [] ∧
    Serves 5 keptDone keptRun.1 7 pairTables (.value (numbered 3).id) (.value (numbered 3).id) 2
      (keptRun.1.start 7 pairTables (.value (numbered 3).id) 2) ∧
    (keptRun.1.start 7 pairTables (.value (numbered 3).id) 2).2.map Delivery.ticket = [2] ∧
    (keptRun.1.start 8 pairTables (.value (numbered 3).id) 2).1.questions =
      [.value (numbered 3).id] := by
  refine ⟨by cbv, by cbv, ?_, by cbv, by cbv⟩
  exact (replays_while_fresh { k := 2, alpha := 1, resultTtl := 5 } keptCalls 7 (by decide)
    (by decide)).1 pairTables (.value (numbered 3).id) 2

end Walk

end Coalescer

end Kademlia
