import Kademlia.Proofs.Coalescer.Run
import Kademlia.Proofs.Time

/-!
What a coalescer recalls of the lookups that have ended. Main statement: as long as time only goes
on, what it keeps for a question is the finding of the last lookup for it, and it has lost this
finding only after the time to live.
-/

namespace Kademlia

namespace Coalescer

variable {τ : Type}

section History

structure Completion where
  question : Question
  finding : Finding
  time : Time

/-- The time of a call. A request leaves the queue at no particular time. -/
def Call.time? : Call τ → Option Time
  | .start now _ _ _ => some now
  | .respond now _ _ => some now
  | .peerFailed now _ _ => some now
  | .sweep now _ => some now
  | .pop => none

def times (calls : List (Call τ)) : List Time := calls.filterMap Call.time?

def completed (c : Coalescer τ) (call : Call τ) : List Completion :=
  (c.innerStep call).2.map fun δ => ⟨δ.ticket, δ.finding, call.time?.getD 0⟩

def completions (c : Coalescer τ) : List (Call τ) → List Completion
  | [] => []
  | call :: calls => c.completed call ++ (c.step call).1.completions calls

def latest (done : List Completion) (q : Question) : Option Completion :=
  (done.filter fun x => x.question = q).getLast?

/-- The last lookup for a question has ended with a finding that is not too old. -/
def Fresh (ttl : Duration) (now : Time) (done : List Completion) (q : Question) (f : Finding) :
    Prop :=
  ∃ x, latest done q = some x ∧ x.finding = f ∧ now - x.time ≤ ttl

theorem latest_concat (done : List Completion) (x : Completion) (q : Question) :
    latest (done ++ [x]) q = if x.question = q then some x else latest done q := by
  by_cases hx : x.question = q
  · simp [latest, hx]
  · simp [latest, hx]

theorem mem_of_latest {done : List Completion} {q : Question} {x : Completion}
    (h : latest done q = some x) : x ∈ done ∧ x.question = q := by
  have hm := List.mem_filter.mp (List.mem_of_getLast? h)
  exact ⟨hm.1, by simpa using hm.2⟩

theorem exists_latest {done : List Completion} (hs : done.Pairwise fun x y => x.time ≤ y.time)
    {x : Completion} (hx : x ∈ done) : ∃ y, latest done x.question = some y ∧ x.time ≤ y.time := by
  have hm : x ∈ done.filter fun y => y.question = x.question := List.mem_filter.mpr ⟨hx, by simp⟩
  obtain ⟨front, y, he⟩ := (List.eq_nil_or_concat' _).resolve_left (List.ne_nil_of_mem hm)
  have hp := hs.filter fun y => y.question = x.question
  refine ⟨y, by simp [latest, he], ?_⟩
  rw [he] at hm hp
  rcases List.mem_append.mp hm with hm | hm
  · exact (List.pairwise_append.mp hp).2.2 x hm y List.mem_cons_self
  · rw [List.mem_singleton.mp hm]

end History

section Recall

/-- At a time, what is kept for a question is the finding of its last lookup, and what is not kept
any more is too old. -/
structure Recalls (p : Parameters) (c : Coalescer τ) (clock : Time) (done : List Completion) :
    Prop where
  ttl : c.ttl = p.resultTtl
  kept : ∀ q f time, (c.entry q).finding = some (f, time) → latest done q = some ⟨q, f, time⟩
  lost : ∀ q x, (c.entry q).running = false → (c.entry q).finding = none →
    latest done q = some x → x.time + c.ttl < clock
  present : ∀ q e, c.entries.get? q = some e → e.running = true ∨ e.finding.isSome = true
  sorted : done.Pairwise fun x y => x.time ≤ y.time
  past : ∀ x ∈ done, x.time ≤ clock

variable {p : Parameters} {c : Coalescer τ} {clock now : Time} {done : List Completion}

theorem Recalls.mono (h : Recalls p c clock done) (hc : clock ≤ now) : Recalls p c now done :=
  ⟨h.ttl, h.kept, fun q x hr hf hx => Nat.lt_of_lt_of_le (h.lost q x hr hf hx) hc, h.present,
    h.sorted, fun x hx => Nat.le_trans (h.past x hx) hc⟩

theorem new_recalls (p : Parameters) (clock : Time) :
    Recalls p (Coalescer.new p : Coalescer τ) clock [] := by
  constructor
  case ttl => rfl
  case kept =>
    intro q f time hf
    cases hf
  case lost =>
    intro q x _ _ hx
    cases hx
  case present =>
    intro q e he
    cases he
  case sorted => exact List.Pairwise.nil
  case past => exact List.forall_mem_nil _

theorem Recalls.fill (h : Recalls p c now done) (δ : Delivery Question) :
    Recalls p (c.fill now δ).1 now (done ++ [⟨δ.ticket, δ.finding, now⟩]) := by
  have he : ∀ q, (c.fill now δ).1.entry q =
      if q = δ.ticket then ⟨false, some (δ.finding, now), []⟩ else c.entry q := fun q =>
    c.entry_put δ.ticket q _
  constructor
  case ttl => exact h.ttl
  case kept =>
    intro q f time hf
    rw [he] at hf
    rw [latest_concat]
    by_cases hq : q = δ.ticket
    · rw [if_pos hq] at hf
      cases hf
      rw [if_pos hq.symm, hq]
    · rw [if_neg hq] at hf
      rw [if_neg (Ne.symm hq)]
      exact h.kept q f time hf
  case lost =>
    intro q x hr hf hx
    rw [he] at hr hf
    rw [latest_concat] at hx
    by_cases hq : q = δ.ticket
    · rw [if_pos hq] at hf
      cases hf
    · rw [if_neg hq] at hr hf
      rw [if_neg (Ne.symm hq)] at hx
      exact h.lost q x hr hf hx
  case present =>
    intro q e hqe
    have hput : (c.fill now δ).1.entries.get? q =
        if q = δ.ticket then some ⟨false, some (δ.finding, now), []⟩ else c.entries.get? q :=
      Catalog.get?_put ..
    rw [hput] at hqe
    split at hqe
    · cases hqe
      exact Or.inr rfl
    · exact h.present q e hqe
  case sorted =>
    apply List.pairwise_append.mpr
    refine ⟨h.sorted, List.pairwise_singleton .., ?_⟩
    intro x hx y hy
    rw [List.mem_singleton.mp hy]
    exact h.past x hx
  case past =>
    intro x hx
    rcases List.mem_append.mp hx with hx | hx
    · exact h.past x hx
    · rw [List.mem_singleton.mp hx]

theorem Recalls.fillAll (h : Recalls p c now done) (ended : List (Delivery Question)) :
    Recalls p (c.fillAll now ended).1 now
      (done ++ ended.map fun δ => ⟨δ.ticket, δ.finding, now⟩) := by
  induction ended generalizing c done with
  | nil => simpa [Coalescer.fillAll] using h
  | cons δ ended ih => simpa [Coalescer.fillAll] using ih (h.fill δ)

theorem Recalls.absorb (h : Recalls p c now done)
    (s : Dispatcher Question × List (Delivery Question)) :
    Recalls p (c.absorb now s).1 now
      (done ++ s.2.map fun δ => ⟨δ.ticket, δ.finding, now⟩) := by
  have hopen : Recalls p { c with inner := s.1 } now done :=
    ⟨h.ttl, h.kept, h.lost, h.present, h.sorted, h.past⟩
  exact hopen.fillAll s.2

theorem Recalls.write (h : Recalls p c clock done) (q : Question) {e : CacheEntry τ}
    (he : e = c.entry q ∧ e.finding.isSome = true ∨ e.running = true ∧ e.finding = none) :
    Recalls p { c with entries := c.entries.put q e } clock done := by
  have hentry : ∀ other, ({ c with entries := c.entries.put q e } : Coalescer τ).entry other =
      if other = q then e else c.entry other := fun other => c.entry_put q other e
  constructor
  case ttl => exact h.ttl
  case kept =>
    intro other f time hf
    rw [hentry] at hf
    by_cases hq : other = q
    · rw [if_pos hq] at hf
      rcases he with ⟨he, -⟩ | ⟨-, hnone⟩
      · rw [he, ← hq] at hf
        exact h.kept other f time hf
      · rw [hnone] at hf
        cases hf
    · rw [if_neg hq] at hf
      exact h.kept other f time hf
  case lost =>
    intro other x hr hf hx
    rw [hentry] at hr hf
    by_cases hq : other = q
    · rw [if_pos hq] at hr hf
      rcases he with ⟨-, hsome⟩ | ⟨hrun, -⟩
      · simp [hf] at hsome
      · simp [hrun] at hr
    · rw [if_neg hq] at hr hf
      exact h.lost other x hr hf hx
  case present =>
    intro other e' he'
    rw [Catalog.get?_put] at he'
    split at he'
    · cases he'
      rcases he with ⟨-, hsome⟩ | ⟨hrun, -⟩
      · exact Or.inr hsome
      · exact Or.inl hrun
    · exact h.present other e' he'
  case sorted => exact h.sorted
  case past => exact h.past

theorem Recalls.start (h : Recalls p c now done) (tables : Directory) (goal : Goal) (ticket : τ) :
    Recalls p (c.step (.start now tables goal ticket)).1 now
      (done ++ c.completed (.start now tables goal ticket)) := by
  simp only [completed, Call.time?, Option.getD_some]
  rcases c.start_cases now tables goal ticket with
    ⟨f, time, hstanding, hf, he⟩ | ⟨hnone, hrunning, he⟩
  · have hcall : c.step (.start now tables goal ticket) = _ := he
    have hstep : c.innerStep (.start now tables goal ticket) = (c.inner, []) := by
      simp [innerStep, hstanding, hf]
    rw [hcall, hstep, List.map_nil, List.append_nil]
    exact h.write _ (Or.inl ⟨rfl, by rw [hf]; rfl⟩)
  · have hcall : c.step (.start now tables goal ticket) = _ := he
    have hwaits := h.write (goal.question c.defaultSample)
      (e := ⟨true, none, c.waiting (goal.question c.defaultSample) ++ [ticket]⟩)
      (Or.inr ⟨rfl, rfl⟩)
    rw [hcall]
    by_cases hr : (c.entry (goal.question c.defaultSample)).running = true
    · have hstep : c.innerStep (.start now tables goal ticket) = (c.inner, []) := by
        simp [innerStep, hrunning, hr]
      rw [if_pos hr, hstep, List.map_nil, List.append_nil]
      exact hwaits
    · have hstep : c.innerStep (.start now tables goal ticket) =
          c.inner.start now tables goal (goal.question c.defaultSample) := by
        simp [innerStep, hrunning, hnone, hr]
      rw [if_neg hr, hstep]
      exact hwaits.absorb _

theorem Recalls.purge (h : Recalls p c now done) (hk : c.entries.keys.Nodup) :
    Recalls p (c.purge now) now done := by
  constructor
  case ttl => exact h.ttl
  case kept =>
    intro q f time hf
    rcases entry_purge hk now q with he | ⟨-, -, he⟩
    · exact h.kept q f time (he ▸ hf)
    · rw [he] at hf
      cases hf
  case lost =>
    intro q x hr hf hx
    rcases entry_purge hk now q with he | ⟨hidle, hold, -⟩
    · rw [he] at hr hf
      exact h.lost q x hr hf hx
    · cases hfound : (c.entry q).finding with
      | none => exact h.lost q x hidle hfound hx
      | some found =>
        obtain ⟨f, time⟩ := found
        rw [h.kept q f time hfound, Option.some.injEq] at hx
        rw [expired_iff hfound] at hold
        exact hx ▸ hold
  case present =>
    intro q e he
    rw [Coalescer.purge, Catalog.get?_filter hk, Option.filter_eq_some_iff] at he
    exact h.present q e he.1
  case sorted => exact h.sorted
  case past => exact h.past

variable {started : Nat} {asked : Question → List τ} {answered : List (Question × Delivery τ)}

theorem Recalls.step (h : Recalls p c clock done) (hl : Ledger p started c asked answered)
    (call : Call τ) (hs : started + [call].countP Call.isStart < 2 ^ 64)
    (ht : ∀ now, call.time? = some now → clock ≤ now) :
    Recalls p (c.step call).1 (call.time?.getD clock) (done ++ c.completed call) := by
  cases call with
  | start now tables goal ticket => exact (h.mono (ht now rfl)).start tables goal ticket
  | respond now sender response =>
    have h' := h.mono (ht now rfl)
    cases hr : c.inner.respond now sender response with
    | ok s =>
      obtain ⟨hstep, hcall⟩ := step_respond_ok hr
      rw [completed, hcall, hstep]
      exact h'.absorb s
    | error fault =>
      obtain ⟨hstep, hcall⟩ := step_respond_error hr
      rw [completed, hcall, hstep, List.map_nil, List.append_nil]
      exact h'
  | peerFailed now context peer => exact (h.mono (ht now rfl)).absorb _
  | sweep now order =>
    have habsorbed := (h.mono (ht now rfl)).absorb (c.inner.sweep now order)
    obtain ⟨_, hl', -, -⟩ := hl.absorb_sweep now order
    exact habsorbed.purge hl'.serving.keys
  | pop =>
    have hnone : c.completed (.pop : Call τ) = [] := rfl
    rw [hnone, List.append_nil]
    exact ⟨h.ttl, h.kept, h.lost, h.present, h.sorted, h.past⟩

theorem Recalls.play (h : Recalls p c clock done) (hl : Ledger p started c asked answered)
    (calls : List (Call τ)) (hs : started + calls.countP Call.isStart < 2 ^ 64)
    (ht : (clock :: (times calls ++ [now])).Pairwise (· ≤ ·)) :
    Recalls p (c.play calls).1 now (done ++ c.completions calls) := by
  induction calls generalizing c clock done started asked answered with
  | nil =>
    rw [completions, List.append_nil]
    exact h.mono (List.rel_of_pairwise_cons ht (by simp))
  | cons call calls ih =>
    obtain ⟨hnow, hnext⟩ := ordered_cons ht
    rw [countP_cons_eq, ← Nat.add_assoc] at hs
    obtain ⟨_, hl', -, -⟩ := hl.step call (by omega)
    have hall := ih (h.step hl call (by omega) hnow) hl' hs hnext
    rw [List.append_assoc] at hall
    exact hall

end Recall

end Coalescer

end Kademlia
