import Kademlia.Proofs.Coalescer.Entries
import Kademlia.Proofs.Dispatcher.Lives

/-!
Runs of a coalescer. Whoever asks is answered once: from a kept finding, or together with all who
wait for the same, in the order in which they came, as soon as the one lookup for it ends. Main
statement: this holds in every run, and no one is lost or answered for something else.
-/

namespace Kademlia

namespace Coalescer

variable {τ : Type}

section Calls

/-- Calls of a coalescer. A sweep goes through the running lookups in any order. -/
inductive Call (τ : Type) where
  | start (now : Time) (tables : Directory) (goal : Goal) (ticket : τ)
  | respond (now : Time) (sender : Ident) (response : Response)
  | peerFailed (now : Time) (context : UInt64) (peer : Ident)
  | sweep (now : Time) (order : Arrangement (UInt64 × Running Question))
  | pop

def Call.isStart : Call τ → Bool
  | .start .. => true
  | _ => false

def Call.asking (sample : Nat) (q : Question) : Call τ → List τ
  | .start _ _ goal ticket => if goal.question sample = q then [ticket] else []
  | _ => []

def asked (sample : Nat) (calls : List (Call τ)) (q : Question) : List τ :=
  calls.flatMap (Call.asking sample q)

/-- Takes one call; a response that is refused changes nothing. -/
def step (c : Coalescer τ) : Call τ → Coalescer τ × List (Delivery τ)
  | .start now tables goal ticket => c.start now tables goal ticket
  | .respond now sender response =>
    match c.respond now sender response with
    | .ok r => r
    | .error _ => (c, [])
  | .peerFailed now context peer => c.peerFailed now context peer
  | .sweep now order => c.sweep now order
  | .pop => (c.pop.2, [])

def play (c : Coalescer τ) : List (Call τ) → Coalescer τ × List (Delivery τ)
  | [] => (c, [])
  | call :: calls =>
    let (c, delivered) := c.step call
    let (c, more) := c.play calls
    (c, delivered ++ more)

def questions (c : Coalescer τ) : List Question :=
  c.inner.lookups.values.map fun r => r.lookup.question

/-- What a call makes of the lookups, and the findings of those that it ends. -/
def innerStep (c : Coalescer τ) : Call τ → Dispatcher Question × List (Delivery Question)
  | .start now tables goal _ =>
    let question := goal.question c.defaultSample
    let e := c.standing now question
    if e.finding.isSome || e.running then (c.inner, [])
    else c.inner.start now tables goal question
  | .respond now sender response =>
    match c.inner.respond now sender response with
    | .ok r => r
    | .error _ => (c.inner, [])
  | .peerFailed now context peer => c.inner.peerFailed now context peer
  | .sweep now order => c.inner.sweep now order
  | .pop => (c.inner.pop.2, [])

def replayed (c : Coalescer τ) : Call τ → List (Delivery τ)
  | .start now _ goal ticket =>
    (c.standing now (goal.question c.defaultSample)).finding.toList.map fun f => ⟨ticket, f.1⟩
  | _ => []

/-- Those who wait for a finding when it comes in a call: all who waited before, and then whoever
asks in this call. -/
def queue (c : Coalescer τ) (call : Call τ) (q : Question) : List τ :=
  c.waiting q ++ call.asking c.defaultSample q

end Calls

section Steps

def Asks (p : Parameters) (q : Question) (goal : Goal) : Prop := goal.question p.k = q

/-- The coalescer after a number of starts at most, with what has been asked and answered. -/
structure Ledger (p : Parameters) (started : Nat) (c : Coalescer τ) (asked : Question → List τ)
    (answered : List (Question × Delivery τ)) : Prop where
  sample : c.defaultSample = p.k
  inner : c.inner.Tended p (Asks p) started
  serving : Serving c (Dispatcher.held c.inner.lookups) asked answered

/-- What one call comes to: what is kept is given at once, and each lookup that ends is the only one
for its question, has found an answer to it, and is answered to all who wait for it. -/
structure Settles (c : Coalescer τ) (call : Call τ) (r : Coalescer τ × List (Delivery τ)) :
    Prop where
  inner : r.1.inner = (c.innerStep call).1
  delivers : r.2 = c.replayed call ++ (c.innerStep call).2.flatMap fun δ =>
    (c.queue call δ.ticket).map fun ticket => ⟨ticket, δ.finding⟩
  answers : ∀ δ ∈ (c.innerStep call).2, δ.finding.Answers δ.ticket
  once : ((c.innerStep call).2.map Delivery.ticket ++ r.1.questions).Nodup
  ends : ∀ q ∈ c.questions, q ∈ (c.innerStep call).2.map Delivery.ticket ++ r.1.questions

variable {p : Parameters} {started : Nat} {c : Coalescer τ} {active : List Question}
  {asked : Question → List τ} {answered : List (Question × Delivery τ)}

theorem fillAll_frame (c : Coalescer τ) (now : Time) (ended : List (Delivery Question)) :
    (c.fillAll now ended).1.inner = c.inner ∧
      (c.fillAll now ended).1.defaultSample = c.defaultSample := by
  induction ended generalizing c with
  | nil => exact ⟨rfl, rfl⟩
  | cons δ ended ih => exact ih (c.fill now δ).1

/-- Each running lookup works on the question that is its ticket. -/
theorem Ledger.questions_eq (h : Ledger p started c asked answered) :
    c.questions = Dispatcher.held c.inner.lookups := by
  rw [questions, Dispatcher.held, Catalog.values, List.map_map]
  apply List.map_congr_left
  intro e he
  obtain ⟨-, goal, past, hasks, tables, start, calls, hlife⟩ :=
    h.inner.lives e.1 e.2 (Catalog.get?_of_mem h.inner.keys he)
  have hq := (Lookup.life_question e.1 p tables goal start calls).1
  rw [← hlife] at hq
  exact hq.trans hasks

theorem answers_of_yields {tickets : List Question}
    {s : Dispatcher Question × List (Delivery Question)}
    (h : Dispatcher.Yields p (Asks p) tickets s) : ∀ δ ∈ s.2, δ.finding.Answers δ.ticket := by
  intro δ hδ
  obtain ⟨goal, context, _, hasks, ⟨tables, start, calls, rfl⟩, hf⟩ := h.findings δ hδ
  have ha := Lookup.life_answers context p tables goal start calls hf
  have hq : goal.question p.k = δ.ticket := hasks
  rwa [hq] at ha

theorem Serving.absorb (h : Serving c active asked answered) (hk : c.defaultSample = p.k)
    (now : Time) {s : Dispatcher Question × List (Delivery Question)}
    (ht : s.1.Tended p (Asks p) started) (hy : Dispatcher.Yields p (Asks p) active s) :
    Ledger p started (c.absorb now s).1 asked (answered ++ s.2.flatMap c.handout) ∧
      (c.absorb now s).2 = (s.2.flatMap c.handout).map Prod.snd ∧
      (c.absorb now s).1.inner = s.1 := by
  have hopen : Serving { c with inner := s.1 }
      (s.2.map Delivery.ticket ++ Dispatcher.held s.1.lookups) asked answered := by
    have hp := h.perm hy.tickets
    exact ⟨hp.keys, hp.once, hp.sound, hp.running, hp.order, hp.answers⟩
  obtain ⟨hs, hd⟩ := hopen.fillAll (answers_of_yields hy) now
  obtain ⟨hinner, hsample⟩ := fillAll_frame { c with inner := s.1 } now s.2
  exact ⟨⟨hsample.trans hk, hinner ▸ ht, hinner ▸ hs⟩, hd, hinner⟩

theorem step_respond_ok {now : Time} {sender : Ident} {response : Response}
    {s : Dispatcher Question × List (Delivery Question)}
    (hr : c.inner.respond now sender response = .ok s) :
    c.innerStep (.respond now sender response) = s ∧
      c.step (.respond now sender response) = c.absorb now s := by
  simp [innerStep, step, respond, hr, Except.map]

theorem step_respond_error {now : Time} {sender : Ident} {response : Response} {fault : Error}
    (hr : c.inner.respond now sender response = .error fault) :
    c.innerStep (.respond now sender response) = (c.inner, []) ∧
      c.step (.respond now sender response) = (c, []) := by
  simp [innerStep, step, respond, hr, Except.map]

theorem start_eq (c : Coalescer τ) (now : Time) (tables : Directory) (ticket : τ) {goal : Goal}
    {q : Question} (hq : goal.question c.defaultSample = q) :
    c.start now tables goal ticket =
      let e := c.standing now q
      match e.finding with
      | some (f, _) => ({ c with entries := c.entries.put q e }, [⟨ticket, f⟩])
      | none =>
        let c' : Coalescer τ := { c with
          entries := c.entries.put q
            { e with running := true, waiting := e.waiting ++ [ticket] } }
        if e.running then (c', []) else c'.absorb now (c.inner.start now tables goal q) := by
  subst hq
  rfl

/-- Whoever asks is given the kept finding, or waits for a lookup, which starts if none runs. -/
theorem start_cases (c : Coalescer τ) (now : Time) (tables : Directory) (goal : Goal)
    (ticket : τ) :
    let q := goal.question c.defaultSample
    let kept : Coalescer τ := { c with entries := c.entries.put q (c.entry q) }
    let waits : Coalescer τ :=
      { c with entries := c.entries.put q ⟨true, none, c.waiting q ++ [ticket]⟩ }
    (∃ f time, c.standing now q = c.entry q ∧ (c.entry q).finding = some (f, time) ∧
      c.start now tables goal ticket = (kept, [⟨ticket, f⟩])) ∨
    (c.standing now q).finding = none ∧ (c.standing now q).running = (c.entry q).running ∧
      c.start now tables goal ticket =
        if (c.entry q).running = true then (waits, [])
        else waits.absorb now (c.inner.start now tables goal q) := by
  intro q kept waits
  have hq : goal.question c.defaultSample = q := rfl
  rw [c.start_eq now tables ticket hq]
  rcases c.standing_cases now q with he | ⟨hr, he⟩
  · cases hf : (c.entry q).finding with
    | some found => exact Or.inl ⟨found.1, found.2, he, rfl, by simp only [he, hf]; rfl⟩
    | none => exact Or.inr ⟨by rw [he, hf], by rw [he], by simp only [he, hf]; rfl⟩
  · exact Or.inr ⟨by rw [he], by rw [he], by simp only [he]; rfl⟩

theorem handouts_eq {other : Coalescer τ} {call : Call τ}
    (hw : ∀ q, other.waiting q = c.queue call q) (ended : List (Delivery Question)) :
    (ended.flatMap other.handout).map Prod.snd =
      ended.flatMap fun δ => (c.queue call δ.ticket).map fun ticket => ⟨ticket, δ.finding⟩ := by
  rw [List.map_flatMap]
  apply List.flatMap_congr
  intro δ _
  rw [handout, hw, List.map_map]
  rfl

theorem Ledger.settles (h : Ledger p started c asked answered) {call : Call τ}
    {r : Coalescer τ × List (Delivery τ)} {started' : Nat} {asked' : Question → List τ}
    {answered' : List (Question × Delivery τ)} (h' : Ledger p started' r.1 asked' answered')
    (hinner : r.1.inner = (c.innerStep call).1)
    (hy : Dispatcher.Yields p (Asks p) active (c.innerStep call)) (hn : active.Nodup)
    (hall : ∀ q ∈ Dispatcher.held c.inner.lookups, q ∈ active)
    (hd : r.2 = c.replayed call ++ (c.innerStep call).2.flatMap fun δ =>
      (c.queue call δ.ticket).map fun ticket => ⟨ticket, δ.finding⟩) : Settles c call r := by
  have hq : r.1.questions = Dispatcher.held (c.innerStep call).1.lookups :=
    hinner ▸ h'.questions_eq
  refine ⟨hinner, hd, answers_of_yields hy, ?_, ?_⟩
  · rw [hq]
    exact hy.tickets.nodup_iff.mpr hn
  · intro q hm
    rw [hq]
    rw [h.questions_eq] at hm
    exact hy.tickets.mem_iff.mpr (hall q hm)

theorem Ledger.settles_idle (h : Ledger p started c asked answered) {call : Call τ}
    {r : Coalescer τ × List (Delivery τ)} {started' : Nat} {asked' : Question → List τ}
    {answered' : List (Question × Delivery τ)} (h' : Ledger p started' r.1 asked' answered')
    (hstep : c.innerStep call = (c.inner, [])) (hinner : r.1.inner = c.inner)
    (hd : r.2 = c.replayed call) : Settles c call r := by
  have hy : Dispatcher.Yields p (Asks p) (Dispatcher.held c.inner.lookups)
      (c.innerStep call) := by
    rw [hstep]
    exact .idle c.inner
  apply h.settles h' _ hy h.serving.once (fun _ hq => hq)
  · rw [hd, hstep, List.flatMap_nil, List.append_nil]
  · rw [hinner, hstep]

theorem Ledger.absorb (h : Ledger p started c asked answered) (call : Call τ)
    (hcall : call.isStart = false) (now : Time)
    (ht : (c.innerStep call).1.Tended p (Asks p) started)
    (hy : Dispatcher.Yields p (Asks p) (Dispatcher.held c.inner.lookups) (c.innerStep call)) :
    ∃ more, Ledger p started (c.absorb now (c.innerStep call)).1 asked (answered ++ more) ∧
      more.map Prod.snd = (c.absorb now (c.innerStep call)).2 ∧
      Settles c call (c.absorb now (c.innerStep call)) := by
  obtain ⟨hl, hd, hinner⟩ := h.serving.absorb h.sample now ht hy
  have hqueue : ∀ q, c.waiting q = c.queue call q := by
    intro q
    cases call <;> simp_all [queue, Call.asking, Call.isStart]
  have hreplayed : c.replayed call = [] := by
    cases call <;> simp_all [replayed, Call.isStart]
  refine ⟨_, hl, hd.symm, h.settles hl hinner hy h.serving.once (fun _ hq => hq) ?_⟩
  rw [hd, hreplayed, handouts_eq hqueue, List.nil_append]

theorem Ledger.absorb_sweep (h : Ledger p started c asked answered) (now : Time)
    (order : Arrangement (UInt64 × Running Question)) :
    ∃ more, Ledger p started (c.absorb now (c.inner.sweep now order)).1 asked (answered ++ more) ∧
      more.map Prod.snd = (c.absorb now (c.inner.sweep now order)).2 ∧
      Settles c (.sweep now order) (c.absorb now (c.inner.sweep now order)) := by
  obtain ⟨ht, hy⟩ := h.inner.sweep now order
  exact h.absorb (.sweep now order) rfl now ht hy

theorem Ledger.purge (h : Ledger p started c asked answered) (now : Time) :
    Ledger p started (c.purge now) asked answered :=
  ⟨h.sample, h.inner, h.serving.purge now⟩

theorem Ledger.write (h : Ledger p started c asked answered)
    {entries : Catalog Question (CacheEntry τ)} {asked' : Question → List τ}
    {answered' : List (Question × Delivery τ)}
    (hs : Serving { c with entries } (Dispatcher.held c.inner.lookups) asked' answered') :
    Ledger p (started + 1) { c with entries } asked' answered' :=
  ⟨h.sample, h.inner.mono (Nat.le_succ started), hs⟩

theorem Ledger.start (h : Ledger p started c asked answered) (hs : started + 1 < 2 ^ 64)
    (now : Time) (tables : Directory) (goal : Goal) (ticket : τ) :
    let call := Call.start now tables goal ticket
    ∃ more, Ledger p (started + 1) (c.step call).1
        (fun q => asked q ++ call.asking p.k q) (answered ++ more) ∧
      more.map Prod.snd = (c.step call).2 ∧ Settles c call (c.step call) := by
  intro call
  have hasking : ∀ q, call.asking p.k q =
      if goal.question c.defaultSample = q then [ticket] else [] := fun q => by
    rw [h.sample]
    rfl
  have hask : Asks p (goal.question c.defaultSample) goal := by rw [Asks, h.sample]
  simp only [hasking]
  rcases c.start_cases now tables goal ticket with
    ⟨f, time, hstanding, hf, he⟩ | ⟨hnone, hrunning, he⟩
  · have hcall : c.step call = _ := he
    have hstep : c.innerStep call = (c.inner, []) := by
      simp [innerStep, call, hstanding, hf]
    have hl := h.write (h.serving.replay hf ticket)
    have hreplayed : c.replayed call = [⟨ticket, f⟩] := by
      simp [replayed, call, hstanding, hf]
    rw [hcall]
    exact ⟨_, hl, rfl, h.settles_idle hl hstep rfl hreplayed.symm⟩
  · have hreplayed : c.replayed call = [] := by simp [replayed, call, hnone]
    have hwaits := h.serving.enroll (goal.question c.defaultSample) ticket
    by_cases hr : (c.entry (goal.question c.defaultSample)).running = true
    · rw [if_pos hr] at he hwaits
      have hcall : c.step call = _ := he
      have hstep : c.innerStep call = (c.inner, []) := by
        simp [innerStep, call, hrunning, hr]
      have hl := h.write hwaits
      rw [← List.append_nil answered] at hl
      rw [hcall]
      exact ⟨[], hl, rfl, h.settles_idle hl hstep rfl hreplayed.symm⟩
    · rw [if_neg hr] at he hwaits
      have hcall : c.step call = _ := he
      have hstep : c.innerStep call =
          c.inner.start now tables goal (goal.question c.defaultSample) := by
        simp [innerStep, call, hrunning, hnone, hr]
      obtain ⟨ht, hy⟩ := h.inner.start hs now tables hask
      obtain ⟨hl, hd, hi⟩ := hwaits.absorb h.sample now ht hy
      rw [hcall]
      refine ⟨_, hl, hd.symm, h.settles hl (hi.trans (congrArg Prod.fst hstep.symm))
        (hstep ▸ hy) hwaits.once (fun _ hq => List.mem_cons_of_mem _ hq) ?_⟩
      rw [hd, hstep, hreplayed, List.nil_append]
      apply handouts_eq
      intro q
      rw [waiting, entry_put, queue, Call.asking]
      by_cases hq : q = goal.question c.defaultSample
      · simp [hq, waiting]
      · simp [hq, Ne.symm hq, waiting]

theorem Ledger.step (h : Ledger p started c asked answered) (call : Call τ)
    (hs : started + [call].countP Call.isStart < 2 ^ 64) :
    ∃ more, Ledger p (started + [call].countP Call.isStart) (c.step call).1
        (fun q => asked q ++ call.asking p.k q) (answered ++ more) ∧
      more.map Prod.snd = (c.step call).2 ∧ Settles c call (c.step call) := by
  have hidle : Dispatcher.Yields p (Asks p) (Dispatcher.held c.inner.lookups) (c.inner, []) :=
    .idle c.inner
  cases call with
  | start now tables goal ticket => exact h.start hs now tables goal ticket
  | respond now sender response =>
    simp only [Call.asking, List.append_nil]
    cases hr : c.inner.respond now sender response with
    | ok s =>
      obtain ⟨hstep, hcall⟩ := step_respond_ok hr
      obtain ⟨ht, hy⟩ := h.inner.respond hr
      rw [hcall, ← hstep]
      exact h.absorb _ rfl now (hstep ▸ ht) (hstep ▸ hy)
    | error fault =>
      obtain ⟨hstep, hcall⟩ := step_respond_error hr
      have hsame : (c, []) = c.absorb now (c.inner, []) := rfl
      rw [hcall, hsame, ← hstep]
      exact h.absorb _ rfl now (hstep ▸ h.inner) (hstep ▸ hidle)
  | peerFailed now context peer =>
    simp only [Call.asking, List.append_nil]
    obtain ⟨ht, hy⟩ := h.inner.peerFailed now context peer
    exact h.absorb (.peerFailed now context peer) rfl now ht hy
  | sweep now order =>
    simp only [Call.asking, List.append_nil]
    obtain ⟨more, hl, hd, hsettles⟩ := h.absorb_sweep now order
    refine ⟨more, hl.purge now, hd, ?_⟩
    exact ⟨hsettles.inner, hsettles.delivers, hsettles.answers, hsettles.once, hsettles.ends⟩
  | pop =>
    simp only [Call.asking, List.append_nil]
    have hlookups := Dispatcher.pop_lookups c.inner
    exact h.absorb .pop rfl 0 h.inner.pop ⟨by simp [innerStep, hlookups], List.forall_mem_nil _⟩

end Steps

section Runs

variable {p : Parameters} {started : Nat} {c : Coalescer τ} {asked : Question → List τ}
  {answered : List (Question × Delivery τ)}

theorem new_ledger (p : Parameters) :
    Ledger p 0 (Coalescer.new p : Coalescer τ) (fun _ => []) [] := by
  refine ⟨rfl, Dispatcher.new_tended p (Asks p), ?_, ?_, ?_, ?_, fun q => rfl,
    List.forall_mem_nil _⟩
  · simp [Coalescer.new, wrapping, Catalog.keys]
  · simp [Coalescer.new, wrapping, Dispatcher.new, Dispatcher.held]
  · intro q
    exact ⟨fun _ => rfl, fun _ => rfl, fun f time hf => by cases hf⟩
  · intro q
    simp [Coalescer.new, wrapping, Dispatcher.new, Dispatcher.held, entry]

theorem Ledger.play (h : Ledger p started c asked answered) (calls : List (Call τ))
    (hs : started + calls.countP Call.isStart < 2 ^ 64) :
    ∃ more, Ledger p (started + calls.countP Call.isStart) (c.play calls).1
        (fun q => asked q ++ Coalescer.asked p.k calls q) (answered ++ more) ∧
      more.map Prod.snd = (c.play calls).2 := by
  induction calls generalizing started c asked answered with
  | nil => exact ⟨[], by simpa [Coalescer.play, Coalescer.asked] using h, rfl⟩
  | cons call calls ih =>
    rw [countP_cons_eq, ← Nat.add_assoc] at hs ⊢
    obtain ⟨first, hl, hd, -⟩ := h.step call (by omega)
    obtain ⟨more, hl', hd'⟩ := ih hl hs
    refine ⟨first ++ more, ?_, ?_⟩
    · simpa [Coalescer.play, Coalescer.asked, List.append_assoc] using hl'
    · rw [List.map_append, hd, hd']
      rfl

end Runs

/-- In every run at most one lookup runs for a question. For each question, those who have been
answered and then those who wait are all who have asked, in the order in which they asked; every
answer is about what was asked, and whoever waits does so for a running lookup of exactly this
question. When a lookup ends in a call, all who wait for it get its finding in this call, in their
order; several lookups may end in one sweep, whatever order it takes. Purging makes nobody wait in
vain. -/
theorem serves_everybody_once (p : Parameters) (calls : List (Call τ)) (call : Call τ)
    (hstarts : (calls ++ [call]).countP Call.isStart < 2 ^ 64) :
    let r := (Coalescer.new p : Coalescer τ).play calls
    r.1.questions.Nodup ∧
    (∀ l ∈ r.1.inner.lookups.values, l.lookup.finished = false) ∧
    (∀ q, r.1.waiting q ≠ [] → q ∈ r.1.questions) ∧
    (∃ answered : List (Question × Delivery τ), answered.map Prod.snd = r.2 ∧
      (∀ a ∈ answered, a.2.finding.Answers a.1) ∧
      ∀ q, served q answered ++ r.1.waiting q = asked p.k calls q) ∧
    Settles r.1 call (r.1.step call) ∧
    ∀ now q, (r.1.purge now).waiting q = r.1.waiting q := by
  intro r
  rw [List.countP_append] at hstarts
  obtain ⟨answered, hl, hd⟩ := (new_ledger p).play calls (by omega)
  obtain ⟨-, -, -, hsettles⟩ := hl.step call (by omega)
  have hquestions := hl.questions_eq
  refine ⟨hquestions ▸ hl.serving.once, ?_, ?_,
    ⟨answered, hd, hl.serving.answers, hl.serving.order⟩, hsettles, hl.serving.waiting_purge⟩
  · intro l hm
    obtain ⟨e, he, rfl⟩ := List.mem_map.mp hm
    exact (hl.inner.lives e.1 e.2 (Catalog.get?_of_mem hl.inner.keys he)).1
  · intro q hq
    rw [hquestions]
    by_contra hn
    exact hq (hl.serving.waiting_of_not_mem hn)

section Walk

open Lookup (numbered pairTables)

/-- Two ask for the value under the identifier of peer 3, and the request for it goes out. -/
def sharedCalls : List (Call Nat) :=
  [.start 0 pairTables (.value (numbered 3).id) 0, .start 1 pairTables (.value (numbered 3).id) 1,
    .pop]

def sharedRun : Coalescer Nat × List (Delivery Nat) :=
  (Coalescer.new { k := 2, alpha := 1 }).play sharedCalls

/-- One asks for the value under the identifier of peer 3, two for that of peer 2. Nobody answers, and
both lookups have given up the peer that they asked first. -/
def silentCalls : List (Call Nat) :=
  [.start 0 pairTables (.value (numbered 3).id) 0, .start 0 pairTables (.value (numbered 2).id) 1,
    .start 0 pairTables (.value (numbered 2).id) 2, .sweep 6 .listed]

def silentRun : Coalescer Nat × List (Delivery Nat) :=
  (Coalescer.new { k := 2, alpha := 1, requestTimeout := 5 }).play silentCalls

/-- The one lookup ends with the answer of peer 3, which goes to both who wait. Two lookups that end
in one sweep give their findings in the order of this sweep, here the later one first. -/
theorem serves_everybody_once_shared :
    sharedRun.1.waiting (.value (numbered 3).id) = [0, 1] ∧
    sharedRun.1.questions = [.value (numbered 3).id] ∧
    Settles sharedRun.1 (.respond 2 (numbered 3).id (.findValue 0 [] (some [7])))
      (sharedRun.1.step (.respond 2 (numbered 3).id (.findValue 0 [] (some [7])))) ∧
    (sharedRun.1.step (.respond 2 (numbered 3).id (.findValue 0 [] (some [7])))).2.map
      Delivery.ticket = [0, 1] ∧
    silentRun.1.questions = [.value (numbered 3).id, .value (numbered 2).id] ∧
    Settles silentRun.1 (.sweep 12 .reversed) (silentRun.1.step (.sweep 12 .reversed)) ∧
    (silentRun.1.step (.sweep 12 .reversed)).2.map Delivery.ticket = [1, 2, 0] := by
  refine ⟨by cbv, by cbv, ?_, by cbv, by cbv, ?_, by cbv⟩
  · exact (serves_everybody_once { k := 2, alpha := 1 } sharedCalls
      (.respond 2 (numbered 3).id (.findValue 0 [] (some [7]))) (by decide)).2.2.2.2.1
  · exact (serves_everybody_once { k := 2, alpha := 1, requestTimeout := 5 } silentCalls
      (.sweep 12 .reversed) (by decide)).2.2.2.2.1

end Walk

end Coalescer

end Kademlia
