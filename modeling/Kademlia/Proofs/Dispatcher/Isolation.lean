import Kademlia.Proofs.Dispatcher.Run
import Kademlia.Proofs.Lookup.Convergence

/-!
Lookups side by side. What has come of one context, in the requests, the findings and the errors that
a dispatcher gives to the outside, is followed through any calls. Main statement: it is what the same
lookup comes to alone, when it gets only the sweeps and the calls that name it.
-/

namespace Kademlia

namespace Lookup

def faults (l : Lookup) : List Call → List Error
  | [] => []
  | c :: calls => l.fault c ++ (l.step c).1.faults calls

def going (l : Lookup) : Option Lookup := if l.finished then none else some l

end Lookup

/-- What has come of a context: its lookup while that runs, all that it has asked of the outside, and
the errors of the calls that it refused. -/
structure Course where
  running : Option Lookup := none
  effects : Effects := {}
  faults : List Error := []

namespace Course

def hear (s : Course) (c : Lookup.Call) : Course :=
  match s.running with
  | none => s
  | some l => ⟨(l.step c).1.going, s.effects.append (l.step c).2, s.faults ++ l.fault c⟩

def hearAll (s : Course) (calls : List Lookup.Call) : Course := calls.foldl hear s

theorem hear_none {s : Course} (h : s.running = none) (c : Lookup.Call) : s.hear c = s := by
  simp [hear, h]

theorem hearAll_none {s : Course} (h : s.running = none) (calls : List Lookup.Call) :
    s.hearAll calls = s := by
  induction calls with
  | nil => rfl
  | cons c calls ih =>
    rw [hearAll, List.foldl_cons, hear_none h]
    exact ih

theorem hearAll_alone {l : Lookup} (h : l.Steady) (effects : Effects) (faults : List Error)
    (calls : List Lookup.Call) :
    (⟨l.going, effects, faults⟩ : Course).hearAll calls =
      ⟨(l.play calls).1.going, effects.append (l.play calls).2, faults ++ l.faults calls⟩ := by
  induction calls generalizing l effects faults with
  | nil => simp [hearAll, Lookup.play, Lookup.faults, Effects.append_idle]
  | cons c calls ih =>
    have hstep : (⟨l.going, effects, faults⟩ : Course).hear c =
        ⟨(l.step c).1.going, effects.append (l.step c).2, faults ++ l.fault c⟩ := by
      by_cases hf : l.finished = true
      · have hidle : l.step c = (l, {}) := (Lookup.delivers_compositional.step h c).1 hf
        have hfault : l.fault c = [] := by
          cases c with
          | respond now sender peers content =>
            simp [Lookup.fault, Lookup.respond_finished hf]
          | giveUp now id => rfl
          | sweep now => rfl
        rw [hidle, hfault, Effects.append_idle, List.append_nil]
        exact hear_none (by simp [Lookup.going, hf]) c
      · simp [hear, Lookup.going, hf]
    rw [hearAll, List.foldl_cons, hstep]
    simpa [hearAll, Lookup.play, Lookup.faults, Effects.append_assoc, List.append_assoc] using
      ih (Lookup.step_steady h c).1 (effects.append (l.step c).2) (faults ++ l.fault c)

end Course

namespace Dispatcher

variable {τ : Type}

section Hearing

/-- What the lookup of a context gets to hear of a call: calls that name the context while the lookup
runs, and all sweeps. -/
def Call.heard (context : UInt64) (runs : Bool) : Call τ → List Lookup.Call
  | .sweep now _ => [.sweep now]
  | call => (call.named?.filter fun n => n.1 = context && runs).toList.map Prod.snd

def fed (context : UInt64) (d : Dispatcher τ) : List (Call τ) → List Lookup.Call
  | [] => []
  | c :: calls => c.heard context (d.lookups.contains context) ++ fed context (d.step c).1 calls

end Hearing

section Mirror

variable [DecidableEq τ]

/-- The dispatcher shows of a context, whose lookup has a ticket of its own, just its course. -/
structure Mirrors (context : UInt64) (ticket : τ) (d : Dispatcher τ) (log : Log τ) (s : Course) :
    Prop where
  running : d.lookups.get? context = s.running.map (Running.mk ticket)
  requests : (log.sent ++ d.outbound).filter (fun o => o.context = context) = s.effects.requests
  findings : (log.delivered.filter fun δ => δ.ticket = ticket).map Delivery.finding =
    s.effects.finding.toList
  faults : (log.faults.filter fun f => f.1 = context).map Prod.snd = s.faults
  unfound : ∀ l, s.running = some l → s.effects.finding = none
  others : ∀ c r, d.lookups.get? c = some r → c ≠ context → r.ticket ≠ ticket

variable {context : UInt64} {ticket : τ} {d : Dispatcher τ} {log : Log τ} {s : Course}

omit [DecidableEq τ] in
theorem queued_absorb (d : Dispatcher τ) (log : Log τ) (ticket : τ) (r : Lookup × Effects) :
    (log.append { delivered := (d.absorb ticket r).2 }).sent ++ (d.absorb ticket r).1.outbound =
      (log.sent ++ d.outbound) ++ r.2.requests := by
  simp [absorb]

theorem Mirrors.absorb_other (h : Mirrors context ticket d log s) {c : UInt64} (hc : c ≠ context)
    {other : τ} (ho : other ≠ ticket) {r : Lookup × Effects} (hr : Lookup.Keeps c r) :
    Mirrors context ticket (d.absorb other r).1 (log.append { delivered := (d.absorb other r).2 })
      s := by
  have hrequests : r.2.requests.filter (fun o => o.context = context) = [] :=
    (Lookup.filter_requests hr.requests context).trans (if_neg hc)
  have hfindings : (d.absorb other r).2.filter (fun δ => δ.ticket = ticket) = [] := by
    apply List.filter_eq_nil_iff.mpr
    intro δ hm
    obtain ⟨f, -, rfl⟩ := List.mem_map.mp hm
    simp [ho]
  constructor
  case running =>
    rw [get?_absorb hr.context_eq, if_neg (Ne.symm hc)]
    exact h.running
  case requests =>
    rw [queued_absorb, List.filter_append, hrequests, List.append_nil]
    exact h.requests
  case findings =>
    rw [Log.append_delivered, List.filter_append, hfindings, List.append_nil]
    exact h.findings
  case faults => simpa using h.faults
  case unfound => exact h.unfound
  case others =>
    intro c' r' hr' hne
    rw [get?_absorb hr.context_eq] at hr'
    split at hr'
    · split at hr'
      · cases hr'
      · cases hr'
        exact ho
    · exact h.others c' r' hr' hne

theorem Mirrors.absorb_own (h : Mirrors context ticket d log s) (hnone : s.effects.finding = none)
    {r : Lookup × Effects} (hr : Lookup.Keeps context r) :
    Mirrors context ticket (d.absorb ticket r).1 (log.append { delivered := (d.absorb ticket r).2 })
      ⟨r.1.going, s.effects.append r.2, s.faults⟩ := by
  have hrequests : r.2.requests.filter (fun o => o.context = context) = r.2.requests :=
    (Lookup.filter_requests hr.requests context).trans (if_pos rfl)
  have hold : log.delivered.filter (fun δ => δ.ticket = ticket) = [] := by
    simpa [hnone] using h.findings
  constructor
  case running =>
    rw [get?_absorb hr.context_eq, if_pos rfl, Lookup.going]
    split <;> rfl
  case requests =>
    rw [queued_absorb, List.filter_append, hrequests, h.requests]
    rfl
  case findings =>
    rw [Log.append_delivered, List.filter_append, hold, List.nil_append]
    simp [absorb, Effects.append, hnone, List.filter_map, Function.comp_def]
  case faults => simpa using h.faults
  case unfound =>
    intro l hl
    have hf : r.1.finished = false := by
      by_contra hf
      simp [Lookup.going, hf] at hl
    simp [Effects.append, hnone, hr.finding hf]
  case others =>
    intro c' r' hr' hne
    rw [get?_absorb hr.context_eq, if_neg hne] at hr'
    exact h.others c' r' hr' hne

variable {p : Parameters} {asks : τ → Goal → Prop} {started : Nat}

theorem Mirrors.turn (h : Mirrors context ticket d log s)
    (ht : Tended p asks started d) {c : UInt64} {r : Running τ}
    (hr : d.lookups.get? c = some r) {call : Lookup.Call} (hok : r.lookup.fault call = []) :
    Mirrors context ticket (d.absorb r.ticket (r.lookup.step call)).1
      (log.append { delivered := (d.absorb r.ticket (r.lookup.step call)).2 })
      (if c = context then s.hear call else s) := by
  have hkeeps := ht.keeps hr call
  by_cases hc : c = context
  · subst hc
    rw [if_pos rfl]
    obtain ⟨l, hl, hrl⟩ := Option.map_eq_some_iff.mp (h.running.symm.trans hr)
    subst hrl
    have hhear : s.hear call =
        ⟨(l.step call).1.going, s.effects.append (l.step call).2, s.faults⟩ := by
      have hfault : l.fault call = [] := hok
      simp [Course.hear, hl, hfault]
    rw [hhear]
    exact h.absorb_own (h.unfound l hl) hkeeps
  · rw [if_neg hc]
    exact h.absorb_other hc (h.others c r hr hc) hkeeps

theorem Mirrors.refuse (h : Mirrors context ticket d log s)
    (ht : Tended p asks started d) {c : UInt64} {r : Running τ}
    (hr : d.lookups.get? c = some r) {call : Lookup.Call} {e : Error}
    (hfault : r.lookup.fault call = [e]) (hstay : r.lookup.step call = (r.lookup, {})) :
    Mirrors context ticket d (log.append { faults := [(c, e)] })
      (if c = context then s.hear call else s) := by
  by_cases hc : c = context
  · subst hc
    rw [if_pos rfl]
    have hf := (ht.lives c r hr).1
    obtain ⟨l, hl, hrl⟩ := Option.map_eq_some_iff.mp (h.running.symm.trans hr)
    subst hrl
    have hgoing : l.going = some l := if_neg (by rw [hf]; simp)
    have hhear : s.hear call = ⟨some l, s.effects, s.faults ++ [e]⟩ := by
      simp only [Course.hear, hl, hstay, hfault, hgoing, Effects.append_idle]
    rw [hhear]
    constructor
    case running => exact h.running.trans (by rw [hl])
    case requests => simpa using h.requests
    case findings => simpa using h.findings
    case faults => simp [h.faults]
    case unfound =>
      intro _ _
      exact h.unfound l hl
    case others => exact h.others
  · rw [if_neg hc]
    constructor
    case running => exact h.running
    case requests => simpa using h.requests
    case findings => simpa using h.findings
    case faults => simpa [hc] using h.faults
    case unfound => exact h.unfound
    case others => exact h.others

theorem Mirrors.sweepAll (h : Mirrors context ticket d log s)
    (ht : Tended p asks started d) (now : Time)
    {entries : List (UInt64 × Running τ)} (hn : (entries.map Prod.fst).Nodup)
    (hin : ∀ e ∈ entries, d.lookups.get? e.1 = some e.2) :
    Mirrors context ticket (sweepAll now entries d).1
      (log.append { delivered := (sweepAll now entries d).2 })
      (if context ∈ entries.map Prod.fst then s.hear (.sweep now) else s) := by
  induction entries generalizing d log s with
  | nil => simpa [Dispatcher.sweepAll, Log.append] using h
  | cons e rest ih =>
    obtain ⟨c, r⟩ := e
    have hr : d.lookups.get? c = some r := hin _ List.mem_cons_self
    have hkeeps := ht.keeps hr (.sweep now)
    have hok : r.lookup.fault (.sweep now) = [] := rfl
    have hturn := h.turn ht hr hok
    rw [List.map_cons, List.nodup_cons] at hn
    have hrest : ∀ e ∈ rest,
        (d.absorb r.ticket (r.lookup.step (.sweep now))).1.lookups.get? e.1 = some e.2 := by
      intro e he
      have hne : e.1 ≠ c := fun heq => hn.1 (List.mem_map.mpr ⟨e, he, heq⟩)
      rw [get?_absorb hkeeps.context_eq, if_neg hne]
      exact hin e (List.mem_cons_of_mem _ he)
    have hnext := ih hturn (ht.turn hr (.sweep now)).1 hn.2 hrest
    rw [Log.append_assoc] at hnext
    by_cases hc : c = context
    · subst hc
      have hhead : c ∈ ((c, r) :: rest).map Prod.fst := List.mem_cons_self
      rw [if_neg hn.1, if_pos rfl] at hnext
      rw [if_pos hhead]
      exact hnext
    · have hmem : context ∈ ((c, r) :: rest).map Prod.fst ↔ context ∈ rest.map Prod.fst := by
        rw [List.map_cons, List.mem_cons]
        exact or_iff_right (Ne.symm hc)
      rw [if_neg hc] at hnext
      simp only [hmem]
      exact hnext

theorem Mirrors.step_named (h : Mirrors context ticket d log s)
    (ht : Tended p asks started d) {call : Call τ} {c : UInt64} {l : Lookup.Call}
    (hc : call.named? = some (c, l)) :
    Mirrors context ticket (d.step call).1 (log.append (d.step call).2)
      (if c = context ∧ d.lookups.contains context = true then s.hear l else s) := by
  rcases d.step_named hc with ⟨hr, he⟩ | ⟨r, hr, hcases⟩
  · have habsent : ¬ (c = context ∧ d.lookups.contains context = true) := by
      rintro ⟨rfl, hin⟩
      rw [Catalog.contains, hr] at hin
      cases hin
    rw [he, if_neg habsent, Log.append_idle]
    exact h
  · have hruns : (c = context ∧ d.lookups.contains context = true) ↔ c = context := by
      refine and_iff_left_of_imp ?_
      rintro rfl
      rw [Catalog.contains, hr]
      rfl
    simp only [hruns]
    rcases hcases with ⟨e, hfault, hstay, he⟩ | ⟨hok, he⟩
    · rw [he]
      exact h.refuse ht hr hfault hstay
    · rw [he]
      exact h.turn ht hr hok

theorem Mirrors.sweep (h : Mirrors context ticket d log s)
    (ht : Tended p asks started d) (now : Time)
    (order : Arrangement (UInt64 × Running τ)) :
    Mirrors context ticket (d.step (.sweep now order)).1 (log.append (d.step (.sweep now order)).2)
      (s.hear (.sweep now)) := by
  obtain ⟨hn, hentries⟩ := arranged_entries ht.keys order
  have hall := h.sweepAll ht now hn fun e => (hentries e).mp
  by_cases hin : context ∈ (order.arrange d.lookups.entries).map Prod.fst
  · rw [if_pos hin] at hall
    exact hall
  · have habsent : d.lookups.get? context = none := by
      by_contra hr
      have hkey := (Catalog.mem_keys_iff d.lookups context).mpr hr
      exact hin (((order.perm d.lookups.entries).map Prod.fst).mem_iff.mpr hkey)
    have hnone : s.running = none := by simpa [h.running] using habsent
    rw [if_neg hin] at hall
    rw [Course.hear_none hnone]
    exact hall

/-- Whatever a call does to other lookups, of this one it shows what the lookup makes of it. -/
theorem Mirrors.step (h : Mirrors context ticket d log s)
    (ht : Tended p asks started d) (call : Call τ)
    (hticket : call.ticket? ≠ some ticket)
    (hnext : call.isStart = true → d.nextContext ≠ context) :
    Mirrors context ticket (d.step call).1 (log.append (d.step call).2)
      (s.hearAll (call.heard context (d.lookups.contains context))) := by
  have hnamed : ∀ {c : UInt64} {l : Lookup.Call},
      s.hearAll ((Option.filter (fun n => n.1 = context && d.lookups.contains context)
        (some (c, l))).toList.map Prod.snd) =
      if c = context ∧ d.lookups.contains context = true then s.hear l else s := by
    intro c l
    by_cases hc : c = context ∧ d.lookups.contains context = true
    · rw [if_pos hc, Option.filter_some_pos (by simpa using hc)]
      rfl
    · rw [if_neg hc, Option.filter_some_neg (by simpa using hc)]
      rfl
  cases call with
  | start now tables goal other =>
    have hopen : Mirrors context ticket { d with nextContext := d.nextContext + 1 } log s :=
      ⟨h.running, h.requests, h.findings, h.faults, h.unfound, h.others⟩
    rw [Dispatcher.step, start_of_fresh ht.fresh]
    exact hopen.absorb_other (hnext rfl) (fun he => hticket (congrArg some he))
      (Lookup.start_keeps d.nextContext d.parameters tables goal now)
  | respond now c sender peers content =>
    have hheard := hnamed (c := c) (l := .respond now sender peers content)
    exact hheard ▸ h.step_named ht rfl
  | peerFailed now c peer =>
    have hheard := hnamed (c := c) (l := .giveUp now peer)
    exact hheard ▸ h.step_named ht rfl
  | sweep now order => exact h.sweep ht now order
  | pop =>
    have hall : (log.append (d.step .pop).2).sent ++ (d.step .pop).1.outbound =
        log.sent ++ d.outbound := by
      cases ho : d.outbound <;> simp [Dispatcher.step, Dispatcher.pop, ho]
    have hlookups : (d.step .pop).1.lookups = d.lookups := pop_lookups d
    have hfindings : (log.append (d.step .pop).2).delivered = log.delivered := by
      simp [Dispatcher.step]
    have hfaults : (log.append (d.step .pop).2).faults = log.faults := by
      simp [Dispatcher.step]
    exact ⟨hlookups ▸ h.running, hall ▸ h.requests, hfindings ▸ h.findings, hfaults ▸ h.faults,
      h.unfound, hlookups ▸ h.others⟩

theorem Mirrors.play (h : Mirrors context ticket d log s)
    (ht : Tended p (fun _ _ => True) started d) (hd : d.nextContext = UInt64.ofNat started)
    (calls : List (Call τ)) (hs : started + calls.countP Call.isStart < 2 ^ 64)
    (hticket : ∀ call ∈ calls, call.ticket? ≠ some ticket)
    (hnew : ∀ i, started ≤ i → i < started + calls.countP Call.isStart →
      UInt64.ofNat i ≠ context) :
    Mirrors context ticket (d.play calls).1 (log.append (d.play calls).2)
      (s.hearAll (fed context d calls)) := by
  induction calls generalizing d log s started with
  | nil =>
    rw [Dispatcher.play, Log.append_idle]
    exact h
  | cons call calls ih =>
    rw [countP_cons_eq, ← Nat.add_assoc] at hs hnew
    have hnext : call.isStart = true → d.nextContext ≠ context := by
      intro hstart
      have hone : [call].countP Call.isStart = 1 := by simp [hstart]
      rw [hd]
      exact hnew started (Nat.le_refl _) (by omega)
    have hstep := h.step ht call (hticket call List.mem_cons_self) hnext
    have hcontext : (d.step call).1.nextContext =
        UInt64.ofNat (started + [call].countP Call.isStart) := by
      rw [step_next, hd, UInt64.ofNat_add]
    have hm := ih hstep (ht.step call (by omega)) hcontext hs
      (fun c hc => hticket c (List.mem_cons_of_mem _ hc)) fun i hi => hnew i (by omega)
    rw [Log.append_assoc] at hm
    simpa [Dispatcher.play, fed, Course.hearAll] using hm

theorem new_mirrors (context : UInt64) (ticket : τ) (p : Parameters) :
    Mirrors context ticket (Dispatcher.new p) {} {} := by
  refine ⟨rfl, rfl, rfl, rfl, fun _ _ => rfl, ?_⟩
  intro c r hr
  simp [Dispatcher.new] at hr

theorem Mirrors.start (h : Mirrors context ticket d log s) (ht : Tended p asks started d)
    (hnone : s.effects.finding = none) (hnext : d.nextContext = context) (now : Time)
    (tables : Directory) (goal : Goal) :
    let r := (Lookup.new context d.parameters tables goal).start now
    Mirrors context ticket (d.step (.start now tables goal ticket)).1
      (log.append (d.step (.start now tables goal ticket)).2)
      ⟨r.1.going, s.effects.append r.2, s.faults⟩ := by
  subst hnext
  have hopen : Mirrors d.nextContext ticket { d with nextContext := d.nextContext + 1 } log s :=
    ⟨h.running, h.requests, h.findings, h.faults, h.unfound, h.others⟩
  rw [Dispatcher.step, start_of_fresh ht.fresh]
  exact hopen.absorb_own hnone (Lookup.start_keeps d.nextContext d.parameters tables goal now)

end Mirror

section Isolation

variable [DecidableEq τ]

/-- What a run shows of a context is what its lookup comes to alone, with the errors that it gives:
the requests that have been queued, sent already or not, what has been delivered for the ticket, and
the errors of calls that named the context. Once the lookup has ended, such calls are let pass. -/
structure AsAlone (context : UInt64) (ticket : τ) (r : Dispatcher τ × Log τ)
    (alone : Lookup × Effects) (faults : List Error) : Prop where
  requests : (r.2.sent ++ r.1.outbound).filter (fun o => o.context = context) = alone.2.requests
  findings : (r.2.delivered.filter fun δ => δ.ticket = ticket).map Delivery.finding =
    alone.2.finding.toList
  faults : (r.2.faults.filter fun f => f.1 = context).map Prod.snd = faults
  running : r.1.lookups.get? context = alone.1.going.map (Running.mk ticket)
  ended : alone.1.finished = true → r.1.Ignores context

theorem ofNat_ne_of_lt {i n : Nat} (hi : i < 2 ^ 64) (hn : n < 2 ^ 64) (hne : i ≠ n) :
    UInt64.ofNat i ≠ UInt64.ofNat n := by
  intro he
  have := congrArg UInt64.toNat he
  rw [UInt64.toNat_ofNat_of_lt' hi, UInt64.toNat_ofNat_of_lt' hn] at this
  exact hne this

/-- The run up to a start, whose ticket nobody else has, shows nothing of the context that comes
next, and with the start just what the lookup does at its own start. -/
theorem mirrors_start (p : Parameters) (before : List (Call τ))
    (hs : before.countP Call.isStart + 1 < 2 ^ 64) (now : Time) (tables : Directory) (goal : Goal)
    {ticket : τ} (hticket : ∀ call ∈ before, call.ticket? ≠ some ticket) :
    let context := UInt64.ofNat (before.countP Call.isStart)
    let r := (Lookup.new context p tables goal).start now
    let d := (Dispatcher.new p).play (before ++ [.start now tables goal ticket])
    Mirrors context ticket d.1 d.2 ⟨r.1.going, r.2, []⟩ ∧
      Tended p (fun _ _ => True) (before.countP Call.isStart + 1) d.1 ∧
      d.1.nextContext = UInt64.ofNat (before.countP Call.isStart + 1) := by
  intro context r d
  have hnew : ∀ i, 0 ≤ i → i < 0 + before.countP Call.isStart → UInt64.ofNat i ≠ context := by
    intro i _ hi
    exact ofNat_ne_of_lt (by omega) (by omega) (by omega)
  have hm := (new_mirrors context ticket p).play (new_tended p _) rfl before (by omega) hticket hnew
  have ht := (new_tended p fun (_ : τ) _ => True).play before (by omega)
  rw [Course.hearAll_none rfl] at hm
  rw [Nat.zero_add] at ht
  have hnext : ((Dispatcher.new p).play before).1.nextContext = context := by
    rw [play_next]
    exact UInt64.zero_add _
  have hd : d = (((((Dispatcher.new p).play before).1).step (.start now tables goal ticket)).1,
      ((Dispatcher.new p).play before).2.append
        ((((Dispatcher.new p).play before).1).step (.start now tables goal ticket)).2) := by
    simp only [d, play_append, Dispatcher.play, Log.append_idle]
  have hempty : ({} : Log τ).append ((Dispatcher.new p).play before).2 =
      ((Dispatcher.new p).play before).2 := by simp [Log.append]
  have hstart := hm.start ht rfl hnext now tables goal
  rw [ht.parameters, hempty] at hstart
  refine ⟨?_, ?_, ?_⟩
  · rw [hd]
    simpa [r, Effects.append] using hstart
  · rw [hd]
    exact ht.step (.start now tables goal ticket) hs
  · simp only [d, play_next, List.countP_append]
    exact UInt64.zero_add _

/-- Take a run with fewer starts than there are contexts. A call that names a context that has not
been handed out is let pass without effect. And a lookup that the run starts, for the holder of a
ticket of its own, shows in requests, finding and errors just what it comes to alone, from the same
tables, when it gets only the sweeps and the calls that name its context while it runs. -/
theorem runs_as_alone (p : Parameters) (calls : List (Call τ))
    (hstarts : calls.countP Call.isStart < 2 ^ 64) :
    let d := (Dispatcher.new p : Dispatcher τ).play calls
    (∀ context : UInt64, calls.countP Call.isStart ≤ context.toNat → d.1.Ignores context) ∧
    ∀ before now tables goal ticket after,
      calls = before ++ .start now tables goal ticket :: after →
      (∀ call ∈ before ++ after, call.ticket? ≠ some ticket) →
      let context := UInt64.ofNat (before.countP Call.isStart)
      let first := (Dispatcher.new p).play (before ++ [.start now tables goal ticket])
      let heard := fed context first.1 after
      let l := Lookup.new context p tables goal
      ((Dispatcher.new p : Dispatcher τ).play before).1.nextContext = context ∧
      AsAlone context ticket d (l.life now heard) ((l.start now).1.faults heard) := by
  intro d
  constructor
  · intro context hcontext
    have ht := (new_tended p fun (_ : τ) _ => True).play calls (by omega)
    exact ht.ignores (by omega)
  · intro before now tables goal ticket after hcalls hticket context first heard l
    have hcount : calls.countP Call.isStart =
        before.countP Call.isStart + 1 + after.countP Call.isStart := by
      rw [hcalls, List.countP_append, countP_cons_eq, ← Nat.add_assoc]
      rfl
    obtain ⟨hm, ht, hnext⟩ := mirrors_start p before (by omega) now tables goal fun c hc =>
      hticket c (List.mem_append_left _ hc)
    have hlater : ∀ i, before.countP Call.isStart + 1 ≤ i →
        i < before.countP Call.isStart + 1 + after.countP Call.isStart →
        UInt64.ofNat i ≠ context := by
      intro i hi hlt
      exact ofNat_ne_of_lt (by omega) (by omega) (by omega)
    have hall := hm.play ht hnext after (by omega)
      (fun c hc => hticket c (List.mem_append_right _ hc)) hlater
    have hd : d = ((first.1.play after).1, first.2.append (first.1.play after).2) := by
      rw [← play_append, List.append_assoc, List.singleton_append, ← hcalls]
    have hs : (l.start now).1.Steady := (Lookup.start_steady (Lookup.new_coherent ..) now).1
    rw [Course.hearAll_alone hs, List.nil_append] at hall
    constructor
    · rw [play_next]
      exact UInt64.zero_add _
    · rw [hd]
      constructor
      case requests => exact hall.requests
      case findings => exact hall.findings
      case faults => exact hall.faults
      case running => exact hall.running
      case ended =>
        intro hend
        have hgone : ((l.start now).1.play heard).1.going = none := if_pos hend
        apply ignores_of_absent
        rw [hall.running, hgone]
        rfl

section Walk

open Lookup (numbered pairTables)

/-- The first lookup of a run looks for peer 2, the second one for a value that peer 3 has. -/
def mixedBefore : List (Call Nat) := [.start 0 pairTables (.closest mainTable (numbered 2).id) 0]

def mixedStart : Call Nat := .start 1 pairTables (.value (numbered 3).id) 1

/-- The first lookup goes on, the second one refuses an answer and ends with the next, and a late
answer is let pass. -/
def mixedAfter : List (Call Nat) :=
  [.respond 2 0 (numbered 2).id [numbered 6] .none, .respond 3 1 (numbered 9).id [] .none, .pop,
    .sweep 4 .listed, .respond 5 1 (numbered 3).id [] (.value (some [7])),
    .respond 6 1 (numbered 3).id [] .none]

def mixedFirst : Dispatcher Nat × Log Nat :=
  (Dispatcher.new { k := 2, alpha := 1 }).play (mixedBefore ++ [mixedStart])

def mixedRun : Dispatcher Nat × Log Nat :=
  (Dispatcher.new { k := 2, alpha := 1 }).play (mixedBefore ++ mixedStart :: mixedAfter)

def mixedHeard : List Lookup.Call := fed 1 mixedFirst.1 mixedAfter

def mixedLookup : Lookup := Lookup.new 1 { k := 2, alpha := 1 } pairTables (.value (numbered 3).id)

/-- The second lookup hears the two answers and the sweep that come while it runs. -/
theorem runs_as_alone_mixed :
    AsAlone 1 1 mixedRun (mixedLookup.life 1 mixedHeard)
      ((mixedLookup.start 1).1.faults mixedHeard) ∧
    mixedHeard.length = 3 ∧ (mixedLookup.life 1 mixedHeard).1.finished = true ∧
    (mixedLookup.life 1 mixedHeard).2.requests.length = 1 ∧
    ((mixedLookup.start 1).1.faults mixedHeard).length = 1 := by
  refine ⟨?_, by cbv, by cbv, by cbv, by cbv⟩
  exact ((runs_as_alone { k := 2, alpha := 1 } (mixedBefore ++ mixedStart :: mixedAfter)
    (by decide)).2 mixedBefore 1 pairTables (.value (numbered 3).id) 1 mixedAfter rfl
    (by decide)).2

end Walk

end Isolation

end Dispatcher

end Kademlia
