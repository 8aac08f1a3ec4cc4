import Kademlia.Proofs.Dispatcher.Lives

/-!
Runs of a dispatcher: any calls at any times, with all that they give to the outside. A call that
names a context reaches the lookup that runs under it, or is let pass. Main statements: contexts are
handed out in turn, and every run keeps the lookups apart.
-/

namespace Kademlia

namespace Lookup

def fault (l : Lookup) : Call → List Error
  | .respond now sender peers content =>
    match l.respond now sender peers content with
    | .ok _ => []
    | .error e => [e]
  | _ => []

theorem carries_compositional :
    Compositional fun l r => ∀ o ∈ r.2.requests, o.context = l.context where
  stay _ := List.forall_mem_nil _
  trans l r s ht hr hs := by
    intro o ho
    rcases List.mem_append.mp ho with ho | ho
    · exact hr o ho
    · exact (hs o ho).trans ht.context
  failure l now id _ h hf _ _ := by
    have hturn : Turn l id ((l.settle id .failed).pump now) := failed_turn h hf now
    intro o ho
    exact (hturn.context o ho).1
  answer l now sender peers content h hw := by
    have hturn := answered_turn h hw now peers content
    intro o ho
    exact (hturn.context o ho).1

theorem Lived.steady {p : Parameters} {context : UInt64} {goal : Goal} {r : Lookup × Effects}
    (h : Lived p context goal r) : r.1.Steady := by
  obtain ⟨tables, start, calls, rfl⟩ := h
  exact (life_steady (new_coherent context p tables goal) start calls).1

theorem filter_requests {requests : List Outgoing} {context : UInt64}
    (h : ∀ o ∈ requests, o.context = context) (other : UInt64) :
    requests.filter (fun o => o.context = other) = if context = other then requests else [] := by
  split
  next he =>
    refine List.filter_eq_self.mpr fun o ho => ?_
    simp [h o ho, he]
  next hne =>
    refine List.filter_eq_nil_iff.mpr fun o ho => ?_
    simp [h o ho, hne]

/-- A move under a context: it sends only under this context, and what it finds ends the lookup. -/
structure Keeps (context : UInt64) (r : Lookup × Effects) : Prop where
  context_eq : r.1.context = context
  requests : ∀ o ∈ r.2.requests, o.context = context
  finding : r.1.finished = false → r.2.finding = none

theorem start_keeps (context : UInt64) (p : Parameters) (tables : Directory) (goal : Goal)
    (now : Time) : Keeps context ((Lookup.new context p tables goal).start now) := by
  have hc := new_coherent context p tables goal
  have hf := new_finished context p tables goal
  have hnew : (Lookup.new context p tables goal).context = context :=
    (new_sameTask context p tables goal).context
  constructor
  case context_eq => exact (pump_sameTask hc now).context.trans hnew
  case requests =>
    intro o ho
    exact ((pump_sends hc hf now).1.context o ho).1.trans hnew
  case finding =>
    intro hr
    have hnot : ¬ ((Lookup.new context p tables goal).pump now).1.finished = true := by
      rw [Bool.not_eq_true]
      exact hr
    exact (pump_delivers hc hf now).trans (if_neg hnot)

theorem Steady.step_keeps {l : Lookup} (h : l.Steady) (hf : l.finished = false) (c : Call) :
    Keeps l.context (l.step c) := by
  constructor
  case context_eq => exact (step_steady h c).2.context
  case requests => exact carries_compositional.step h c
  case finding =>
    intro hr
    rw [(delivers_compositional.step h c).2 hf, hr]
    rfl

end Lookup

namespace Dispatcher

variable {τ : Type}

section Calls

/-- Calls of a dispatcher. A sweep goes through the running lookups in any order. -/
inductive Call (τ : Type) where
  | start (now : Time) (tables : Directory) (goal : Goal) (ticket : τ)
  | respond (now : Time) (context : UInt64) (sender : Ident) (peers : List Peer)
      (content : Content)
  | peerFailed (now : Time) (context : UInt64) (peer : Ident)
  | sweep (now : Time) (order : Arrangement (UInt64 × Running τ))
  | pop

def Call.isStart : Call τ → Bool
  | .start .. => true
  | _ => false

def Call.ticket? : Call τ → Option τ
  | .start _ _ _ ticket => some ticket
  | _ => none

/-- The context that a call names, with what the call is to the lookup of this context. -/
def Call.named? : Call τ → Option (UInt64 × Lookup.Call)
  | .respond now context sender peers content =>
    some (context, .respond now sender peers content)
  | .peerFailed now context peer => some (context, .giveUp now peer)
  | _ => none

/-- What calls have given to the outside. An error stands with the context that its call named. -/
structure Log (τ : Type) where
  sent : List Outgoing := []
  delivered : List (Delivery τ) := []
  faults : List (UInt64 × Error) := []

def Log.append (a b : Log τ) : Log τ :=
  ⟨a.sent ++ b.sent, a.delivered ++ b.delivered, a.faults ++ b.faults⟩

/-- Takes one call; a response that is refused changes nothing. -/
def step (d : Dispatcher τ) : Call τ → Dispatcher τ × Log τ
  | .start now tables goal ticket =>
    let r := d.start now tables goal ticket
    (r.1, { delivered := r.2 })
  | .respond now context sender peers content =>
    match d.answer now context sender peers content with
    | .ok r => (r.1, { delivered := r.2 })
    | .error e => (d, { faults := [(context, e)] })
  | .peerFailed now context peer =>
    let r := d.peerFailed now context peer
    (r.1, { delivered := r.2 })
  | .sweep now order =>
    let r := d.sweep now order
    (r.1, { delivered := r.2 })
  | .pop => (d.pop.2, { sent := d.pop.1.toList })

def play (d : Dispatcher τ) : List (Call τ) → Dispatcher τ × Log τ
  | [] => (d, {})
  | c :: calls =>
    let (d, log) := d.step c
    let (d, more) := d.play calls
    (d, log.append more)

structure Ignores (d : Dispatcher τ) (context : UInt64) : Prop where
  answer : ∀ now sender peers content, d.answer now context sender peers content = .ok (d, [])
  peerFailed : ∀ now peer, d.peerFailed now context peer = (d, [])

theorem ignores_of_absent {d : Dispatcher τ} {context : UInt64}
    (h : d.lookups.get? context = none) : d.Ignores context :=
  ⟨fun _ _ _ _ => by simp [Dispatcher.answer, h], fun _ _ => by simp [Dispatcher.peerFailed, h]⟩

@[simp] theorem Log.append_sent (a b : Log τ) : (a.append b).sent = a.sent ++ b.sent := rfl

@[simp] theorem Log.append_delivered (a b : Log τ) :
    (a.append b).delivered = a.delivered ++ b.delivered := rfl

@[simp] theorem Log.append_faults (a b : Log τ) : (a.append b).faults = a.faults ++ b.faults := rfl

theorem Log.append_assoc (a b c : Log τ) : (a.append b).append c = a.append (b.append c) := by
  simp [Log.append]

theorem Log.append_idle (a : Log τ) : a.append {} = a := by
  simp [Log.append]

theorem play_append (d : Dispatcher τ) (calls more : List (Call τ)) :
    d.play (calls ++ more) = (((d.play calls).1.play more).1,
      (d.play calls).2.append ((d.play calls).1.play more).2) := by
  induction calls generalizing d with
  | nil => simp [play, Log.append]
  | cons c calls ih => simp [play, ih, Log.append_assoc]

end Calls

section Counting

variable {d : Dispatcher τ}

theorem step_named (d : Dispatcher τ) {call : Call τ} {context : UInt64} {c : Lookup.Call}
    (hc : call.named? = some (context, c)) :
    (d.lookups.get? context = none ∧ d.step call = (d, {})) ∨
    ∃ r, d.lookups.get? context = some r ∧
      ((∃ e, r.lookup.fault c = [e] ∧ r.lookup.step c = (r.lookup, {}) ∧
        d.step call = (d, { faults := [(context, e)] })) ∨
      (r.lookup.fault c = [] ∧
        d.step call = ((d.absorb r.ticket (r.lookup.step c)).1,
          { delivered := (d.absorb r.ticket (r.lookup.step c)).2 }))) := by
  cases call with
  | start now tables goal ticket => cases hc
  | sweep now order => cases hc
  | pop => cases hc
  | respond now context sender peers content =>
    cases hc
    cases hr : d.lookups.get? context with
    | none => exact Or.inl ⟨rfl, by simp [step, answer, hr]⟩
    | some r =>
      refine Or.inr ⟨r, rfl, ?_⟩
      cases hs : r.lookup.respond now sender peers content with
      | error e =>
        refine Or.inl ⟨e, by simp [Lookup.fault, hs], by simp [Lookup.step, hs], ?_⟩
        simp [step, answer, hr, hs, Except.map]
      | ok t =>
        refine Or.inr ⟨by simp [Lookup.fault, hs], ?_⟩
        simp [step, answer, hr, hs, Except.map, Lookup.step]
  | peerFailed now context peer =>
    cases hc
    cases hr : d.lookups.get? context with
    | none => exact Or.inl ⟨rfl, by simp [step, peerFailed, hr]⟩
    | some r => exact Or.inr ⟨r, rfl, Or.inr ⟨rfl, by simp [step, peerFailed, hr, Lookup.step]⟩⟩

theorem sweepAll_next (d : Dispatcher τ) (now : Time) (entries : List (UInt64 × Running τ)) :
    (sweepAll now entries d).1.nextContext = d.nextContext := by
  induction entries generalizing d with
  | nil => rfl
  | cons e rest ih => exact ih (d.absorb e.2.ticket (e.2.lookup.sweep now)).1

theorem step_next_named (d : Dispatcher τ) {call : Call τ} {context : UInt64} {c : Lookup.Call}
    (hc : call.named? = some (context, c)) : (d.step call).1.nextContext = d.nextContext := by
  rcases d.step_named hc with ⟨-, he⟩ | ⟨r, -, ⟨e, -, -, he⟩ | ⟨-, he⟩⟩
  · rw [he]
  · rw [he]
  · rw [he]
    rfl

theorem step_next (d : Dispatcher τ) (call : Call τ) : (d.step call).1.nextContext =
    d.nextContext + UInt64.ofNat ([call].countP Call.isStart) := by
  have hsame : d.nextContext = d.nextContext + UInt64.ofNat 0 := by simp
  cases call with
  | start now tables goal ticket => rfl
  | respond now context sender peers content => exact (d.step_next_named rfl).trans hsame
  | peerFailed now context peer => exact (d.step_next_named rfl).trans hsame
  | sweep now order => exact (sweepAll_next d now _).trans hsame
  | pop =>
    refine Eq.trans ?_ hsame
    change d.pop.2.nextContext = d.nextContext
    unfold pop
    split <;> rfl

theorem play_next (d : Dispatcher τ) (calls : List (Call τ)) : (d.play calls).1.nextContext =
    d.nextContext + UInt64.ofNat (calls.countP Call.isStart) := by
  induction calls generalizing d with
  | nil => simp [play]
  | cons c calls ih =>
    rw [countP_cons_eq, UInt64.ofNat_add, ← UInt64.add_assoc, ← step_next]
    exact ih (d.step c).1

end Counting

section Tending

variable {p : Parameters} {asks : τ → Goal → Prop} {started : Nat} {d : Dispatcher τ}

theorem Tended.keeps (h : Tended p asks started d) {context : UInt64} {r : Running τ}
    (hr : d.lookups.get? context = some r) (c : Lookup.Call) :
    Lookup.Keeps context (r.lookup.step c) := by
  obtain ⟨hf, goal, past, -, hlived⟩ := h.lives context r hr
  have hcontext : r.lookup.context = context := hlived.context_eq
  exact hcontext ▸ hlived.steady.step_keeps hf c

theorem Tended.step_named (h : Tended p asks started d) {call : Call τ} {context : UInt64}
    {c : Lookup.Call} (hc : call.named? = some (context, c)) :
    Tended p asks started (d.step call).1 := by
  rcases d.step_named hc with ⟨-, he⟩ | ⟨r, hr, ⟨e, -, -, he⟩ | ⟨-, he⟩⟩
  · rw [he]
    exact h
  · rw [he]
    exact h
  · rw [he]
    exact (h.turn hr c).1

theorem Tended.step (h : Tended p (fun _ _ => True) started d) (call : Call τ)
    (hs : started + [call].countP Call.isStart < 2 ^ 64) :
    Tended p (fun _ _ => True) (started + [call].countP Call.isStart) (d.step call).1 := by
  cases call with
  | start now tables goal ticket => exact (h.start hs now tables trivial).1
  | respond now context sender peers content => exact h.step_named rfl
  | peerFailed now context peer => exact h.step_named rfl
  | sweep now order => exact (h.sweep now order).1
  | pop => exact h.pop

theorem Tended.play (h : Tended p (fun _ _ => True) started d) (calls : List (Call τ))
    (hs : started + calls.countP Call.isStart < 2 ^ 64) :
    Tended p (fun _ _ => True) (started + calls.countP Call.isStart) (d.play calls).1 := by
  induction calls generalizing d started with
  | nil => exact h
  | cons call calls ih =>
    rw [countP_cons_eq, ← Nat.add_assoc] at hs ⊢
    exact ih (h.step call (by omega)) hs

theorem Tended.ignores (h : Tended p asks started d) {context : UInt64}
    (hc : started ≤ context.toNat) : d.Ignores context := by
  apply ignores_of_absent
  by_contra hr
  have hused := h.used context ((Catalog.mem_keys_iff d.lookups context).mpr hr)
  have hnext := h.next
  omega

end Tending

end Dispatcher

end Kademlia
