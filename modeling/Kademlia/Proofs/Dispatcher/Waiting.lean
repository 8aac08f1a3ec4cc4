import Kademlia.Proofs.Dispatcher.Moves
import Kademlia.Proofs.Lookup.Waiting

/-!
For whom the lookups of a dispatcher wait while their requests stand in the queue. The queue is
apart from the lookups: a request that has been queued is handed out in its turn, whatever becomes
of its lookup until then. Main statement: whoever is asked by a request that is handed out has been
waited for since the request was queued, unless some call has ended that.
-/

namespace Kademlia

namespace Dispatcher

variable {τ : Type}

section Waits

/-- The lookup of the context runs, and has a request in flight to the peer. -/
def Waits (d : Dispatcher τ) (context : UInt64) (peer : Ident) : Prop :=
  ∃ r, d.lookups.get? context = some r ∧ r.lookup.Waits peer

def queued (d : Dispatcher τ) (call : Call τ) : List Outgoing :=
  (d.step call).1.outbound.drop d.outbound.length

/-- The call ends the wait of a lookup for a peer, as the lookup hears of it, or, when contexts have
come round, by starting another lookup in its place. -/
def Call.Ends (d : Dispatcher τ) (context : UInt64) (peer : Ident) : Call τ → Prop
  | .start now tables goal _ => context = d.nextContext ∧
      ((Lookup.new context d.parameters tables goal).start now).1.finished = false
  | call => ∃ r c, d.lookups.get? context = some r ∧ c ∈ call.heard context true ∧
      r.lookup.Ends peer c

def EndedIn (d : Dispatcher τ) (context : UInt64) (peer : Ident) : List (Call τ) → Prop
  | [] => False
  | c :: calls => c.Ends d context peer ∨ (d.step c).1.EndedIn context peer calls

end Waits

section Steps

variable {p : Parameters} {d : Dispatcher τ} {call : Call τ} {context : UInt64} {peer : Ident}
  {o : Outgoing}

theorem queued_eq (d : Dispatcher τ) (call : Call τ) :
    d.queued call = (d.moves call).flatMap Move.requests := by
  by_cases hp : call = .pop
  · subst hp
    have hrest : d.pop.2.outbound.length ≤ d.outbound.length := by
      unfold pop
      split
      next => exact Nat.le_refl _
      next ho => simp [ho]
    exact List.drop_eq_nil_of_le hrest
  · rw [queued, step_outbound d hp, List.drop_left]

theorem Tidy.mem_queued (h : Tidy p d) : o ∈ d.queued call ↔
    ∃ m ∈ d.moves call, m.context = o.context ∧ o ∈ m.requests := by
  rw [queued_eq, List.mem_flatMap]
  constructor
  · rintro ⟨m, hm, ho⟩
    exact ⟨m, hm, ((h.move_keeps hm).requests o ho).symm, ho⟩
  · rintro ⟨m, hm, -, ho⟩
    exact ⟨m, hm, ho⟩

theorem mem_recipients {requests : List Outgoing} :
    peer ∈ Lookup.recipients requests ↔ ∃ o ∈ requests, o.recipient.id = peer :=
  List.mem_map

theorem Tidy.queued_turned (h : Tidy p d) (hs : call.isStart = false) :
    (∃ o ∈ d.queued call, o.context = context ∧ o.recipient.id = peer) ↔
      ∃ r c, d.lookups.get? context = some r ∧ c ∈ call.heard context true ∧
        peer ∈ Lookup.recipients (r.lookup.step c).2.requests := by
  simp only [h.mem_queued, h.mem_moves, mem_recipients]
  constructor
  · rintro ⟨o, ⟨m, hm, hc, ho⟩, rfl, rfl⟩
    rcases hm with ⟨_, _, _, _, rfl, -⟩ | ⟨context, r, c, hr, hm, rfl⟩
    · cases hs
    · have hcontext : context = o.context := hc
      subst hcontext
      exact ⟨r, c, hr, hm, o, ho, rfl⟩
  · rintro ⟨r, c, hr, hm, o, ho, rfl⟩
    have hc : o.context = context := (h.turn_keeps hr c).requests o ho
    exact ⟨o, ⟨_, Or.inr ⟨context, r, c, hr, hm, rfl⟩, hc.symm, ho⟩, hc, rfl⟩

theorem Move.running_waits {m : Move τ} :
    (∃ r, m.running = some r ∧ r.lookup.Waits peer) ↔ m.outcome.1.Waits peer := by
  simp only [running_eq_some]
  constructor
  · rintro ⟨r, ⟨-, rfl⟩, hw⟩
    exact hw
  · intro hw
    exact ⟨_, ⟨hw.1, rfl⟩, hw⟩

theorem Tidy.waits_turned (h : Tidy p d) (hs : call.isStart = false) :
    (d.step call).1.Waits context peer ↔ d.Waits context peer ∧ ¬ call.Ends d context peer ∨
      ∃ o ∈ d.queued call, o.context = context ∧ o.recipient.id = peer := by
  have hends : call.Ends d context peer ↔ ∃ r c, d.lookups.get? context = some r ∧
      c ∈ call.heard context true ∧ r.lookup.Ends peer c := by
    cases call with
    | start => cases hs
    | _ => rfl
  rw [h.queued_turned hs, hends, Waits, Waits, h.get?_step hs]
  rcases call.heard_cases context with he | ⟨c, he⟩
  · simp [he]
  cases hr : d.lookups.get? context with
  | none => simp [he, heed]
  | some r =>
    obtain ⟨-, goal, past, hlived⟩ := h.lives context r hr
    have hstep := Lookup.step_waits hlived.steady hlived.distinct c peer
    have hheed : [c].foldl (heed context) (some r) = (turn context r c).running := rfl
    rw [he, hheed, Move.running_waits, turn, hstep]
    simp

theorem opening_waits (d : Dispatcher τ) (now : Time) (tables : Directory) (goal : Goal)
    (ticket : τ) :
    let m := d.opening now tables goal ticket
    m.outcome.1.Waits peer ↔ peer ∈ Lookup.recipients m.requests := by
  intro m
  have hc := Lookup.new_coherent d.nextContext d.parameters tables goal
  have hf := Lookup.new_finished d.nextContext d.parameters tables goal
  have hn := new_unasked d.nextContext d.parameters tables goal peer
  exact (Lookup.pump_waits hc hf now peer).trans (or_iff_right hn)

theorem waits_started (d : Dispatcher τ) (now : Time) (tables : Directory) (goal : Goal)
    (ticket : τ) :
    let call := Call.start now tables goal ticket
    (d.step call).1.Waits context peer ↔ d.Waits context peer ∧ ¬ call.Ends d context peer ∨
      ∃ o ∈ d.queued call, o.context = context ∧ o.recipient.id = peer := by
  intro call
  let m := d.opening now tables goal ticket
  have hget : (d.step call).1.lookups.get? context =
      if context = d.nextContext then m.running.or (d.lookups.get? context)
      else d.lookups.get? context := get?_start d now tables goal ticket context
  have hqueued : d.queued call = m.requests := by
    rw [queued_eq, moves, List.flatMap_singleton]
  have hcontext : ∀ o ∈ m.requests, o.context = d.nextContext :=
    (Lookup.start_keeps d.nextContext d.parameters tables goal now).requests
  rw [hqueued, Waits, Waits, hget]
  by_cases hc : context = d.nextContext
  · subst hc
    have hsent : (∃ o ∈ m.requests, o.context = d.nextContext ∧ o.recipient.id = peer) ↔
        m.outcome.1.Waits peer := by
      refine Iff.trans ?_ (d.opening_waits now tables goal ticket).symm
      rw [mem_recipients]
      exact exists_congr fun o => and_congr_right fun ho => and_iff_right (hcontext o ho)
    rw [if_pos rfl, hsent]
    cases hf : m.outcome.1.finished with
    | false =>
      have hends : call.Ends d d.nextContext peer := ⟨rfl, hf⟩
      have hrun : m.running = some ⟨ticket, m.outcome.1⟩ := Move.running_eq_some.mpr ⟨hf, rfl⟩
      simp [hends, hrun]
    | true =>
      have hends : ¬ call.Ends d d.nextContext peer := by
        rintro ⟨-, hgoes⟩
        cases hf.symm.trans hgoes
      have hrun : m.running = none := Move.running_eq_none.mpr hf
      have hnot : ¬ m.outcome.1.Waits peer := by simp [Lookup.Waits, hf]
      simp [hends, hrun, hnot]
  · have hends : ¬ call.Ends d context peer := fun he => hc he.1
    have hsent : ¬ ∃ o ∈ m.requests, o.context = context ∧ o.recipient.id = peer := by
      rintro ⟨o, ho, rfl, -⟩
      exact hc (hcontext o ho)
    simp [hc, hends, hsent]

/-- Exactly those are waited for after a call that were before without being ended by it, and those
for whom it queues a request. -/
theorem Tidy.waits_step (h : Tidy p d) (call : Call τ) (context : UInt64) (peer : Ident) :
    (d.step call).1.Waits context peer ↔ d.Waits context peer ∧ ¬ call.Ends d context peer ∨
      ∃ o ∈ d.queued call, o.context = context ∧ o.recipient.id = peer := by
  cases call with
  | start now tables goal ticket => exact d.waits_started now tables goal ticket
  | _ => exact h.waits_turned rfl

end Steps

section Runs

variable {p : Parameters} {d : Dispatcher τ} {context : UInt64} {peer : Ident}

theorem Tidy.waits_play (h : Tidy p d) (hw : d.Waits context peer) (calls : List (Call τ)) :
    (d.play calls).1.Waits context peer ∨ d.EndedIn context peer calls := by
  induction calls generalizing d with
  | nil => exact Or.inl hw
  | cons call calls ih =>
    by_cases he : call.Ends d context peer
    · exact Or.inr (Or.inl he)
    · have hnext := (h.waits_step call context peer).mpr (Or.inl ⟨hw, he⟩)
      exact (ih (h.step call) hnext).imp_right Or.inr

theorem not_endedIn_pops (d : Dispatcher τ) {calls : List (Call τ)} (hc : ∀ c ∈ calls, c = .pop) :
    ¬ d.EndedIn context peer calls := by
  induction calls generalizing d with
  | nil => exact not_false
  | cons call calls ih =>
    obtain ⟨rfl, hrest⟩ := List.forall_mem_cons.mp hc
    rintro (⟨r, c, -, hm, -⟩ | he)
    · cases hm
    · exact ih (d.step .pop).1 hrest he

theorem mem_outbound_step {call : Call τ} {o : Outgoing} (ho : o ∈ (d.step call).1.outbound) :
    o ∈ d.outbound ∨ o ∈ d.queued call := by
  by_cases hp : call = .pop
  · subst hp
    refine Or.inl ?_
    replace ho : o ∈ d.pop.2.outbound := ho
    unfold pop at ho
    split at ho
    next => exact ho
    next hq =>
      rw [hq]
      exact List.mem_cons_of_mem _ ho
  · rwa [step_outbound d hp, ← queued_eq, List.mem_append] at ho

theorem mem_outbound_play (p : Parameters) {calls : List (Call τ)} {o : Outgoing}
    (ho : o ∈ ((Dispatcher.new p : Dispatcher τ).play calls).1.outbound) :
    ∃ before call after, calls = before ++ call :: after ∧
      o ∈ ((Dispatcher.new p).play before).1.queued call := by
  induction calls using List.reverseRecOn with
  | nil => cases ho
  | append_singleton calls call ih =>
    rw [play_append] at ho
    rcases mem_outbound_step ho with ho | ho
    · obtain ⟨before, first, after, hcalls, hq⟩ := ih ho
      exact ⟨before, first, after ++ [call], by simp [hcalls], hq⟩
    · exact ⟨calls, call, [], rfl, ho⟩

/-- Whoever is asked by a request that is handed out has been waited for from the call on that has
queued the request: the lookup under its context was running then and had it in flight. It is still
waited for when the request is handed out, unless a call in between has ended this, so surely if
nothing but requests has been taken in between. -/
theorem hands_out_unless_ended (p : Parameters) (calls : List (Call τ)) (o : Outgoing)
    (ho : ((Dispatcher.new p).play calls).1.pop.1 = some o) :
    let d := ((Dispatcher.new p).play calls).1
    ∃ before call after, calls = before ++ call :: after ∧
      let asked := ((Dispatcher.new p).play before).1
      let sent := (asked.step call).1
      o ∈ asked.queued call ∧
      sent.Waits o.context o.recipient.id ∧
      (d.Waits o.context o.recipient.id ∨ sent.EndedIn o.context o.recipient.id after) ∧
      ((∀ c ∈ after, c = .pop) → d.Waits o.context o.recipient.id) := by
  intro d
  have hfront : o ∈ d.outbound := by
    unfold pop at ho
    split at ho
    next => cases ho
    next hq =>
      cases ho
      exact hq ▸ List.mem_cons_self
  obtain ⟨before, call, after, hcalls, hq⟩ := mem_outbound_play p hfront
  refine ⟨before, call, after, hcalls, ?_⟩
  intro asked sent
  have ht : Tidy p asked := (new_tidy p).play before
  have hsent : sent.Waits o.context o.recipient.id :=
    (ht.waits_step call _ _).mpr (Or.inr ⟨o, hq, rfl, rfl⟩)
  have hd : d = (sent.play after).1 := by
    change ((Dispatcher.new p).play calls).1 = _
    rw [hcalls, play_append]
    rfl
  have hlater := (ht.step call).waits_play hsent after
  rw [← hd] at hlater
  exact ⟨hq, hsent, hlater, fun hpops => hlater.resolve_right (sent.not_endedIn_pops hpops)⟩

end Runs

section Walk

open Lookup (numbered pairTables)

/-- A lookup asks peers 3 and 2 at once, and the request to peer 3 is taken from the queue. -/
def pairAsked : List (Call Nat) := [.start 0 pairTables (.value (numbered 3).id) 0, .pop]

def pairWaiting : Dispatcher Nat := ((Dispatcher.new { k := 2, alpha := 2 }).play pairAsked).1

def secondRequest : Outgoing := ⟨0, numbered 2, .findValue 0 (numbered 3).id⟩

/-- The second request is handed out while its recipient is waited for. -/
theorem hands_out_unless_ended_drained :
    pairWaiting.pop.1 = some secondRequest ∧ pairWaiting.Waits 0 (numbered 2).id := by
  have hpop : pairWaiting.pop.1 = some secondRequest := by cbv
  obtain ⟨before, call, after, hcalls, -, -, -, hdrained⟩ :=
    hands_out_unless_ended { k := 2, alpha := 2 } pairAsked secondRequest hpop
  refine ⟨hpop, hdrained ?_⟩
  rcases before with _ | ⟨first, _ | ⟨second, before⟩⟩
  · obtain ⟨-, rfl⟩ := List.cons.inj hcalls
    simp
  · obtain ⟨-, htail⟩ := List.cons.inj hcalls
    obtain ⟨-, rfl⟩ := List.cons.inj htail
    simp
  · have hlength := congrArg List.length hcalls
    simp [pairAsked] at hlength

/-- Peer 3 answers with the value before the second request is taken. -/
def pairAnswered : Dispatcher Nat × Log Nat :=
  (Dispatcher.new { k := 2, alpha := 2 }).play
    (pairAsked ++ [.respond 1 0 (numbered 3).id [] (.value (some [7]))])

/-- The request to peer 2 is handed out although its lookup has delivered its finding and is
gone. -/
theorem hands_out_after_end :
    pairAnswered.1.pop.1 = some secondRequest ∧ pairAnswered.2.delivered.length = 1 ∧
      pairAnswered.1.lookups.get? 0 = none ∧ ¬ pairAnswered.1.Waits 0 (numbered 2).id := by
  have hgone : pairAnswered.1.lookups.get? 0 = none := by cbv
  refine ⟨by cbv, by cbv, hgone, ?_⟩
  rintro ⟨r, hr, -⟩
  cases hgone.symm.trans hr

end Walk

end Dispatcher

end Kademlia
