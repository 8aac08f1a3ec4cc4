import Kademlia.Proofs.Dispatcher

/-!
The lives of the lookups that a dispatcher runs. However the lookups are mixed, what each of them
has come to is what its start and the calls for it have made of it alone. Main statement: every step
of a dispatcher keeps this, and gives each ticket back that it no longer holds, with the finding of
its lookup.
-/

namespace Kademlia

theorem countP_cons_eq {α : Type} (f : α → Bool) (a : α) (as : List α) :
    (a :: as).countP f = [a].countP f + as.countP f := by
  rw [← List.countP_append, List.singleton_append]

namespace Lookup

/-- The lookup, with all that it has asked of the outside, is a life for the goal. -/
def Lived (p : Parameters) (context : UInt64) (goal : Goal) (r : Lookup × Effects) : Prop :=
  ∃ tables start calls, r = (Lookup.new context p tables goal).life start calls

variable {p : Parameters} {context : UInt64} {goal : Goal} {r : Lookup × Effects}

theorem Lived.step (h : Lived p context goal r) (c : Call) :
    Lived p context goal ((r.1.step c).1, r.2.append (r.1.step c).2) := by
  obtain ⟨tables, start, calls, rfl⟩ := h
  refine ⟨tables, start, calls ++ [c], ?_⟩
  simp only [life, play_append, play, Effects.append_assoc, Effects.append_idle]

theorem Lived.context_eq (h : Lived p context goal r) : r.1.context = context := by
  obtain ⟨tables, start, calls, rfl⟩ := h
  have hc := new_coherent context p tables goal
  exact ((new_sameTask context p tables goal).trans (life_steady hc start calls).2).context

theorem Lived.finding_eq (h : Lived p context goal r) :
    r.2.finding = if r.1.finished = true then some r.1.finding else none := by
  obtain ⟨tables, start, calls, rfl⟩ := h
  exact life_finding context p tables goal start calls

end Lookup

namespace Dispatcher

variable {τ : Type} {p : Parameters} {asks : τ → Goal → Prop} {started : Nat} {d : Dispatcher τ}

/-- The dispatcher after a number of starts at most: contexts have not come round, and each lookup
runs and lives for a goal that the holder of its ticket has asked for. -/
structure Tended (p : Parameters) (asks : τ → Goal → Prop) (started : Nat)
    (d : Dispatcher τ) : Prop where
  parameters : d.parameters = p
  next : d.nextContext.toNat ≤ started
  keys : d.lookups.keys.Nodup
  used : ∀ context ∈ d.lookups.keys, context.toNat < d.nextContext.toNat
  lives : ∀ context r, d.lookups.get? context = some r → r.lookup.finished = false ∧
    ∃ goal past, asks r.ticket goal ∧ Lookup.Lived p context goal (r.lookup, past)

theorem Tended.mono (h : Tended p asks started d) {more : Nat} (hm : started ≤ more) :
    Tended p asks more d :=
  ⟨h.parameters, h.next.trans hm, h.keys, h.used, h.lives⟩

/-- Of some tickets each is still held by a running lookup, or is given back with the finding of a
lookup that has lived for its goal. -/
structure Yields (p : Parameters) (asks : τ → Goal → Prop) (tickets : List τ)
    (r : Dispatcher τ × List (Delivery τ)) : Prop where
  tickets : (r.2.map Delivery.ticket ++ held r.1.lookups).Perm tickets
  findings : ∀ δ ∈ r.2, ∃ goal context s, asks δ.ticket goal ∧
    Lookup.Lived p context goal s ∧ s.2.finding = some δ.finding

theorem Yields.idle (d : Dispatcher τ) : Yields p asks (held d.lookups) (d, []) :=
  ⟨.refl _, nofun⟩

theorem Yields.trans {tickets : List τ} {r s : Dispatcher τ × List (Delivery τ)}
    (hr : Yields p asks tickets r) (hs : Yields p asks (held r.1.lookups) s) :
    Yields p asks tickets (s.1, r.2 ++ s.2) := by
  refine ⟨?_, List.forall_mem_append.mpr ⟨hr.findings, hs.findings⟩⟩
  rw [List.map_append, List.append_assoc]
  exact (hs.tickets.append_left _).trans hr.tickets

theorem new_tended (p : Parameters) (asks : τ → Goal → Prop) :
    Tended p asks 0 (Dispatcher.new p : Dispatcher τ) := by
  refine ⟨rfl, Nat.le_refl 0, ?_, ?_, ?_⟩
  all_goals simp [Dispatcher.new, Catalog.keys]

section Absorb

variable {context : UInt64} {ticket : τ} {goal : Goal} {past : Effects} {s : Lookup × Effects}

theorem Tended.absorb (h : Tended p asks started d)
    (hused : context.toNat < d.nextContext.toNat) (hasks : asks ticket goal)
    (hlived : Lookup.Lived p context goal (s.1, past.append s.2)) (hpast : past.finding = none) :
    Tended p asks started (d.absorb ticket s).1 ∧
      Yields p asks (ticket :: held (d.lookups.erase context)) (d.absorb ticket s) := by
  have hcontext : s.1.context = context := hlived.context_eq
  have hsum : (past.append s.2).finding = s.2.finding := by simp [Effects.append, hpast]
  have hfound : s.2.finding.isSome = s.1.finished := by
    rw [← hsum, hlived.finding_eq]
    cases s.1.finished <;> rfl
  constructor
  · refine ⟨h.parameters, h.next, absorb_keys h.keys, ?_, ?_⟩
    · intro c hc
      rw [Catalog.mem_keys_iff, get?_absorb hcontext] at hc
      by_cases he : c = context
      · exact he ▸ hused
      · rw [if_neg he] at hc
        exact h.used c ((Catalog.mem_keys_iff ..).mpr hc)
    · intro c r hr
      rw [get?_absorb hcontext] at hr
      by_cases he : c = context
      · rw [if_pos he] at hr
        split at hr
        · cases hr
        next hf =>
          cases hr
          exact ⟨by simpa using hf, goal, _, hasks, he ▸ hlived⟩
      · rw [if_neg he] at hr
        exact h.lives c r hr
  · refine ⟨hcontext ▸ absorb_tickets h.keys hfound, ?_⟩
    intro δ hδ
    obtain ⟨f, hf, rfl⟩ := List.mem_map.mp hδ
    exact ⟨goal, context, _, hasks, hlived, hsum.trans (Option.mem_toList.mp hf)⟩

theorem Tended.turn (h : Tended p asks started d) {r : Running τ}
    (hr : d.lookups.get? context = some r) (c : Lookup.Call) :
    Tended p asks started (d.absorb r.ticket (r.lookup.step c)).1 ∧
      Yields p asks (held d.lookups) (d.absorb r.ticket (r.lookup.step c)) := by
  obtain ⟨hf, goal, past, hasks, hlived⟩ := h.lives context r hr
  have hused := h.used context ((Catalog.mem_keys_iff ..).mpr (by simp [hr]))
  have hpast : past.finding = none := by simpa [hf] using hlived.finding_eq
  obtain ⟨ht, hy⟩ := h.absorb hused hasks (hlived.step c) hpast
  have hheld : (held d.lookups).Perm (r.ticket :: held (d.lookups.erase context)) :=
    (Catalog.entries_perm h.keys hr).map fun e : UInt64 × Running τ => e.2.ticket
  exact ⟨ht, hy.tickets.trans hheld.symm, hy.findings⟩

end Absorb

section Steps

/-- The next context is in use by no lookup, as long as contexts have not come round. -/
theorem Tended.fresh (h : Tended p asks started d) : d.lookups.get? d.nextContext = none := by
  by_contra hk
  exact Nat.lt_irrefl _ (h.used _ ((Catalog.mem_keys_iff ..).mpr hk))

theorem Tended.start (h : Tended p asks started d) (hs : started + 1 < 2 ^ 64) (now : Time)
    (tables : Directory) {goal : Goal} {ticket : τ} (hasks : asks ticket goal) :
    Tended p asks (started + 1) (d.start now tables goal ticket).1 ∧
      Yields p asks (ticket :: held d.lookups) (d.start now tables goal ticket) := by
  have hold := h.next
  have hnext : (d.nextContext + 1).toNat = d.nextContext.toNat + 1 := by
    rw [UInt64.toNat_add]
    simp
    omega
  have hused : d.nextContext.toNat < (d.nextContext + 1).toNat := by omega
  have hopen : Tended p asks (started + 1) { d with nextContext := d.nextContext + 1 } :=
    ⟨h.parameters, by dsimp only; omega, h.keys, fun c hc => (h.used c hc).trans hused, h.lives⟩
  have hfresh := h.fresh
  have hlived : Lookup.Lived p d.nextContext goal
      ((Lookup.new d.nextContext d.parameters tables goal).start now) :=
    ⟨tables, now, [], by simp [Lookup.life, Lookup.play, Effects.append, h.parameters]⟩
  have hsum : ((Lookup.new d.nextContext d.parameters tables goal).start now) =
      (((Lookup.new d.nextContext d.parameters tables goal).start now).1,
        Effects.append {} ((Lookup.new d.nextContext d.parameters tables goal).start now).2) := by
    simp [Effects.append]
  have hr := hopen.absorb hused hasks (hsum ▸ hlived) rfl
  rwa [Catalog.erase_of_absent hfresh, ← start_of_fresh hfresh] at hr

theorem Tended.respond (h : Tended p asks started d) {now : Time} {sender : Ident}
    {response : Response} {r : Dispatcher τ × List (Delivery τ)}
    (hr : d.respond now sender response = .ok r) :
    Tended p asks started r.1 ∧ Yields p asks (held d.lookups) r := by
  unfold Dispatcher.respond answer at hr
  split at hr
  next =>
    cases hr
    exact ⟨h, .idle d⟩
  next l hl =>
    cases hs : l.lookup.respond now sender response.closerPeers response.content with
    | error fault => simp [hs, Except.map] at hr
    | ok s =>
      have hstep : l.lookup.step (.respond now sender response.closerPeers response.content) = s :=
        by simp [Lookup.step, hs]
      simp only [hs, Except.map, Except.ok.injEq] at hr
      rw [← hr, ← hstep]
      exact h.turn hl _

theorem Tended.peerFailed (h : Tended p asks started d) (now : Time) (context : UInt64)
    (peer : Ident) :
    Tended p asks started (d.peerFailed now context peer).1 ∧
      Yields p asks (held d.lookups) (d.peerFailed now context peer) := by
  unfold Dispatcher.peerFailed
  split
  next => exact ⟨h, .idle d⟩
  next l hl => exact h.turn hl (.giveUp now peer)

theorem Tended.sweepAll (h : Tended p asks started d) (now : Time)
    {entries : List (UInt64 × Running τ)} (hn : (entries.map Prod.fst).Nodup)
    (hin : ∀ e ∈ entries, d.lookups.get? e.1 = some e.2) :
    Tended p asks started (sweepAll now entries d).1 ∧
      Yields p asks (held d.lookups) (sweepAll now entries d) := by
  induction entries generalizing d with
  | nil => exact ⟨h, .idle d⟩
  | cons e rest ih =>
    obtain ⟨context, r⟩ := e
    have hr : d.lookups.get? context = some r := hin _ List.mem_cons_self
    obtain ⟨ht, hy⟩ := h.turn hr (.sweep now)
    obtain ⟨-, goal, past, -, hlived⟩ := h.lives context r hr
    have hcontext : (r.lookup.step (.sweep now)).1.context = context :=
      (hlived.step (.sweep now)).context_eq
    rw [List.map_cons, List.nodup_cons] at hn
    have hrest : ∀ e ∈ rest,
        (d.absorb r.ticket (r.lookup.step (.sweep now))).1.lookups.get? e.1 = some e.2 := by
      intro e he
      have hne : e.1 ≠ context := fun heq => hn.1 (List.mem_map.mpr ⟨e, he, heq⟩)
      rw [get?_absorb hcontext, if_neg hne]
      exact hin e (List.mem_cons_of_mem _ he)
    obtain ⟨ht', hy'⟩ := ih ht hn.2 hrest
    exact ⟨ht', hy.trans hy'⟩

theorem arranged_entries (hkeys : d.lookups.keys.Nodup)
    (order : Arrangement (UInt64 × Running τ)) :
    ((order.arrange d.lookups.entries).map Prod.fst).Nodup ∧
      ∀ e, e ∈ order.arrange d.lookups.entries ↔ d.lookups.get? e.1 = some e.2 := by
  have hp := order.perm d.lookups.entries
  refine ⟨(hp.map Prod.fst).nodup_iff.mpr hkeys, fun e => hp.mem_iff.trans ?_⟩
  exact ⟨Catalog.get?_of_mem hkeys, Catalog.mem_of_get?⟩

theorem Tended.sweep (h : Tended p asks started d) (now : Time)
    (order : Arrangement (UInt64 × Running τ)) :
    Tended p asks started (d.sweep now order).1 ∧
      Yields p asks (held d.lookups) (d.sweep now order) := by
  obtain ⟨hn, hin⟩ := arranged_entries h.keys order
  exact h.sweepAll now hn fun e => (hin e).mp

theorem Tended.pop (h : Tended p asks started d) : Tended p asks started d.pop.2 := by
  unfold Dispatcher.pop
  split
  · exact h
  · exact ⟨h.parameters, h.next, h.keys, h.used, h.lives⟩

theorem pop_lookups (d : Dispatcher τ) : d.pop.2.lookups = d.lookups := by
  unfold Dispatcher.pop
  split <;> rfl

end Steps

end Dispatcher

end Kademlia
