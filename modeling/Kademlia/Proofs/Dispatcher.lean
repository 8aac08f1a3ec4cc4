import Mathlib.Data.List.ProdSigma
import Kademlia.Dispatcher
import Kademlia.Proofs.Directory
import Kademlia.Proofs.Lookup.Turn

/-!
The books of a dispatcher whose requests are carried one at a time. For each running lookup the
queue holds exactly the requests in flight, no lookup asks a peer twice, and every ticket is either
held by a running lookup or has come back with a finding.
-/

namespace Kademlia

def Outgoing.address (o : Outgoing) : UInt64 × Ident := (o.context, o.recipient.id)

namespace Dispatcher

variable {τ : Type}

def queue (d : Dispatcher τ) : List (UInt64 × Ident) := d.outbound.map Outgoing.address

def held (lookups : Catalog UInt64 (Running τ)) : List τ :=
  lookups.entries.map fun e => e.2.ticket

/-- What the books say about one running lookup. -/
structure Account (ids : List Ident) (sent queue : List (UInt64 × Ident)) (context : UInt64)
    (l : Lookup) : Prop where
  steady : l.Steady
  context_eq : l.context = context
  running : l.finished = false
  slots : 1 ≤ l.alpha
  within : l.Within ids
  waits : ∀ id, l.frontier.progress? id = some .inProgress ↔ (context, id) ∈ queue
  asked : ∀ id, (context, id) ∈ sent → l.HasAsked id

theorem Account.congr {ids : List Ident} {sent queue sent' queue' : List (UInt64 × Ident)}
    {context : UInt64} {l : Lookup} (h : Account ids sent queue context l)
    (hs : ∀ id, (context, id) ∈ sent' ↔ (context, id) ∈ sent)
    (hq : ∀ id, (context, id) ∈ queue' ↔ (context, id) ∈ queue) :
    Account ids sent' queue' context l :=
  ⟨h.steady, h.context_eq, h.running, h.slots, h.within, fun id => (h.waits id).trans (hq id).symm,
    fun id hid => h.asked id ((hs id).mp hid)⟩

/-- The books: `sent` are the requests carried so far, `delivered` the findings so far. Lookups have
contexts in `scope`, and only peers among `ids` are asked. -/
structure Ledger (scope : List UInt64) (ids : List Ident) (tickets : List τ)
    (d : Dispatcher τ) (sent : List (UInt64 × Ident)) (delivered : List (Delivery τ)) : Prop where
  keys : d.lookups.keys.Nodup
  known : ∀ context ∈ d.lookups.keys, context ∈ scope
  account : ∀ context r, d.lookups.get? context = some r →
    Account ids sent d.queue context r.lookup
  once : (sent ++ d.queue).Nodup
  bounds : ∀ a ∈ sent ++ d.queue, a.1 ∈ scope ∧ a.2 ∈ ids
  asks : ∀ o ∈ d.outbound, o.request.context? = some o.context
  tickets : (delivered.map Delivery.ticket ++ held d.lookups).Perm tickets

/-- The books while the lookup of one context is on its turn, for the holder of a ticket. -/
structure Turning (scope : List UInt64) (ids : List Ident) (tickets : List τ) (context : UInt64)
    (ticket : τ) (d : Dispatcher τ) (sent : List (UInt64 × Ident))
    (delivered : List (Delivery τ)) : Prop where
  keys : d.lookups.keys.Nodup
  known : ∀ c ∈ d.lookups.keys, c ≠ context → c ∈ scope
  account : ∀ c r, d.lookups.get? c = some r → c ≠ context → Account ids sent d.queue c r.lookup
  once : (sent ++ d.queue).Nodup
  bounds : ∀ a ∈ sent ++ d.queue, a.1 ∈ scope ∧ a.2 ∈ ids
  asks : ∀ o ∈ d.outbound, o.request.context? = some o.context
  tickets : (delivered.map Delivery.ticket ++ ticket :: held (d.lookups.erase context)).Perm tickets

/-- What a turn of the lookup of a context has come to, when `queue` are the requests that wait
besides those that it sends. -/
structure Outcome (ids : List Ident) (sent queue : List (UInt64 × Ident)) (context : UInt64)
    (s : Lookup × Effects) : Prop where
  context_eq : s.1.context = context
  steady : s.1.Steady
  slots : 1 ≤ s.1.alpha
  within : s.1.Within ids
  finding : s.2.finding.isSome = s.1.finished
  requests : ∀ o ∈ s.2.requests, o.context = context ∧ o.request.context? = some context
  distinct : (Lookup.recipients s.2.requests).Nodup
  fresh : ∀ id ∈ Lookup.recipients s.2.requests, (context, id) ∉ sent ++ queue
  waits : ∀ id, s.1.frontier.progress? id = some .inProgress ↔
    (context, id) ∈ queue ∨ id ∈ Lookup.recipients s.2.requests
  asked : ∀ id, (context, id) ∈ sent → s.1.HasAsked id

section Outcomes

variable {ids : List Ident} {sent queue : List (UInt64 × Ident)} {context : UInt64}
  {s : Lookup × Effects}

theorem Outcome.addresses (h : Outcome ids sent queue context s) :
    s.2.requests.map Outgoing.address =
      (Lookup.recipients s.2.requests).map (Prod.mk context) := by
  rw [Lookup.recipients, List.map_map]
  exact List.map_congr_left fun o ho => by simp [Outgoing.address, (h.requests o ho).1]

theorem Outcome.mem_addresses (h : Outcome ids sent queue context s) (c : UInt64) (id : Ident) :
    (c, id) ∈ s.2.requests.map Outgoing.address ↔
      c = context ∧ id ∈ Lookup.recipients s.2.requests := by
  rw [h.addresses]
  simp [and_comm, eq_comm]

theorem Outcome.account (h : Outcome ids sent queue context s) (hf : s.1.finished = false) :
    Account ids sent (queue ++ s.2.requests.map Outgoing.address) context s.1 := by
  refine ⟨h.steady, h.context_eq, hf, h.slots, h.within, fun id => ?_, h.asked⟩
  rw [h.waits, List.mem_append, h.mem_addresses]
  simp

theorem Outcome.once (h : Outcome ids sent queue context s) (hn : (sent ++ queue).Nodup) :
    (sent ++ (queue ++ s.2.requests.map Outgoing.address)).Nodup := by
  rw [← List.append_assoc, List.nodup_append]
  refine ⟨hn, ?_, ?_⟩
  · rw [h.addresses]
    exact h.distinct.map fun _ _ he => (Prod.mk.inj he).2
  · rintro ⟨c, id⟩ hold _ hm rfl
    obtain ⟨rfl, hid⟩ := (h.mem_addresses c id).mp hm
    exact h.fresh id hid hold

theorem Outcome.bounds (h : Outcome ids sent queue context s) {a : UInt64 × Ident}
    (ha : a ∈ s.2.requests.map Outgoing.address) : a.1 = context ∧ a.2 ∈ ids := by
  obtain ⟨hc, hid⟩ := (h.mem_addresses a.1 a.2).mp ha
  have hask : s.1.HasAsked a.2 := ⟨_, (h.waits a.2).mpr (Or.inr hid), by simp⟩
  exact ⟨hc, h.within.mem h.steady.coherent hask⟩

theorem Account.outcome {o : Outgoing} {l : Lookup}
    (h : Account ids sent (o.address :: queue) o.context l) (hn : o.address ∉ queue)
    (ht : Lookup.Turn l o.recipient.id s) (hw : s.1.Within ids) :
    Outcome ids (sent ++ [o.address]) queue o.context s := by
  have hall : (sent ++ [o.address]) ++ queue = sent ++ o.address :: queue := by simp
  have hasked : ∀ id, (o.context, id) ∈ sent ++ o.address :: queue → l.HasAsked id := by
    intro id hm
    rcases List.mem_append.mp hm with hm | hm
    · exact h.asked id hm
    · exact ⟨_, (h.waits id).mpr hm, by simp⟩
  have hrest : ∀ id, (o.context, id) ∈ queue ↔
      (o.context, id) ∈ o.address :: queue ∧ id ≠ o.recipient.id := by
    intro id
    rw [List.mem_cons]
    constructor
    · intro hm
      exact ⟨Or.inr hm, fun he => hn (by rw [Outgoing.address, ← he]; exact hm)⟩
    · rintro ⟨he | hm, hne⟩
      · exact absurd (Prod.mk.inj he).2 hne
      · exact hm
  refine ⟨ht.sameTask.context.trans h.context_eq, ht.steady, ht.sameTask.alpha ▸ h.slots, hw,
    ht.finding, h.context_eq ▸ ht.context, ht.distinct, fun id hid hm => ?_, fun id => ?_,
    fun id hm => ?_⟩
  · exact ht.unasked id hid (hasked id (hall ▸ hm))
  · rw [ht.waits, h.waits, ← hrest]
  · exact ht.keeps id (hasked id (hall ▸ List.mem_append_left _ hm))

end Outcomes

section Absorb

variable {scope : List UInt64} {ids : List Ident} {tickets : List τ} {context : UInt64}
  {ticket : τ} {d : Dispatcher τ} {sent : List (UInt64 × Ident)} {delivered : List (Delivery τ)}
  {s : Lookup × Effects}

theorem get?_absorb (hc : s.1.context = context) (other : UInt64) :
    (d.absorb ticket s).1.lookups.get? other =
      if other = context then if s.1.finished = true then none else some ⟨ticket, s.1⟩
      else d.lookups.get? other := by
  simp only [absorb, hc]
  by_cases hf : s.1.finished = true
  · simp [hf, Catalog.get?_erase]
  · simp [hf, Catalog.get?_put]

theorem queue_absorb : (d.absorb ticket s).1.queue =
    d.queue ++ s.2.requests.map Outgoing.address := by
  simp [absorb, queue]

theorem absorb_tickets (hn : d.lookups.keys.Nodup) (hf : s.2.finding.isSome = s.1.finished) :
    ((d.absorb ticket s).2.map Delivery.ticket ++ held (d.absorb ticket s).1.lookups).Perm
      (ticket :: held (d.lookups.erase s.1.context)) := by
  by_cases hd : s.1.finished = true
  · rw [hd] at hf
    obtain ⟨f, hf⟩ := Option.isSome_iff_exists.mp hf
    simp [absorb, hd, hf]
  · rw [Bool.not_eq_true] at hd
    have hnone : s.2.finding = none := by rw [← Option.not_isSome_iff_eq_none, hf, hd]; simp
    simpa [absorb, hd, hnone, held] using
      (Catalog.put_perm hn (⟨ticket, s.1⟩ : Running τ)).map fun e => e.2.ticket

theorem absorb_keys (hn : d.lookups.keys.Nodup) : (d.absorb ticket s).1.lookups.keys.Nodup := by
  simp only [absorb]
  split
  · exact Catalog.erase_nodup hn _
  · exact Catalog.put_nodup hn _ _

/-- A start under a context that is not in use is the first move of its lookup. -/
theorem start_of_fresh (h : d.lookups.get? d.nextContext = none) (now : Time) (tables : Directory)
    (goal : Goal) (ticket : τ) : d.start now tables goal ticket =
      ({ d with nextContext := d.nextContext + 1 } : Dispatcher τ).absorb ticket
        ((Lookup.new d.nextContext d.parameters tables goal).start now) := by
  have hcontext : ((Lookup.new d.nextContext d.parameters tables goal).start now).1.context =
      d.nextContext :=
    (Lookup.pump_sameTask (Lookup.new_coherent ..) now).context.trans
      (Lookup.new_sameTask d.nextContext d.parameters tables goal).context
  simp only [start, absorb, hcontext, Catalog.erase_of_absent h]

/-- The turn is over: its requests join the queue, and its lookup runs on or is gone. -/
theorem Turning.absorb (h : Turning scope ids tickets context ticket d sent delivered)
    (hs : Outcome ids sent d.queue context s)
    (hscope : s.2.requests ≠ [] ∨ s.1.finished = false → context ∈ scope) :
    Ledger scope ids tickets (d.absorb ticket s).1 sent
      (delivered ++ (d.absorb ticket s).2) := by
  refine ⟨absorb_keys h.keys, ?_, ?_, ?_, ?_, ?_, ?_⟩
  · intro c hk
    rw [Catalog.mem_keys_iff, get?_absorb hs.context_eq] at hk
    by_cases he : c = context
    · rw [if_pos he] at hk
      cases hd : s.1.finished with
      | true => simp [hd] at hk
      | false => exact he ▸ hscope (Or.inr hd)
    · rw [if_neg he] at hk
      exact h.known c ((Catalog.mem_keys_iff ..).mpr hk) he
  · intro c r hr
    rw [get?_absorb hs.context_eq] at hr
    rw [queue_absorb]
    by_cases he : c = context
    · subst he
      rw [if_pos rfl] at hr
      split at hr
      · cases hr
      next hd =>
        cases hr
        exact hs.account (by simpa using hd)
    · rw [if_neg he] at hr
      refine (h.account c r hr he).congr (fun _ => Iff.rfl) fun id => ?_
      rw [List.mem_append, hs.mem_addresses]
      simp [he]
  · rw [queue_absorb]
    exact hs.once h.once
  · rw [queue_absorb, ← List.append_assoc]
    intro a hm
    rcases List.mem_append.mp hm with hm | hm
    · exact h.bounds a hm
    · obtain ⟨hc, hid⟩ := hs.bounds hm
      exact ⟨hc ▸ hscope (Or.inl fun he => by simp [he] at hm), hid⟩
  · intro o ho
    rcases List.mem_append.mp ho with ho | ho
    · exact h.asks o ho
    · rw [(hs.requests o ho).2, (hs.requests o ho).1]
  · rw [List.map_append, List.append_assoc]
    exact ((absorb_tickets h.keys hs.finding).append_left _).trans (hs.context_eq ▸ h.tickets)

end Absorb

section Steps

variable {scope : List UInt64} {ids : List Ident} {tickets : List τ} {d : Dispatcher τ}
  {sent : List (UInt64 × Ident)} {delivered : List (Delivery τ)} {o : Outgoing}
  {rest : List Outgoing}

theorem queue_cons (ho : d.outbound = o :: rest) :
    d.queue = o.address :: rest.map Outgoing.address := by
  rw [queue, ho, List.map_cons]

theorem sent_queue (sent : List (UInt64 × Ident)) (ho : d.outbound = o :: rest) :
    (sent ++ [o.address]) ++ rest.map Outgoing.address = sent ++ d.queue := by
  rw [queue_cons ho, List.append_assoc, List.singleton_append]

theorem Ledger.account_pop (h : Ledger scope ids tickets d sent delivered)
    (ho : d.outbound = o :: rest) {c : UInt64} {r : Running τ} (hr : d.lookups.get? c = some r)
    (hne : c ≠ o.context) :
    Account ids (sent ++ [o.address]) (rest.map Outgoing.address) c r.lookup := by
  refine (h.account c r hr).congr (fun id => ?_) fun id => ?_
  · simp [Outgoing.address, hne]
  · rw [queue_cons ho, List.mem_cons]
    simp [Outgoing.address, hne]

theorem Ledger.popped (h : Ledger scope ids tickets d sent delivered) (ho : d.outbound = o :: rest)
    (hn : d.lookups.get? o.context = none) :
    Ledger scope ids tickets { d with outbound := rest } (sent ++ [o.address]) delivered := by
  have hall := sent_queue sent ho
  refine ⟨h.keys, h.known, fun c r hr => h.account_pop ho hr ?_, hall ▸ h.once, hall ▸ h.bounds,
    fun p hp => h.asks p (ho ▸ List.mem_cons_of_mem o hp), h.tickets⟩
  rintro rfl
  cases hn.symm.trans hr

theorem Ledger.turning (h : Ledger scope ids tickets d sent delivered) (ho : d.outbound = o :: rest)
    {r : Running τ} (hr : d.lookups.get? o.context = some r) :
    Turning scope ids tickets o.context r.ticket { d with outbound := rest } (sent ++ [o.address])
      delivered := by
  have hall := sent_queue sent ho
  have hp := (Catalog.entries_perm h.keys hr).map fun e => e.2.ticket
  exact ⟨h.keys, fun c hc _ => h.known c hc, fun c s hs => h.account_pop ho hs, hall ▸ h.once,
    hall ▸ h.bounds, fun p hp => h.asks p (ho ▸ List.mem_cons_of_mem o hp),
    (hp.symm.append_left _).trans h.tickets⟩

theorem Ledger.turn (h : Ledger scope ids tickets d sent delivered) (ho : d.outbound = o :: rest)
    {r : Running τ} (hr : d.lookups.get? o.context = some r) {s : Lookup × Effects}
    (ht : Lookup.Turn r.lookup o.recipient.id s) (hw : s.1.Within ids) :
    Ledger scope ids tickets (({ d with outbound := rest } : Dispatcher τ).absorb r.ticket s).1
      (sent ++ [o.address])
      (delivered ++ (({ d with outbound := rest } : Dispatcher τ).absorb r.ticket s).2) := by
  have ha := h.account _ r hr
  have hkey : o.context ∈ d.lookups.keys := (Catalog.mem_keys_iff ..).mpr (by simp [hr])
  have honce := h.once
  rw [queue_cons ho] at ha honce
  have hfront : o.address ∉ rest.map Outgoing.address :=
    (List.nodup_cons.mp (List.nodup_append.mp honce).2.1).1
  exact (h.turning ho hr).absorb (ha.outcome hfront ht hw) fun _ => h.known _ hkey

/-- The response to the request in front is taken in without error and keeps the books. -/
theorem Ledger.respond (h : Ledger scope ids tickets d sent delivered)
    (ho : d.outbound = o :: rest) (now : Time) {response : Response}
    (hc : response.context = o.context) (hp : ∀ p ∈ response.closerPeers, p.id ∈ ids) :
    ∃ d' more, ({ d with outbound := rest } : Dispatcher τ).respond now o.recipient.id response =
        .ok (d', more) ∧
      Ledger scope ids tickets d' (sent ++ [o.address]) (delivered ++ more) := by
  cases hr : d.lookups.get? o.context with
  | none =>
    refine ⟨_, _, by simp [Dispatcher.respond, answer, hc, hr]; exact ⟨rfl, rfl⟩, ?_⟩
    rw [List.append_nil]
    exact h.popped ho hr
  | some r =>
    have ha := h.account _ r hr
    have hin : (o.context, o.recipient.id) ∈ d.queue := by
      rw [queue_cons ho]
      exact List.mem_cons_self
    have hw : r.lookup.Awaits o.recipient.id := ⟨ha.running, Or.inl ((ha.waits _).mpr hin)⟩
    have hok := Lookup.respond_awaited hw now response.closerPeers response.content
    have hturn := Lookup.answered_turn ha.steady hw now response.closerPeers response.content
    refine ⟨_, _, ?_, h.turn ho hr hturn
      (Lookup.answered_within ha.steady.coherent ha.within now o.recipient.id hp response.content)⟩
    simp [Dispatcher.respond, answer, hc, hr, hok, Except.map]

theorem Ledger.peerFailed (h : Ledger scope ids tickets d sent delivered)
    (ho : d.outbound = o :: rest) (now : Time) :
    let r := ({ d with outbound := rest } : Dispatcher τ).peerFailed now o.context o.recipient.id
    Ledger scope ids tickets r.1 (sent ++ [o.address]) (delivered ++ r.2) := by
  cases hr : d.lookups.get? o.context with
  | none =>
    simp only [Dispatcher.peerFailed, hr, List.append_nil]
    exact h.popped ho hr
  | some r =>
    have ha := h.account _ r hr
    have hin : (o.context, o.recipient.id) ∈ d.queue := by
      rw [queue_cons ho]
      exact List.mem_cons_self
    have hturn := Lookup.giveUp_turn ha.steady ha.running ((ha.waits _).mpr hin) now
    simp only [Dispatcher.peerFailed, hr]
    exact h.turn ho hr hturn (Lookup.giveUp_within ha.steady ha.within now o.recipient.id)

end Steps

section Start

def startAll (tables : Directory) :
    List (Time × Goal × τ) → Dispatcher τ → Dispatcher τ × List (Delivery τ)
  | [], d => (d, [])
  | (now, goal, ticket) :: starts, d =>
    let (d, delivered) := d.start now tables goal ticket
    let (d, more) := startAll tables starts d
    (d, delivered ++ more)

/-- The books before any request is carried, when as many lookups have been started as there are
tickets. -/
structure Opened (p : Parameters) (ids : List Ident) (tickets : List τ) (d : Dispatcher τ)
    (delivered : List (Delivery τ)) : Prop where
  ledger : Ledger d.lookups.keys ids tickets d [] delivered
  used : ∀ context ∈ d.lookups.keys, context.toNat < tickets.length
  next : d.nextContext.toNat = tickets.length
  parameters : d.parameters = p

theorem new_opened (p : Parameters) (ids : List Ident) :
    Opened p ids [] (Dispatcher.new p : Dispatcher τ) [] := by
  refine ⟨⟨?_, ?_, ?_, ?_, ?_, ?_, ?_⟩, ?_, rfl, rfl⟩
  all_goals simp [Dispatcher.new, Catalog.keys, Dispatcher.queue, held]

theorem new_unasked (context : UInt64) (p : Parameters) (tables : Directory) (goal : Goal)
    (id : Ident) :
    (Lookup.new context p tables goal).frontier.progress? id ≠ some .inProgress := by
  have hb : (Lookup.blank context p tables goal).Coherent :=
    Lookup.blank_coherent rfl rfl rfl rfl
  rcases Lookup.addPeers_progress hb (tables.closest goal.table goal.target none) id with he | he
  · rw [Lookup.new_eq, he]
    simp [Lookup.blank, Frontier.progress?, Frontier.new]
  · rw [Lookup.new_eq, he.2]
    simp

theorem start_outcome {context : UInt64} {p : Parameters} {tables : Directory} {goal : Goal}
    {ids : List Ident} {queue : List (UInt64 × Ident)} (hp : 1 ≤ p.alpha) (now : Time)
    (hin : ∀ q ∈ tables.closest goal.table goal.target none, q.id ∈ ids)
    (hq : ∀ id, (context, id) ∉ queue) :
    Outcome ids [] queue context ((Lookup.new context p tables goal).start now) := by
  have hc := Lookup.new_coherent context p tables goal
  have hf := Lookup.new_finished context p tables goal
  have hnew := Lookup.new_sameTask context p tables goal
  obtain ⟨hs, ht⟩ := Lookup.start_steady hc now
  have htask := hnew.trans ht
  have hsends := (Lookup.pump_sends hc hf now).1
  have hcontext : (Lookup.new context p tables goal).context = context := hnew.context
  refine ⟨htask.context, hs, htask.alpha.symm ▸ hp, ?_, Lookup.pump_found hc hf now,
    fun o ho => hcontext ▸ hsends.context o ho, hsends.distinct, fun id _ => hq id, fun id => ?_,
    nofun⟩
  · exact Lookup.start_within hc (Lookup.new_within context p tables goal hin) now
  · have hn := new_unasked context p tables goal id
    exact (hsends.waits id).trans
      ⟨fun hw => Or.inr (hw.resolve_left hn), fun hw => Or.inr (hw.resolve_left (hq id))⟩

variable {p : Parameters} {ids : List Ident} {tickets : List τ} {d : Dispatcher τ}
  {delivered : List (Delivery τ)} {tables : Directory} {goal : Goal}

theorem Opened.fresh (h : Opened p ids tickets d delivered) :
    d.nextContext ∉ d.lookups.keys := by
  intro hk
  have := h.used _ hk
  rw [h.next] at this
  omega

theorem Opened.start (h : Opened p ids tickets d delivered) (hp : 1 ≤ p.alpha)
    (hl : tickets.length < 2 ^ 63) (now : Time) (ticket : τ)
    (hin : ∀ q ∈ tables.closest goal.table goal.target none, q.id ∈ ids) :
    let r := d.start now tables goal ticket
    Opened p ids (tickets ++ [ticket]) r.1 (delivered ++ r.2) := by
  have hfresh := h.fresh
  have hnone : d.lookups.get? d.nextContext = none := by
    by_contra hk
    exact hfresh ((Catalog.mem_keys_iff ..).mpr hk)
  rw [start_of_fresh hnone]
  intro r
  have hs : Outcome ids [] d.queue d.nextContext
      ((Lookup.new d.nextContext d.parameters tables goal).start now) :=
    start_outcome (h.parameters.symm ▸ hp) now hin fun _ hq => hfresh (h.ledger.bounds _ hq).1
  have hquiet := (Lookup.pump_sends (Lookup.new_coherent d.nextContext d.parameters tables goal)
    (Lookup.new_finished d.nextContext d.parameters tables goal) now).2
  have hkeys : ∀ c, c ∈ r.1.lookups.keys ↔ c ∈ d.lookups.keys ∨ c = d.nextContext ∧
      ((Lookup.new d.nextContext d.parameters tables goal).start now).1.finished = false := by
    intro c
    have hget : r.1.lookups.get? c = if c = d.nextContext then _ else d.lookups.get? c :=
      get?_absorb hs.context_eq c
    rw [Catalog.mem_keys_iff, Catalog.mem_keys_iff, hget]
    by_cases he : c = d.nextContext
    · subst he
      simp [hnone]
    · simp [he]
  have hperm : (delivered.map Delivery.ticket ++
      ticket :: held (d.lookups.erase d.nextContext)).Perm (tickets ++ [ticket]) := by
    rw [Catalog.erase_of_absent hnone]
    calc
      List.Perm _ (ticket :: (delivered.map Delivery.ticket ++ held d.lookups)) :=
        List.perm_middle
      List.Perm _ (ticket :: tickets) := h.ledger.tickets.cons ticket
      List.Perm _ (tickets ++ [ticket]) := (List.perm_append_singleton _ _).symm
  have hturning : Turning r.1.lookups.keys ids (tickets ++ [ticket]) d.nextContext ticket
      { d with nextContext := d.nextContext + 1 } [] delivered :=
    ⟨h.ledger.keys, fun c hk _ => (hkeys c).mpr (Or.inl hk),
      fun c s hs _ => h.ledger.account c s hs, h.ledger.once,
      fun a ha => ⟨(hkeys a.1).mpr (Or.inl (h.ledger.bounds a ha).1), (h.ledger.bounds a ha).2⟩,
      h.ledger.asks, hperm⟩
  refine ⟨hturning.absorb hs fun hq => (hkeys _).mpr (Or.inr ⟨rfl, ?_⟩), fun c hk => ?_, ?_,
    h.parameters⟩
  · rcases hq with hq | hq
    · rw [← Bool.not_eq_true]
      exact fun hd => hq (hquiet hd)
    · exact hq
  · rw [List.length_append, List.length_singleton]
    rcases (hkeys c).mp hk with hk | ⟨rfl, -⟩
    · have := h.used c hk
      omega
    · have := h.next
      omega
  · have hnext : r.1.nextContext = d.nextContext + 1 := rfl
    rw [hnext, UInt64.toNat_add, h.next, List.length_append, List.length_singleton]
    simp
    omega

theorem Opened.startAll (h : Opened p ids tickets d delivered) (hp : 1 ≤ p.alpha)
    (hin : ∀ q ∈ tables.peers, q.id ∈ ids) {starts : List (Time × Goal × τ)}
    (hl : tickets.length + starts.length ≤ 2 ^ 63) :
    let r := d.startAll tables starts
    Opened p ids (tickets ++ starts.map fun s => s.2.2) r.1 (delivered ++ r.2) := by
  induction starts generalizing d tickets delivered with
  | nil => simpa [Dispatcher.startAll] using h
  | cons s starts ih =>
    obtain ⟨now, goal, ticket⟩ := s
    rw [List.length_cons] at hl
    have hs := h.start hp (by omega) now ticket fun q hq =>
      hin q (tables.closest_subset goal.table goal.target none q hq)
    have hr := ih hs (by rw [List.length_append, List.length_singleton]; omega)
    simpa [Dispatcher.startAll] using hr

end Start

section Finish

variable {scope : List UInt64} {ids : List Ident} {tickets : List τ} {d : Dispatcher τ}
  {sent : List (UInt64 × Ident)} {delivered : List (Delivery τ)}

theorem Ledger.count_le (h : Ledger scope ids tickets d sent delivered) (context : UInt64) :
    sent.countP (fun a => a.1 = context) ≤ ids.length := by
  have hone : ((sent.filter fun a => a.1 = context).map Prod.snd).Nodup := by
    refine List.Nodup.map_on ?_ ((List.nodup_append.mp h.once).1.filter _)
    intro a ha b hb he
    have hac := of_decide_eq_true (List.mem_filter.mp ha).2
    have hbc := of_decide_eq_true (List.mem_filter.mp hb).2
    exact Prod.ext (hac.trans hbc.symm) he
  have hsub : (sent.filter fun a => a.1 = context).map Prod.snd ⊆ ids := by
    intro id hid
    obtain ⟨a, ha, rfl⟩ := List.mem_map.mp hid
    exact (h.bounds a (List.mem_append_left _ (List.mem_filter.mp ha).1)).2
  have hle := (List.subperm_of_subset hone hsub).length_le
  rwa [List.length_map, ← List.countP_eq_length_filter] at hle

/-- All lookups together ask each peer once for each of them at most. -/
theorem Ledger.length_le (h : Ledger scope ids tickets d sent delivered) :
    sent.length + d.outbound.length ≤ scope.length * ids.length := by
  have hsub : sent ++ d.queue ⊆ scope ×ˢ ids := by
    rintro ⟨context, id⟩ ha
    exact List.pair_mem_product.mpr (h.bounds _ ha)
  have hle := (List.subperm_of_subset h.once hsub).length_le
  rwa [List.length_append, List.length_product, queue, List.length_map] at hle

/-- When no request waits, no lookup runs and every ticket has come back. -/
theorem Ledger.finished (h : Ledger scope ids tickets d sent delivered) (ho : d.outbound = []) :
    d.active = 0 ∧ (delivered.map Delivery.ticket).Perm tickets := by
  have hnone : ∀ c r, d.lookups.get? c ≠ some r := by
    intro c r hr
    have ha := h.account c r hr
    obtain ⟨id, sent, hm⟩ := ha.steady.exists_active ha.running ha.slots
    have hq := (ha.waits id).mp
      ((ha.steady.coherent.active_iff id).mp (List.mem_map.mpr ⟨_, hm, rfl⟩))
    rw [queue, ho] at hq
    cases hq
  have hkeys : d.lookups.keys = [] := by
    refine List.eq_nil_iff_forall_not_mem.mpr fun c hc => ?_
    obtain ⟨r, hr⟩ := Option.ne_none_iff_exists'.mp ((Catalog.mem_keys_iff ..).mp hc)
    exact hnone c r hr
  have hentries : d.lookups.entries = [] := List.map_eq_nil_iff.mp hkeys
  have ht := h.tickets
  rw [held, hentries, List.map_nil, List.append_nil] at ht
  exact ⟨by rw [active, Catalog.size, hentries, List.length_nil], ht⟩

end Finish

end Dispatcher

end Kademlia
