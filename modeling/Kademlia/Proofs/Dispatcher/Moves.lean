import Kademlia.Proofs.Dispatcher.Isolation

/-!
Calls of a dispatcher as moves of its lookups. A start makes the first move of a new lookup, and any
other call turns lookups that run, each at most once. Main statements: a call queues and delivers
what its moves ask for, whatever runs after it ran before or comes out of a move, and each move goes
on with the life of a lookup. All this holds in every run, also when contexts have come round.
-/

namespace Kademlia

namespace Lookup

theorem going_eq_some {l m : Lookup} : l.going = some m ↔ l.finished = false ∧ l = m := by
  cases hf : l.finished <;> simp [going, hf]

theorem start_lived (p : Parameters) (context : UInt64) (tables : Directory) (goal : Goal)
    (now : Time) : Lived p context goal ((Lookup.new context p tables goal).start now) :=
  ⟨tables, now, [], by simp [life, play, Effects.append]⟩

theorem Lived.distinct {p : Parameters} {context : UInt64} {goal : Goal} {r : Lookup × Effects}
    (h : Lived p context goal r) : Distinct r.1.pursuit := by
  obtain ⟨tables, start, calls, rfl⟩ := h
  have hc := new_coherent context p tables goal
  have hnew : Distinct (Lookup.new context p tables goal).pursuit := by
    rw [new_pursuit]
    exact begin_distinct goal p.k
  exact distinct_compositional.life hc start calls (fun hd => by rwa [Lookup.start, pump_pursuit hc])
    hnew

end Lookup

namespace Dispatcher

variable {τ : Type}

section Moves

structure Move (τ : Type) where
  context : UInt64
  ticket : τ
  outcome : Lookup × Effects

namespace Move

def requests (m : Move τ) : List Outgoing := m.outcome.2.requests

def deliveries (m : Move τ) : List (Delivery τ) :=
  m.outcome.2.finding.toList.map fun finding => ⟨m.ticket, finding⟩

def running (m : Move τ) : Option (Running τ) := m.outcome.1.going.map (Running.mk m.ticket)

theorem running_eq_some {m : Move τ} {r : Running τ} : m.running = some r ↔
    m.outcome.1.finished = false ∧ r = ⟨m.ticket, m.outcome.1⟩ := by
  rw [running, Option.map_eq_some_iff]
  constructor
  · rintro ⟨l, hl, rfl⟩
    obtain ⟨hf, rfl⟩ := Lookup.going_eq_some.mp hl
    exact ⟨hf, rfl⟩
  · rintro ⟨hf, rfl⟩
    exact ⟨_, Lookup.going_eq_some.mpr ⟨hf, rfl⟩, rfl⟩

theorem running_eq_none {m : Move τ} : m.running = none ↔ m.outcome.1.finished = true := by
  cases hf : m.outcome.1.finished <;> simp [running, Lookup.going, hf]

end Move

def turn (context : UInt64) (r : Running τ) (c : Lookup.Call) : Move τ :=
  ⟨context, r.ticket, r.lookup.step c⟩

def opening (d : Dispatcher τ) (now : Time) (tables : Directory) (goal : Goal) (ticket : τ) :
    Move τ :=
  ⟨d.nextContext, ticket, (Lookup.new d.nextContext d.parameters tables goal).start now⟩

def moves (d : Dispatcher τ) : Call τ → List (Move τ)
  | .start now tables goal ticket => [d.opening now tables goal ticket]
  | .sweep now order => (order.arrange d.lookups.entries).map fun e => turn e.1 e.2 (.sweep now)
  | .pop => []
  | call => call.named?.toList.flatMap fun n =>
      (d.lookups.get? n.1).toList.map fun r => turn n.1 r n.2

theorem moves_named (d : Dispatcher τ) {call : Call τ} {context : UInt64} {c : Lookup.Call}
    (hc : call.named? = some (context, c)) :
    d.moves call = (d.lookups.get? context).toList.map fun r => turn context r c := by
  cases call with
  | start now tables goal ticket => cases hc
  | sweep now order => cases hc
  | pop => cases hc
  | respond now context sender peers content =>
    cases hc
    simp [moves, Call.named?]
  | peerFailed now context peer =>
    cases hc
    simp [moves, Call.named?]

theorem heard_named {call : Call τ} {context : UInt64} {c : Lookup.Call}
    (hc : call.named? = some (context, c)) (other : UInt64) :
    call.heard other true = if context = other then [c] else [] := by
  cases call with
  | start now tables goal ticket => cases hc
  | sweep now order => cases hc
  | pop => cases hc
  | respond now context sender peers content =>
    cases hc
    by_cases he : context = other <;> simp [Call.heard, Call.named?, Option.filter, he]
  | peerFailed now context peer =>
    cases hc
    by_cases he : context = other <;> simp [Call.heard, Call.named?, Option.filter, he]

end Moves

section Sweeps

variable {d : Dispatcher τ}

theorem get?_absorb_move {m : Move τ} (hm : m.outcome.1.context = m.context) (other : UInt64) :
    (d.absorb m.ticket m.outcome).1.lookups.get? other =
      if other = m.context then m.running else d.lookups.get? other := by
  rw [get?_absorb hm]
  cases hf : m.outcome.1.finished <;> simp [Move.running, Lookup.going, hf]

variable {now : Time} {entries : List (UInt64 × Running τ)}

theorem sweepAll_cons (now : Time) (e : UInt64 × Running τ) (rest : List (UInt64 × Running τ))
    (d : Dispatcher τ) :
    let m := turn e.1 e.2 (.sweep now)
    sweepAll now (e :: rest) d =
      ((sweepAll now rest (d.absorb m.ticket m.outcome).1).1,
        m.deliveries ++ (sweepAll now rest (d.absorb m.ticket m.outcome).1).2) := rfl

theorem sweepAll_outbound (d : Dispatcher τ) (now : Time) (entries : List (UInt64 × Running τ)) :
    (sweepAll now entries d).1.outbound = d.outbound ++
      (entries.map fun e => turn e.1 e.2 (.sweep now)).flatMap Move.requests := by
  induction entries generalizing d with
  | nil => simp [sweepAll]
  | cons e rest ih =>
    rw [sweepAll_cons, ih]
    simp [absorb, Move.requests]

theorem sweepAll_delivered (d : Dispatcher τ) (now : Time) (entries : List (UInt64 × Running τ)) :
    (sweepAll now entries d).2 =
      (entries.map fun e => turn e.1 e.2 (.sweep now)).flatMap Move.deliveries := by
  induction entries generalizing d with
  | nil => rfl
  | cons e rest ih => rw [sweepAll_cons, ih, List.map_cons, List.flatMap_cons]

theorem sweepAll_keys (h : d.lookups.keys.Nodup) (now : Time)
    (entries : List (UInt64 × Running τ)) : (sweepAll now entries d).1.lookups.keys.Nodup := by
  induction entries generalizing d with
  | nil => exact h
  | cons e rest ih =>
    rw [sweepAll_cons]
    exact ih (absorb_keys h)

theorem sweepAll_parameters (d : Dispatcher τ) (now : Time)
    (entries : List (UInt64 × Running τ)) :
    (sweepAll now entries d).1.parameters = d.parameters := by
  induction entries generalizing d with
  | nil => rfl
  | cons e rest ih =>
    rw [sweepAll_cons, ih]
    rfl

variable (hk : ∀ e ∈ entries, (e.2.lookup.step (.sweep now)).1.context = e.1)

include hk

theorem get?_sweepAll_of_not_mem {context : UInt64} (hn : context ∉ entries.map Prod.fst) :
    (sweepAll now entries d).1.lookups.get? context = d.lookups.get? context := by
  induction entries generalizing d with
  | nil => rfl
  | cons e rest ih =>
    rw [List.map_cons, List.mem_cons, not_or] at hn
    rw [sweepAll_cons, ih (fun e he => hk e (List.mem_cons_of_mem _ he)) hn.2,
      get?_absorb_move (hk e List.mem_cons_self)]
    exact if_neg hn.1

/-- Lookups under contexts of their own are swept as if each was the only one. -/
theorem get?_sweepAll_of_mem (hn : (entries.map Prod.fst).Nodup) {e : UInt64 × Running τ}
    (he : e ∈ entries) :
    (sweepAll now entries d).1.lookups.get? e.1 = (turn e.1 e.2 (.sweep now)).running := by
  induction entries generalizing d with
  | nil => cases he
  | cons first rest ih =>
    have hrest : ∀ e ∈ rest, (e.2.lookup.step (.sweep now)).1.context = e.1 := fun e he =>
      hk e (List.mem_cons_of_mem _ he)
    rw [List.map_cons, List.nodup_cons] at hn
    rw [sweepAll_cons]
    rcases List.mem_cons.mp he with rfl | he
    · rw [get?_sweepAll_of_not_mem hrest hn.1, get?_absorb_move (hk e List.mem_cons_self)]
      exact if_pos rfl
    · exact ih hrest hn.2 he

end Sweeps

/-- What holds of a dispatcher between any calls, also when contexts have come round: each lookup
stands alone under its context, and lives for some goal. -/
structure Tidy (p : Parameters) (d : Dispatcher τ) : Prop where
  parameters : d.parameters = p
  keys : d.lookups.keys.Nodup
  lives : ∀ context r, d.lookups.get? context = some r → r.lookup.finished = false ∧
    ∃ goal past, Lookup.Lived p context goal (r.lookup, past)

section Steps

variable {p : Parameters} {d : Dispatcher τ} {call : Call τ} {m : Move τ}

theorem Tidy.turn_keeps (h : Tidy p d) {context : UInt64} {r : Running τ}
    (hr : d.lookups.get? context = some r) (c : Lookup.Call) :
    Lookup.Keeps context (r.lookup.step c) := by
  obtain ⟨hf, goal, past, hlived⟩ := h.lives context r hr
  have hcontext : r.lookup.context = context := hlived.context_eq
  exact hcontext ▸ hlived.steady.step_keeps hf c

/-- A move is the first one of a lookup that the call starts, or a running lookup takes what it
hears of the call. -/
theorem Tidy.mem_moves (h : Tidy p d) : m ∈ d.moves call ↔
    (∃ now tables goal ticket, call = .start now tables goal ticket ∧
      m = d.opening now tables goal ticket) ∨
    ∃ context r c, d.lookups.get? context = some r ∧ c ∈ call.heard context true ∧
      m = turn context r c := by
  have hnamed : ∀ {context : UInt64} {c : Lookup.Call}, call.named? = some (context, c) →
      call.isStart = false → (m ∈ d.moves call ↔
        (∃ now tables goal ticket, call = .start now tables goal ticket ∧
          m = d.opening now tables goal ticket) ∨
        ∃ context r c, d.lookups.get? context = some r ∧ c ∈ call.heard context true ∧
          m = turn context r c) := by
    intro context c hc hs
    rw [moves_named d hc]
    simp only [heard_named hc, List.mem_map, Option.mem_toList]
    constructor
    · rintro ⟨r, hr, rfl⟩
      exact Or.inr ⟨context, r, c, hr, by simp, rfl⟩
    · rintro (⟨now, tables, goal, ticket, rfl, -⟩ | ⟨other, r, c', hr, hm, rfl⟩)
      · cases hs
      · split at hm
        next he =>
          rw [List.mem_singleton] at hm
          exact ⟨r, he ▸ hr, by rw [he, hm]⟩
        next => cases hm
  cases call with
  | start now tables goal ticket => simp [moves, Call.heard, Call.named?]
  | respond now context sender peers content => exact hnamed rfl rfl
  | peerFailed now context peer => exact hnamed rfl rfl
  | sweep now order =>
    obtain ⟨-, hin⟩ := arranged_entries h.keys order
    simp only [moves, List.mem_map, hin, Call.heard, List.mem_singleton]
    constructor
    · rintro ⟨e, he, rfl⟩
      exact Or.inr ⟨e.1, e.2, _, he, rfl, rfl⟩
    · rintro (⟨_, _, _, _, hcall, -⟩ | ⟨context, r, c, hr, rfl, rfl⟩)
      · cases hcall
      · exact ⟨(context, r), hr, rfl⟩
  | pop => simp [moves, Call.heard, Call.named?]

theorem step_named_moves (d : Dispatcher τ) {context : UInt64} {c : Lookup.Call}
    (hc : call.named? = some (context, c)) :
    (d.step call).1.outbound = d.outbound ++ (d.moves call).flatMap Move.requests ∧
      (d.step call).2.delivered = (d.moves call).flatMap Move.deliveries := by
  rw [moves_named d hc]
  rcases d.step_named hc with ⟨hr, he⟩ | ⟨r, hr, ⟨e, -, hstay, he⟩ | ⟨-, he⟩⟩
  · simp [he, hr]
  · simp [he, hr, turn, Move.requests, Move.deliveries, hstay]
  · simp [he, hr, turn, Move.requests, Move.deliveries, absorb]

theorem step_outbound (d : Dispatcher τ) (hp : call ≠ .pop) :
    (d.step call).1.outbound = d.outbound ++ (d.moves call).flatMap Move.requests := by
  cases call with
  | start now tables goal ticket => simp [Dispatcher.step, start, moves, opening, Move.requests]
  | respond now context sender peers content => exact (d.step_named_moves rfl).1
  | peerFailed now context peer => exact (d.step_named_moves rfl).1
  | sweep now order => exact sweepAll_outbound d now _
  | pop => exact absurd rfl hp

theorem step_delivered (d : Dispatcher τ) (call : Call τ) :
    (d.step call).2.delivered = (d.moves call).flatMap Move.deliveries := by
  cases call with
  | start now tables goal ticket => simp [Dispatcher.step, start, moves, opening, Move.deliveries]
  | respond now context sender peers content => exact (d.step_named_moves rfl).2
  | peerFailed now context peer => exact (d.step_named_moves rfl).2
  | sweep now order => exact sweepAll_delivered d now _
  | pop => rfl

/-- What a start leaves under a context. A lookup that ends at once takes nobody's place. -/
theorem get?_start (d : Dispatcher τ) (now : Time) (tables : Directory) (goal : Goal) (ticket : τ)
    (context : UInt64) :
    (d.start now tables goal ticket).1.lookups.get? context =
      if context = d.nextContext then
        (d.opening now tables goal ticket).running.or (d.lookups.get? context)
      else d.lookups.get? context := by
  have hcontext : ((Lookup.new d.nextContext d.parameters tables goal).start now).1.context =
      d.nextContext := (Lookup.start_keeps d.nextContext d.parameters tables goal now).context_eq
  cases hf : ((Lookup.new d.nextContext d.parameters tables goal).start now).1.finished with
  | true => simp [start, opening, Move.running, Lookup.going, hf]
  | false => simp [start, opening, Move.running, Lookup.going, hf, hcontext, Catalog.get?_put]

def heed (context : UInt64) (r : Option (Running τ)) (c : Lookup.Call) : Option (Running τ) :=
  r.bind fun r => (turn context r c).running

theorem Tidy.get?_step_named (h : Tidy p d) {context : UInt64} {c : Lookup.Call}
    (hc : call.named? = some (context, c)) (other : UInt64) :
    (d.step call).1.lookups.get? other =
      (call.heard other true).foldl (heed other) (d.lookups.get? other) := by
  rw [heard_named hc]
  by_cases ho : context = other
  · subst ho
    rw [if_pos rfl, List.foldl_cons, List.foldl_nil]
    rcases d.step_named hc with ⟨hr, he⟩ | ⟨r, hr, ⟨e, -, hstay, he⟩ | ⟨-, he⟩⟩
    · rw [he, hr]
      rfl
    · have hf := (h.lives context r hr).1
      rw [he, hr]
      simp [heed, turn, Move.running, Lookup.going, hstay, hf]
    · have hmove : (turn context r c).outcome.1.context = context :=
        (h.turn_keeps hr c).context_eq
      rw [he, hr]
      exact (get?_absorb_move hmove context).trans (if_pos rfl)
  · rw [if_neg ho, List.foldl_nil]
    rcases d.step_named hc with ⟨hr, he⟩ | ⟨r, hr, ⟨e, -, hstay, he⟩ | ⟨-, he⟩⟩
    · rw [he]
    · rw [he]
    · have hmove : (turn context r c).outcome.1.context = context :=
        (h.turn_keeps hr c).context_eq
      rw [he]
      exact (get?_absorb_move hmove other).trans (if_neg (Ne.symm ho))

/-- Unless it is a start, a call leaves under a context what its lookup comes to with what it hears
of the call. -/
theorem Tidy.get?_step (h : Tidy p d) (hs : call.isStart = false) (context : UInt64) :
    (d.step call).1.lookups.get? context =
      (call.heard context true).foldl (heed context) (d.lookups.get? context) := by
  cases call with
  | start now tables goal ticket => cases hs
  | respond now c sender peers content => exact h.get?_step_named rfl context
  | peerFailed now c peer => exact h.get?_step_named rfl context
  | pop => exact congrArg (fun lookups => lookups.get? context) (pop_lookups d)
  | sweep now order =>
    obtain ⟨hn, hin⟩ := arranged_entries h.keys order
    have hk : ∀ e ∈ order.arrange d.lookups.entries,
        (e.2.lookup.step (.sweep now)).1.context = e.1 := fun e he =>
      (h.turn_keeps ((hin e).mp he) (.sweep now)).context_eq
    change (sweepAll now (order.arrange d.lookups.entries) d).1.lookups.get? context = _
    rw [Call.heard, List.foldl_cons, List.foldl_nil]
    cases hr : d.lookups.get? context with
    | some r => exact get?_sweepAll_of_mem hk hn ((hin (context, r)).mpr hr)
    | none =>
      rw [get?_sweepAll_of_not_mem hk, hr]
      · rfl
      · intro hm
        obtain ⟨e, he, rfl⟩ := List.mem_map.mp hm
        cases hr.symm.trans ((hin e).mp he)

theorem Call.heard_cases (call : Call τ) (context : UInt64) :
    call.heard context true = [] ∨ ∃ c, call.heard context true = [c] := by
  cases call with
  | start now tables goal ticket => exact Or.inl rfl
  | pop => exact Or.inl rfl
  | sweep now order => exact Or.inr ⟨_, rfl⟩
  | respond now c sender peers content =>
    rw [heard_named rfl]
    split
    · exact Or.inr ⟨_, rfl⟩
    · exact Or.inl rfl
  | peerFailed now c peer =>
    rw [heard_named rfl]
    split
    · exact Or.inr ⟨_, rfl⟩
    · exact Or.inl rfl

theorem Tidy.running_step (h : Tidy p d) {context : UInt64} {r : Running τ}
    (hr : (d.step call).1.lookups.get? context = some r) :
    d.lookups.get? context = some r ∨
      ∃ m ∈ d.moves call, m.context = context ∧ m.running = some r := by
  by_cases hs : call.isStart = false
  · rw [h.get?_step hs] at hr
    rcases call.heard_cases context with he | ⟨c, he⟩
    · rw [he] at hr
      exact Or.inl hr
    · rw [he] at hr
      obtain ⟨r', hr', hm⟩ := Option.bind_eq_some_iff.mp hr
      refine Or.inr ⟨turn context r' c, h.mem_moves.mpr (Or.inr ?_), rfl, hm⟩
      exact ⟨context, r', c, hr', by rw [he]; exact List.mem_singleton_self c, rfl⟩
  · cases call with
    | start now tables goal ticket =>
      replace hr := (get?_start d now tables goal ticket context).symm.trans hr
      split at hr
      next hc =>
        rcases Option.or_eq_some_iff.mp hr with hm | ⟨-, hold⟩
        · exact Or.inr ⟨_, List.mem_singleton_self _, hc.symm, hm⟩
        · exact Or.inl hold
      next => exact Or.inl hr
    | _ => exact absurd rfl hs

theorem step_named_absorb (d : Dispatcher τ) {named : UInt64 × Lookup.Call}
    (hc : call.named? = some named) :
    (d.step call).1 = d ∨ ∃ ticket s, (d.step call).1 = (d.absorb ticket s).1 := by
  rcases d.step_named hc with ⟨-, he⟩ | ⟨r, -, ⟨e, -, -, he⟩ | ⟨-, he⟩⟩
  · exact Or.inl (congrArg Prod.fst he)
  · exact Or.inl (congrArg Prod.fst he)
  · exact Or.inr ⟨_, _, congrArg Prod.fst he⟩

theorem step_keys (hn : d.lookups.keys.Nodup) (call : Call τ) :
    (d.step call).1.lookups.keys.Nodup := by
  have hnamed : ∀ {named : UInt64 × Lookup.Call}, call.named? = some named →
      (d.step call).1.lookups.keys.Nodup := by
    intro named hc
    rcases d.step_named_absorb hc with he | ⟨ticket, s, he⟩
    · rwa [he]
    · rw [he]
      exact absorb_keys hn
  cases call with
  | start now tables goal ticket =>
    simp only [Dispatcher.step, start]
    split
    · exact hn
    · exact Catalog.put_nodup hn _ _
  | respond now context sender peers content => exact hnamed rfl
  | peerFailed now context peer => exact hnamed rfl
  | sweep now order => exact sweepAll_keys hn now _
  | pop => exact (pop_lookups d).symm ▸ hn

theorem step_parameters (d : Dispatcher τ) (call : Call τ) :
    (d.step call).1.parameters = d.parameters := by
  have hnamed : ∀ {named : UInt64 × Lookup.Call}, call.named? = some named →
      (d.step call).1.parameters = d.parameters := by
    intro named hc
    rcases d.step_named_absorb hc with he | ⟨ticket, s, he⟩
    · rw [he]
    · rw [he]
      rfl
  cases call with
  | start now tables goal ticket => rfl
  | respond now context sender peers content => exact hnamed rfl
  | peerFailed now context peer => exact hnamed rfl
  | sweep now order => exact sweepAll_parameters d now _
  | pop =>
    change d.pop.2.parameters = d.parameters
    unfold pop
    split <;> rfl

theorem Tidy.move_keeps (h : Tidy p d) {m : Move τ} (hm : m ∈ d.moves call) :
    Lookup.Keeps m.context m.outcome := by
  rcases h.mem_moves.mp hm with ⟨now, tables, goal, ticket, -, rfl⟩ | ⟨context, r, c, hr, -, rfl⟩
  · exact Lookup.start_keeps ..
  · exact h.turn_keeps hr c

theorem Tidy.opening_lived (h : Tidy p d) (now : Time) (tables : Directory) (goal : Goal)
    (ticket : τ) :
    let m := d.opening now tables goal ticket
    Lookup.Lived p m.context goal (m.outcome.1, Effects.append {} m.outcome.2) := by
  have hlived := Lookup.start_lived p d.nextContext tables goal now
  rw [← h.parameters] at hlived ⊢
  simpa [opening, Effects.append] using hlived

theorem Tidy.move_lived (h : Tidy p d) (hm : m ∈ d.moves call) :
    ∃ (goal : Goal) (past : Effects), past.finding = none ∧
      Lookup.Lived p m.context goal (m.outcome.1, past.append m.outcome.2) := by
  rcases h.mem_moves.mp hm with ⟨now, tables, goal, ticket, -, rfl⟩ | ⟨context, r, c, hr, -, rfl⟩
  · exact ⟨goal, {}, rfl, h.opening_lived now tables goal ticket⟩
  · obtain ⟨hf, goal, past, hlived⟩ := h.lives context r hr
    exact ⟨goal, past, by simpa [hf] using hlived.finding_eq, hlived.step c⟩

theorem Tidy.step (h : Tidy p d) (call : Call τ) : Tidy p (d.step call).1 := by
  refine ⟨(d.step_parameters call).trans h.parameters, step_keys h.keys call, ?_⟩
  intro context r hr
  rcases h.running_step hr with hold | ⟨m, hm, rfl, hrun⟩
  · exact h.lives context r hold
  · obtain ⟨hf, rfl⟩ := Move.running_eq_some.mp hrun
    obtain ⟨goal, past, -, hlived⟩ := h.move_lived hm
    exact ⟨hf, goal, _, hlived⟩

theorem new_tidy (p : Parameters) : Tidy p (Dispatcher.new p : Dispatcher τ) :=
  ⟨rfl, List.nodup_nil, fun _ _ hr => by simp [Dispatcher.new] at hr⟩

theorem Tidy.play (h : Tidy p d) (calls : List (Call τ)) : Tidy p (d.play calls).1 := by
  induction calls generalizing d with
  | nil => exact h
  | cons call calls ih => exact ih (h.step call)

end Steps

end Dispatcher

end Kademlia
