import Kademlia.Proofs.Dispatcher.Moves
import Kademlia.Proofs.Lookup.Question

/-!
What a dispatcher has in its keeping. All lookups that a run starts are entered in a register, where
each goes on with the calls for it, whatever the dispatcher keeps. Main statement: the dispatcher
holds just those lookups that have not answered, has delivered what the others have found, and hands
out what all of them ask, each request once and in its turn.
-/

namespace Kademlia

theorem Lookup.Lived.requests {p : Parameters} {context : UInt64} {goal : Goal}
    {r : Lookup × Effects} (h : Lived p context goal r) :
    ∀ o ∈ r.2.requests, o.context = context ∧ o.request = goal.request context := by
  obtain ⟨tables, start, calls, rfl⟩ := h
  have hc := new_coherent context p tables goal
  have hcontext : (Lookup.new context p tables goal).context = context :=
    (new_sameTask context p tables goal).context
  have hfirst := (start_keeps context p tables goal start).requests
  have hcarries := carries_compositional.life hc start calls fun o ho =>
    (hfirst o ho).trans hcontext.symm
  intro o ho
  exact ⟨(hcarries o ho).trans hcontext, life_requests context p tables goal start calls o ho⟩

namespace Dispatcher

variable {τ : Type}

/-- A lookup that has been started, with all that it has come to. -/
structure Charge (τ : Type) extends Move τ where
  goal : Goal

namespace Charge

def hear (c : Charge τ) (call : Call τ) : Charge τ :=
  let s := c.outcome.1.play (call.heard c.context true)
  { c with outcome := (s.1, c.outcome.2.append s.2) }

def answered (c : Charge τ) : Bool := c.outcome.2.finding.isSome

def Lived (p : Parameters) (c : Charge τ) : Prop := Lookup.Lived p c.context c.goal c.outcome

/-- The moves that a call brings a lookup to make, none once it has ended. -/
def moves (c : Charge τ) (call : Call τ) : List (Move τ) :=
  c.running.toList.flatMap fun r => (call.heard c.context true).map (turn c.context r)

variable {p : Parameters} {c : Charge τ}

theorem Lived.answered_eq (h : c.Lived p) : c.answered = c.outcome.1.finished := by
  rw [answered, Lookup.Lived.finding_eq h]
  cases c.outcome.1.finished <;> rfl

theorem Lived.hear_cases (h : c.Lived p) (call : Call τ) :
    (c.moves call = [] ∧ c.hear call = c) ∨
    ∃ x, call.heard c.context true = [x] ∧ c.outcome.1.finished = false ∧
      let m := turn c.context ⟨c.ticket, c.outcome.1⟩ x
      c.moves call = [m] ∧ c.hear call =
        ⟨⟨c.context, c.ticket, (m.outcome.1, c.outcome.2.append m.outcome.2)⟩, c.goal⟩ := by
  rcases call.heard_cases c.context with he | ⟨x, he⟩
  · exact Or.inl (by simp [moves, hear, he, Lookup.play, Effects.append_idle])
  · cases hf : c.outcome.1.finished with
    | true =>
      have hidle : c.outcome.1.step x = (c.outcome.1, {}) :=
        (Lookup.delivers_compositional.step (Lookup.Lived.steady h) x).1 hf
      have hrun : c.running = none := Move.running_eq_none.mpr hf
      exact Or.inl (by simp [moves, hear, he, hrun, hidle, Lookup.play, Effects.append_idle])
    | false =>
      have hrun : c.running = some ⟨c.ticket, c.outcome.1⟩ := Move.running_eq_some.mpr ⟨hf, rfl⟩
      refine Or.inr ⟨x, he, rfl, ?_, ?_⟩
      · simp [moves, he, hrun]
      · simp [hear, he, turn, Lookup.play, Effects.append_idle]

theorem Lived.hear (h : c.Lived p) (call : Call τ) : (c.hear call).Lived p := by
  rcases h.hear_cases call with ⟨-, he⟩ | ⟨x, -, -, -, he⟩
  · rw [he]
    exact h
  · rw [he]
    exact Lookup.Lived.step h x

theorem Lived.requests_hear (h : c.Lived p) (call : Call τ) :
    (c.hear call).requests = c.requests ++ (c.moves call).flatMap Move.requests := by
  rcases h.hear_cases call with ⟨hm, he⟩ | ⟨x, -, -, hm, he⟩
  · rw [hm, he, List.flatMap_nil, List.append_nil]
  · rw [hm, he, List.flatMap_singleton]
    rfl

theorem Lived.deliveries_hear (h : c.Lived p) (call : Call τ) :
    (c.hear call).deliveries = c.deliveries ++ (c.moves call).flatMap Move.deliveries := by
  rcases h.hear_cases call with ⟨hm, he⟩ | ⟨x, -, hf, hm, he⟩
  · rw [hm, he, List.flatMap_nil, List.append_nil]
  · have hnone : c.outcome.2.finding = none := by
      simpa [hf] using Lookup.Lived.finding_eq h
    rw [hm, he, List.flatMap_singleton]
    simp [Move.deliveries, hnone, Effects.append, turn]

theorem Lived.running_hear (h : c.Lived p) (call : Call τ) :
    (c.hear call).running = (call.heard c.context true).foldl (heed c.context) c.running := by
  cases hf : c.outcome.1.finished with
  | true =>
    have hrun : c.running = none := Move.running_eq_none.mpr hf
    have hsame : c.hear call = c := by
      rcases h.hear_cases call with ⟨-, he⟩ | ⟨x, -, hgoes, -⟩
      · exact he
      · cases hf.symm.trans hgoes
    rw [hsame, hrun]
    rcases call.heard_cases c.context with he | ⟨x, he⟩ <;> simp [he, heed]
  | false =>
    have hrun : c.running = some ⟨c.ticket, c.outcome.1⟩ := Move.running_eq_some.mpr ⟨hf, rfl⟩
    rcases call.heard_cases c.context with he | ⟨x, he⟩
    · simp [Charge.hear, he, Lookup.play, Effects.append_idle]
    · rw [he, hrun]
      simp [Charge.hear, he, Lookup.play, heed, turn, Move.running]

end Charge

section Register

def opened (d : Dispatcher τ) : Call τ → List (Charge τ)
  | .start now tables goal ticket => [⟨d.opening now tables goal ticket, goal⟩]
  | _ => []

/-- The lookups of a register and those that a run starts, with what they come to in the run. -/
def register (d : Dispatcher τ) (cs : List (Charge τ)) : List (Call τ) → List (Charge τ)
  | [] => cs
  | call :: calls =>
    register (d.step call).1 (cs.map (fun c => c.hear call) ++ d.opened call) calls

def emitted (d : Dispatcher τ) : List (Call τ) → List Outgoing
  | [] => []
  | call :: calls => (d.moves call).flatMap Move.requests ++ emitted (d.step call).1 calls

variable (d : Dispatcher τ)

theorem length_opened (call : Call τ) : (d.opened call).length = [call].countP Call.isStart := by
  cases call <;> rfl

theorem length_register (cs : List (Charge τ)) (calls : List (Call τ)) :
    (d.register cs calls).length = cs.length + calls.countP Call.isStart := by
  induction calls generalizing d cs with
  | nil => rfl
  | cons call calls ih =>
    rw [register, ih, List.length_append, List.length_map, length_opened, Nat.add_assoc,
      ← countP_cons_eq]

theorem step_handed (call : Call τ) : (d.step call).2.sent ++ (d.step call).1.outbound =
    d.outbound ++ (d.moves call).flatMap Move.requests := by
  by_cases hp : call = .pop
  · subst hp
    cases ho : d.outbound <;> simp [Dispatcher.step, pop, moves, ho]
  · have hsent : (d.step call).2.sent = [] := by
      cases call with
      | pop => exact absurd rfl hp
      | respond now context sender peers content =>
        rw [Dispatcher.step]
        split <;> rfl
      | _ => rfl
    rw [hsent, step_outbound d hp, List.nil_append]

/-- Requests are handed out in the order in which they are emitted, none twice and none left out. -/
theorem play_handed (calls : List (Call τ)) :
    (d.play calls).2.sent ++ (d.play calls).1.outbound = d.outbound ++ d.emitted calls := by
  induction calls generalizing d with
  | nil => simp [Dispatcher.play, emitted]
  | cons call calls ih =>
    rw [Dispatcher.play, emitted, ← List.append_assoc, ← step_handed, List.append_assoc, ← ih]
    simp

theorem play_pops : (d.play (List.replicate d.outbound.length .pop)).2.sent = d.outbound := by
  generalize ho : d.outbound = requests
  induction requests generalizing d with
  | nil => rfl
  | cons o rest ih =>
    have hpop : d.step .pop = ({ d with outbound := rest }, { sent := [o] }) := by
      simp [Dispatcher.step, pop, ho]
    rw [List.length_cons, List.replicate_succ, Dispatcher.play, hpop]
    exact congrArg (o :: ·) (ih { d with outbound := rest } rfl)

end Register

section Custody

/-- The dispatcher has the lookups of a register in its keeping: those that run it holds under their
contexts, and what they have found and asked is what has been given to the outside. -/
structure Custody (p : Parameters) (d : Dispatcher τ) (log : Log τ) (cs : List (Charge τ)) :
    Prop where
  tidy : Tidy p d
  lived : ∀ c ∈ cs, c.Lived p
  contexts : (cs.map fun c => c.context) = (List.range cs.length).map UInt64.ofNat
  next : d.nextContext = UInt64.ofNat cs.length
  held : ∀ c ∈ cs, d.lookups.get? c.context = c.running
  others : ∀ context, (∀ c ∈ cs, c.context ≠ context) → d.lookups.get? context = none
  delivered : log.delivered.Perm (cs.flatMap fun c => c.deliveries)
  asked : ∀ c ∈ cs, (log.sent ++ d.outbound).filter (fun o => o.context = c.context) = c.requests
  named : ∀ o ∈ log.sent ++ d.outbound, ∃ c ∈ cs, c.context = o.context

variable {p : Parameters} {d : Dispatcher τ} {log : Log τ} {cs : List (Charge τ)}
  {call : Call τ} {m : Move τ}

theorem new_custody (p : Parameters) : Custody p (Dispatcher.new p : Dispatcher τ) {} [] where
  tidy := new_tidy p
  lived := List.forall_mem_nil _
  contexts := rfl
  next := rfl
  held := List.forall_mem_nil _
  others _ _ := rfl
  delivered := .refl _
  asked := List.forall_mem_nil _
  named := List.forall_mem_nil _

theorem Custody.distinct (h : Custody p d log cs) (hs : cs.length ≤ 2 ^ 64) :
    (cs.map fun c => c.context).Nodup := by
  rw [h.contexts]
  refine List.Nodup.map_on ?_ List.nodup_range
  intro i hi j hj he
  rw [List.mem_range] at hi hj
  by_contra hne
  exact ofNat_ne_of_lt (by omega) (by omega) hne he

theorem Custody.fresh (h : Custody p d log cs) (hs : cs.length < 2 ^ 64) :
    ∀ c ∈ cs, c.context ≠ d.nextContext := by
  intro c hc he
  have hm : c.context ∈ cs.map fun c => c.context := List.mem_map_of_mem hc
  rw [h.contexts] at hm
  obtain ⟨i, hi, hic⟩ := List.mem_map.mp hm
  rw [List.mem_range] at hi
  exact ofNat_ne_of_lt (by omega) hs (by omega) (hic.trans (he.trans h.next))

theorem Custody.exists_of_held (h : Custody p d log cs) {context : UInt64} {r : Running τ}
    (hr : d.lookups.get? context = some r) : ∃ c ∈ cs, c.context = context := by
  by_contra hn
  rw [h.others context fun c hc he => hn ⟨c, hc, he⟩] at hr
  cases hr

section Moves

theorem Charge.mem_moves {c : Charge τ} : m ∈ c.moves call ↔
    ∃ r x, c.running = some r ∧ x ∈ call.heard c.context true ∧ m = turn c.context r x := by
  simp only [Charge.moves, List.mem_flatMap, Option.mem_toList, List.mem_map]
  constructor
  · rintro ⟨r, hr, x, hx, rfl⟩
    exact ⟨r, x, hr, hx, rfl⟩
  · rintro ⟨r, x, hr, hx, rfl⟩
    exact ⟨r, hr, x, hx, rfl⟩

theorem Charge.context_of_mem_moves {c : Charge τ} (hm : m ∈ c.moves call) :
    m.context = c.context := by
  obtain ⟨r, x, -, -, rfl⟩ := Charge.mem_moves.mp hm
  rfl

theorem Charge.Lived.moves_nodup {c : Charge τ} (h : c.Lived p) (call : Call τ) :
    (c.moves call).Nodup := by
  rcases h.hear_cases call with ⟨hm, -⟩ | ⟨x, -, -, hm, -⟩
  · exact hm ▸ List.nodup_nil
  · exact hm ▸ List.nodup_singleton _

theorem Tidy.moves_distinct (h : Tidy p d) (call : Call τ) :
    ((d.moves call).map Move.context).Nodup := by
  have hnamed : ∀ {context : UInt64} {x : Lookup.Call}, call.named? = some (context, x) →
      ((d.moves call).map Move.context).Nodup := by
    intro context x hc
    rw [moves_named d hc]
    cases d.lookups.get? context <;> simp
  cases call with
  | start now tables goal ticket => exact List.nodup_singleton _
  | respond now context sender peers content => exact hnamed rfl
  | peerFailed now context peer => exact hnamed rfl
  | pop => exact List.nodup_nil
  | sweep now order =>
    rw [moves, List.map_map]
    exact (arranged_entries h.keys order).1

theorem Custody.mem_moves (h : Custody p d log cs) (hs : call.isStart = false) :
    m ∈ d.moves call ↔ ∃ c ∈ cs, m ∈ c.moves call := by
  simp only [h.tidy.mem_moves, Charge.mem_moves]
  constructor
  · rintro (⟨_, _, _, _, rfl, -⟩ | ⟨context, r, x, hr, hx, rfl⟩)
    · cases hs
    · obtain ⟨c, hc, rfl⟩ := h.exists_of_held hr
      exact ⟨c, hc, r, x, (h.held c hc).symm.trans hr, hx, rfl⟩
  · rintro ⟨c, hc, r, x, hr, hx, rfl⟩
    exact Or.inr ⟨c.context, r, x, (h.held c hc).trans hr, hx, rfl⟩

theorem Custody.moves_perm (h : Custody p d log cs) (hn : (cs.map fun c => c.context).Nodup)
    (hs : call.isStart = false) : (d.moves call).Perm (cs.flatMap fun c => c.moves call) := by
  refine (List.perm_ext_iff_of_nodup ?_ ?_).mpr fun m => ?_
  · exact (h.tidy.moves_distinct call).of_map _
  · rw [List.nodup_flatMap]
    refine ⟨fun c hc => (h.lived c hc).moves_nodup call, ?_⟩
    refine (List.pairwise_map.mp hn).imp ?_
    intro c e hne m hc he
    exact hne ((Charge.context_of_mem_moves hc).symm.trans (Charge.context_of_mem_moves he))
  · rw [h.mem_moves hs, List.mem_flatMap]

theorem Custody.moves_under (h : Custody p d log cs) (hn : (cs.map fun c => c.context).Nodup)
    (hs : call.isStart = false) {c : Charge τ} (hc : c ∈ cs) :
    (d.moves call).filter (fun m => m.context = c.context) = c.moves call := by
  -- A lookup makes one move at most, so equal members give equal lists.
  have hp : ((d.moves call).filter fun m => m.context = c.context).Perm (c.moves call) := by
    refine (List.perm_ext_iff_of_nodup ?_ ((h.lived c hc).moves_nodup call)).mpr fun m => ?_
    · exact ((h.tidy.moves_distinct call).of_map _).filter _
    rw [List.mem_filter, h.mem_moves hs, decide_eq_true_eq]
    constructor
    · rintro ⟨⟨e, he, hm⟩, hcontext⟩
      have hsame : e.context = c.context := (Charge.context_of_mem_moves hm).symm.trans hcontext
      exact List.inj_on_of_nodup_map hn he hc hsame ▸ hm
    · intro hm
      exact ⟨⟨c, hc, hm⟩, Charge.context_of_mem_moves hm⟩
  rcases (h.lived c hc).hear_cases call with ⟨hm, -⟩ | ⟨x, -, -, hm, -⟩
  · rw [hm] at hp ⊢
    exact hp.eq_nil
  · rw [hm] at hp ⊢
    exact hp.eq_singleton

theorem Tidy.requests_under (h : Tidy p d) (call : Call τ) (context : UInt64) :
    ((d.moves call).flatMap Move.requests).filter (fun o => o.context = context) =
      ((d.moves call).filter fun m => m.context = context).flatMap Move.requests := by
  have hk : ∀ m ∈ d.moves call, ∀ o ∈ m.requests, o.context = m.context := fun m hm =>
    (h.move_keeps hm).requests
  generalize d.moves call = ms at hk
  induction ms with
  | nil => rfl
  | cons m ms ih =>
    rw [List.forall_mem_cons] at hk
    rw [List.flatMap_cons, List.filter_append, ih hk.2, Lookup.filter_requests hk.1]
    by_cases hm : m.context = context
    · rw [if_pos hm, List.filter_cons_of_pos (by simpa using hm), List.flatMap_cons]
    · rw [if_neg hm, List.filter_cons_of_neg (by simpa using hm), List.nil_append]

end Moves

section Steps

theorem handed_append (d : Dispatcher τ) (log : Log τ) (call : Call τ) :
    (log.append (d.step call).2).sent ++ (d.step call).1.outbound =
      log.sent ++ d.outbound ++ (d.moves call).flatMap Move.requests := by
  rw [Log.append_sent, List.append_assoc, step_handed, List.append_assoc]

theorem Custody.turned (h : Custody p d log cs) (hn : (cs.map fun c => c.context).Nodup)
    (hs : call.isStart = false) :
    Custody p (d.step call).1 (log.append (d.step call).2) (cs.map fun c => c.hear call) := by
  constructor
  case tidy => exact h.tidy.step call
  case lived =>
    intro e he
    obtain ⟨c, hc, rfl⟩ := List.mem_map.mp he
    exact (h.lived c hc).hear call
  case contexts =>
    rw [List.map_map, List.length_map]
    exact h.contexts
  case next =>
    rw [step_next, h.next, List.length_map]
    simp [hs]
  case held =>
    intro e he
    obtain ⟨c, hc, rfl⟩ := List.mem_map.mp he
    rw [h.tidy.get?_step hs, (h.lived c hc).running_hear, ← h.held c hc]
    rfl
  case others =>
    intro context hcontext
    have hnone := h.others context fun c hc =>
      hcontext (c.hear call) (List.mem_map.mpr ⟨c, hc, rfl⟩)
    rw [h.tidy.get?_step hs, hnone]
    rcases call.heard_cases context with he | ⟨x, he⟩ <;> simp [he, heed]
  case delivered =>
    have hall : (cs.map fun c => c.hear call).flatMap (fun c => c.deliveries) =
        cs.flatMap fun c => c.deliveries ++ (c.moves call).flatMap Move.deliveries := by
      rw [List.flatMap_map]
      exact List.flatMap_congr fun c hc => (h.lived c hc).deliveries_hear call
    have hmoves := (h.moves_perm hn hs).flatMap_right Move.deliveries
    rw [List.flatMap_assoc] at hmoves
    rw [Log.append_delivered, step_delivered, hall]
    exact (h.delivered.append hmoves).trans (List.flatMap_append_perm cs _ _)
  case asked =>
    intro e he
    obtain ⟨c, hc, rfl⟩ := List.mem_map.mp he
    have hcontext : (c.hear call).context = c.context := rfl
    rw [handed_append, List.filter_append, hcontext, h.asked c hc, h.tidy.requests_under,
      h.moves_under hn hs hc, (h.lived c hc).requests_hear]
  case named =>
    intro o ho
    rw [handed_append] at ho
    rcases List.mem_append.mp ho with ho | ho
    · obtain ⟨c, hc, he⟩ := h.named o ho
      exact ⟨_, List.mem_map_of_mem hc, he⟩
    · obtain ⟨m, hm, ho⟩ := List.mem_flatMap.mp ho
      obtain ⟨c, hc, hmc⟩ := (h.mem_moves hs).mp hm
      have hcontext := (h.tidy.move_keeps hm).requests o ho
      refine ⟨_, List.mem_map_of_mem hc, ?_⟩
      exact (Charge.context_of_mem_moves hmc).symm.trans hcontext.symm

theorem Custody.started (h : Custody p d log cs) (hlt : cs.length < 2 ^ 64) (now : Time)
    (tables : Directory) (goal : Goal) (ticket : τ) :
    let call := Call.start now tables goal ticket
    Custody p (d.step call).1 (log.append (d.step call).2)
      (cs ++ [⟨d.opening now tables goal ticket, goal⟩]) := by
  intro call
  let m := d.opening now tables goal ticket
  have hfresh := h.fresh hlt
  have hget : ∀ context, (d.step call).1.lookups.get? context =
      if context = d.nextContext then m.running.or (d.lookups.get? context)
      else d.lookups.get? context := get?_start d now tables goal ticket
  have hmoves : (d.moves call).flatMap Move.requests = m.requests := List.flatMap_singleton ..
  have hkeeps : ∀ o ∈ m.requests, o.context = d.nextContext :=
    (Lookup.start_keeps d.nextContext d.parameters tables goal now).requests
  constructor
  case tidy => exact h.tidy.step call
  case lived =>
    rw [List.forall_mem_append, List.forall_mem_singleton]
    refine ⟨h.lived, ?_⟩
    have hlived := Lookup.start_lived p d.nextContext tables goal now
    rw [← h.tidy.parameters] at hlived ⊢
    exact hlived
  case contexts =>
    rw [List.map_append, h.contexts, List.length_append, List.length_singleton, List.range_succ,
      List.map_append, List.map_singleton, List.map_singleton, ← h.next]
    rfl
  case next =>
    rw [step_next, h.next, List.length_append, List.length_singleton, UInt64.ofNat_add]
    rfl
  case held =>
    rw [List.forall_mem_append, List.forall_mem_singleton]
    constructor
    · intro c hc
      rw [hget, if_neg (hfresh c hc)]
      exact h.held c hc
    · change (d.step call).1.lookups.get? d.nextContext = m.running
      rw [hget, if_pos rfl, h.others d.nextContext hfresh, Option.or_none]
  case others =>
    intro context hcontext
    rw [List.forall_mem_append, List.forall_mem_singleton] at hcontext
    have hne : d.nextContext ≠ context := hcontext.2
    rw [hget, if_neg (Ne.symm hne)]
    exact h.others context hcontext.1
  case delivered =>
    rw [Log.append_delivered, step_delivered, List.flatMap_append, List.flatMap_singleton]
    refine h.delivered.append ?_
    rw [moves, List.flatMap_singleton]
  case asked =>
    rw [List.forall_mem_append, List.forall_mem_singleton, handed_append, hmoves]
    constructor
    · intro c hc
      have hnone : m.requests.filter (fun o => o.context = c.context) = [] :=
        (Lookup.filter_requests hkeeps c.context).trans (if_neg (Ne.symm (hfresh c hc)))
      rw [List.filter_append, h.asked c hc, hnone, List.append_nil]
    · have hold : (log.sent ++ d.outbound).filter (fun o => o.context = d.nextContext) = [] := by
        refine List.filter_eq_nil_iff.mpr fun o ho => ?_
        obtain ⟨c, hc, he⟩ := h.named o ho
        simp [← he, hfresh c hc]
      have hown : m.requests.filter (fun o => o.context = d.nextContext) = m.requests :=
        (Lookup.filter_requests hkeeps d.nextContext).trans (if_pos rfl)
      change (log.sent ++ d.outbound ++ m.requests).filter
        (fun o => o.context = d.nextContext) = m.requests
      rw [List.filter_append, hold, hown, List.nil_append]
  case named =>
    intro o ho
    rw [handed_append, hmoves] at ho
    rcases List.mem_append.mp ho with ho | ho
    · obtain ⟨c, hc, he⟩ := h.named o ho
      exact ⟨c, List.mem_append_left _ hc, he⟩
    · exact ⟨_, List.mem_append_right _ (List.mem_singleton_self _), (hkeeps o ho).symm⟩

theorem Charge.hear_start (c : Charge τ) (now : Time) (tables : Directory) (goal : Goal)
    (ticket : τ) : c.hear (.start now tables goal ticket) = c := by
  simp [Charge.hear, Call.heard, Call.named?, Lookup.play, Effects.append_idle]

theorem Custody.step (h : Custody p d log cs) (call : Call τ)
    (hlt : cs.length + [call].countP Call.isStart ≤ 2 ^ 64) :
    Custody p (d.step call).1 (log.append (d.step call).2)
      (cs.map (fun c => c.hear call) ++ d.opened call) := by
  have hn := h.distinct (by omega)
  by_cases hs : call.isStart = false
  · have hnone : d.opened call = [] := by cases call <;> first | rfl | cases hs
    rw [hnone, List.append_nil]
    exact h.turned hn hs
  · cases call with
    | start now tables goal ticket =>
      have hone : [Call.start now tables goal ticket].countP Call.isStart = 1 := rfl
      have hsame : cs.map (fun c => c.hear (.start now tables goal ticket)) = cs := by
        simp [Charge.hear_start]
      rw [hsame]
      exact h.started (by omega) now tables goal ticket
    | _ => exact absurd rfl hs

theorem Custody.play (h : Custody p d log cs) (calls : List (Call τ))
    (hlt : cs.length + calls.countP Call.isStart ≤ 2 ^ 64) :
    Custody p (d.play calls).1 (log.append (d.play calls).2) (d.register cs calls) := by
  induction calls generalizing d log cs with
  | nil =>
    rw [Dispatcher.play, Log.append_idle]
    exact h
  | cons call calls ih =>
    rw [countP_cons_eq, ← Nat.add_assoc] at hlt
    have hnext := ih (h.step call (by omega)) (by
      rw [List.length_append, List.length_map, length_opened]
      exact hlt)
    rw [Log.append_assoc] at hnext
    exact hnext

end Steps

section Counting

theorem Charge.length_deliveries (cs : List (Charge τ)) :
    (cs.flatMap fun c => c.deliveries).length = cs.countP Charge.answered := by
  induction cs with
  | nil => rfl
  | cons c cs ih =>
    have hone : c.deliveries.length = if c.answered then 1 else 0 := by
      rw [Move.deliveries, Charge.answered]
      cases c.outcome.2.finding <;> rfl
    rw [List.flatMap_cons, List.length_append, ih, hone, List.countP_cons, Nat.add_comm]

theorem Charge.Lived.running_eq {c : Charge τ} (h : c.Lived p) :
    c.running = if c.answered then none else some ⟨c.ticket, c.outcome.1⟩ := by
  rw [h.answered_eq, Move.running, Lookup.going]
  cases c.outcome.1.finished <;> rfl

theorem Custody.held_eq (h : Custody p d log cs) {c : Charge τ} (hc : c ∈ cs) :
    d.lookups.get? c.context = if c.answered then none else some ⟨c.ticket, c.outcome.1⟩ :=
  (h.held c hc).trans (h.lived c hc).running_eq

theorem Custody.keys_perm (h : Custody p d log cs) (hn : (cs.map fun c => c.context).Nodup) :
    d.lookups.keys.Perm ((cs.filter fun c => !c.answered).map fun c => c.context) := by
  refine (List.perm_ext_iff_of_nodup h.tidy.keys
    (hn.sublist (List.filter_sublist.map _))).mpr fun context => ?_
  rw [Catalog.mem_keys_iff, List.mem_map]
  constructor
  · intro hk
    obtain ⟨r, hr⟩ := Option.ne_none_iff_exists'.mp hk
    obtain ⟨c, hc, rfl⟩ := h.exists_of_held hr
    rw [h.held_eq hc] at hk
    exact ⟨c, List.mem_filter.mpr ⟨hc, by simpa using hk⟩, rfl⟩
  · rintro ⟨c, hc, rfl⟩
    obtain ⟨hc, hnot⟩ := List.mem_filter.mp hc
    rw [h.held_eq hc]
    simpa using hnot

theorem Custody.active_add (h : Custody p d log cs) (hn : (cs.map fun c => c.context).Nodup) :
    d.active + log.delivered.length = cs.length := by
  have hheld : d.active = cs.countP fun c => !c.answered := by
    have hlength := (h.keys_perm hn).length_eq
    rw [Catalog.keys, List.length_map, List.length_map, ← List.countP_eq_length_filter] at hlength
    exact hlength
  have hgiven : log.delivered.length = cs.countP Charge.answered :=
    h.delivered.length_eq.trans (Charge.length_deliveries cs)
  have hall := List.length_eq_countP_add_countP (l := cs) Charge.answered
  simp only [Bool.not_eq_true, Bool.decide_eq_false] at hall
  omega

/-- Of a lookup with a ticket of its own it is told by the deliveries whether it is held. -/
theorem Custody.held_iff (h : Custody p d log cs) {c : Charge τ} (hc : c ∈ cs)
    (hticket : ∀ e ∈ cs, e.ticket = c.ticket → e = c) :
    d.lookups.get? c.context = some ⟨c.ticket, c.outcome.1⟩ ↔
      ∀ δ ∈ log.delivered, δ.ticket ≠ c.ticket := by
  have hmem : ∀ δ, δ ∈ log.delivered ↔ ∃ e ∈ cs, δ ∈ e.deliveries := by
    intro δ
    rw [h.delivered.mem_iff, List.mem_flatMap]
  rw [h.held_eq hc]
  constructor
  · intro hheld δ hδ he
    obtain ⟨e, hin, hδe⟩ := (hmem δ).mp hδ
    obtain ⟨f, hf, rfl⟩ := List.mem_map.mp hδe
    obtain rfl := hticket e hin he
    have hanswered : e.answered = true := by
      rw [Charge.answered, Option.mem_toList.mp hf]
      rfl
    rw [if_pos hanswered] at hheld
    cases hheld
  · intro hnone
    refine if_neg ?_
    intro hanswered
    obtain ⟨f, hf⟩ := Option.isSome_iff_exists.mp hanswered
    have hin : (⟨c.ticket, f⟩ : Delivery τ) ∈ c.deliveries :=
      List.mem_map.mpr ⟨f, Option.mem_toList.mpr hf, rfl⟩
    exact hnone _ ((hmem _).mpr ⟨c, hc, hin⟩) rfl

end Counting

end Custody

section Keeping

/-- A dispatcher and what it has given to the outside, when `started` are the lookups that have been
started, with what they have come to, and `emitted` their requests in the order of their coming. -/
structure Keeping (d : Dispatcher τ) (log : Log τ) (started : List (Charge τ))
    (emitted : List Outgoing) : Prop where
  distinct : (started.map fun c => c.context).Nodup
  held : ∀ c ∈ started,
    d.lookups.get? c.context = if c.answered then none else some ⟨c.ticket, c.outcome.1⟩
  others : ∀ context, (∀ c ∈ started, c.context ≠ context) → d.lookups.get? context = none
  delivered : log.delivered.Perm (started.flatMap fun c => c.deliveries)
  unanswered : ∀ c ∈ started, (∀ e ∈ started, e.ticket = c.ticket → e = c) →
    (d.lookups.get? c.context = some ⟨c.ticket, c.outcome.1⟩ ↔
      ∀ δ ∈ log.delivered, δ.ticket ≠ c.ticket)
  active : d.active + log.delivered.length = started.length
  /-- Under each context stand the requests of its lookup, in their order. -/
  asked : ∀ c ∈ started,
    (log.sent ++ d.outbound).filter (fun o => o.context = c.context) = c.requests
  named : ∀ o ∈ log.sent ++ d.outbound, ∃ c ∈ started, o ∈ c.requests ∧
    o.context = c.context ∧ o.request = c.goal.request c.context
  /-- What has been popped, and what is still to be popped behind it, is what has been emitted. -/
  handed : log.sent ++ d.outbound = emitted
  drained : (d.play (List.replicate d.outbound.length .pop)).2.sent = d.outbound

/-- Take a run with fewer starts than there are contexts. The dispatcher holds under the context of
each lookup that it has started just this lookup, as the calls for it have left it, until it has
handed over its finding, and holds nothing else; so as many are active as have been started and not
delivered. Each request in the queue is one of the lookup whose context it carries, and what is
popped is what all lookups have emitted, in the order in which they did. -/
theorem holds_just_the_unanswered (p : Parameters) (calls : List (Call τ))
    (hstarts : calls.countP Call.isStart < 2 ^ 64) :
    let first : Dispatcher τ := Dispatcher.new p
    let d := first.play calls
    let started := first.register [] calls
    started.length = calls.countP Call.isStart ∧ Keeping d.1 d.2 started (first.emitted calls) := by
  intro first d started
  have hlength : started.length = calls.countP Call.isStart :=
    (length_register first [] calls).trans (Nat.zero_add _)
  have hplayed := (new_custody p).play calls (by
    rw [List.length_nil, Nat.zero_add]
    exact Nat.le_of_lt hstarts)
  have hempty : ({} : Log τ).append d.2 = d.2 := by simp [Log.append]
  have h : Custody p d.1 d.2 started := hempty ▸ hplayed
  have hn := h.distinct (by omega)
  refine ⟨hlength, ?_⟩
  constructor
  case distinct => exact hn
  case held => exact fun c hc => h.held_eq hc
  case others => exact h.others
  case delivered => exact h.delivered
  case unanswered => exact fun c hc hticket => h.held_iff hc hticket
  case active => exact h.active_add hn
  case asked => exact h.asked
  case named =>
    intro o ho
    obtain ⟨c, hc, hcontext⟩ := h.named o ho
    have hown : o ∈ c.requests := by
      rw [← h.asked c hc]
      exact List.mem_filter.mpr ⟨ho, by simp [hcontext]⟩
    exact ⟨c, hc, hown, Lookup.Lived.requests (h.lived c hc) o hown⟩
  case handed => exact (play_handed first calls).trans (List.nil_append _)
  case drained => exact play_pops d.1

section Walk

open Lookup (numbered pairTables)

/-- The first lookup asks a peer and waits, the second one knows nobody and ends at once, and the
third one ends with an answer. -/
def threeCalls : List (Call Nat) :=
  [.start 0 pairTables (.closest mainTable (numbered 2).id) 0,
    .start 1 (.new (numbered 1).id 2 2) (.value (numbered 3).id) 1,
    .start 2 pairTables (.value (numbered 3).id) 2, .pop,
    .respond 3 2 (numbered 3).id [] (.value (some [7]))]

def threeFirst : Dispatcher Nat := .new { k := 2, alpha := 1 }

def threeRun : Dispatcher Nat × Log Nat := threeFirst.play threeCalls

/-- One lookup of three is left, with its request taken from the queue. -/
theorem holds_just_the_unanswered_three :
    Keeping threeRun.1 threeRun.2 (threeFirst.register [] threeCalls)
      (threeFirst.emitted threeCalls) ∧
    threeRun.2.delivered.map Delivery.ticket = [1, 2] ∧ threeRun.1.active = 1 ∧
    threeRun.2.sent = [⟨0, numbered 2, .findNode 0 (numbered 2).id none⟩] ∧
    threeRun.1.outbound = [⟨2, numbered 3, .findValue 2 (numbered 3).id⟩] := by
  obtain ⟨hlength, hkeeping⟩ :=
    holds_just_the_unanswered (τ := Nat) { k := 2, alpha := 1 } threeCalls (by decide)
  have hgiven : threeRun.2.delivered.map Delivery.ticket = [1, 2] := by cbv
  refine ⟨hkeeping, hgiven, ?_, by cbv, by cbv⟩
  have htwo : threeRun.2.delivered.length = 2 := by
    have := congrArg List.length hgiven
    rwa [List.length_map] at this
  have hthree : (threeFirst.register [] threeCalls).length = 3 := hlength
  have hactive : threeRun.1.active + threeRun.2.delivered.length =
      (threeFirst.register [] threeCalls).length := hkeeping.active
  omega

end Walk

end Keeping

end Dispatcher

end Kademlia
