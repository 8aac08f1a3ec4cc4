import Kademlia.Proofs.Lookup.Selection

/-!
For whom a lookup waits. It waits for a peer from the step that sends the peer a request until a
call ends this. Main statement: exactly those are waited for after a call that were before without
being ended by it, and those to whom it sends a request.
-/

namespace Kademlia.Lookup

def Waits (l : Lookup) (id : Ident) : Prop :=
  l.finished = false ∧ l.frontier.progress? id = some .inProgress

/-- What ends the wait for a peer: a response or an error of this peer, a response that completes
the content, or a sweep for which the request is overdue. -/
def Ends (l : Lookup) (id : Ident) : Call → Prop
  | .respond now sender peers content =>
    sender = id ∨ l.Completes (.respond now sender peers content)
  | .giveUp _ peer => peer = id
  | .sweep now => id ∈ l.overdue now

variable {l : Lookup}

theorem Exhausted.progress?_ne (hx : l.Exhausted) (h : l.Coherent) (id : Ident) :
    l.frontier.progress? id ≠ some .inProgress := by
  intro hp
  have hid := (h.active_iff id).mpr hp
  have hnone := h.inFlight_eq
  rw [hx.1] at hnone
  rw [List.length_eq_zero_iff.mp hnone.symm] at hid
  simp at hid

theorem pump_waits (h : l.Coherent) (hf : l.finished = false) (now : Time) (id : Ident) :
    (l.pump now).1.Waits id ↔ l.frontier.progress? id = some .inProgress ∨
      id ∈ recipients (l.pump now).2.requests := by
  rw [← (pump_sends h hf now).1.waits id, Waits, and_iff_right_iff_imp]
  intro hp
  have hcoherent := (pump_steady h now).coherent
  cases hd : (l.pump now).1.finished with
  | false => rfl
  | true => exact absurd hp ((pump_endsExhausted h hf now hd).progress?_ne hcoherent id)

theorem failed_waits (h : l.Coherent) (hf : l.finished = false) (now : Time) (peer id : Ident) :
    ((l.settle peer .failed).pump now).1.Waits id ↔
      l.Waits id ∧ peer ≠ id ∨ id ∈ recipients ((l.settle peer .failed).pump now).2.requests := by
  have hk : (l.settle peer .failed).Coherent := settle_coherent h peer (by simp)
  rw [pump_waits hk hf, settle_waits h .failed (by simp), Waits, ne_comm]
  simp [hf]

theorem giveUp_waits (h : l.Coherent) (now : Time) (peer id : Ident) :
    (l.giveUp now peer).1.Waits id ↔
      l.Waits id ∧ peer ≠ id ∨ id ∈ recipients (l.giveUp now peer).2.requests := by
  rcases l.giveUp_cases now peer with he | ⟨hf, -, he⟩
  · have hne : l.Waits id → peer ≠ id := by
      rintro hw rfl
      have hp := giveUp_progress h hw.1 now hw.2
      rw [he, hw.2] at hp
      cases hp
    rw [he]
    simpa [recipients] using hne
  · rw [he]
    exact failed_waits h hf now peer id

theorem giveUpAll_waits (h : l.Steady) (now : Time) {ids : List Ident}
    (hids : ∀ id ∈ ids, l.HasAsked id) (id : Ident) :
    (giveUpAll now ids l).1.Waits id ↔
      l.Waits id ∧ id ∉ ids ∨ id ∈ recipients (giveUpAll now ids l).2.requests := by
  induction ids generalizing l with
  | nil => simp [giveUpAll, recipients]
  | cons first ids ih =>
    have hfirst := asksOnce_compositional.giveUp h now first
    -- whom the first failure lets the lookup ask is not among the rest, who have been asked
    have hnew : id ∈ recipients (l.giveUp now first).2.requests → id ∉ ids := fun hid hm =>
      hfirst.unasked id hid (hids id (List.mem_cons_of_mem _ hm))
    have hr : recipients (giveUpAll now (first :: ids) l).2.requests =
        recipients (l.giveUp now first).2.requests ++
          recipients (giveUpAll now ids (l.giveUp now first).1).2.requests :=
      recipients_append ..
    refine (ih (giveUp_steady h now first).1 fun other ho =>
      hfirst.keeps other (hids other (List.mem_cons_of_mem _ ho))).trans ?_
    rw [giveUp_waits h.coherent, hr, List.mem_append, List.mem_cons, not_or, ne_comm]
    tauto

theorem sweep_waits (h : l.Steady) (now : Time) (id : Ident) :
    (l.sweep now).1.Waits id ↔
      l.Waits id ∧ id ∉ l.overdue now ∨ id ∈ recipients (l.sweep now).2.requests := by
  cases hf : l.finished with
  | true => simp [sweep, hf, Waits, recipients]
  | false =>
    have hs : l.sweep now = giveUpAll now (l.overdue now) l := by simp [sweep, hf]
    rw [hs]
    exact giveUpAll_waits h now (overdue_hasAsked h.coherent now) id

theorem answered_waits (h : l.Steady) {sender : Ident} (hw : l.Awaits sender) (now : Time)
    (peers : List Peer) (content : Content) (id : Ident) :
    (l.answered now sender peers content).1.Waits id ↔
      l.Waits id ∧ ¬ (sender = id ∨ (takeIn sender l.pursuit content).2 = true) ∨
        id ∈ recipients (l.answered now sender peers content).2.requests := by
  have hf : (l.taken sender peers content).finished = false := by rw [taken_finished, hw.1]
  unfold answered
  split
  next hc => simp [hc, finish, Waits, recipients]
  next hc =>
    have hk := taken_coherent h.coherent sender peers content
    rw [pump_waits hk hf, taken_waits h.coherent, Waits, not_or, ne_comm]
    simp [hw.1, hc]

theorem completes_iff (hd : Distinct l.pursuit) (now : Time) (sender : Ident) (peers : List Peer)
    (content : Content) : l.Completes (.respond now sender peers content) ↔
      l.Awaits sender ∧ (takeIn sender l.pursuit content).2 = true := by
  rw [takeIn_complete_iff hd, Completes]
  constructor
  · rintro ⟨hf, ⟨r, hr⟩, hc⟩
    refine ⟨?_, hc⟩
    by_contra hw
    rw [respond_refused hf hw] at hr
    cases hr
  · rintro ⟨hw, hc⟩
    exact ⟨hw.1, ⟨_, respond_awaited hw now peers content⟩, hc⟩

/-- After a call a lookup waits for those for whom it has waited, unless the call ends this, and for
those to whom it sends a request. -/
theorem step_waits (h : l.Steady) (hd : Distinct l.pursuit) (c : Call) (id : Ident) :
    (l.step c).1.Waits id ↔
      l.Waits id ∧ ¬ l.Ends id c ∨ id ∈ recipients (l.step c).2.requests := by
  cases c with
  | giveUp now peer => exact giveUp_waits h.coherent now peer id
  | sweep now => exact sweep_waits h now id
  | respond now sender peers content =>
    have hcompletes := completes_iff hd now sender peers content
    rcases l.respond_step now sender peers content with ⟨hw, hr, -⟩ | ⟨hw, hr, -⟩
    · rw [hr, Ends, hcompletes, and_iff_right hw]
      exact answered_waits h hw now peers content id
    · have hne : l.Waits id → sender ≠ id := by
        rintro ⟨hf, hp⟩ rfl
        exact hw ⟨hf, Or.inl hp⟩
      rw [hr, Ends, hcompletes]
      simpa [recipients, hw] using hne

end Kademlia.Lookup
