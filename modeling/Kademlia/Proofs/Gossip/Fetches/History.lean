import Kademlia.Proofs.Gossip.Fetches

/-!
Fetches against their history, which is made of what the calls have been answered. Main statement: a
broadcast is tracked, has a request in flight and has peers to ask just as its own history says.
-/

namespace Kademlia.Fetches

section Events

inductive Event where
  | opened (id : MessageId)
  | closed (id : MessageId)
  | offered (id : MessageId) (peer : Ident)
  | asked (id : MessageId) (peer : Ident)
  /-- The request of a peer for a broadcast has failed. -/
  | failed (id : MessageId) (peer : Ident)
  deriving DecidableEq, Repr

def Event.subject : Event → MessageId
  | .opened id => id
  | .closed id => id
  | .offered id _ => id
  | .asked id _ => id
  | .failed id _ => id

/-- Something has happened, and nothing since that would end it. Histories have what is latest
first. -/
def Since (starts ends : Event → Prop) (history : List Event) : Prop :=
  ∃ later event before, history = later ++ event :: before ∧ starts event ∧ ∀ e ∈ later, ¬ ends e

def Tracked (history : List Event) (id : MessageId) : Prop :=
  Since (· = .opened id) (· = .closed id) history

/-- The peer was asked for the broadcast, and the request has neither failed nor been dropped with
the whole fetch. -/
def InFlight (history : List Event) (id : MessageId) (peer : Ident) : Prop :=
  Since (· = .asked id peer) (fun e => e = .closed id ∨ ∃ p, e = .failed id p) history

/-- The peer has offered the broadcast since the tracking of it began that still goes on, and no
request of that peer for it has failed since. -/
def Offered (history : List Event) (id : MessageId) (peer : Ident) : Prop :=
  Since (· = .offered id peer)
    (fun e => e = .opened id ∨ e = .closed id ∨ e = .failed id peer) history

def lastAsked (history : List Event) (id : MessageId) : Option Ident :=
  history.findSome? fun
    | .asked i peer => if i = id then some peer else none
    | _ => none

/-- What a call brings about that is not refused. A request that fails is the one of the peer that
was asked most recently. -/
def Call.events (history : List Event) (expired : List ExpiredFetch) : Call → List Event
  | .startTracking _ id => [.opened id]
  | .stopTracking id => [.closed id]
  | .addProvider id peer => [.offered id peer]
  | .beginRequest _ id peer => [.asked id peer]
  | .failRequest id => (lastAsked history id).toList.map (.failed id)
  | .endRequest id => [.closed id]
  | .sweep _ => expired.map fun e => .closed e.id

def tell (f : Fetches) (history : List Event) (c : Call) : List Event :=
  match (f.perform c).1 with
  | .ok expired => c.events history expired ++ history
  | .error _ => history

def story (f : Fetches) (history : List Event) : List Call → List Event
  | [] => history
  | c :: calls => (f.perform c).2.story (f.tell history c) calls

variable {starts ends : Event → Prop} {history : List Event}

@[simp] theorem since_nil : ¬ Since starts ends [] := by
  rintro ⟨later, event, before, h, -⟩
  cases later <;> cases h

theorem since_cons (e : Event) :
    Since starts ends (e :: history) ↔ starts e ∨ ¬ ends e ∧ Since starts ends history := by
  constructor
  · rintro ⟨later, event, before, h, hs, he⟩
    cases later with
    | nil =>
      cases h
      exact Or.inl hs
    | cons x later =>
      cases h
      obtain ⟨hx, hrest⟩ := List.forall_mem_cons.mp he
      exact Or.inr ⟨hx, later, event, before, rfl, hs, hrest⟩
  · rintro (hs | ⟨he, later, event, before, rfl, hs, hl⟩)
    · exact ⟨[], e, history, rfl, hs, fun x hx => by cases hx⟩
    · exact ⟨e :: later, event, before, rfl, hs, List.forall_mem_cons.mpr ⟨he, hl⟩⟩

theorem tracked_cons (e : Event) (id : MessageId) :
    Tracked (e :: history) id ↔ e = .opened id ∨ e ≠ .closed id ∧ Tracked history id :=
  since_cons e

theorem inFlight_cons (e : Event) (id : MessageId) (peer : Ident) :
    InFlight (e :: history) id peer ↔ e = .asked id peer ∨
      ¬ (e = .closed id ∨ ∃ p, e = .failed id p) ∧ InFlight history id peer :=
  since_cons e

theorem offered_cons (e : Event) (id : MessageId) (peer : Ident) :
    Offered (e :: history) id peer ↔ e = .offered id peer ∨
      ¬ (e = .opened id ∨ e = .closed id ∨ e = .failed id peer) ∧ Offered history id peer :=
  since_cons e

theorem not_since {later before : List Event} {e : Event} (he : ends e) (hs : ¬ starts e)
    (hl : ∀ x ∈ later, ¬ starts x) : ¬ Since starts ends (later ++ e :: before) := by
  induction later with
  | nil => simp [since_cons, he, hs]
  | cons x later ih =>
    obtain ⟨hx, hrest⟩ := List.forall_mem_cons.mp hl
    simp [since_cons, hx, ih hrest]

end Events

section Accounts

variable {record : Option Fetch} {fetch : Fetch} {history : List Event} {id : MessageId}

/-- The record of a broadcast is as its history says. -/
structure Told (record : Option Fetch) (history : List Event) (id : MessageId) : Prop where
  tracked : record.isSome ↔ Tracked history id
  offers : ∀ peer, (∃ fetch, record = some fetch ∧ peer ∈ fetch.providers) ↔ Offered history id peer
  asks : ∀ peer, (∃ fetch, record = some fetch ∧
    ∃ request, fetch.request = some request ∧ request.peer = peer) ↔ InFlight history id peer
  last : ∀ fetch request, record = some fetch → fetch.request = some request →
    lastAsked history id = some request.peer

theorem told_nothing (id : MessageId) : Told none [] id := by
  constructor <;> simp [Tracked, Offered, InFlight]

theorem Told.foreign (h : Told record history id) {e : Event} (he : e.subject ≠ id) :
    Told record (e :: history) id := by
  have hopened : e ≠ .opened id := fun hx => he (congrArg Event.subject hx)
  have hclosed : e ≠ .closed id := fun hx => he (congrArg Event.subject hx)
  have hoffered : ∀ p, e ≠ .offered id p := fun p hx => he (congrArg Event.subject hx)
  have hasked : ∀ p, e ≠ .asked id p := fun p hx => he (congrArg Event.subject hx)
  have hfailed : ∀ p, e ≠ .failed id p := fun p hx => he (congrArg Event.subject hx)
  constructor
  case tracked => simp [tracked_cons, hopened, hclosed, h.tracked]
  case offers => simp [offered_cons, hoffered, hopened, hclosed, hfailed, h.offers]
  case asks => simp [inFlight_cons, hasked, hclosed, hfailed, h.asks]
  case last =>
    intro fetch request hr hq
    rw [← h.last fetch request hr hq]
    cases e with
    | asked i peer => simp [lastAsked, show i ≠ id from he]
    | opened i => rfl
    | closed i => rfl
    | offered i peer => rfl
    | failed i peer => rfl

theorem Told.foreigns (h : Told record history id) {events : List Event}
    (he : ∀ e ∈ events, e.subject ≠ id) : Told record (events ++ history) id := by
  induction events with
  | nil => exact h
  | cons e events ih =>
    obtain ⟨hfirst, hrest⟩ := List.forall_mem_cons.mp he
    exact (ih hrest).foreign hfirst

theorem Told.opened (h : Told none history id) (table : Ident) :
    Told (some { table }) (.opened id :: history) id := by
  constructor
  case tracked => simp [tracked_cons]
  case offers => simp [offered_cons]
  case asks => simp [inFlight_cons, ← h.asks]
  case last =>
    intro f request hf hq
    cases hf
    cases hq

theorem told_closed (history : List Event) (id : MessageId) :
    Told none (.closed id :: history) id := by
  constructor
  case tracked => simp [tracked_cons]
  case offers => simp [offered_cons]
  case asks => simp [inFlight_cons]
  case last => simp

/-- A peer that is noted already is not noted again, but has offered the broadcast anew. -/
theorem Told.offered (h : Told (some fetch) history id) (peer : Ident) :
    Told (some (offer peer fetch).2) (.offered id peer :: history) id := by
  have hproviders : ∀ p, p ∈ (offer peer fetch).2.providers ↔ p = peer ∨ p ∈ fetch.providers := by
    intro p
    by_cases hpeer : peer ∈ fetch.providers
    · simp only [offer, if_pos hpeer]
      exact ⟨Or.inr, fun hp => hp.elim (fun hp => hp ▸ hpeer) fun hp => hp⟩
    · simp [offer, hpeer, or_comm]
  constructor
  case tracked => simp [tracked_cons, ← h.tracked]
  case offers => simp [offered_cons, ← h.offers, hproviders, eq_comm]
  case asks => simp [inFlight_cons, ← h.asks, offer]
  case last =>
    intro f request hf hq
    cases hf
    exact h.last fetch request rfl hq

/-- Whoever is asked need not have offered the broadcast. -/
theorem Told.asked (h : Told (some fetch) history id) (hq : fetch.request = none) (now : Time)
    (peer : Ident) : Told (some (ask now id peer fetch).2) (.asked id peer :: history) id := by
  have hasked : (ask now id peer fetch).2 = { fetch with request := some ⟨peer, now⟩ } := by
    rw [ask, hq]
  rw [hasked]
  constructor
  case tracked => simp [tracked_cons, ← h.tracked]
  case offers => simp [offered_cons, ← h.offers]
  case asks => simp [inFlight_cons, ← h.asks, hq]
  case last =>
    intro f request hf hr
    cases hf
    cases hr
    simp [lastAsked]

theorem Told.failed (h : Told (some fetch) history id) {request : ContentRequest}
    (hq : fetch.request = some request) :
    Told (some (dismiss id fetch).2) (.failed id request.peer :: history) id := by
  have hdismissed : (dismiss id fetch).2 =
      { fetch with
        providers := fetch.providers.filter fun p => p ≠ request.peer
        request := none } := by
    rw [dismiss, hq]
  rw [hdismissed]
  constructor
  case tracked => simp [tracked_cons, ← h.tracked]
  case offers =>
    intro p
    simp [offered_cons, ← h.offers, and_comm, @eq_comm _ p]
  case asks => simp [inFlight_cons]
  case last =>
    intro f request hf hr
    cases hf
    cases hr

theorem Told.closings (h : Told record history id) (ids : List MessageId) :
    Told (if id ∈ ids then none else record) (ids.map .closed ++ history) id := by
  induction ids with
  | nil => exact h
  | cons i ids ih =>
    by_cases hi : i = id
    · subst hi
      rw [if_pos List.mem_cons_self]
      exact told_closed _ i
    · have hmem : id ∈ i :: ids ↔ id ∈ ids := by simp [Ne.symm hi]
      simp only [hmem]
      exact ih.foreign hi

end Accounts

section Runs

variable {f : Fetches} {history : List Event}

structure Agrees (f : Fetches) (history : List Event) : Prop where
  keys : f.fetches.keys.Nodup
  told : ∀ id, Told (f.fetches.get? id) history id

theorem new_agrees (timeout : Duration) : Agrees (new timeout) [] :=
  ⟨new_nodup timeout, told_nothing⟩

theorem change_ok {id : MessageId} {work : Fetch → Except Error Unit × Fetch}
    {expired : List ExpiredFetch} (h : (f.change id work).1 = .ok expired) :
    ∃ fetch, f.fetches.get? id = some fetch ∧ (work fetch).1 = .ok () := by
  unfold change at h
  split at h
  next => cases h
  next fetch hr =>
    refine ⟨fetch, hr, ?_⟩
    cases hw : (work fetch).1 with
    | ok => rfl
    | error e => simp [hw, Except.map] at h

theorem start_ok {table : Ident} {id : MessageId} {expired : List ExpiredFetch}
    (h : (f.perform (.startTracking table id)).1 = .ok expired) : f.fetches.get? id = none := by
  rw [← Option.not_isSome_iff_eq_none, ← isTracking_eq]
  intro ht
  simp [perform, ht] at h

theorem ask_ok {now : Time} {id : MessageId} {peer : Ident} {fetch : Fetch}
    (h : (ask now id peer fetch).1 = .ok ()) : fetch.request = none := by
  cases hq : fetch.request with
  | none => rfl
  | some request => simp [ask, hq] at h

theorem dismiss_ok {id : MessageId} {fetch : Fetch} (h : (dismiss id fetch).1 = .ok ()) :
    ∃ request, fetch.request = some request := by
  cases hq : fetch.request with
  | none => simp [dismiss, hq] at h
  | some request => exact ⟨request, rfl⟩

theorem map_id_sweep (f : Fetches) (now : Time) : (f.sweep now).1.map ExpiredFetch.id =
    (f.fetches.filter fun _ fetch => f.overdue now fetch).keys :=
  List.map_map

theorem mem_sweep (hn : f.fetches.keys.Nodup) (now : Time) (id : MessageId) :
    id ∈ (f.sweep now).1.map ExpiredFetch.id ↔
      ∃ fetch, f.fetches.get? id = some fetch ∧ f.overdue now fetch = true := by
  rw [map_id_sweep, Catalog.mem_keys_iff, Option.ne_none_iff_exists', Catalog.get?_filter hn]
  simp only [Option.filter_eq_some_iff]

theorem get?_sweep (hn : f.fetches.keys.Nodup) (now : Time) (id : MessageId) :
    (f.sweep now).2.fetches.get? id =
      if id ∈ (f.sweep now).1.map ExpiredFetch.id then none else f.fetches.get? id := by
  refine (Catalog.get?_filter hn _ id).trans ?_
  simp only [mem_sweep hn]
  cases f.fetches.get? id with
  | none => simp
  | some fetch =>
    cases ho : f.overdue now fetch with
    | false => simp [ho]
    | true => simp [ho]

theorem Agrees.told_sweep (h : Agrees f history) (now : Time) (id : MessageId) :
    Told ((f.sweep now).2.fetches.get? id)
      (((f.sweep now).1.map fun e => .closed e.id) ++ history) id := by
  have hevents : ((f.sweep now).1.map fun e => Event.closed e.id) =
      ((f.sweep now).1.map ExpiredFetch.id).map .closed := List.map_map.symm
  rw [get?_sweep h.keys, hevents]
  exact (h.told id).closings _

theorem subject_of_events {c : Call} {expired : List ExpiredFetch} {id : MessageId}
    (hs : c.subject? = some id) : ∀ e ∈ c.events history expired, e.subject = id := by
  intro e he
  cases c with
  | sweep now => cases hs
  | failRequest i =>
    obtain ⟨peer, -, rfl⟩ := List.mem_map.mp he
    exact Option.some.inj hs
  | _ =>
    cases List.mem_singleton.mp he
    exact Option.some.inj hs

theorem Agrees.told_own (h : Agrees f history) {c : Call} {id : MessageId}
    (hs : c.subject? = some id) {expired : List ExpiredFetch}
    (hok : (f.perform c).1 = .ok expired) :
    Told (c.onRecord f.timeout (f.fetches.get? id)) (c.events history expired ++ history) id := by
  have htold := h.told id
  cases c with
  | sweep now => cases hs
  | startTracking table i =>
    cases hs
    rw [start_ok hok] at htold ⊢
    exact htold.opened table
  | stopTracking i =>
    cases hs
    exact told_closed history id
  | addProvider i peer =>
    cases hs
    obtain ⟨fetch, hr, -⟩ := change_ok hok
    rw [hr] at htold ⊢
    exact htold.offered peer
  | beginRequest now i peer =>
    cases hs
    obtain ⟨fetch, hr, hw⟩ := change_ok hok
    rw [hr] at htold ⊢
    exact htold.asked (ask_ok hw) now peer
  | failRequest i =>
    cases hs
    obtain ⟨fetch, hr, hw⟩ := change_ok hok
    obtain ⟨request, hq⟩ := dismiss_ok hw
    rw [hr] at htold ⊢
    rw [Call.events, htold.last fetch request rfl hq]
    exact htold.failed hq
  | endRequest i =>
    cases hs
    exact told_closed history id

theorem Agrees.step (h : Agrees f history) (c : Call) :
    Agrees (f.perform c).2 (f.tell history c) := by
  refine ⟨perform_nodup h.keys c, fun id => ?_⟩
  cases hok : (f.perform c).1 with
  | error e =>
    rw [tell, hok, perform_refused h.keys hok]
    exact h.told id
  | ok expired =>
    rw [tell, hok]
    cases hs : c.subject? with
    | none =>
      cases c with
      | sweep now =>
        cases hok
        exact h.told_sweep now id
      | _ => cases hs
    | some i =>
      rw [get?_perform h.keys]
      by_cases hi : id = i
      · subst hi
        rw [if_pos ((concerns_iff hs id).mpr rfl)]
        exact h.told_own hs hok
      · rw [if_neg fun hc => hi ((concerns_iff hs id).mp hc)]
        exact (h.told id).foreigns fun e he hid => hi (hid ▸ subject_of_events hs e he)

theorem Agrees.run (h : Agrees f history) (calls : List Call) :
    Agrees (f.run calls) (f.story history calls) := by
  induction calls generalizing f history with
  | nil => exact h
  | cons c calls ih => exact ih (h.step c)

end Runs

section Reading

variable {f : Fetches} {history : List Event}

theorem startTracking_ok (f : Fetches) (table : Ident) (id : MessageId) :
    (∃ g, f.startTracking table id = .ok g) ↔ ¬ f.isTracking id = true := by
  by_cases ht : f.isTracking id
  · simp [startTracking, ht]
  · simp [startTracking, ht]

theorem beginRequest_ok (f : Fetches) (now : Time) (id : MessageId) (peer : Ident) :
    (∃ g, f.beginRequest now id peer = .ok g) ↔
      f.isTracking id = true ∧ ¬ f.isRequesting id = true := by
  rw [beginRequest, isTracking_eq, isRequesting]
  cases hr : f.fetches.get? id with
  | none => simp [get_absent hr, bind, Except.bind]
  | some fetch =>
    cases hq : fetch.request with
    | none => simp [get_present hr, bind, Except.bind, hq, pure, Except.pure]
    | some request => simp [get_present hr, bind, Except.bind, hq]

theorem failRequest_ok (f : Fetches) (id : MessageId) :
    (∃ g, f.failRequest id = .ok g) ↔ f.isTracking id = true ∧ f.isRequesting id = true := by
  rw [failRequest, isTracking_eq, isRequesting]
  cases hr : f.fetches.get? id with
  | none => simp [get_absent hr, bind, Except.bind]
  | some fetch =>
    cases hq : fetch.request with
    | none => simp [get_present hr, bind, Except.bind, hq]
    | some request => simp [get_present hr, bind, Except.bind, hq, pure, Except.pure]

theorem Agrees.isRequesting_iff (h : Agrees f history) (id : MessageId) :
    f.isRequesting id = true ↔ ∃ peer, InFlight history id peer := by
  simp only [← (h.told id).asks]
  cases hr : f.fetches.get? id with
  | none => simp [isRequesting, hr]
  | some fetch => simp [isRequesting, hr, Option.isSome_iff_exists]

theorem Agrees.offers_iff (h : Agrees f history) {id : MessageId} {fetch : Fetch}
    (hg : f.get id = .ok fetch) (peer : Ident) :
    peer ∈ fetch.providers ↔ Offered history id peer := by
  have hr : f.fetches.get? id = some fetch := by
    cases hr : f.fetches.get? id with
    | none => simp [get_absent hr] at hg
    | some fetch => simpa [get_present hr] using hg
  simp [← (h.told id).offers, hr]

theorem Agrees.provider_told (h : Agrees f history) (id : MessageId) :
    match f.provider id with
    | .ok (some peer) => Offered history id peer
    | .ok none => ∀ peer, ¬ Offered history id peer
    | .error _ => ¬ Tracked history id := by
  cases hr : f.fetches.get? id with
  | none =>
    simp [provider, get_absent hr, bind, Except.bind, ← (h.told id).tracked, hr]
  | some fetch =>
    have hoffers := h.offers_iff (get_present hr)
    simp only [provider, get_present hr, bind, Except.bind, pure, Except.pure]
    cases hp : fetch.providers with
    | nil => simpa [hp] using hoffers
    | cons peer rest => exact (hoffers peer).mp (by simp [hp])

/-- Take any run. No call that is refused changes anything, though some write before they check. A
broadcast is tracked and has a request in flight as its history says; a tracking starts just when
there is none, a request just for a broadcast that is tracked and has none in flight, and only a
request in flight can fail. Whoever may be asked next has offered the broadcast since, with no
request failed after that; if nobody is left, nobody has. What is stored about a broadcast is what
it would be without the calls about others. -/
theorem follows_own_history (timeout : Duration) (calls : List Call) :
    let f := (new timeout).run calls
    let history := (new timeout).story [] calls
    (∀ c, f.perform c = f.settled (f.answer c)) ∧
    (∀ c e, (f.perform c).1 = .error e → (f.perform c).2 = f) ∧
    ∀ id,
      (f.isTracking id = true ↔ Tracked history id) ∧
      (f.isRequesting id = true ↔ ∃ peer, InFlight history id peer) ∧
      (∀ table, (∃ g, f.startTracking table id = .ok g) ↔ ¬ Tracked history id) ∧
      (∀ now peer, (∃ g, f.beginRequest now id peer = .ok g) ↔
        Tracked history id ∧ ¬ ∃ p, InFlight history id p) ∧
      ((∃ g, f.failRequest id = .ok g) ↔ Tracked history id ∧ ∃ p, InFlight history id p) ∧
      (match f.provider id with
        | .ok (some peer) => Offered history id peer
        | .ok none => ∀ peer, ¬ Offered history id peer
        | .error _ => ¬ Tracked history id) ∧
      (∀ fetch, f.get id = .ok fetch →
        ∀ peer, peer ∈ fetch.providers ↔ Offered history id peer) ∧
      (∀ later before peer, history = later ++ .failed id peer :: before →
        .offered id peer ∉ later → f.provider id ≠ .ok (some peer)) ∧
      f.fetches.get? id = ((new timeout).run (calls.filter (Call.concerns id))).fetches.get? id := by
  intro f history
  have h : Agrees f history := (new_agrees timeout).run calls
  refine ⟨perform_eq h.keys, fun c e he => perform_refused h.keys he, fun id => ?_⟩
  have htracked : f.isTracking id = true ↔ Tracked history id := (h.told id).tracked
  have hflight := h.isRequesting_iff id
  have hprovider := h.provider_told id
  refine ⟨htracked, hflight, ?_, ?_, ?_, hprovider, fun fetch hg => h.offers_iff hg, ?_, ?_⟩
  · exact fun table => (startTracking_ok f table id).trans (not_congr htracked)
  · exact fun now peer => (beginRequest_ok f now id peer).trans
      (and_congr htracked (not_congr hflight))
  · exact (failRequest_ok f id).trans (and_congr htracked hflight)
  · intro later before peer hsplit hlater hnext
    rw [hnext] at hprovider
    have hsilent : ∀ x ∈ later, x ≠ .offered id peer := fun x hx hoffer => hlater (hoffer ▸ hx)
    have hgone : ¬ Offered (later ++ .failed id peer :: before) id peer :=
      not_since (by simp) (by simp) hsilent
    exact hgone (hsplit ▸ hprovider)
  · exact (get?_run_filter (new_nodup timeout) calls id).symm

/-- A peer offers a broadcast once more while it is being asked for it, and then fails. -/
def retried : List Call :=
  [.startTracking ⟨0⟩ ⟨1⟩, .addProvider ⟨1⟩ ⟨1⟩, .addProvider ⟨1⟩ ⟨2⟩, .beginRequest 3 ⟨1⟩ ⟨1⟩,
    .addProvider ⟨1⟩ ⟨1⟩, .failRequest ⟨1⟩]

/-- The other one is asked next. -/
theorem follows_own_history_retried :
    let f := (new 6).run retried
    let history := (new 6).story [] retried
    f.provider ⟨1⟩ = .ok (some ⟨2⟩) ∧ Offered history ⟨1⟩ ⟨2⟩ ∧ ¬ Offered history ⟨1⟩ ⟨1⟩ := by
  intro f history
  obtain ⟨-, -, h⟩ := follows_own_history 6 retried
  obtain ⟨-, -, -, -, -, -, hoffers, -⟩ := h ⟨1⟩
  have hg : f.get ⟨1⟩ = .ok { table := ⟨0⟩, providers := [⟨2⟩] } := rfl
  exact ⟨rfl, (hoffers _ hg ⟨2⟩).mp (by decide), fun ho => absurd ((hoffers _ hg ⟨1⟩).mpr ho)
    (by decide)⟩

end Reading

end Kademlia.Fetches
