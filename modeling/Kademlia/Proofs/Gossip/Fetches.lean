import Kademlia.Gossip.Fetches
import Kademlia.Proofs.Catalog

/-!
The calls that change fetches, as they are made in place, where some write before they check. Main
statements: a call that is refused leaves everything as it was all the same, and what is stored about
a broadcast is what the calls about it have made of it, however those about others lie between.
-/

namespace Kademlia.Fetches

section Calls

inductive Call where
  | startTracking (table : Ident) (id : MessageId)
  | stopTracking (id : MessageId)
  | addProvider (id : MessageId) (peer : Ident)
  | beginRequest (now : Time) (id : MessageId) (peer : Ident)
  | failRequest (id : MessageId)
  | endRequest (id : MessageId)
  | sweep (now : Time)
  deriving DecidableEq, Repr

/-- The broadcast that a call is about. A sweep goes through all of them. -/
def Call.subject? : Call → Option MessageId
  | .startTracking _ id => some id
  | .stopTracking id => some id
  | .addProvider id _ => some id
  | .beginRequest _ id _ => some id
  | .failRequest id => some id
  | .endRequest id => some id
  | .sweep _ => none

def Call.concerns (id : MessageId) (c : Call) : Bool := c.subject?.all fun i => id = i

/-- What a call is answered, with what has expired and the fetches that are left. -/
def answer (f : Fetches) : Call → Except Error (List ExpiredFetch × Fetches)
  | .startTracking table id => (f.startTracking table id).map ([], ·)
  | .stopTracking id => (f.stopTracking id).map ([], ·)
  | .addProvider id peer => (f.addProvider id peer).map ([], ·)
  | .beginRequest now id peer => (f.beginRequest now id peer).map ([], ·)
  | .failRequest id => (f.failRequest id).map ([], ·)
  | .endRequest id => .ok ([], f.forget id)
  | .sweep now => .ok (f.sweep now)

/-- Works on the record of a broadcast where it is stored. What is written there stays, whatever the
answer is. -/
def change (f : Fetches) (id : MessageId) (work : Fetch → Except Error Unit × Fetch) :
    Except Error (List ExpiredFetch) × Fetches :=
  match f.fetches.get? id with
  | none => (.error (.notTracking id), f)
  | some fetch => ((work fetch).1.map fun _ => [], f.set id (work fetch).2)

def offer (peer : Ident) (fetch : Fetch) : Except Error Unit × Fetch :=
  (.ok (), { fetch with
    providers := if peer ∈ fetch.providers then fetch.providers else fetch.providers ++ [peer] })

def ask (now : Time) (id : MessageId) (peer : Ident) (fetch : Fetch) : Except Error Unit × Fetch :=
  match fetch.request with
  | some _ => (.error (.requestInFlight id), fetch)
  | none => (.ok (), { fetch with request := some ⟨peer, now⟩ })

/-- Takes the request away, whether or not there is one, and the one who was asked with it. -/
def dismiss (id : MessageId) (fetch : Fetch) : Except Error Unit × Fetch :=
  let taken := { fetch with request := none }
  match fetch.request with
  | none => (.error (.noActiveRequest id), taken)
  | some request =>
    (.ok (), { taken with providers := taken.providers.filter fun p => p ≠ request.peer })

/-- A call as it is made in place: a broadcast is forgotten before it is known to have been tracked,
and a request is taken away before it is known to be there. -/
def perform (f : Fetches) : Call → Except Error (List ExpiredFetch) × Fetches
  | .startTracking table id =>
    if f.isTracking id then (.error (.alreadyTracking id), f) else (.ok [], f.set id { table })
  | .stopTracking id =>
    (if f.isTracking id then .ok [] else .error (.notTracking id), f.forget id)
  | .addProvider id peer => f.change id (offer peer)
  | .beginRequest now id peer => f.change id (ask now id peer)
  | .failRequest id => f.change id (dismiss id)
  | .endRequest id => (.ok [], f.forget id)
  | .sweep now => (.ok (f.sweep now).1, (f.sweep now).2)

/-- An answer with what is left: after a refusal that is what was there before. -/
def settled (f : Fetches) : Except Error (List ExpiredFetch × Fetches) →
    Except Error (List ExpiredFetch) × Fetches
  | .ok (expired, g) => (.ok expired, g)
  | .error e => (.error e, f)

def run (f : Fetches) (calls : List Call) : Fetches := calls.foldl (fun f c => (f.perform c).2) f

end Calls

section Refusals

variable {f : Fetches}

theorem isTracking_eq (f : Fetches) (id : MessageId) :
    f.isTracking id = (f.fetches.get? id).isSome := rfl

theorem set_same (hn : f.fetches.keys.Nodup) {id : MessageId} {fetch : Fetch}
    (h : f.fetches.get? id = some fetch) : f.set id fetch = f := by
  rw [set, Catalog.put_same hn h]

theorem forget_absent {id : MessageId} (h : f.fetches.get? id = none) : f.forget id = f := by
  rw [forget, Catalog.erase_of_absent h]

theorem get_absent {id : MessageId} (h : f.fetches.get? id = none) :
    f.get id = .error (.notTracking id) := by
  rw [get, h]

theorem get_present {id : MessageId} {fetch : Fetch} (h : f.fetches.get? id = some fetch) :
    f.get id = .ok fetch := by
  rw [get, h]

/-- Working on a record in place comes to the same as taking it out and putting another one back,
if it does so for a record that is there. -/
theorem change_eq {id : MessageId} {work : Fetch → Except Error Unit × Fetch}
    {next : Fetch → Except Error Fetches}
    (h : ∀ fetch, f.fetches.get? id = some fetch →
      ((work fetch).1.map fun _ => [], f.set id (work fetch).2) =
        f.settled ((next fetch).map ([], ·))) :
    f.change id work = f.settled ((f.get id >>= next).map ([], ·)) := by
  cases hr : f.fetches.get? id with
  | none =>
    rw [change, hr, get_absent hr]
    rfl
  | some fetch =>
    rw [change, hr, get_present hr]
    exact h fetch hr

/-- In place a call does what it is answered, and nothing if it is refused. -/
theorem perform_eq (hn : f.fetches.keys.Nodup) (c : Call) :
    f.perform c = f.settled (f.answer c) := by
  cases c with
  | startTracking table id =>
    simp only [perform, answer, startTracking]
    by_cases ht : f.isTracking id
    · rw [if_pos ht, if_pos ht]
      rfl
    · rw [if_neg ht, if_neg ht]
      rfl
  | stopTracking id =>
    simp only [perform, answer, stopTracking]
    cases hr : f.fetches.get? id with
    | none =>
      rw [isTracking_eq, hr, get_absent hr, forget_absent hr]
      rfl
    | some fetch =>
      rw [isTracking_eq, hr, get_present hr]
      rfl
  | addProvider id peer => exact change_eq fun _ _ => rfl
  | beginRequest now id peer =>
    refine change_eq fun fetch hr => ?_
    rw [ask]
    cases fetch.request with
    | none => rfl
    | some request => exact congrArg _ (set_same hn hr)
  | failRequest id =>
    refine change_eq fun fetch hr => ?_
    rw [dismiss]
    cases hq : fetch.request with
    | none =>
      -- there was nothing to take away
      have htaken : ({ fetch with request := none } : Fetch) = fetch := by rw [← hq]
      exact congrArg _ ((congrArg (f.set id) htaken).trans (set_same hn hr))
    | some request => rfl
  | endRequest id => rfl
  | sweep now => rfl

theorem perform_refused (hn : f.fetches.keys.Nodup) {c : Call} {e : Error}
    (h : (f.perform c).1 = .error e) : (f.perform c).2 = f := by
  rw [perform_eq hn] at h ⊢
  cases hr : f.answer c with
  | ok r => simp [hr, settled] at h
  | error e => rfl

end Refusals

section Records

variable {f : Fetches}

def Call.onRecord (timeout : Duration) : Call → Option Fetch → Option Fetch
  | .startTracking table _, record => some (record.getD { table })
  | .stopTracking _, _ => none
  | .addProvider _ peer, record => record.map fun fetch => (offer peer fetch).2
  | .beginRequest now id peer, record => record.map fun fetch => (ask now id peer fetch).2
  | .failRequest id, record => record.map fun fetch => (dismiss id fetch).2
  | .endRequest _, _ => none
  | .sweep now, record => record.filter fun fetch => !(new timeout).overdue now fetch

theorem new_nodup (timeout : Duration) : (new timeout).fetches.keys.Nodup := List.nodup_nil

theorem change_nodup (hn : f.fetches.keys.Nodup) (id : MessageId)
    (work : Fetch → Except Error Unit × Fetch) : (f.change id work).2.fetches.keys.Nodup := by
  unfold change
  split
  · exact hn
  · exact Catalog.put_nodup hn _ _

theorem perform_nodup (hn : f.fetches.keys.Nodup) (c : Call) :
    (f.perform c).2.fetches.keys.Nodup := by
  cases c with
  | startTracking table id =>
    rw [perform]
    split
    · exact hn
    · exact Catalog.put_nodup hn _ _
  | stopTracking id => exact Catalog.erase_nodup hn id
  | addProvider id peer => exact change_nodup hn id _
  | beginRequest now id peer => exact change_nodup hn id _
  | failRequest id => exact change_nodup hn id _
  | endRequest id => exact Catalog.erase_nodup hn id
  | sweep now => exact Catalog.filter_nodup hn _

theorem change_timeout (f : Fetches) (id : MessageId) (work : Fetch → Except Error Unit × Fetch) :
    (f.change id work).2.timeout = f.timeout := by
  unfold change
  split
  · rfl
  · rfl

theorem perform_timeout (f : Fetches) (c : Call) : (f.perform c).2.timeout = f.timeout := by
  cases c with
  | startTracking table id =>
    rw [perform]
    split
    · rfl
    · rfl
  | stopTracking id => rfl
  | addProvider id peer => exact change_timeout ..
  | beginRequest now id peer => exact change_timeout ..
  | failRequest id => exact change_timeout ..
  | endRequest id => rfl
  | sweep now => rfl

theorem get?_change (f : Fetches) (id other : MessageId)
    (work : Fetch → Except Error Unit × Fetch) :
    (f.change id work).2.fetches.get? other =
      if other = id then (f.fetches.get? other).map fun fetch => (work fetch).2
      else f.fetches.get? other := by
  unfold change
  split
  next hr =>
    split
    next ho => rw [ho, hr]; rfl
    next => rfl
  next fetch hr =>
    refine (Catalog.get?_put ..).trans ?_
    split
    next ho => rw [ho, hr]; rfl
    next => rfl

theorem get?_start (f : Fetches) (table : Ident) (id other : MessageId) :
    (f.perform (.startTracking table id)).2.fetches.get? other =
      if other = id then some ((f.fetches.get? other).getD { table })
      else f.fetches.get? other := by
  rw [perform]
  by_cases ht : f.isTracking id
  · rw [if_pos ht]
    obtain ⟨fetch, hr⟩ := Option.isSome_iff_exists.mp ht
    split
    next ho => rw [ho, hr]; rfl
    next => rfl
  · rw [if_neg ht]
    have hr : f.fetches.get? id = none := by simpa [isTracking_eq] using ht
    refine (Catalog.get?_put ..).trans ?_
    split
    next ho => rw [ho, hr]; rfl
    next => rfl

theorem concerns_iff {c : Call} {id : MessageId} (hs : c.subject? = some id) (other : MessageId) :
    c.concerns other = true ↔ other = id := by
  simp [Call.concerns, hs]

theorem get?_perform (hn : f.fetches.keys.Nodup) (c : Call) (id : MessageId) :
    (f.perform c).2.fetches.get? id =
      if c.concerns id then c.onRecord f.timeout (f.fetches.get? id) else f.fetches.get? id := by
  have hone : ∀ {c : Call} {i : MessageId}, c.subject? = some i →
      (f.perform c).2.fetches.get? id =
        (if id = i then c.onRecord f.timeout (f.fetches.get? id) else f.fetches.get? id) →
      (f.perform c).2.fetches.get? id =
        if c.concerns id then c.onRecord f.timeout (f.fetches.get? id) else f.fetches.get? id :=
    fun hs h => by simpa only [concerns_iff hs] using h
  cases c with
  | startTracking table i => exact hone rfl (get?_start f table i id)
  | stopTracking i => exact hone rfl (Catalog.get?_erase ..)
  | addProvider i peer => exact hone rfl (get?_change ..)
  | beginRequest now i peer => exact hone rfl (get?_change ..)
  | failRequest i => exact hone rfl (get?_change ..)
  | endRequest i => exact hone rfl (Catalog.get?_erase ..)
  | sweep now => exact Catalog.get?_filter hn _ id

theorem get?_run (hn : f.fetches.keys.Nodup) (calls : List Call) (id : MessageId) :
    (f.run calls).fetches.get? id = (calls.filter (Call.concerns id)).foldl
      (fun record c => c.onRecord f.timeout record) (f.fetches.get? id) := by
  induction calls generalizing f with
  | nil => rfl
  | cons c calls ih =>
    have hrest := ih (perform_nodup hn c)
    rw [perform_timeout, get?_perform hn] at hrest
    refine hrest.trans ?_
    by_cases hc : c.concerns id
    · rw [if_pos hc, List.filter_cons_of_pos hc, List.foldl_cons]
    · rw [if_neg hc, List.filter_cons_of_neg hc]

theorem get?_run_filter (hn : f.fetches.keys.Nodup) (calls : List Call) (id : MessageId) :
    (f.run (calls.filter (Call.concerns id))).fetches.get? id =
      (f.run calls).fetches.get? id := by
  simp only [get?_run hn, List.filter_filter, Bool.and_self]

end Records

end Kademlia.Fetches
