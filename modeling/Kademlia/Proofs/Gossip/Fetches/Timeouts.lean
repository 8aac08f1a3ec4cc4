import Mathlib.Data.List.Induction
import Kademlia.Proofs.Gossip.Fetches.History
import Kademlia.Proofs.Lasting

/-!
Fetches against the log of all calls with their answers. Main statement: a sweep reports just the
fetches whose request has been in flight for too long, each once, and over a whole run a request is
reported at most once and never when something else has ended it before.
-/

namespace Kademlia.Fetches

section Log

structure Entry where
  call : Call
  answer : Except Error (List ExpiredFetch)
  deriving DecidableEq, Repr

def entry (f : Fetches) (c : Call) : Entry := ⟨c, (f.perform c).1⟩

def log (f : Fetches) : List Call → List Entry
  | [] => []
  | c :: calls => f.entry c :: (f.perform c).2.log calls

def Entry.Grants (c : Call) (e : Entry) : Prop := e.call = c ∧ ∃ expired, e.answer = .ok expired

def Entry.Reports (id : MessageId) (e : Entry) : Prop :=
  ∃ expired, e.answer = .ok expired ∧ id ∈ expired.map ExpiredFetch.id

def Entry.Opens (table : Ident) (id : MessageId) (e : Entry) : Prop :=
  e.Grants (.startTracking table id)

def Entry.Closes (id : MessageId) (e : Entry) : Prop :=
  e.Grants (.stopTracking id) ∨ e.Grants (.endRequest id) ∨ e.Reports id

def Entry.Begins (id : MessageId) (request : ContentRequest) (e : Entry) : Prop :=
  e.Grants (.beginRequest request.start id request.peer)

/-- A request ends as failed, or with the whole fetch. -/
def Entry.Ends (id : MessageId) (e : Entry) : Prop :=
  e.Grants (.failRequest id) ∨ e.Closes id

variable {f : Fetches} {calls : List Call} {e : Entry} {expired : List ExpiredFetch}

theorem grants_iff (h : e.answer = .ok expired) (c : Call) : e.Grants c ↔ e.call = c := by
  simp [Entry.Grants, h]

theorem reports_iff (h : e.answer = .ok expired) (id : MessageId) :
    e.Reports id ↔ id ∈ expired.map ExpiredFetch.id := by
  simp [Entry.Reports, h]

theorem run_concat (f : Fetches) (calls : List Call) (c : Call) :
    f.run (calls ++ [c]) = ((f.run calls).perform c).2 := by
  rw [run, List.foldl_append]
  rfl

theorem log_concat (f : Fetches) (calls : List Call) (c : Call) :
    f.log (calls ++ [c]) = f.log calls ++ [(f.run calls).entry c] := by
  induction calls generalizing f with
  | nil => rfl
  | cons first calls ih => exact congrArg (f.entry first :: ·) (ih (f.perform first).2)

theorem log_take (f : Fetches) (calls : List Call) (j : Nat) :
    (f.log calls).take j = f.log (calls.take j) := by
  induction calls generalizing f j with
  | nil => simp [log]
  | cons c calls ih =>
    cases j with
    | zero => rfl
    | succ j => exact congrArg (f.entry c :: ·) (ih (f.perform c).2 j)

theorem entry_of_log {j : Nat} (h : (f.log calls)[j]? = some e) :
    ∃ c, calls[j]? = some c ∧ e = (f.run (calls.take j)).entry c := by
  induction calls generalizing f j with
  | nil => simp [log] at h
  | cons c calls ih =>
    cases j with
    | zero => exact ⟨c, rfl, (Option.some.inj h).symm⟩
    | succ j => exact ih h

end Log

section Turns

variable {f : Fetches} {old new : Option Fetch} {id : MessageId} {e : Entry}
variable {expired : List ExpiredFetch}

/-- The table and the request of a fetch are what the entry has set, or what they were before if it
has not ended them. -/
structure Turns (old new : Option Fetch) (e : Entry) (id : MessageId) : Prop where
  table : ∀ table, new.map Fetch.table = some table ↔
    e.Opens table id ∨ (old.map Fetch.table = some table ∧ ¬ e.Closes id)
  request : ∀ request, new.bind Fetch.request = some request ↔
    e.Begins id request ∨ (old.bind Fetch.request = some request ∧ ¬ e.Ends id)

theorem expired_of_change {work : Fetch → Except Error Unit × Fetch}
    (h : (f.change id work).1 = .ok expired) : expired = [] := by
  unfold change at h
  split at h
  next => cases h
  next fetch hr =>
    cases hw : (work fetch).1 with
    | ok => simpa [hw, Except.map, eq_comm] using h
    | error error => simp [hw, Except.map] at h

theorem expired_of_perform {c : Call} (hs : c.subject? = some id)
    (h : (f.perform c).1 = .ok expired) : expired = [] := by
  cases c with
  | startTracking table i =>
    rw [perform] at h
    split at h
    · cases h
    · cases h
      rfl
  | stopTracking i =>
    rw [perform] at h
    split at h
    · cases h
      rfl
    · cases h
  | addProvider i peer => exact expired_of_change h
  | beginRequest now i peer => exact expired_of_change h
  | failRequest i => exact expired_of_change h
  | endRequest i =>
    cases h
    rfl
  | sweep now => cases hs

theorem turns_refused {error : Error} (h : e.answer = .error error) (record : Option Fetch) :
    Turns record record e id := by
  constructor
  case table => simp [Entry.Opens, Entry.Closes, Entry.Grants, Entry.Reports, h]
  case request => simp [Entry.Begins, Entry.Ends, Entry.Closes, Entry.Grants, Entry.Reports, h]

theorem turns_of_ok {c : Call} (h : (f.perform c).1 = .ok expired)
    (htable : ∀ table, new.map Fetch.table = some table ↔ c = .startTracking table id ∨
      (old.map Fetch.table = some table ∧
        ¬ (c = .stopTracking id ∨ c = .endRequest id ∨ id ∈ expired.map ExpiredFetch.id)))
    (hrequest : ∀ request, new.bind Fetch.request = some request ↔
      c = .beginRequest request.start id request.peer ∨
      (old.bind Fetch.request = some request ∧
        ¬ (c = .failRequest id ∨ c = .stopTracking id ∨ c = .endRequest id ∨
          id ∈ expired.map ExpiredFetch.id))) :
    Turns old new (f.entry c) id := by
  have hok : (f.entry c).answer = .ok expired := h
  constructor
  case table =>
    intro table
    rw [htable, Entry.Opens, Entry.Closes, grants_iff hok, grants_iff hok, grants_iff hok,
      reports_iff hok]
    rfl
  case request =>
    intro request
    rw [hrequest, Entry.Begins, Entry.Ends, Entry.Closes, grants_iff hok, grants_iff hok,
      grants_iff hok, grants_iff hok, reports_iff hok]
    rfl

theorem turns_foreign {c : Call} {i : MessageId} (hs : c.subject? = some i) (hi : id ≠ i)
    (h : (f.perform c).1 = .ok expired) (record : Option Fetch) :
    Turns record record (f.entry c) id := by
  have hexpired := expired_of_perform hs h
  subst hexpired
  have hother : ∀ other : Call, other.subject? = some id → c ≠ other := by
    rintro other ho rfl
    exact hi (Option.some.inj (ho.symm.trans hs))
  apply turns_of_ok h
  case htable =>
    intro table
    simp [hother (.startTracking table id) rfl, hother (.stopTracking id) rfl,
      hother (.endRequest id) rfl]
  case hrequest =>
    intro request
    simp [hother (.beginRequest request.start id request.peer) rfl, hother (.failRequest id) rfl,
      hother (.stopTracking id) rfl, hother (.endRequest id) rfl]

theorem turns_own {c : Call} (hs : c.subject? = some id) (h : (f.perform c).1 = .ok expired) :
    Turns (f.fetches.get? id) (c.onRecord f.timeout (f.fetches.get? id)) (f.entry c) id := by
  have hexpired := expired_of_perform hs h
  subst hexpired
  cases c with
  | sweep now => cases hs
  | startTracking table i =>
    cases hs
    have hr := start_ok h
    apply turns_of_ok h
    case htable => simp [Call.onRecord, hr]
    case hrequest => simp [Call.onRecord, hr]
  | stopTracking i =>
    cases hs
    apply turns_of_ok h
    case htable => simp [Call.onRecord]
    case hrequest => simp [Call.onRecord]
  | endRequest i =>
    cases hs
    apply turns_of_ok h
    case htable => simp [Call.onRecord]
    case hrequest => simp [Call.onRecord]
  | addProvider i peer =>
    cases hs
    obtain ⟨fetch, hr, -⟩ := change_ok h
    apply turns_of_ok h
    case htable => simp [Call.onRecord, offer, hr]
    case hrequest => simp [Call.onRecord, offer, hr]
  | beginRequest now i peer =>
    cases hs
    obtain ⟨fetch, hr, hw⟩ := change_ok h
    have hq := ask_ok hw
    apply turns_of_ok h
    case htable => simp [Call.onRecord, ask, hr, hq]
    case hrequest =>
      rintro ⟨p, start⟩
      simp [Call.onRecord, ask, hr, hq, and_comm]
  | failRequest i =>
    cases hs
    obtain ⟨fetch, hr, hw⟩ := change_ok h
    obtain ⟨request, hq⟩ := dismiss_ok hw
    apply turns_of_ok h
    case htable => simp [Call.onRecord, dismiss, hr, hq]
    case hrequest => simp [Call.onRecord, dismiss, hr, hq]

theorem turns_sweep (hn : f.fetches.keys.Nodup) (now : Time) (id : MessageId) :
    Turns (f.fetches.get? id) ((f.sweep now).2.fetches.get? id) (f.entry (.sweep now)) id := by
  have hok : (f.perform (.sweep now)).1 = .ok (f.sweep now).1 := rfl
  rw [get?_sweep hn]
  by_cases hm : id ∈ (f.sweep now).1.map ExpiredFetch.id
  · rw [if_pos hm]
    apply turns_of_ok hok
    case htable => simp [hm]
    case hrequest => simp [hm]
  · rw [if_neg hm]
    apply turns_of_ok hok
    case htable => simp [hm]
    case hrequest => simp [hm]

theorem perform_turns (hn : f.fetches.keys.Nodup) (c : Call) (id : MessageId) :
    Turns (f.fetches.get? id) ((f.perform c).2.fetches.get? id) (f.entry c) id := by
  cases hok : (f.perform c).1 with
  | error error =>
    rw [perform_refused hn hok]
    exact turns_refused hok _
  | ok expired =>
    cases hs : c.subject? with
    | none =>
      cases c with
      | sweep now => exact turns_sweep hn now id
      | _ => cases hs
    | some i =>
      rw [get?_perform hn]
      by_cases hi : id = i
      · subst hi
        rw [if_pos ((concerns_iff hs id).mpr rfl)]
        exact turns_own hs hok
      · rw [if_neg fun hc => hi ((concerns_iff hs id).mp hc)]
        exact turns_foreign hs hi hok _

end Turns

section Runs

variable {f : Fetches} {log : List Entry}

/-- A fetch has the table with which it was opened last, and the request that was begun last, unless
these have ended since. -/
structure Dated (f : Fetches) (log : List Entry) : Prop where
  keys : f.fetches.keys.Nodup
  tables : ∀ id table, (f.fetches.get? id).map Fetch.table = some table ↔
    Lasts (Entry.Opens table id) (Entry.Closes id) log
  requests : ∀ id request, (f.fetches.get? id).bind Fetch.request = some request ↔
    Lasts (Entry.Begins id request) (Entry.Ends id) log

theorem new_dated (timeout : Duration) : Dated (new timeout) [] := by
  refine ⟨new_nodup timeout, ?_, ?_⟩
  · intro id table
    exact iff_of_false nofun lasts_nil
  · intro id request
    exact iff_of_false nofun lasts_nil

theorem Dated.step (h : Dated f log) (c : Call) :
    Dated (f.perform c).2 (log ++ [f.entry c]) := by
  refine ⟨perform_nodup h.keys c, ?_, ?_⟩
  · intro id table
    rw [(perform_turns h.keys c id).table, lasts_concat, h.tables]
  · intro id request
    rw [(perform_turns h.keys c id).request, lasts_concat, h.requests]

theorem run_dated (timeout : Duration) (calls : List Call) :
    Dated ((new timeout).run calls) ((new timeout).log calls) := by
  induction calls using List.reverseRecOn with
  | nil => exact new_dated timeout
  | append_singleton calls c ih =>
    rw [run_concat, log_concat]
    exact ih.step c

theorem run_timeout (f : Fetches) (calls : List Call) : (f.run calls).timeout = f.timeout := by
  induction calls generalizing f with
  | nil => rfl
  | cons c calls ih => exact (ih (f.perform c).2).trans (perform_timeout f c)

end Runs

section Reports

variable {f : Fetches} {calls : List Call} {log : List Entry} {timeout : Duration} {id : MessageId}
variable {i j k : Nat} {e : Entry}

theorem overdue_iff (f : Fetches) (now : Time) (fetch : Fetch) : f.overdue now fetch = true ↔
    ∃ request, fetch.request = some request ∧ request.start + f.timeout < now := by
  cases hq : fetch.request with
  | none => simp [overdue, hq]
  | some request => simp [overdue, hq, Time.overdue]

theorem mem_expired (hn : f.fetches.keys.Nodup) (now : Time) (table : Ident) (id : MessageId) :
    ⟨table, id⟩ ∈ (f.sweep now).1 ↔ (f.fetches.get? id).map Fetch.table = some table ∧
      ∃ request, (f.fetches.get? id).bind Fetch.request = some request ∧
        request.start + f.timeout < now := by
  constructor
  · intro hm
    obtain ⟨⟨i, fetch⟩, he, hx⟩ := List.mem_map.mp hm
    cases hx
    obtain ⟨he, ho⟩ := List.mem_filter.mp he
    obtain ⟨request, hq, hl⟩ := (overdue_iff f now fetch).mp ho
    simp [Catalog.get?_of_mem hn he, hq, hl]
  · rintro ⟨ht, request, hq, hl⟩
    obtain ⟨fetch, hr, rfl⟩ := Option.map_eq_some_iff.mp ht
    rw [hr, Option.bind_some] at hq
    have ho := (overdue_iff f now fetch).mpr ⟨request, hq, hl⟩
    exact List.mem_map.mpr ⟨(id, fetch), List.mem_filter.mpr ⟨Catalog.mem_of_get? hr, ho⟩, rfl⟩

theorem expired_nodup (hn : f.fetches.keys.Nodup) (now : Time) :
    ((f.sweep now).1.map ExpiredFetch.id).Nodup := by
  rw [map_id_sweep]
  exact Catalog.filter_nodup hn _

def Entry.Asks (id : MessageId) (e : Entry) : Prop := ∃ request, e.Begins id request

/-- The broadcast is reported at the second place, and the latest request for it before that was
begun at the first. -/
structure ReportOf (log : List Entry) (id : MessageId) (i j : Nat) : Prop where
  reported : ∃ e, log[j]? = some e ∧ e.Reports id
  latest : LastsFrom (Entry.Asks id) (Entry.Asks id) (log.take j) i

theorem not_lasts_of_asks (hk : ((new timeout).log calls)[k]? = some e) (ha : e.Asks id)
    (request : ContentRequest) :
    ¬ Lasts (Entry.Begins id request) (Entry.Ends id) (((new timeout).log calls).take k) := by
  obtain ⟨c, -, rfl⟩ := entry_of_log hk
  obtain ⟨other, hc, expired, hok⟩ := ha
  rw [log_take, ← (run_dated timeout (calls.take k)).requests]
  cases hc
  obtain ⟨fetch, hr, hw⟩ := change_ok hok
  simp [hr, ask_ok hw]

theorem cause_of_report (hj : ((new timeout).log calls)[j]? = some e) (hr : e.Reports id) :
    ∃ now request i, e.call = .sweep now ∧ request.start + timeout < now ∧
      LastsFrom (Entry.Begins id request) (Entry.Ends id) (((new timeout).log calls).take j) i := by
  obtain ⟨c, -, rfl⟩ := entry_of_log hj
  obtain ⟨expired, hok, hm⟩ := hr
  cases hs : c.subject? with
  | some i =>
    rw [expired_of_perform hs hok] at hm
    cases hm
  | none =>
    cases c with
    | sweep now =>
      cases hok
      obtain ⟨⟨table, i⟩, hx, rfl⟩ := List.mem_map.mp hm
      have h := run_dated timeout (calls.take j)
      obtain ⟨-, request, hq, hl⟩ := (mem_expired h.keys now table i).mp hx
      obtain ⟨begun, hb⟩ := (h.requests i request).mp hq
      rw [run_timeout] at hl
      refine ⟨now, request, begun, rfl, hl, ?_⟩
      rw [log_take]
      exact hb
    | _ => cases hs

theorem latest_of_lasts {request : ContentRequest}
    (h : LastsFrom (Entry.Begins id request) (Entry.Ends id)
      (((new timeout).log calls).take j) i) :
    LastsFrom (Entry.Asks id) (Entry.Asks id) (((new timeout).log calls).take j) i := by
  obtain ⟨e, he, hb⟩ := h.started
  refine ⟨⟨e, he, request, hb⟩, ?_⟩
  intro k hik x hx ha
  have hk := lt_length_of_getElem? hx
  rw [List.length_take] at hk
  have hkj : k < j := by omega
  rw [List.getElem?_take_of_lt hkj] at hx
  exact not_lasts_of_asks hx ha request ⟨i, h.take hik (Nat.le_of_lt hkj)⟩

theorem reportOf_of_reports (hj : ((new timeout).log calls)[j]? = some e) (hr : e.Reports id) :
    ∃ i, ReportOf ((new timeout).log calls) id i j := by
  obtain ⟨now, request, i, -, -, hlasts⟩ := cause_of_report hj hr
  exact ⟨i, ⟨e, hj, hr⟩, latest_of_lasts hlasts⟩

theorem ReportOf.lt (h : ReportOf log id i j) : i < j := by
  have hi := h.latest.lt_length
  rw [List.length_take] at hi
  omega

/-- A request that is reported was in flight for too long, and nothing has ended it before. -/
theorem ReportOf.cause (h : ReportOf ((new timeout).log calls) id i j) :
    ∃ now request, (∃ e, ((new timeout).log calls)[j]? = some e ∧ e.call = .sweep now) ∧
      request.start + timeout < now ∧
      LastsFrom (Entry.Begins id request) (Entry.Ends id)
        (((new timeout).log calls).take j) i := by
  obtain ⟨e, hj, hr⟩ := h.reported
  obtain ⟨now, request, begun, hc, hl, hlasts⟩ := cause_of_report hj hr
  have hi := h.latest.latest (latest_of_lasts hlasts)
  subst hi
  exact ⟨now, request, ⟨e, hj, hc⟩, hl, hlasts⟩

theorem ReportOf.unended (h : ReportOf ((new timeout).log calls) id i j) (hik : i < k)
    (hkj : k < j) (hk : ((new timeout).log calls)[k]? = some e) : ¬ e.Ends id := by
  obtain ⟨now, request, -, -, hlasts⟩ := h.cause
  apply hlasts.kept k hik e
  rw [List.getElem?_take_of_lt hkj]
  exact hk

theorem ReportOf.unique (hj : ReportOf ((new timeout).log calls) id i j)
    (hk : ReportOf ((new timeout).log calls) id i k) : j = k := by
  -- the earlier report would have ended the request before the later one
  have hends : ∀ {n m}, ReportOf ((new timeout).log calls) id i n →
      ReportOf ((new timeout).log calls) id i m → ¬ n < m := by
    intro n m hn hm hlt
    obtain ⟨e, he, hr⟩ := hn.reported
    exact hm.unended hn.lt hlt he (.inr (.inr (.inr hr)))
  have h1 := hends hj hk
  have h2 := hends hk hj
  omega

/-- Take any run. A sweep at any time reports the broadcasts whose request in flight is older than
the timeout, each once and with the table with which it was opened; it forgets these and leaves all
others as they are, among them those without a request in flight. Over the run, each report is of
one request, the latest one for its broadcast; that was older than the timeout, nothing had ended
it, and it is not reported again. -/
theorem reports_overdue_once (timeout : Duration) (calls : List Call) :
    let f := (new timeout).run calls
    let log := (new timeout).log calls
    (∀ now,
      let expired := (f.sweep now).1
      (expired.map ExpiredFetch.id).Nodup ∧
      (∀ table id, ⟨table, id⟩ ∈ expired ↔
        Lasts (Entry.Opens table id) (Entry.Closes id) log ∧
        ∃ request, Lasts (Entry.Begins id request) (Entry.Ends id) log ∧
          request.start + timeout < now) ∧
      (∀ id, (f.sweep now).2.fetches.get? id =
        if id ∈ expired.map ExpiredFetch.id then none else f.fetches.get? id) ∧
      ∀ id, f.isRequesting id = false → id ∉ expired.map ExpiredFetch.id) ∧
    (∀ id j e, log[j]? = some e → e.Reports id → ∃ i, ReportOf log id i j) ∧
    ∀ id i j, ReportOf log id i j →
      (∃ now request, (∃ e, log[j]? = some e ∧ e.call = .sweep now) ∧
        (∃ e, log[i]? = some e ∧ e.Begins id request) ∧ request.start + timeout < now) ∧
      (∀ k e, i < k → k < j → log[k]? = some e → ¬ e.Ends id) ∧
      ∀ k, ReportOf log id i k → k = j := by
  intro f log
  have h : Dated f log := run_dated timeout calls
  have htimeout : f.timeout = timeout := run_timeout (new timeout) calls
  refine ⟨?_, fun id j e => reportOf_of_reports, ?_⟩
  · intro now expired
    refine ⟨expired_nodup h.keys now, ?_, get?_sweep h.keys now, ?_⟩
    · intro table id
      rw [mem_expired h.keys, h.tables, htimeout]
      simp only [h.requests]
    · intro id hq hm
      obtain ⟨fetch, hr, ho⟩ := (mem_sweep h.keys now id).mp hm
      obtain ⟨request, hs, -⟩ := (overdue_iff f now fetch).mp ho
      simp [isRequesting, hr, hs] at hq
  · intro id i j hreport
    refine ⟨?_, fun k e hik hkj hk => hreport.unended hik hkj hk, fun k hk => hk.unique hreport⟩
    obtain ⟨now, request, hsweep, hl, hlasts⟩ := hreport.cause
    obtain ⟨e, he, hb⟩ := hlasts.started
    rw [List.getElem?_take_of_lt hreport.lt] at he
    exact ⟨now, request, hsweep, ⟨e, he, hb⟩, hl⟩

/-- The first peer that is asked fails, and the second one does not answer in time. -/
def unanswered : List Call :=
  [.startTracking ⟨7⟩ ⟨1⟩, .startTracking ⟨7⟩ ⟨2⟩, .beginRequest 0 ⟨1⟩ ⟨1⟩, .failRequest ⟨1⟩,
    .beginRequest 4 ⟨1⟩ ⟨2⟩, .sweep 10, .sweep 11, .sweep 12]

/-- At time 10 the second request is as old as the timeout, which is not too old. -/
theorem reports_overdue_once_second :
    let log := (new 6).log unanswered
    (∃ i, ReportOf log ⟨1⟩ i 6) ∧ (∀ i, ReportOf log ⟨1⟩ i 6 → ∀ k, ReportOf log ⟨1⟩ i k → k = 6) ∧
      ⟨2⟩ ∉ (((new 6).run unanswered).sweep 100).1.map ExpiredFetch.id := by
  obtain ⟨hsweep, hreport, honce⟩ := reports_overdue_once 6 unanswered
  obtain ⟨-, -, -, hidle⟩ := hsweep 100
  refine ⟨hreport ⟨1⟩ 6 ⟨.sweep 11, .ok [⟨⟨7⟩, ⟨1⟩⟩]⟩ rfl ⟨_, rfl, by decide⟩, ?_, ?_⟩
  · intro i hi
    exact (honce ⟨1⟩ i 6 hi).2.2
  · exact hidle ⟨2⟩ rfl

end Reports

end Kademlia.Fetches
