import Kademlia.Gossip.Holders
import Kademlia.Proofs.TtlMap

/-!
Holders of broadcasts against the calls that have been made. Each call about a broadcast takes the
whole record of it out and puts it back with a new expiry. Main statement: nevertheless every pair of
a broadcast and a peer has just its own time to live, from the last time that it was added.
-/

namespace Kademlia.Holders

section History

inductive Call where
  | add (now : Time) (id : MessageId) (peer : Ident)
  | clean (now : Time)
  deriving DecidableEq, Repr

def Call.time : Call → Time
  | .add now _ _ => now
  | .clean now => now

def Call.adds? (id : MessageId) (peer : Ident) : Call → Option Time
  | .add now i p => if i = id ∧ p = peer then some now else none
  | .clean _ => none

def step (h : Holders) : Call → Holders
  | .add now id peer => h.add now id peer
  | .clean now => h.clean now

def play (h : Holders) (calls : List Call) : Holders := calls.foldl step h

def lastAdd (calls : List Call) (id : MessageId) (peer : Ident) : Option Time :=
  (calls.filterMap (Call.adds? id peer)).getLast?

/-- The pair was added, most recently no longer ago than its time to live. -/
def Holds (ttl : Duration) (calls : List Call) (now : Time) (id : MessageId) (peer : Ident) : Prop :=
  ∃ time, lastAdd calls id peer = some time ∧ now < time + ttl

theorem lastAdd_add (calls : List Call) (now : Time) (id other : MessageId) (peer p : Ident) :
    lastAdd (calls ++ [.add now id peer]) other p =
      if id = other ∧ peer = p then some now else lastAdd calls other p := by
  by_cases hp : id = other ∧ peer = p
  · simp [lastAdd, Call.adds?, hp]
  · simp [lastAdd, Call.adds?, hp]

theorem lastAdd_clean (calls : List Call) (now : Time) (id : MessageId) (peer : Ident) :
    lastAdd (calls ++ [.clean now]) id peer = lastAdd calls id peer := by
  simp [lastAdd, Call.adds?]

end History

section Records

/-- The record of a broadcast: its holders stand in it as they were added last, and it expires with
the youngest of them. -/
structure Record (ttl : Duration) (calls : List Call) (id : MessageId) (peers : Catalog Ident Time)
    (expiry : Time) : Prop where
  keys : peers.keys.Nodup
  kept : ∀ peer e, peers.get? peer = some e →
    e ≤ expiry ∧ ∃ time, lastAdd calls id peer = some time ∧ e = time + ttl
  youngest : ∃ peer, peers.get? peer = some expiry

/-- What is stored after some calls, the last one at the time of the clock: records of what was
added, of which only dead holders are lost. -/
structure Remembers (ttl : Duration) (h : Holders) (clock : Time) (calls : List Call) : Prop where
  ttl_eq : h.ttl = ttl
  outer_ttl : h.broadcasts.ttl = ttl
  sound : h.broadcasts.Sound clock
  record : ∀ id peers expiry, h.broadcasts.entries.get? id = some (peers, expiry) →
    Record ttl calls id peers expiry
  lost : ∀ id peer time, lastAdd calls id peer = some time → clock < time + ttl →
    ∃ peers expiry, h.broadcasts.entries.get? id = some (peers, expiry) ∧
      peers.get? peer = some (time + ttl)

variable {ttl : Duration} {h : Holders} {clock now : Time} {calls : List Call}

theorem new_remembers (ttl : Duration) (clock : Time) :
    Remembers ttl (Holders.new ttl) clock [] := by
  refine ⟨rfl, rfl, TtlMap.new_sound ttl clock, ?_, ?_⟩
  · intro id peers expiry he
    cases he
  · intro id peer time hl
    cases hl

theorem Remembers.mono (r : Remembers ttl h clock calls) (hc : clock ≤ now) :
    Remembers ttl h now calls :=
  ⟨r.ttl_eq, r.outer_ttl, r.sound.mono hc, r.record, fun id peer time ha hl =>
    r.lost id peer time ha (Nat.lt_of_le_of_lt hc hl)⟩

/-- A record outlives each of its holders. -/
theorem Remembers.survives (r : Remembers ttl h clock calls) (hc : clock ≤ now) {id : MessageId}
    {peer : Ident} {time : Time} (ha : lastAdd calls id peer = some time) (hl : now < time + ttl) :
    ∃ peers expiry, h.broadcasts.entries.get? id = some (peers, expiry) ∧ now < expiry ∧
      peers.get? peer = some (time + ttl) := by
  obtain ⟨peers, expiry, he, hp⟩ := r.lost id peer time ha (Nat.lt_of_le_of_lt hc hl)
  exact ⟨peers, expiry, he, Nat.lt_of_lt_of_le hl ((r.record id peers expiry he).kept _ _ hp).1, hp⟩

/-- The holders of a broadcast that live, with one more that is added. -/
def renewed (h : Holders) (now : Time) (id : MessageId) (peer : Ident) : Catalog Ident Time :=
  ((((h.broadcasts.entries.get? id).map Prod.fst).getD {}).filter fun _ expiry =>
    Time.live expiry now).put peer (now + h.ttl)

theorem add_eq (h : Holders) (now : Time) (id : MessageId) (peer : Ident) :
    h.add now id peer =
      { h with broadcasts :=
        ((h.broadcasts.remove id).2.insert now id (h.renewed now id peer)).2 } := rfl

theorem Remembers.known_nodup (r : Remembers ttl h clock calls) (id : MessageId) :
    (((h.broadcasts.entries.get? id).map Prod.fst).getD {}).keys.Nodup := by
  cases he : h.broadcasts.entries.get? id with
  | none => exact List.nodup_nil
  | some e => exact (r.record id e.1 e.2 he).keys

theorem Remembers.get?_renewed (r : Remembers ttl h clock calls) (now : Time) (id : MessageId)
    (peer p : Ident) : (h.renewed now id peer).get? p =
      if p = peer then some (now + ttl)
      else (((h.broadcasts.entries.get? id).bind fun e => e.1.get? p).filter fun expiry =>
        Time.live expiry now) := by
  rw [renewed, Catalog.get?_put, Catalog.get?_filter (r.known_nodup id), r.ttl_eq]
  cases h.broadcasts.entries.get? id with
  | none => rfl
  | some e => rfl

theorem Remembers.renewed_record (r : Remembers ttl h clock calls) (hc : clock ≤ now)
    (id : MessageId) (peer : Ident) :
    Record ttl (calls ++ [.add now id peer]) id (h.renewed now id peer) (now + ttl) := by
  constructor
  case keys => exact Catalog.put_nodup (Catalog.filter_nodup (r.known_nodup id) _) _ _
  case youngest => exact ⟨peer, by rw [r.get?_renewed, if_pos rfl]⟩
  case kept =>
    intro p e hp
    rw [r.get?_renewed] at hp
    rw [lastAdd_add]
    by_cases hpeer : p = peer
    · rw [if_pos hpeer] at hp
      cases hp
      exact ⟨Nat.le_refl _, now, if_pos ⟨rfl, hpeer.symm⟩, rfl⟩
    · rw [if_neg hpeer] at hp
      obtain ⟨hb, -⟩ := Option.filter_eq_some_iff.mp hp
      obtain ⟨⟨peers, expiry⟩, he, hget⟩ := Option.bind_eq_some_iff.mp hb
      obtain ⟨hle, time, ha, hx⟩ := (r.record id peers expiry he).kept p e hget
      have hnear := r.sound.near _ (r.sound.queued.listed id _ he)
      rw [r.outer_ttl] at hnear
      refine ⟨?_, time, (if_neg fun hsame => hpeer hsame.2.symm).trans ha, hx⟩
      exact Nat.le_trans hle (Nat.le_trans hnear (Nat.add_le_add_right hc ttl))

theorem Remembers.get?_add (r : Remembers ttl h clock calls) (now : Time) (id other : MessageId)
    (peer : Ident) : (h.add now id peer).broadcasts.entries.get? other =
      if other = id then some (h.renewed now id peer, now + ttl)
      else (h.broadcasts.entries.get? other).filter fun e => Time.live e.2 now := by
  have hinsert := (r.sound.remove id).get?_insert now id (h.renewed now id peer) other
  rw [TtlMap.get?_remove] at hinsert
  rw [add_eq, hinsert]
  by_cases ho : other = id
  · rw [if_pos ho, if_pos ho]
    exact congrArg (fun t => some (h.renewed now id peer, now + t)) r.outer_ttl
  · rw [if_neg ho, if_neg ho, if_neg ho]

theorem Remembers.add (r : Remembers ttl h clock calls) (hc : clock ≤ now) (id : MessageId)
    (peer : Ident) : Remembers ttl (h.add now id peer) now (calls ++ [.add now id peer]) := by
  constructor
  case ttl_eq => exact r.ttl_eq
  case outer_ttl => exact r.outer_ttl
  case sound => exact (r.sound.remove id).insert hc id _
  case record =>
    intro other peers expiry he
    rw [r.get?_add] at he
    by_cases ho : other = id
    · rw [if_pos ho] at he
      cases he
      exact ho ▸ r.renewed_record hc id peer
    · rw [if_neg ho] at he
      have hold := r.record other peers expiry (Option.filter_eq_some_iff.mp he).1
      have hlast : ∀ p, lastAdd (calls ++ [.add now id peer]) other p = lastAdd calls other p :=
        fun p => by rw [lastAdd_add, if_neg fun hsame => ho hsame.1.symm]
      exact ⟨hold.keys, fun p e hp => hlast p ▸ hold.kept p e hp, hold.youngest⟩
  case lost =>
    intro other p time ha hl
    rw [lastAdd_add] at ha
    rw [r.get?_add]
    by_cases ho : other = id
    · subst ho
      rw [if_pos rfl]
      refine ⟨_, _, rfl, ?_⟩
      rw [r.get?_renewed]
      by_cases hp : p = peer
      · rw [if_pos ⟨rfl, hp.symm⟩] at ha
        cases ha
        exact if_pos hp
      · rw [if_neg fun hsame => hp hsame.2.symm] at ha
        obtain ⟨peers, expiry, he, -, hget⟩ := r.survives hc ha hl
        rw [if_neg hp, he, Option.filter_eq_some_iff]
        exact ⟨hget, decide_eq_true hl⟩
    · rw [if_neg fun hsame => ho hsame.1.symm] at ha
      obtain ⟨peers, expiry, he, hlive, hget⟩ := r.survives hc ha hl
      refine ⟨peers, expiry, ?_, hget⟩
      rw [if_neg ho, he, Option.filter_eq_some_iff]
      exact ⟨rfl, decide_eq_true hlive⟩

theorem Remembers.clean (r : Remembers ttl h clock calls) (hc : clock ≤ now) :
    Remembers ttl (h.clean now) now (calls ++ [.clean now]) := by
  have hget := r.sound.get?_clean now
  constructor
  case ttl_eq => exact r.ttl_eq
  case outer_ttl => exact r.outer_ttl
  case sound => exact (r.sound.mono hc).clean now
  case record =>
    intro id peers expiry he
    have hold := r.record id peers expiry
      (Option.filter_eq_some_iff.mp ((hget id).symm.trans he)).1
    exact ⟨hold.keys, fun p e hp => lastAdd_clean calls now id p ▸ hold.kept p e hp, hold.youngest⟩
  case lost =>
    intro id peer time ha hl
    rw [lastAdd_clean] at ha
    obtain ⟨peers, expiry, he, hlive, hp⟩ := r.survives hc ha hl
    refine ⟨peers, expiry, (hget id).trans ?_, hp⟩
    rw [he, Option.filter_eq_some_iff]
    exact ⟨rfl, decide_eq_true hlive⟩

theorem Remembers.step (r : Remembers ttl h clock calls) (c : Call) (hc : clock ≤ c.time) :
    Remembers ttl (h.step c) c.time (calls ++ [c]) := by
  cases c with
  | add now id peer => exact r.add hc id peer
  | clean now => exact r.clean hc

theorem Remembers.play (r : Remembers ttl h clock calls) (more : List Call)
    (ht : (clock :: (more.map Call.time ++ [now])).Pairwise (· ≤ ·)) :
    Remembers ttl (h.play more) now (calls ++ more) :=
  kept_by_timed_run (P := Remembers ttl) (fun r hc => r.mono hc) (fun c r hc => r.step c hc) r
    more ht

end Records

section Reading

variable {ttl : Duration} {h : Holders} {clock now : Time} {calls : List Call}

/-- A pair shows when the record of the broadcast lives and the holder in it does. -/
theorem contains_iff (h : Holders) (now : Time) (id : MessageId) (peer : Ident) :
    h.contains now id peer = true ↔
      ∃ peers e, h.broadcasts.get? now id = some peers ∧ peers.get? peer = some e ∧ now < e := by
  unfold Holders.contains
  cases hb : h.broadcasts.get? now id with
  | none => simp
  | some peers =>
    cases hp : peers.get? peer with
    | none => simp [hp]
    | some e => simp [hp, Time.live]

theorem Remembers.contains_iff (r : Remembers ttl h clock calls) (hc : clock ≤ now)
    (id : MessageId) (peer : Ident) :
    h.contains now id peer = true ↔ Holds ttl calls now id peer := by
  rw [Holders.contains_iff]
  constructor
  · rintro ⟨peers, e, hb, hp, hl⟩
    obtain ⟨expiry, he, -⟩ := (TtlMap.get?_eq_some ..).mp hb
    obtain ⟨-, time, ha, hx⟩ := (r.record id peers expiry he).kept peer e hp
    exact ⟨time, ha, hx ▸ hl⟩
  · rintro ⟨time, ha, hl⟩
    obtain ⟨peers, expiry, he, hlive, hp⟩ := r.survives hc ha hl
    exact ⟨peers, _, (TtlMap.get?_eq_some ..).mpr ⟨expiry, he, hlive⟩, hp, hl⟩

theorem Remembers.peers_iff (r : Remembers ttl h clock calls) (now : Time) (id : MessageId) :
    (h.peers now id).Nodup ∧
      ∀ peer, peer ∈ h.peers now id ↔ h.contains now id peer = true := by
  simp only [Holders.contains_iff, Holders.peers]
  cases hb : h.broadcasts.get? now id with
  | none => simp
  | some peers =>
    obtain ⟨expiry, he, -⟩ := (TtlMap.get?_eq_some ..).mp hb
    have hn := (r.record id peers expiry he).keys
    refine ⟨Catalog.filter_nodup hn _, fun peer => ?_⟩
    rw [Catalog.mem_keys_iff, Option.ne_none_iff_exists', Catalog.get?_filter hn]
    simp [Option.filter_eq_some_iff, Time.live]

theorem Remembers.size_clean (r : Remembers ttl h clock calls) (hc : clock ≤ now) :
    ∃ S : Finset MessageId, (h.clean now).size = S.card ∧
      ∀ id, id ∈ S ↔ ∃ peer, Holds ttl calls now id peer := by
  obtain ⟨S, hS, hids⟩ := TtlMap.size_counts (r.clean hc).sound.keys
  refine ⟨S, hS, fun id => ?_⟩
  have hget : (h.clean now).broadcasts.entries.get? id = _ := r.sound.get?_clean now id
  rw [hids, hget]
  constructor
  · rintro ⟨⟨peers, expiry⟩, he⟩
    obtain ⟨he, hlive⟩ := Option.filter_eq_some_iff.mp he
    have hrecord := r.record id peers expiry he
    obtain ⟨peer, hp⟩ := hrecord.youngest
    obtain ⟨-, time, ha, hx⟩ := hrecord.kept peer expiry hp
    exact ⟨peer, time, ha, hx ▸ of_decide_eq_true hlive⟩
  · rintro ⟨peer, time, ha, hl⟩
    obtain ⟨peers, expiry, he, hlive, -⟩ := r.survives hc ha hl
    exact ⟨(peers, expiry), Option.filter_eq_some_iff.mpr ⟨he, decide_eq_true hlive⟩⟩

/-- Take a run in which time only goes on. A peer shows as a holder of a broadcast exactly as long as
the pair was added most recently no longer ago than the time to live, whatever else was added or
cleaned in between. The holders of a broadcast are listed just so, each once, and after a cleaning as
many records are left as there are broadcasts with a holder. -/
theorem remembers_each_pair (ttl : Duration) (calls : List Call) (now : Time)
    (htimes : (calls.map Call.time ++ [now]).Pairwise (· ≤ ·)) :
    let h := (Holders.new ttl).play calls
    (∀ id peer, h.contains now id peer = true ↔ Holds ttl calls now id peer) ∧
    (∀ id, (h.peers now id).Nodup ∧
      ∀ peer, peer ∈ h.peers now id ↔ Holds ttl calls now id peer) ∧
    ∃ S : Finset MessageId, (h.clean now).size = S.card ∧
      ∀ id, id ∈ S ↔ ∃ peer, Holds ttl calls now id peer := by
  intro h
  have hclock : (0 :: (calls.map Call.time ++ [now])).Pairwise (· ≤ ·) :=
    List.pairwise_cons.mpr ⟨fun _ _ => Nat.zero_le _, htimes⟩
  have r : Remembers ttl h now calls := (new_remembers ttl 0).play calls hclock
  have hcontains := r.contains_iff (Nat.le_refl now)
  refine ⟨hcontains, fun id => ?_, r.size_clean (Nat.le_refl now)⟩
  obtain ⟨hn, hmem⟩ := r.peers_iff now id
  exact ⟨hn, fun peer => (hmem peer).trans (hcontains id peer)⟩

/-- Two peers are added one after the other for the same broadcast. -/
def staggered : List Call := [.add 0 ⟨1⟩ ⟨1⟩, .add 4 ⟨1⟩ ⟨2⟩, .clean 6]

/-- The first one is gone when the second one still shows. -/
theorem remembers_each_pair_staggered :
    (staggered.map Call.time ++ [7]).Pairwise (· ≤ ·) ∧
    ((Holders.new 6).play staggered).contains 7 ⟨1⟩ ⟨1⟩ = false ∧
    ((Holders.new 6).play staggered).contains 7 ⟨1⟩ ⟨2⟩ = true ∧
    (⟨2⟩ : Ident) ∈ ((Holders.new 6).play staggered).peers 7 ⟨1⟩ := by
  have h := remembers_each_pair 6 staggered 7 (by decide)
  have hsecond : Holds 6 staggered 7 ⟨1⟩ ⟨2⟩ := ⟨4, by decide, by decide⟩
  refine ⟨by decide, ?_, (h.1 ⟨1⟩ ⟨2⟩).mpr hsecond, ((h.2.1 ⟨1⟩).2 ⟨2⟩).mpr hsecond⟩
  rw [← Bool.not_eq_true, h.1]
  rintro ⟨time, ha, hl⟩
  have hfirst : lastAdd staggered ⟨1⟩ ⟨1⟩ = some 0 := by decide
  rw [hfirst] at ha
  cases ha
  exact absurd hl (by decide)

end Reading

end Kademlia.Holders
