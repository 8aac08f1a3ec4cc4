import Kademlia.Membership
import Kademlia.Proofs.Choice
import Kademlia.Proofs.TtlMap

/-!
The members of groups against the calls that have been made. Each group has a map of its own, which
comes with the first join and goes with the last member that a cleaning evicts. The members that are
shown are nevertheless, at any time, those that joined last no longer ago than the time to live.
-/

namespace Kademlia

namespace Membership

section History

inductive Call where
  | join (now : Time) (group : Ident) (p : Peer)
  | clean (now : Time)
  deriving DecidableEq, Repr

def Call.time : Call → Time
  | .join now _ _ => now
  | .clean now => now

/-- The time of a call by which the member joins the group, and the address that it comes with. -/
def Call.joins? (group member : Ident) : Call → Option (Time × Address)
  | .join now g p => if g = group ∧ p.id = member then some (now, p.address) else none
  | .clean _ => none

def step (m : Membership) : Call → Membership
  | .join now group p => m.join now group p
  | .clean now => m.clean now

def lastJoin (calls : List Call) (group member : Ident) : Option (Time × Address) :=
  (calls.filterMap (Call.joins? group member)).getLast?

/-- The peer joined the group, most recently from this address and no longer ago than the time to
live. -/
def Live (ttl : Duration) (calls : List Call) (now : Time) (group : Ident) (p : Peer) : Prop :=
  ∃ time, lastJoin calls group p.id = some (time, p.address) ∧ now < time + ttl

def Call.within? (group : Ident) : Call → Option (TtlMap.Call Ident Address)
  | .join now g p => if g = group then some (.insert now p.id p.address) else none
  | .clean now => some (.clean now)

def history (calls : List Call) (group : Ident) : List (TtlMap.Call Ident Address) :=
  calls.filterMap (Call.within? group)

/-- The last join of a member is the last call that writes it in the map of the group. -/
theorem lastWrite_history (calls : List Call) (group member : Ident) :
    TtlMap.lastWrite (history calls group) member =
      (lastJoin calls group member).map fun j => .insert j.1 member j.2 := by
  rw [TtlMap.lastWrite, history, lastJoin, ← List.getLast?_map, List.map_filterMap,
    List.filter_filterMap]
  -- Both sides pick the same calls out of the run, and tell the same of each.
  congr 2
  funext c
  cases c with
  | clean now => rfl
  | join now g p =>
    by_cases hg : g = group
    · by_cases hp : p.id = member
      · simp [Call.within?, Call.joins?, TtlMap.Call.key?, Option.filter_some, hg, hp]
      · simp [Call.within?, Call.joins?, TtlMap.Call.key?, Option.filter_some, hg, hp]
    · simp [Call.within?, Call.joins?, hg]

theorem lives_history {ttl : Duration} {calls : List Call} {now : Time} {group : Ident} {p : Peer} :
    TtlMap.Lives ttl (history calls group) now p.id p.address ↔ Live ttl calls now group p := by
  refine exists_congr fun time => and_congr_left fun _ => ?_
  rw [lastWrite_history, Option.map_eq_some_iff]
  constructor
  · rintro ⟨⟨t, a⟩, hj, hc⟩
    cases hc
    exact hj
  · intro hj
    exact ⟨_, hj, rfl⟩

end History

section Groups

/-- The map of a group; a group without any has an empty one. -/
def within (m : Membership) (group : Ident) : TtlMap Ident Address :=
  (m.groups.get? group).getD (TtlMap.new m.ttl)

theorem within_join (m : Membership) (now : Time) (group : Ident) (p : Peer) (other : Ident) :
    (m.join now group p).within other =
      if other = group then ((m.within group).insert now p.id p.address).2 else m.within other := by
  rw [within, join, Catalog.get?_put]
  by_cases ho : other = group
  · rw [if_pos ho, if_pos ho]
    rfl
  · rw [if_neg ho, if_neg ho]
    rfl

theorem get?_clean {m : Membership} (hn : m.groups.keys.Nodup) (now : Time) (group : Ident) :
    (m.clean now).groups.get? group =
      ((m.groups.get? group).map fun members => members.clean now).filter
        fun members => !members.isEmpty := by
  have hkeys := Catalog.keys_mapValues m.groups fun members => members.clean now
  rw [clean, Catalog.get?_filter (hkeys ▸ hn), Catalog.get?_mapValues]

theorem mem_clean_keys {m : Membership} (hn : m.groups.keys.Nodup) (now : Time) (group : Ident) :
    group ∈ (m.clean now).groups.keys ↔ ((m.within group).clean now).isEmpty = false := by
  rw [Catalog.mem_keys_iff, get?_clean hn, within]
  cases m.groups.get? group with
  | none => simp [TtlMap.isEmpty, TtlMap.clean, TtlMap.new, TtlMap.sweep, Catalog.isEmpty]
  | some members => simp [Option.filter_eq_none_iff]

/-- A group whose members are all evicted starts afresh. -/
theorem within_clean {m : Membership} (hn : m.groups.keys.Nodup) (now : Time) (group : Ident) :
    (m.clean now).within group =
      if ((m.within group).clean now).isEmpty then TtlMap.new m.ttl
      else (m.within group).clean now := by
  have httl : (m.clean now).ttl = m.ttl := rfl
  rw [within, get?_clean hn, httl, within]
  cases m.groups.get? group with
  | none => exact (if_pos rfl).symm
  | some members => cases he : (members.clean now).isEmpty <;> simp [he, Option.filter_some]

theorem live_eq (m : Membership) (now : Time) (group : Ident) :
    m.live now group = ((m.within group).toList now).map fun e => ⟨e.1, e.2⟩ := by
  rw [live, within]
  cases m.groups.get? group <;> rfl

end Groups

section Run

/-- What is stored after some calls, the last one at the time of the clock: in the map of each group
what the calls have written there, of which only dead entries are lost. -/
structure Remembers (ttl : Duration) (m : Membership) (clock : Time) (calls : List Call) : Prop where
  ttl_eq : m.ttl = ttl
  keys : m.groups.keys.Nodup
  within : ∀ group, (m.within group).Remembers ttl clock (history calls group)

variable {ttl : Duration} {m : Membership} {clock now : Time} {calls : List Call}

theorem new_remembers (ttl : Duration) (clock : Time) :
    Remembers ttl (Membership.new ttl) clock [] :=
  ⟨rfl, List.nodup_nil, fun _ => TtlMap.new_remembers ttl clock⟩

theorem Remembers.mono (h : Remembers ttl m clock calls) (hc : clock ≤ now) :
    Remembers ttl m now calls :=
  ⟨h.ttl_eq, h.keys, fun group => (h.within group).mono hc⟩

theorem Remembers.join (h : Remembers ttl m clock calls) (hc : clock ≤ now) (group : Ident)
    (p : Peer) : Remembers ttl (m.join now group p) now (calls ++ [.join now group p]) := by
  refine ⟨h.ttl_eq, Catalog.put_nodup h.keys _ _, fun other => ?_⟩
  have hh : history (calls ++ [.join now group p]) other =
      history calls other ++ if group = other then [.insert now p.id p.address] else [] := by
    by_cases hg : group = other <;> simp [history, Call.within?, hg]
  rw [within_join, hh]
  by_cases ho : other = group
  · subst ho
    rw [if_pos rfl, if_pos rfl]
    exact (h.within other).insert hc p.id p.address
  · rw [if_neg ho, if_neg (Ne.symm ho), List.append_nil]
    exact (h.within other).mono hc

theorem Remembers.clean (h : Remembers ttl m clock calls) (hc : clock ≤ now) :
    Remembers ttl (m.clean now) now (calls ++ [.clean now]) := by
  refine ⟨h.ttl_eq, ?_, fun group => ?_⟩
  · refine Catalog.filter_nodup ?_ _
    rw [Catalog.keys_mapValues]
    exact h.keys
  · rw [within_clean h.keys, history, List.filterMap_append]
    have hclean := (h.within group).clean hc
    -- A map without members is dropped, and a new one remembers as much as it did.
    split
    next he =>
      rw [h.ttl_eq]
      exact hclean.renew he
    next => exact hclean

theorem Remembers.step (h : Remembers ttl m clock calls) (c : Call) (hc : clock ≤ c.time) :
    Remembers ttl (m.step c) c.time (calls ++ [c]) := by
  cases c with
  | join now group p => exact h.join hc group p
  | clean now => exact h.clean hc

theorem Remembers.mem_live (h : Remembers ttl m clock calls) (hc : clock ≤ now) (group : Ident)
    (p : Peer) : p ∈ m.live now group ↔ Live ttl calls now group p := by
  have hw := h.within group
  rw [← lives_history, ← hw.get?_iff hc, ← TtlMap.mem_toList hw.sound.keys, live_eq, List.mem_map]
  constructor
  · rintro ⟨e, he, rfl⟩
    exact he
  · intro he
    exact ⟨(p.id, p.address), he, rfl⟩

theorem Remembers.live_nodup (h : Remembers ttl m clock calls) (now : Time) (group : Ident) :
    ((m.live now group).map Peer.id).Nodup := by
  rw [live_eq, List.map_map]
  exact TtlMap.toList_nodup (h.within group).sound.keys now

theorem Remembers.sample (h : Remembers ttl m clock calls) (hc : clock ≤ now) (group : Ident)
    (n : Nat) :
    ∃ live : Finset Peer, (∀ p, p ∈ live ↔ Live ttl calls now group p) ∧
      ∀ choice, let members := m.sample choice now group n
        (members.map Peer.id).Nodup ∧ members.length = min n live.card ∧
        (∀ p ∈ members, p ∈ live) ∧ (live.card ≤ n → ∀ p ∈ live, p ∈ members) := by
  have hids := h.live_nodup now group
  have hcard := List.toFinset_card_of_nodup (List.Nodup.of_map _ hids)
  refine ⟨(m.live now group).toFinset, ?_, fun choice => ⟨choice.pick_nodup n hids, ?_, ?_, ?_⟩⟩
  · intro p
    rw [List.mem_toFinset]
    exact h.mem_live hc group p
  · rw [hcard]
    exact choice.length_pick n _
  · intro p hp
    exact List.mem_toFinset.mpr (choice.pick_subset n p hp)
  · intro hle p hp
    exact (choice.pick_perm n (hcard ▸ hle)).mem_iff.mpr (List.mem_toFinset.mp hp)

theorem Remembers.clean_keys (h : Remembers ttl m clock calls) (hc : clock ≤ now) (group : Ident) :
    group ∈ (m.clean now).groups.keys ↔ ∃ p, Live ttl calls now group p := by
  rw [mem_clean_keys h.keys, TtlMap.isEmpty_eq_false_iff]
  have hstores := ((h.within group).clean_stores hc).entries
  constructor
  · rintro ⟨id, address, he⟩
    exact ⟨⟨id, address⟩, lives_history.mp ((hstores id address).mp he)⟩
  · rintro ⟨p, hp⟩
    exact ⟨p.id, p.address, (hstores p.id p.address).mpr (lives_history.mpr hp)⟩

end Run

end Membership

end Kademlia
