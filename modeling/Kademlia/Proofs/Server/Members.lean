import Kademlia.Proofs.Membership
import Kademlia.Proofs.Server

/-!
The members of swarms and pools that a server names. Main statement: an answer lists as many of the
current members as it may, which are those whose last join is no longer ago than the time to live.
-/

namespace Kademlia.Server

section Calls

def Call.membership? (of : GroupKind) : Call → Option Membership.Call
  | .handle _ now _ sender (.join kind group) =>
    if kind = of then some (.join now group sender) else none
  | .handle .. => none
  | .clean now => some (.clean now)

def memberCalls (calls : List Call) (of : GroupKind) : List Membership.Call :=
  calls.filterMap (Call.membership? of)

theorem memberCalls_concat (calls : List Call) (c : Call) (of : GroupKind) :
    memberCalls (calls ++ [c]) of = memberCalls calls of ++ (c.membership? of).toList := by
  rw [memberCalls, List.filterMap_append]
  cases hc : c.membership? of with
  | none => rw [List.filterMap_cons_none hc]; rfl
  | some m => rw [List.filterMap_cons_some hc]; rfl

theorem Call.time_of_membership? {of : GroupKind} {c : Call} {m : Membership.Call}
    (h : c.membership? of = some m) : m.time = c.time := by
  unfold Call.membership? at h
  split at h
  · obtain ⟨-, ⟨⟩⟩ := Option.ite_none_right_eq_some.mp h
    rfl
  · cases h
  · cases h
    rfl

def Call.Joins (of : GroupKind) (group : Ident) : Call → Prop
  | .handle _ _ _ _ request => request = .join of group
  | .clean _ => False

theorem Call.joins?_membership? {of : GroupKind} {group : Ident} {c : Call}
    (h : ¬ c.Joins of group) (member : Ident) :
    (c.membership? of).bind (Membership.Call.joins? group member) = none := by
  cases c with
  | clean now => rfl
  | handle choice now tables sender request =>
    cases request with
    | join kind other =>
      by_cases hk : kind = of
      · have hg : other ≠ group := fun hg => h (by rw [Call.Joins, hk, hg])
        simp [Call.membership?, Membership.Call.joins?, hk, hg]
      · simp [Call.membership?, hk]
    | findNode context target table => rfl
    | findValue context key => rfl
    | findMembers kind context id => rfl
    | store key value => rfl

end Calls

section Run

/-- Swarms and pools go their own ways. -/
theorem members_step (s : Server) (c : Call) (of : GroupKind) :
    (s.step c).members of = (c.membership? of).elim (s.members of) (s.members of).step := by
  cases c with
  | clean now => cases of <;> rfl
  | handle choice now tables sender request =>
    cases request with
    | join kind group => cases kind <;> cases of <;> rfl
    | findNode context target table => rfl
    | findValue context key => cases of <;> rfl
    | findMembers kind context id => rfl
    | store key value => cases of <;> rfl

theorem sampleSize_step (s : Server) (c : Call) : (s.step c).sampleSize = s.sampleSize := by
  cases c with
  | clean now => rfl
  | handle choice now tables sender request =>
    cases request with
    | join of group => cases of <;> rfl
    | findNode context target table => rfl
    | findValue context key => rfl
    | findMembers of context id => rfl
    | store key value => rfl

theorem sampleSize_play (s : Server) (calls : List Call) :
    (s.play calls).sampleSize = s.sampleSize := by
  induction calls generalizing s with
  | nil => rfl
  | cons c calls ih => rw [play_cons, ih, sampleSize_step]

/-- The members of both kinds after some calls, the last one at the time of the clock. -/
def Remembers (ttl : Duration) (s : Server) (clock : Time) (calls : List Call) : Prop :=
  ∀ of, (s.members of).Remembers ttl clock (memberCalls calls of)

variable {ttl : Duration} {s : Server} {clock now : Time} {calls : List Call}

theorem new_remembers (p : Parameters) (clock : Time) :
    Remembers p.memberTtl (Server.new p) clock [] := by
  intro of
  cases of <;> exact Membership.new_remembers p.memberTtl clock

theorem Remembers.mono (h : Remembers ttl s clock calls) (hc : clock ≤ now) :
    Remembers ttl s now calls := fun of => (h of).mono hc

theorem Remembers.step (h : Remembers ttl s clock calls) (c : Call) (hc : clock ≤ c.time) :
    Remembers ttl (s.step c) c.time (calls ++ [c]) := by
  intro of
  rw [memberCalls_concat, members_step]
  cases hm : c.membership? of with
  | none =>
    rw [Option.toList_none, List.append_nil]
    exact (h of).mono hc
  | some m =>
    have htime : m.time = c.time := c.time_of_membership? hm
    rw [← htime] at hc ⊢
    exact (h of).step m hc

theorem Remembers.play (h : Remembers ttl s clock calls) (more : List Call)
    (ht : (clock :: (more.map Call.time ++ [now])).Pairwise (· ≤ ·)) :
    Remembers ttl (s.play more) now (calls ++ more) :=
  kept_by_timed_run (P := Remembers ttl) (fun h hc => h.mono hc) (fun c h hc => h.step c hc) h
    more ht

end Run

section Current

/-- The peer joined the group, most recently from this address and no longer ago than the time to
live. -/
def Live (ttl : Duration) (calls : List Call) (now : Time) (of : GroupKind) (group : Ident)
    (q : Peer) : Prop :=
  Membership.Live ttl (memberCalls calls of) now group q

variable {ttl : Duration} {calls : List Call} {now : Time} {of : GroupKind} {group : Ident}

theorem live_concat {c : Call} (h : ¬ c.Joins of group) (q : Peer) :
    Live ttl (calls ++ [c]) now of group q ↔ Live ttl calls now of group q := by
  have hnone := c.joins?_membership? h q.id
  have hlast : Membership.lastJoin (memberCalls (calls ++ [c]) of) group q.id =
      Membership.lastJoin (memberCalls calls of) group q.id := by
    rw [memberCalls_concat, Membership.lastJoin, List.filterMap_append, Membership.lastJoin]
    cases hc : c.membership? of with
    | none => simp
    | some m =>
      rw [hc, Option.bind_some] at hnone
      simp [hnone]
  rw [Live, Membership.Live, hlast]
  rfl

/-- Take a run in which time only goes on. Asked for the members of a group, the server names peers
that differ, as many as it may of those whose last join of that group is no longer ago than the time
to live, each with the address of that join; whatever else is called does not change who these are.
After a cleaning just the groups are left in which anybody lives. -/
theorem names_current_members (p : Parameters) (calls : List Call) (now : Time)
    (htimes : (calls.map Call.time ++ [now]).Pairwise (· ≤ ·)) :
    let s := (Server.new p).play calls
    (∀ of group, ∃ live : Finset Peer, (∀ q, q ∈ live ↔ Live p.memberTtl calls now of group q) ∧
      ∀ choice tables sender context, ∃ members,
        s.handle choice now tables sender (.findMembers of context group) =
          (some (.findMembers of context (tables.closest mainTable group (some sender.id)) members),
            s) ∧
        (members.map Peer.id).Nodup ∧ members.length = min p.k live.card ∧
        (∀ q ∈ members, q ∈ live) ∧ (live.card ≤ p.k → ∀ q ∈ live, q ∈ members)) ∧
    (∀ of group call later, ¬ call.Joins of group → now ≤ call.time → call.time ≤ later →
      ∀ q, q ∈ ((s.step call).members of).live later group ↔
        q ∈ (s.members of).live later group) ∧
    ∀ of, let kept := ((s.clean now).members of).groups.keys
      kept.Nodup ∧ ∀ group, group ∈ kept ↔ ∃ q, Live p.memberTtl calls now of group q := by
  intro s
  have hclock : (0 :: (calls.map Call.time ++ [now])).Pairwise (· ≤ ·) :=
    List.pairwise_cons.mpr ⟨fun _ _ => Nat.zero_le _, htimes⟩
  have hs : Remembers p.memberTtl s now calls := (new_remembers p 0).play calls hclock
  refine ⟨?_, ?_, ?_⟩
  · intro of group
    obtain ⟨live, hlive, hsample⟩ := (hs of).sample (Nat.le_refl now) group p.k
    refine ⟨live, hlive, fun choice tables sender context => ⟨_, ?_, hsample choice⟩⟩
    have hsize : s.sampleSize = p.k := sampleSize_play _ calls
    rw [← hsize]
    rfl
  · intro of group call later hjoins hcall hlater q
    rw [(hs.step call hcall of).mem_live hlater, (hs of).mem_live (Nat.le_trans hcall hlater)]
    exact live_concat hjoins q
  · intro of
    have hclean : (s.clean now).members of = (s.members of).clean now :=
      members_step s (.clean now) of
    rw [hclean]
    exact ⟨((hs of).clean (Nat.le_refl now)).keys, (hs of).clean_keys (Nat.le_refl now)⟩

def newcomer (id : Ident) (service : UInt16) : Peer := ⟨id, .loopback service⟩

def first : Ident := ⟨1⟩

def second : Ident := ⟨2⟩

/-- A member comes back to a swarm from another address when the swarm has been forgotten. -/
def returning : List Call :=
  let join := fun now sender of =>
    Call.handle Choice.lowest now (Directory.new ⟨0⟩ 20 20) sender (.join of ⟨9⟩)
  [join 0 (newcomer first 1) .swarm, .clean 6, join 7 (newcomer first 2) .swarm,
    join 8 (newcomer second 3) .swarm, join 9 (newcomer ⟨3⟩ 4) .pool]

theorem lastJoin_returning (id : Ident) :
    Membership.lastJoin (memberCalls returning .swarm) ⟨9⟩ id =
      if id = first then some (7, .loopback 2) else if id = second then some (8, .loopback 3)
      else none := by
  have hcalls : memberCalls returning .swarm =
      [.join 0 ⟨9⟩ (newcomer first 1), .clean 6, .join 7 ⟨9⟩ (newcomer first 2),
        .join 8 ⟨9⟩ (newcomer second 3)] := rfl
  rw [hcalls]
  by_cases h1 : id = first
  · subst h1
    rfl
  · by_cases h2 : id = second
    · subst h2
      rfl
    · simp [Membership.lastJoin, Membership.Call.joins?, newcomer, h1, h2, Ne.symm h1, Ne.symm h2]

theorem live_returning (q : Peer) :
    Live 5 returning 11 .swarm ⟨9⟩ q ↔ q = newcomer first 2 ∨ q = newcomer second 3 := by
  obtain ⟨id, address⟩ := q
  simp only [Live, Membership.Live, lastJoin_returning, newcomer, Peer.mk.injEq]
  constructor
  · rintro ⟨time, hj, -⟩
    split_ifs at hj with h1 h2
    · cases hj
      exact Or.inl ⟨h1, rfl⟩
    · cases hj
      exact Or.inr ⟨h2, rfl⟩
  · rintro (⟨rfl, rfl⟩ | ⟨rfl, rfl⟩)
    · exact ⟨7, rfl, by decide⟩
    · exact ⟨8, rfl, by decide⟩

/-- Both members of the swarm are named, the one that came back with its new address. -/
theorem names_current_members_returning :
    (returning.map Call.time ++ [11]).Pairwise (· ≤ ·) ∧
    ∀ choice tables sender, ∃ members,
      (((Server.new { memberTtl := 5 }).play returning).handle choice 11 tables sender
        (.findMembers .swarm 7 ⟨9⟩)).1 =
        some (.findMembers .swarm 7 (tables.closest mainTable ⟨9⟩ (some sender.id)) members) ∧
      members.length = 2 ∧ newcomer first 2 ∈ members ∧ newcomer second 3 ∈ members := by
  have h := names_current_members { memberTtl := 5 } returning 11 (by decide)
  obtain ⟨live, hlive, hnamed⟩ := h.1 .swarm ⟨9⟩
  have hpair : live = {newcomer first 2, newcomer second 3} := by
    ext q
    rw [hlive, live_returning]
    simp
  have hcard : live.card = 2 := by rw [hpair]; decide
  refine ⟨by decide, fun choice tables sender => ?_⟩
  obtain ⟨members, hanswer, -, hlength, -, hall⟩ := hnamed choice tables sender 7
  refine ⟨members, congrArg Prod.fst hanswer, ?_, ?_, ?_⟩
  · rw [hlength, hcard]
    rfl
  · exact hall (by rw [hcard]; decide) _ (by simp [hpair])
  · exact hall (by rw [hcard]; decide) _ (by simp [hpair])

end Current

end Kademlia.Server
