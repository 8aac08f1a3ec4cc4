import Kademlia.Proofs.Lookup.Convergence

/-!
Lookups for members. What they gather from the answers, in order of arrival, are the members with the
first entry of each identifier. Main statement: such a lookup ends with the first answer after which
it has enough of them, or else when nothing is left to wait for, and in either case its finding has
the first ones, and no more than are wanted.
-/

namespace Kademlia

def firstEntries : List Peer → List Peer
  | [] => []
  | p :: rest => p :: (firstEntries rest).filter fun q => q.id ≠ p.id

section FirstEntries

variable (ps qs : List Peer)

theorem firstEntries_append : firstEntries (ps ++ qs) =
    firstEntries ps ++ (firstEntries qs).filter fun q => q.id ∉ ps.map Peer.id := by
  induction ps with
  | nil => simp [firstEntries]
  | cons p rest ih =>
    have hnew : (fun q : Peer => decide (q.id ≠ p.id) && decide (q.id ∉ rest.map Peer.id)) =
        fun q => decide (q.id ∉ (p :: rest).map Peer.id) := by
      funext q
      simp [Bool.decide_and]
    rw [List.cons_append, firstEntries, firstEntries, ih, List.filter_append, List.filter_filter,
      hnew, List.cons_append]

theorem mem_ids_firstEntries (id : Ident) :
    id ∈ (firstEntries ps).map Peer.id ↔ id ∈ ps.map Peer.id := by
  induction ps with
  | nil => rfl
  | cons p rest ih =>
    rw [firstEntries, List.map_cons, List.map_cons, List.mem_cons, List.mem_cons, ← ih]
    by_cases hid : id = p.id
    · simp [hid]
    · simp only [hid, false_or, List.mem_map, List.mem_filter, decide_eq_true_eq]
      constructor
      · rintro ⟨q, ⟨hq, -⟩, rfl⟩
        exact ⟨q, hq, rfl⟩
      · rintro ⟨q, hq, rfl⟩
        exact ⟨q, ⟨hq, hid⟩, rfl⟩

theorem firstEntries_distinct : ((firstEntries ps).map Peer.id).Nodup := by
  induction ps with
  | nil => exact List.nodup_nil
  | cons p rest ih =>
    rw [firstEntries, List.map_cons, List.nodup_cons]
    refine ⟨?_, ih.sublist (List.filter_sublist.map _)⟩
    intro hp
    obtain ⟨q, hq, hid⟩ := List.mem_map.mp hp
    exact of_decide_eq_true (List.mem_filter.mp hq).2 hid

theorem firstEntries_concat (q : Peer) : firstEntries (ps ++ [q]) =
    if (firstEntries ps).any fun p => p.id = q.id then firstEntries ps
    else firstEntries ps ++ [q] := by
  have hknown : ((firstEntries ps).any fun p => p.id = q.id) = true ↔ q.id ∈ ps.map Peer.id := by
    rw [← mem_ids_firstEntries, List.any_eq_true, List.mem_map]
    simp only [decide_eq_true_eq]
  have hone : firstEntries [q] = [q] := rfl
  rw [firstEntries_append, hone]
  by_cases hq : q.id ∈ ps.map Peer.id
  · rw [if_pos (hknown.mpr hq)]
    simp [-List.mem_map, hq]
  · rw [if_neg (mt hknown.mp hq)]
    simp [-List.mem_map, hq]

/-- Joining members one by one keeps the first entry of each identifier. -/
theorem joinMembers_firstEntries :
    Lookup.joinMembers (firstEntries ps) qs = firstEntries (ps ++ qs) := by
  induction qs generalizing ps with
  | nil => rw [List.append_nil, Lookup.joinMembers, List.foldl_nil]
  | cons q rest ih =>
    rw [← List.singleton_append, ← List.append_assoc, ← ih, firstEntries_concat]
    rfl

end FirstEntries

namespace Lookup

/-- The members that a call names, if it is a response that a running lookup accepts. -/
def names (l : Lookup) : Call → List (List Peer)
  | .respond now sender peers (.members members) =>
    (l.accepts (.respond now sender peers (.members members))).map fun _ => members
  | _ => []

def named (l : Lookup) : List Call → List (List Peer)
  | [] => []
  | c :: calls => l.names c ++ (l.step c).1.named calls

/-- After these answers enough different members are known. Without an answer there are not even
none of them. -/
def Enough (wanted : Nat) (answers : List (List Peer)) : Prop :=
  answers ≠ [] ∧ wanted ≤ (firstEntries answers.flatten).length

/-- What a lookup for members has made of the answers so far. -/
structure Gathers (of : GroupKind) (wanted : Nat) (answers : List (List Peer)) (l : Lookup) :
    Prop where
  pursuit : l.pursuit = .members of wanted ((firstEntries answers.flatten).take wanted)
  ended : l.finished = true ↔ Enough wanted answers ∨ l.Exhausted

section Gathering

variable {l : Lookup} {of : GroupKind} {wanted : Nat} {answers : List (List Peer)}

/-- A lookup that is pumped without enough members goes on until nothing is left to wait for. -/
theorem pump_gathers (h : l.Coherent) (hf : l.finished = false) (now : Time)
    (hp : l.pursuit = .members of wanted ((firstEntries answers.flatten).take wanted))
    (hn : ¬ Enough wanted answers) : Gathers of wanted answers (l.pump now).1 := by
  refine ⟨(pump_pursuit h now).trans hp, ?_⟩
  rw [or_iff_right hn]
  refine ⟨pump_endsExhausted h hf now, fun hx => ?_⟩
  by_contra hg
  exact (pump_steady h now).going (by simpa using hg) hx

theorem Gathers.not_enough (h : Gathers of wanted answers l) (hf : l.finished = false) :
    ¬ Enough wanted answers := fun he => by
  have hend := h.ended.mpr (Or.inl he)
  rw [hf] at hend
  cases hend

theorem Gathers.pursuit_running (h : Gathers of wanted answers l) (hf : l.finished = false) :
    l.pursuit = .members of wanted (firstEntries answers.flatten) := by
  have hall : (firstEntries answers.flatten).take wanted = firstEntries answers.flatten := by
    by_cases ha : answers = []
    · simp [ha, firstEntries]
    · exact List.take_of_length_le (Nat.le_of_not_le fun hle => h.not_enough hf ⟨ha, hle⟩)
  rw [h.pursuit, hall]

/-- Members that are taken in are gathered too, and complete the content if they are enough now. -/
theorem Gathers.takeIn (h : Gathers of wanted answers l) (hf : l.finished = false)
    (sender : Ident) (members : List Peer) :
    Lookup.takeIn sender l.pursuit (.members members) =
      (.members of wanted ((firstEntries (answers ++ [members]).flatten).take wanted),
        decide (wanted ≤ (firstEntries (answers ++ [members]).flatten).length)) := by
  have hflat : (answers ++ [members]).flatten = answers.flatten ++ members := by simp
  simp only [h.pursuit_running hf, Lookup.takeIn, joinMembers_firstEntries, ← hflat]
  by_cases henough : wanted ≤ (firstEntries (answers ++ [members]).flatten).length
  · rw [if_pos henough, decide_eq_true henough]
  · rw [if_neg henough, decide_eq_false henough, List.take_of_length_le (Nat.le_of_not_le henough)]

theorem Gathers.answered_enough (hg : Gathers of wanted answers l) {sender : Ident}
    (hw : l.Awaits sender) (now : Time) (peers : List Peer) {members : List Peer}
    (he : Enough wanted (answers ++ [members])) :
    l.answered now sender peers (.members members) =
      (l.taken sender peers (.members members)).finish := by
  rw [answered, hg.takeIn hw.1, if_pos (decide_eq_true he.2)]

theorem answered_gathers (h : l.Steady) (hg : Gathers of wanted answers l) {sender : Ident}
    (hw : l.Awaits sender) (now : Time) (peers members : List Peer) :
    Gathers of wanted (answers ++ [members])
      (l.answered now sender peers (.members members)).1 := by
  have htaken : (l.taken sender peers (.members members)).pursuit =
      .members of wanted ((firstEntries (answers ++ [members]).flatten).take wanted) :=
    congrArg Prod.fst (hg.takeIn hw.1 sender members)
  by_cases he : Enough wanted (answers ++ [members])
  · rw [hg.answered_enough hw now peers he]
    exact ⟨htaken, iff_of_true rfl (Or.inl he)⟩
  · have hfew : ¬ wanted ≤ (firstEntries (answers ++ [members]).flatten).length := fun hle =>
      he ⟨by simp, hle⟩
    rw [answered, hg.takeIn hw.1, decide_eq_false hfew, if_neg (by simp)]
    exact pump_gathers (taken_coherent h.coherent sender peers _)
      (by rw [taken_finished, hw.1]) now htaken he

theorem answered_gathers_none (h : l.Steady) (hg : Gathers of wanted answers l) {sender : Ident}
    (hw : l.Awaits sender) (now : Time) (peers : List Peer) {content : Content}
    (hc : ∀ members, content ≠ .members members) :
    Gathers of wanted answers (l.answered now sender peers content).1 := by
  have htake : Lookup.takeIn sender l.pursuit content = (l.pursuit, false) := by
    rw [hg.pursuit]
    cases content with
    | members members => exact absurd rfl (hc members)
    | none => rfl
    | value value => rfl
  have htaken : (l.taken sender peers content).pursuit = l.pursuit := congrArg Prod.fst htake
  rw [answered, htake, if_neg (by simp)]
  exact pump_gathers (taken_coherent h.coherent sender peers _)
    (by rw [taken_finished, hw.1]) now (htaken.trans hg.pursuit) (hg.not_enough hw.1)

theorem Gathers.sequential : Sequential fun l r =>
    Gathers of wanted answers l → Gathers of wanted answers r.1 where
  stay _ h := h
  trans _ _ _ _ hr hs h := hs (hr h)
  failure l now id _ h hf _ _ hg :=
    pump_gathers (settle_coherent h.coherent id (by simp)) hf now hg.pursuit (hg.not_enough hf)

theorem names_cases (l : Lookup) (c : Call) : l.names c = [] ∨
    ∃ now sender peers members, c = .respond now sender peers (.members members) ∧
      l.Awaits sender ∧ l.names c = [members] := by
  unfold names
  split
  next now sender peers members =>
    rcases l.respond_step now sender peers (.members members) with ⟨hw, -, ha⟩ | ⟨-, -, ha⟩
    · exact Or.inr ⟨now, sender, peers, members, rfl, hw, by rw [ha, List.map_singleton]⟩
    · exact Or.inl (by rw [ha, List.map_nil])
  next => exact Or.inl rfl

theorem Gathers.step (hg : Gathers of wanted answers l) (h : l.Steady) (c : Call) :
    Gathers of wanted (answers ++ l.names c) (l.step c).1 := by
  cases c with
  | giveUp now id => simpa [Lookup.step, names] using Gathers.sequential.giveUp h now id hg
  | sweep now => simpa [Lookup.step, names] using Gathers.sequential.sweep h now hg
  | respond now sender peers content =>
    rcases l.respond_step now sender peers content with ⟨hw, hr, ha⟩ | ⟨-, hr, ha⟩
    · rw [hr]
      cases content with
      | members members =>
        simpa [names, ha] using answered_gathers h hg hw now peers members
      | none => simpa [names] using answered_gathers_none h hg hw now peers (by simp)
      | value value => simpa [names] using answered_gathers_none h hg hw now peers (by simp)
    · rw [hr]
      cases content with
      | members members => simpa [names, ha] using hg
      | none => simpa [names] using hg
      | value value => simpa [names] using hg

theorem Gathers.play (hg : Gathers of wanted answers l) (h : l.Steady) (calls : List Call) :
    Gathers of wanted (answers ++ l.named calls) (l.play calls).1 := by
  induction calls generalizing l answers with
  | nil => simpa [named, Lookup.play] using hg
  | cons c calls ih =>
    have hall := ih (hg.step h c) (step_steady h c).1
    rwa [List.append_assoc] at hall

theorem named_append (l : Lookup) (calls more : List Call) :
    l.named (calls ++ more) = l.named calls ++ (l.play calls).1.named more := by
  induction calls generalizing l with
  | nil => rfl
  | cons c calls ih =>
    rw [List.cons_append, named, named, ih, List.append_assoc]
    rfl

end Gathering

section Life

variable (context : UInt64) (p : Parameters) (d : Directory) (of : GroupKind) (id : Ident)
  (sample : Option Nat) (start : Time) (calls : List Call)

theorem life_gathers :
    let fresh := Lookup.new context p d (.members of id sample)
    Gathers of (sample.getD p.k) ((fresh.start start).1.named calls)
      (fresh.life start calls).1 := by
  intro fresh
  have hc := new_coherent context p d (.members of id sample)
  have hnone : fresh.pursuit = .members of (sample.getD p.k)
      ((firstEntries ([] : List (List Peer)).flatten).take (sample.getD p.k)) := by
    rw [new_pursuit]
    simp [begin, firstEntries]
  have hfirst : Gathers of (sample.getD p.k) [] (fresh.start start).1 :=
    pump_gathers hc (new_finished context p d _) start hnone fun he => he.1 rfl
  exact hfirst.play (start_steady hc start).1 calls

/-- In every run of a lookup for members: it has ended exactly if enough different members have been
named, or if nothing is left to wait for. What makes them enough is an accepted response that names
members, and this call ends the lookup and sends nothing more. The finding has the first entries of
different identifiers, in the order in which they were named: as many as are wanted, or all of them
if they are fewer. -/
theorem ends_with_enough_members (context : UInt64) (p : Parameters) (d : Directory)
    (of : GroupKind) (id : Ident) (sample : Option Nat) (start : Time) (calls : List Call) :
    let fresh := Lookup.new context p d (.members of id sample)
    let first := (fresh.start start).1
    let wanted := sample.getD p.k
    let r := fresh.life start calls
    let distinct := firstEntries (first.named calls).flatten
    (r.1.finished = true ↔ Enough wanted (first.named calls) ∨ r.1.Exhausted) ∧
    (∀ c, r.1.finished = false → Enough wanted (first.named (calls ++ [c])) →
      let s := fresh.life start (calls ++ [c])
      (∃ now sender peers members t, c = .respond now sender peers (.members members) ∧
        r.1.respond now sender peers (.members members) = .ok t) ∧
      s.1.finished = true ∧ s.2.requests = r.2.requests) ∧
    (r.1.finished = true → ∃ closest,
      r.2.finding = some (.members id closest (distinct.take wanted))) ∧
    (distinct.take wanted).length = min wanted distinct.length ∧
    ((distinct.take wanted).map Peer.id).Nodup := by
  intro fresh first wanted r distinct
  have hc := new_coherent context p d (.members of id sample)
  obtain ⟨hs, ht⟩ := life_steady hc start calls
  have hg : Gathers of wanted (first.named calls) r.1 :=
    life_gathers context p d of id sample start calls
  refine ⟨hg.ended, fun c hf he => ?_, fun hend => ?_, List.length_take, ?_⟩
  · have hlast : first.named (calls ++ [c]) = first.named calls ++ r.1.names c := by
      rw [named_append, named, named, List.append_nil]
      rfl
    rcases r.1.names_cases c with hnone | ⟨now, sender, peers, members, rfl, hw, hnames⟩
    · rw [hlast, hnone, List.append_nil] at he
      exact absurd he (hg.not_enough hf)
    have hnext := life_gathers context p d of id sample start
      (calls ++ [.respond now sender peers (.members members)])
    refine ⟨⟨now, sender, peers, members, _, rfl, respond_awaited hw now peers _⟩,
      hnext.ended.mpr (Or.inl he), ?_⟩
    rw [hlast, hnames] at he
    have hstep : r.1.play [.respond now sender peers (.members members)] =
        (r.1.taken sender peers (.members members)).finish := by
      simp only [play, Lookup.step, respond_awaited hw, hg.answered_enough hw now peers he,
        Effects.append_idle]
    rw [life_append, hstep]
    exact List.append_nil _
  · have htarget : r.1.target = id :=
      ((new_sameTask context p d (.members of id sample)).trans ht).target
    have hfinding : r.2.finding = if r.1.finished = true then some r.1.finding else none :=
      life_finding context p d (.members of id sample) start calls
    refine ⟨r.1.finding.nearby, ?_⟩
    rw [hfinding, if_pos hend, finding_nearby]
    simp only [finding, hg.pursuit, htarget]
    rfl
  · exact (firstEntries_distinct _).sublist ((List.take_sublist _ _).map _)

/-- A lookup for two members that asks peers 3 and 2 at once. Peer 3 names peer 6, which is asked as
well, and member 8 twice. -/
def sampling (more : List Call) : Lookup × Effects :=
  (Lookup.new 7 { k := 3, alpha := 2 } pairTables (.members .swarm (numbered 3).id (some 2))).life 0
    ([.respond 1 (numbered 3).id [numbered 6]
      (.members [numbered 8, ⟨(numbered 8).id, .loopback 80⟩])] ++ more)

/-- Member 8 counts once, so it is peer 2 that makes the members enough. It names one too many. -/
theorem ends_with_enough_members_overshot :
    let call := Call.respond 2 (numbered 2).id [] (.members [numbered 8, numbered 9, numbered 10])
    (sampling []).1.finished = false ∧
    (sampling [call]).1.finished = true ∧ (sampling [call]).2.requests = (sampling []).2.requests ∧
    ∃ closest, (sampling [call]).2.finding =
      some (.members (numbered 3).id closest [numbered 8, numbered 9]) := by
  intro call
  have hrunning : (sampling []).1.finished = false := by cbv
  have hall := ends_with_enough_members 7 { k := 3, alpha := 2 } pairTables .swarm (numbered 3).id
    (some 2) 0
  obtain ⟨-, hends, -⟩ := hall [.respond 1 (numbered 3).id [numbered 6]
      (.members [numbered 8, ⟨(numbered 8).id, .loopback 80⟩])]
  obtain ⟨-, -, hfinding, -⟩ := hall [.respond 1 (numbered 3).id [numbered 6]
      (.members [numbered 8, ⟨(numbered 8).id, .loopback 80⟩]), call]
  obtain ⟨-, hend, hquiet⟩ := hends call hrunning ⟨by cbv; simp, by cbv⟩
  obtain ⟨closest, hfound⟩ := hfinding hend
  refine ⟨hrunning, hend, hquiet, closest, hfound.trans ?_⟩
  cbv

end Life

end Lookup

end Kademlia
