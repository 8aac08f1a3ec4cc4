import Kademlia.Coalescer
import Kademlia.Proofs.Lookup.Convergence

/-!
What a lookup has been asked, which no step changes. Main statements: a lookup that has come out of
some goal sends no requests but those of this goal, and delivers a finding that answers its question.
-/

namespace Kademlia

/-- The finding tells about what was asked for, and of no more members than were asked for. -/
def Finding.Answers : Question → Finding → Prop
  | .closest table target, .closest foundTable foundTarget _ =>
    foundTable = table ∧ foundTarget = target
  | .value key, .value foundKey _ _ _ _ => foundKey = key
  | .members _ id sample, .members foundId _ found => foundId = id ∧ found.length ≤ sample
  | _, _ => False

def Goal.request (context : UInt64) : Goal → Request
  | .closest table target =>
    .findNode context target (if table = mainTable then none else some table)
  | .value key => .findValue context key
  | .members of id _ => .findMembers of context id

def Pursuit.question (target : Ident) : Pursuit → Question
  | .closest table => .closest table target
  | .value _ => .value target
  | .members of wanted _ => .members of target wanted

def Pursuit.Short : Pursuit → Prop
  | .members _ wanted found => found.length ≤ wanted
  | _ => True

namespace Lookup

def question (l : Lookup) : Question := l.pursuit.question l.target

section Pursued

theorem takeIn_question (sender : Ident) (pursuit : Pursuit) (content : Content)
    (target : Ident) :
    (takeIn sender pursuit content).1.question target = pursuit.question target := by
  unfold takeIn
  split
  next => rfl
  next => dsimp only; split <;> rfl
  next => rfl

theorem takeIn_short (sender : Ident) {pursuit : Pursuit} (h : pursuit.Short)
    (content : Content) : (takeIn sender pursuit content).1.Short := by
  unfold takeIn
  split
  next => trivial
  next of wanted found members =>
    dsimp only
    split
    next => exact List.length_take_le _ _
    next hw => exact Nat.le_of_not_le hw
  next => exact h

/-- The question stays, and the members found stay within what is wanted. -/
structure Pursues (l : Lookup) (r : Lookup × Effects) : Prop where
  question : r.1.question = l.question
  short : l.pursuit.Short → r.1.pursuit.Short

theorem taken_question (l : Lookup) (sender : Ident) (peers : List Peer) (content : Content) :
    (l.taken sender peers content).question = l.question := by
  rw [question, (taken_sameTask l sender peers content).target]
  exact takeIn_question sender l.pursuit content l.target

theorem pump_pursues {l : Lookup} (h : l.Coherent) (now : Time) : Pursues l (l.pump now) := by
  have hp := pump_pursuit h now
  refine ⟨?_, fun hs => hp ▸ hs⟩
  rw [question, question, hp, (pump_sameTask h now).target]

theorem pursues_compositional : Compositional Pursues where
  stay _ := ⟨rfl, id⟩
  trans _ _ _ _ hr hs := ⟨hs.question.trans hr.question, hs.short ∘ hr.short⟩
  failure l now id _ h _ _ _ := by
    have hk : (l.settle id .failed).Coherent := settle_coherent h.coherent id (by simp)
    have hp := pump_pursues hk now
    exact ⟨hp.question, hp.short⟩
  answer l now sender peers content h _ := by
    have hq := l.taken_question sender peers content
    have hs : l.pursuit.Short → (l.taken sender peers content).pursuit.Short := fun h =>
      takeIn_short sender h content
    unfold answered
    split
    · exact ⟨hq, hs⟩
    · have hp := pump_pursues (taken_coherent h.coherent sender peers content) now
      exact ⟨hp.question.trans hq, hp.short ∘ hs⟩

theorem pursuit_sequential : Sequential fun l r => r.1.pursuit = l.pursuit where
  stay _ := rfl
  trans _ _ _ _ hr hs := hs.trans hr
  failure _ now id _ h _ _ _ := pump_pursuit (settle_coherent h.coherent id (by simp)) now

/-- Only what is taken in from a response changes what a lookup has gathered. -/
theorem step_pursuit {l : Lookup} (h : l.Steady) (c : Call) : (l.step c).1.pursuit = l.pursuit ∨
    ∃ now sender peers content, c = .respond now sender peers content ∧
      (l.step c).1.pursuit = (takeIn sender l.pursuit content).1 := by
  cases c with
  | giveUp now id => exact Or.inl (pursuit_sequential.giveUp h now id)
  | sweep now => exact Or.inl (pursuit_sequential.sweep h now)
  | respond now sender peers content =>
    rcases l.respond_step now sender peers content with ⟨-, hr, -⟩ | ⟨-, hr, -⟩
    · refine Or.inr ⟨now, sender, peers, content, rfl, ?_⟩
      rw [hr, answered]
      split
      · rfl
      · exact pump_pursuit (taken_coherent h.coherent sender peers content) now
    · exact Or.inl (by rw [hr])

end Pursued

section Requests

variable {l m : Lookup}

theorem request_congr (hq : m.question = l.question) (hc : m.context = l.context) :
    m.request = l.request := by
  unfold question at hq
  unfold request
  cases hl : l.pursuit <;> cases hm : m.pursuit <;> simp_all [Pursuit.question]

theorem request_of_goal {goal : Goal} {k : Nat} (h : l.question = goal.question k) :
    l.request = goal.request l.context := by
  unfold question at h
  unfold request
  cases hl : l.pursuit <;> cases goal <;> simp_all [Pursuit.question, Goal.question, Goal.request]

theorem pump_asks (h : l.Coherent) (now : Time) :
    ∀ o ∈ (l.pump now).2.requests, o.request = l.request := by
  obtain ⟨n, out, ha, -, -, ⟨-, he⟩ | ⟨-, he⟩⟩ := pump_cases h now
  all_goals
    rw [he]
    intro o ho
    exact (ha.sent o ho).2.1

theorem asks_compositional : Compositional fun l r =>
    r.1.question = l.question ∧ ∀ o ∈ r.2.requests, o.request = l.request where
  stay _ := ⟨rfl, List.forall_mem_nil _⟩
  trans l r s ht hr hs := by
    refine ⟨hs.1.trans hr.1, ?_⟩
    intro o ho
    rcases List.mem_append.mp ho with ho | ho
    · exact hr.2 o ho
    · exact (hs.2 o ho).trans (request_congr hr.1 ht.context)
  failure l now id p h hf hp hne := by
    have hk : (l.settle id .failed).Coherent := settle_coherent h.coherent id (by simp)
    exact ⟨(pursues_compositional.failure l now id p h hf hp hne).question, pump_asks hk now⟩
  answer l now sender peers content h hw := by
    refine ⟨(pursues_compositional.answer l now sender peers content h hw).question, ?_⟩
    have hsame : (l.taken sender peers content).request = l.request :=
      request_congr (l.taken_question sender peers content)
        (taken_sameTask l sender peers content).context
    unfold answered
    split
    · exact List.forall_mem_nil _
    · rw [← hsame]
      exact pump_asks (taken_coherent h.coherent sender peers content) now

end Requests

theorem finding_answers {l : Lookup} (h : l.pursuit.Short) : l.finding.Answers l.question := by
  unfold finding question
  cases hp : l.pursuit with
  | closest table => exact ⟨rfl, rfl⟩
  | value found => exact rfl
  | members of wanted found =>
    rw [hp] at h
    exact ⟨rfl, h⟩

section Life

variable (context : UInt64) (p : Parameters) (d : Directory) (goal : Goal) (start : Time)
  (calls : List Call)

theorem begin_question (k : Nat) : (begin k goal).question goal.target = goal.question k := by
  cases goal <;> rfl

theorem begin_short (k : Nat) : (begin k goal).Short := by
  cases goal <;> simp [begin, Pursuit.Short]

theorem new_question : (Lookup.new context p d goal).question = goal.question p.k := by
  rw [question, new_pursuit, (new_sameTask context p d goal).target]
  exact begin_question goal p.k

/-- All its life a lookup pursues the question of its goal. -/
theorem life_question :
    let r := (Lookup.new context p d goal).life start calls
    r.1.question = goal.question p.k ∧ r.1.pursuit.Short := by
  intro r
  have hc := new_coherent context p d goal
  have hr : Pursues (Lookup.new context p d goal) r :=
    pursues_compositional.life hc start calls (pump_pursues hc start)
  have hpursuit := new_pursuit context p d goal
  exact ⟨hr.question.trans (new_question context p d goal),
    hr.short (hpursuit ▸ begin_short goal p.k)⟩

theorem life_requests :
    ∀ o ∈ ((Lookup.new context p d goal).life start calls).2.requests,
      o.request = goal.request context := by
  have hc := new_coherent context p d goal
  have hcontext : (Lookup.new context p d goal).context = context :=
    (new_sameTask context p d goal).context
  have hstart : (Lookup.new context p d goal).request = goal.request context := by
    rw [request_of_goal (new_question context p d goal), hcontext]
  rw [← hstart]
  exact (asks_compositional.life hc start calls
    ⟨(pump_pursues hc start).question, pump_asks hc start⟩).2

theorem life_answers {f : Finding}
    (h : ((Lookup.new context p d goal).life start calls).2.finding = some f) :
    f.Answers (goal.question p.k) := by
  obtain ⟨hq, hs⟩ := life_question context p d goal start calls
  rw [life_finding] at h
  split at h
  next =>
    cases h
    exact hq ▸ finding_answers hs
  next => cases h

end Life

end Lookup

end Kademlia
