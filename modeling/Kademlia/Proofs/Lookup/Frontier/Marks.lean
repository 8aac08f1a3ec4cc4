import Mathlib.Data.List.TakeWhile
import Kademlia.Proofs.Lookup.Frontier

/-!
A frontier against all calls that have been made on it, in any order and with any identifiers. Main
statement: it lists each peer that was ever added once, closest first, with the progress of the last
mark that came after the peer was added.
-/

namespace Kademlia.Frontier

section Calls

/-- A mark may name a peer that is not known, and may set any progress whatever was set before. -/
inductive Call where
  | add (id : Ident)
  | mark (id : Ident) (progress : Progress)
  deriving DecidableEq, Repr

def Call.mark? (id : Ident) : Call → Option Progress
  | .add _ => none
  | .mark other progress => if other = id then some progress else none

def perform (f : Frontier) : Call → Bool × Frontier
  | .add id => f.add id
  | .mark id progress => f.mark id progress

def play (f : Frontier) (calls : List Call) : Frontier :=
  calls.foldl (fun f c => (f.perform c).2) f

/-- The marks of a peer since it was first added; those before had no effect. -/
def marks (calls : List Call) (id : Ident) : List Progress :=
  (calls.dropWhile fun c => c ≠ .add id).filterMap (Call.mark? id)

/-- The last mark of a peer that had an effect. Without any, it is as it was added. -/
def lastMark (calls : List Call) (id : Ident) : Progress :=
  (marks calls id).getLast?.getD .pending

variable {calls : List Call} {id : Ident}

theorem marks_concat (h : .add id ∈ calls) (c : Call) :
    marks (calls ++ [c]) id = marks calls id ++ (c.mark? id).toList := by
  have hsince : ¬ (calls.dropWhile fun c => c ≠ .add id).isEmpty = true := by
    rw [List.isEmpty_iff, List.dropWhile_eq_nil_iff]
    intro hall
    exact of_decide_eq_true (hall _ h) rfl
  rw [marks, List.dropWhile_append, if_neg hsince, List.filterMap_append, marks]
  cases hm : c.mark? id with
  | none => simp [hm]
  | some progress => simp [hm]

theorem marks_of_added (h : .add id ∉ calls) : marks (calls ++ [.add id]) id = [] := by
  have hbefore : ∀ c ∈ calls, decide (c ≠ .add id) = true := by
    intro c hc
    apply decide_eq_true
    rintro rfl
    exact h hc
  rw [marks, List.dropWhile_append_of_pos hbefore]
  simp [Call.mark?]

theorem lastMark_concat (h : .add id ∈ calls) (c : Call) :
    lastMark (calls ++ [c]) id = (c.mark? id).getD (lastMark calls id) := by
  rw [lastMark, marks_concat h]
  cases c.mark? id with
  | none => simp [lastMark]
  | some progress => simp

end Calls

section Runs

variable {f : Frontier} {calls : List Call}

/-- The frontier after some calls: it knows what was added, and of each how it was marked last. -/
structure Follows (f : Frontier) (calls : List Call) : Prop where
  sound : f.Sound
  told : ∀ id, f.progress? id = if .add id ∈ calls then some (lastMark calls id) else none

theorem new_follows (k : Nat) (target : Ident) : Follows (new k target) [] := by
  refine ⟨⟨List.Pairwise.nil, rfl⟩, ?_⟩
  intro id
  simp [new, progress?]

theorem Follows.add (h : Follows f calls) (id : Ident) :
    Follows (f.add id).2 (calls ++ [.add id]) := by
  refine ⟨add_sound h.sound id, ?_⟩
  intro other
  rw [progress?_add h.sound, h.told, h.told]
  by_cases ho : other = id
  · subst ho
    by_cases hk : .add other ∈ calls
    · simp [hk, lastMark_concat hk, Call.mark?]
    · simp [hk, lastMark, marks_of_added hk]
  · by_cases hk : .add other ∈ calls
    · simp [hk, ho, lastMark_concat hk, Call.mark?]
    · simp [hk, ho]

theorem Follows.mark (h : Follows f calls) (id : Ident) (progress : Progress) :
    Follows (f.mark id progress).2 (calls ++ [.mark id progress]) := by
  refine ⟨mark_sound h.sound id progress, ?_⟩
  intro other
  rw [progress?_mark h.sound, h.told, h.told]
  by_cases hk : .add other ∈ calls
  · by_cases ho : other = id
    · subst ho
      simp [hk, lastMark_concat hk, Call.mark?]
    · simp [hk, ho, Ne.symm ho, lastMark_concat hk, Call.mark?]
  · by_cases ho : other = id
    · subst ho
      simp [hk]
    · simp [hk, ho]

theorem Follows.step (h : Follows f calls) (c : Call) :
    Follows (f.perform c).2 (calls ++ [c]) := by
  cases c with
  | add id => exact h.add id
  | mark id progress => exact h.mark id progress

theorem Follows.play (h : Follows f calls) (more : List Call) :
    Follows (f.play more) (calls ++ more) := by
  induction more generalizing f calls with
  | nil => simpa [Frontier.play] using h
  | cons c more ih =>
    have hall := ih (h.step c)
    rwa [List.append_assoc, List.singleton_append] at hall

theorem play_target (f : Frontier) (calls : List Call) : (f.play calls).target = f.target := by
  induction calls generalizing f with
  | nil => rfl
  | cons c calls ih =>
    refine (ih (f.perform c).2).trans ?_
    cases c with
    | add id => exact add_target f id
    | mark id progress => exact mark_target f id progress

end Runs

section Reading

variable {f : Frontier}

theorem contains_eq (f : Frontier) (id : Ident) : f.contains id = (f.progress? id).isSome := by
  rw [contains, progress?, Option.isSome_map]

theorem add_known (h : f.Sound) {id : Ident} {p : Progress} (hp : f.progress? id = some p) :
    f.add id = (false, f) := by
  have hplace : place f.target ⟨id, .pending⟩ f.contacts = none :=
    (place_eq_none h.ordered).mpr ⟨_, (progress?_eq_some h.ordered).mp hp, rfl⟩
  rw [Frontier.add, hplace]

theorem add_unknown (h : f.Sound) {id : Ident} (hp : f.progress? id = none) :
    (f.add id).1 = true := by
  cases hplace : place f.target ⟨id, .pending⟩ f.contacts with
  | some placed => rw [Frontier.add, hplace]
  | none =>
    obtain ⟨c, hc, hid⟩ := (place_eq_none h.ordered).mp hplace
    exact absurd hid (progress?_eq_none.mp hp c hc)

theorem mark_known {id : Ident} {before : Progress} (hp : f.progress? id = some before)
    (progress : Progress) : (f.mark id progress).1 = true := by
  rw [Frontier.mark, hp]

theorem mark_unknown {id : Ident} (hp : f.progress? id = none) (progress : Progress) :
    f.mark id progress = (false, f) := by
  rw [Frontier.mark, hp]

/-- Take any calls in any order. The peers that were ever added are listed, each once and closest
first, with the progress of the last mark that had an effect; what is asked about a single peer
agrees with the list. Adding a peer that is known and marking one that is not are refused and change
nothing. The count of requests in flight is that of the peers listed so, and where a mark counts one
of them down there is one to count. -/
theorem lists_added_with_last_mark (k : Nat) (target : Ident) (calls : List Call) :
    let f := (new k target).play calls
    f.contacts.Pairwise (fun c d => c.id.distance target < d.id.distance target) ∧
    (f.contacts.map Contact.id).Nodup ∧
    (∀ id p, ⟨id, p⟩ ∈ f.contacts ↔ .add id ∈ calls ∧ p = lastMark calls id) ∧
    (∀ id p, f.progress? id = some p ↔ ⟨id, p⟩ ∈ f.contacts) ∧
    (∀ id, f.contains id = true ↔ ∃ p, ⟨id, p⟩ ∈ f.contacts) ∧
    (∀ id, .add id ∈ calls →
      f.add id = (false, f) ∧ ∀ p, (f.mark id p).1 = true) ∧
    (∀ id, .add id ∉ calls →
      (f.add id).1 = true ∧ ∀ p, f.mark id p = (false, f)) ∧
    f.inFlight = f.contacts.countP (fun c => c.progress = .inProgress) ∧
    ∀ id, f.progress? id = some .inProgress → 0 < f.inFlight := by
  intro f
  have h : Follows f calls := (new_follows k target).play calls
  have htarget : f.target = target := play_target (new k target) calls
  have hordered : Ordered target f.contacts := htarget ▸ h.sound.ordered
  have hmem : ∀ id p, f.progress? id = some p ↔ ⟨id, p⟩ ∈ f.contacts := fun id p =>
    progress?_eq_some h.sound.ordered
  refine ⟨hordered, hordered.ids_nodup, ?_, hmem, ?_, ?_, ?_, h.sound.counted, ?_⟩
  · intro id p
    rw [← hmem, h.told]
    simp [eq_comm]
  · intro id
    rw [contains_eq, Option.isSome_iff_exists]
    exact exists_congr (hmem id)
  · intro id hadded
    have hp : f.progress? id = some (lastMark calls id) := by rw [h.told, if_pos hadded]
    exact ⟨add_known h.sound hp, mark_known hp⟩
  · intro id hadded
    have hp : f.progress? id = none := by rw [h.told, if_neg hadded]
    exact ⟨add_unknown h.sound hp, mark_unknown hp⟩
  · exact fun id => inFlight_pos h.sound

/-- The first mark comes before its peer is known, and the last one takes it back. -/
def backwards : List Call :=
  [.mark ⟨5⟩ .failed, .add ⟨5⟩, .add ⟨4⟩, .mark ⟨5⟩ .finished, .mark ⟨5⟩ .inProgress, .add ⟨5⟩]

theorem lists_added_with_last_mark_backwards :
    let f := (new 2 ⟨0⟩).play backwards
    f.contacts = [⟨⟨4⟩, .pending⟩, ⟨⟨5⟩, .inProgress⟩] ∧
    f.progress? ⟨5⟩ = some .inProgress ∧ 0 < f.inFlight ∧
    f.add ⟨4⟩ = (false, f) ∧ f.mark ⟨6⟩ .finished = (false, f) := by
  intro f
  obtain ⟨-, -, -, -, -, hadded, hforeign, -, hcounts⟩ :=
    lists_added_with_last_mark 2 ⟨0⟩ backwards
  have hp : f.progress? ⟨5⟩ = some .inProgress := by decide
  exact ⟨by decide, hp, hcounts ⟨5⟩ hp, (hadded ⟨4⟩ (by decide)).1,
    (hforeign ⟨6⟩ (by decide)).2 .finished⟩

end Reading

end Kademlia.Frontier
