import Kademlia.Proofs.Lasting
import Kademlia.Proofs.TtlMap

/-!
Removing from a map with a time to live. No reading tells whether a dead entry has been cleaned away
yet, but removing does. Main statement: what is removed is what was inserted last, dead or not, if
no cleaning has come since its time to live has passed.
-/

namespace Kademlia.TtlMap

variable {κ α : Type} [DecidableEq κ]

section Stored

/-- The insertion at the time is the last that wrote the key, and no call since has cleaned when it
was dead. All calls that have a time clean. -/
def Keeps (ttl : Duration) (calls : List (Call κ α)) (key : κ) (value : α) (time : Time) : Prop :=
  Lasts (· = .insert time key value)
    (fun c => c.key? = some key ∨ ∃ now, c.time? = some now ∧ time + ttl ≤ now) calls

structure Retains (ttl : Duration) (m : TtlMap κ α) (clock : Time) (calls : List (Call κ α)) :
    Prop where
  ttl_eq : m.ttl = ttl
  sound : Sound m clock
  stored : ∀ key value expiry, m.entries.get? key = some (value, expiry) ↔
    ∃ time, Keeps ttl calls key value time ∧ expiry = time + ttl

variable {ttl : Duration} {m : TtlMap κ α} {clock now : Time} {calls : List (Call κ α)}

theorem Retains.mono (h : Retains ttl m clock calls) (hc : clock ≤ now) :
    Retains ttl m now calls :=
  ⟨h.ttl_eq, h.sound.mono hc, h.stored⟩

theorem new_retains (ttl : Duration) (clock : Time) :
    Retains ttl (TtlMap.new ttl : TtlMap κ α) clock [] := by
  refine ⟨rfl, new_sound ttl clock, ?_⟩
  intro key value expiry
  constructor
  · intro he
    cases he
  · rintro ⟨time, hk, -⟩
    exact absurd hk lasts_nil

theorem Retains.left (h : Retains ttl m clock calls) (now : Time) (key : κ) (value : α)
    (expiry : Time) :
    ((m.entries.get? key).filter fun e => Time.live e.2 now) = some (value, expiry) ↔
      ∃ time, (Keeps ttl calls key value time ∧ now < time + ttl) ∧ expiry = time + ttl := by
  rw [Option.filter_eq_some_iff, h.stored]
  constructor
  · rintro ⟨⟨time, hk, rfl⟩, hl⟩
    exact ⟨time, ⟨hk, of_decide_eq_true hl⟩, rfl⟩
  · rintro ⟨time, ⟨hk, hl⟩, rfl⟩
    exact ⟨⟨time, hk, rfl⟩, decide_eq_true hl⟩

omit [DecidableEq κ] in
theorem keeps_write {c : Call κ α} {key : κ} (hkey : c.key? = some key) (value : α) (time : Time) :
    Keeps ttl (calls ++ [c]) key value time ↔ c = .insert time key value := by
  rw [Keeps, lasts_concat]
  simp [hkey]

omit [DecidableEq κ] in
theorem keeps_other {c : Call κ α} {key : κ} (hkey : c.key? ≠ some key) (value : α) (time : Time) :
    Keeps ttl (calls ++ [c]) key value time ↔
      Keeps ttl calls key value time ∧ ∀ now, c.time? = some now → now < time + ttl := by
  have hc : c ≠ .insert time key value := by
    rintro rfl
    exact hkey rfl
  rw [Keeps, lasts_concat]
  simp [hkey, hc, Keeps]

theorem Retains.insert (h : Retains ttl m clock calls) (hc : clock ≤ now) (key : κ) (value : α) :
    Retains ttl (m.insert now key value).2 now (calls ++ [.insert now key value]) := by
  refine ⟨h.ttl_eq, h.sound.insert hc key value, ?_⟩
  intro other v expiry
  rw [h.sound.get?_insert]
  by_cases ho : other = key
  · subst ho
    rw [if_pos rfl, h.ttl_eq]
    constructor
    · intro he
      cases he
      exact ⟨now, (keeps_write rfl value now).mpr rfl, rfl⟩
    · rintro ⟨time, hk, rfl⟩
      cases (keeps_write rfl v time).mp hk
      rfl
  · have hkey : (Call.insert now key value).key? ≠ some other := by simp [Call.key?, Ne.symm ho]
    rw [if_neg ho, h.left]
    simp only [keeps_other hkey, Call.time?, Option.some.injEq, forall_eq']

theorem Retains.remove (h : Retains ttl m clock calls) (key : κ) :
    Retains ttl (m.remove key).2 clock (calls ++ [.remove key]) := by
  refine ⟨h.ttl_eq, h.sound.remove key, ?_⟩
  intro other v expiry
  rw [get?_remove]
  by_cases ho : other = key
  · subst ho
    have hnot : ¬ ∃ time, Keeps ttl (calls ++ [.remove other]) other v time ∧
        expiry = time + ttl := by
      rintro ⟨time, hk, -⟩
      cases (keeps_write rfl v time).mp hk
    simp [hnot]
  · have hkey : (Call.remove key : Call κ α).key? ≠ some other := by simp [Call.key?, Ne.symm ho]
    rw [if_neg ho, h.stored]
    simp [keeps_other hkey, Call.time?]

theorem Retains.clean (h : Retains ttl m clock calls) (hc : clock ≤ now) :
    Retains ttl (m.clean now) now (calls ++ [.clean now]) := by
  refine ⟨h.ttl_eq, (h.sound.mono hc).clean now, ?_⟩
  intro key v expiry
  have hkey : (Call.clean now : Call κ α).key? ≠ some key := by simp [Call.key?]
  rw [h.sound.get?_clean, h.left]
  simp only [keeps_other hkey, Call.time?, Option.some.injEq, forall_eq']

theorem Retains.step (h : Retains ttl m clock calls) (c : Call κ α)
    (hc : ∀ time, c.time? = some time → clock ≤ time) :
    Retains ttl (m.step c) (c.time?.getD clock) (calls ++ [c]) := by
  cases c with
  | insert now key value => exact h.insert (hc now rfl) key value
  | remove key => exact h.remove key
  | clean now => exact h.clean (hc now rfl)

theorem Retains.play (h : Retains ttl m clock calls) (more : List (Call κ α))
    (ht : (clock :: (times more ++ [now])).Pairwise (· ≤ ·)) :
    Retains ttl (m.play more) now (calls ++ more) :=
  kept_by_run (P := Retains ttl) (fun h hc => h.mono hc) (fun c h hc => h.step c hc) h more ht

end Stored

section Removed

variable {ttl : Duration} {m : TtlMap κ α} {clock now : Time} {calls : List (Call κ α)}

theorem remove_eq_some (m : TtlMap κ α) (key : κ) (value : α) :
    (m.remove key).1 = some value ↔ ∃ expiry, m.entries.get? key = some (value, expiry) := by
  simp [TtlMap.remove]

theorem Retains.remove_iff (h : Retains ttl m clock calls) (key : κ) (value : α) :
    (m.remove key).1 = some value ↔ ∃ time, Keeps ttl calls key value time := by
  rw [remove_eq_some]
  constructor
  · rintro ⟨expiry, he⟩
    obtain ⟨time, hk, -⟩ := (h.stored key value expiry).mp he
    exact ⟨time, hk⟩
  · rintro ⟨time, hk⟩
    exact ⟨time + ttl, (h.stored key value _).mpr ⟨time, hk, rfl⟩⟩

theorem remove_of_get? {key : κ} {value : α} (h : m.get? now key = some value) :
    (m.remove key).1 = some value := by
  obtain ⟨expiry, he, -⟩ := (get?_eq_some m now key value).mp h
  exact (remove_eq_some m key value).mpr ⟨expiry, he⟩

/-- Removing and reading differ just where a dead entry is stored. -/
theorem remove_ne_get?_iff (m : TtlMap κ α) (now : Time) (key : κ) :
    (m.remove key).1 ≠ m.get? now key ↔
      ∃ value expiry, m.entries.get? key = some (value, expiry) ∧ expiry ≤ now := by
  constructor
  · intro hne
    cases hr : (m.remove key).1 with
    | none =>
      have hg : m.get? now key = none := by
        by_contra hs
        obtain ⟨value, hv⟩ := Option.ne_none_iff_exists'.mp hs
        exact absurd (remove_of_get? hv) (by simp [hr])
      exact absurd (hr.trans hg.symm) hne
    | some value =>
      obtain ⟨expiry, he⟩ := (remove_eq_some m key value).mp hr
      refine ⟨value, expiry, he, ?_⟩
      by_contra hl
      have hg := (get?_eq_some m now key value).mpr ⟨expiry, he, Nat.lt_of_not_le hl⟩
      exact hne (hr.trans hg.symm)
  · rintro ⟨value, expiry, he, hd⟩ heq
    rw [(remove_eq_some m key value).mpr ⟨expiry, he⟩] at heq
    obtain ⟨later, hs, hl⟩ := (get?_eq_some m now key value).mp heq.symm
    cases he.symm.trans hs
    exact Nat.not_le_of_lt hl hd

/-- After a cleaning what is stored lives, so that removing cannot be told from reading. -/
theorem Sound.remove_clean (h : Sound m clock) (now : Time) (key : κ) :
    ((m.clean now).remove key).1 = m.get? now key := by
  rw [TtlMap.remove, TtlMap.get?, h.get?_clean]

theorem Retains.remove_ne_get?_iff (h : Retains ttl m clock calls) (now : Time) (key : κ) :
    (m.remove key).1 ≠ m.get? now key ↔
      ∃ value time, Keeps ttl calls key value time ∧ time + ttl ≤ now := by
  rw [TtlMap.remove_ne_get?_iff]
  constructor
  · rintro ⟨value, expiry, he, hd⟩
    obtain ⟨time, hk, rfl⟩ := (h.stored key value expiry).mp he
    exact ⟨value, time, hk, hd⟩
  · rintro ⟨value, time, hk, hd⟩
    exact ⟨value, time + ttl, (h.stored key value _).mpr ⟨time, hk, rfl⟩, hd⟩

end Removed

section Unseen

def writes (calls : List (Call κ α)) : List (Call κ α) := calls.filter fun c => c.key?.isSome

variable {ttl : Duration} {m n : TtlMap κ α} {now : Time} {calls others : List (Call κ α)}

theorem lastWrite_writes (calls : List (Call κ α)) (key : κ) :
    lastWrite (writes calls) key = lastWrite calls key := by
  have hkey : ∀ c : Call κ α, (decide (c.key? = some key) && c.key?.isSome) =
      decide (c.key? = some key) := by
    intro c
    by_cases hc : c.key? = some key
    · simp [hc]
    · simp [hc]
  simp only [lastWrite, writes, List.filter_filter, hkey]

theorem lives_congr (h : writes others = writes calls) (key : κ) (value : α) :
    Lives ttl others now key value ↔ Lives ttl calls now key value := by
  rw [Lives, Lives, ← lastWrite_writes others, h, lastWrite_writes]

/-- Two maps with the same writes read the same, however often each was cleaned. -/
theorem Remembers.get?_congr (hm : Remembers ttl m now calls) (hn : Remembers ttl n now others)
    (h : writes others = writes calls) (key : κ) : n.get? now key = m.get? now key := by
  apply Option.ext
  intro value
  rw [hn.get?_iff (Nat.le_refl now), hm.get?_iff (Nat.le_refl now), lives_congr h]

theorem toList_perm (hm : m.entries.keys.Nodup) (hn : n.entries.keys.Nodup)
    (h : ∀ key, n.get? now key = m.get? now key) : (n.toList now).Perm (m.toList now) := by
  rw [List.perm_ext_iff_of_nodup (toList_nodup hn now).of_map (toList_nodup hm now).of_map]
  rintro ⟨key, value⟩
  rw [mem_toList hn, mem_toList hm, h]

/-- Take a run in which time only goes on. A removal hands out what was inserted last, dead or not,
unless a cleaning has come since it died. So what lives is removed as it is read, and what is dead
is removed although no reading shows it, just as long as it has not been cleaned away; right after a
cleaning removing and reading agree. Nothing else tells when cleaning has happened: two runs with
the same insertions and removals agree in all readings and in what an insertion hands back. -/
theorem removes_dead_until_cleaned (ttl : Duration) (calls : List (Call κ α)) (now : Time)
    (htimes : (times calls ++ [now]).Pairwise (· ≤ ·)) :
    let m := (TtlMap.new ttl).play calls
    (∀ key value, (m.remove key).1 = some value ↔ ∃ time, Keeps ttl calls key value time) ∧
    (∀ key value, m.get? now key = some value → (m.remove key).1 = some value) ∧
    (∀ key, (m.remove key).1 ≠ m.get? now key ↔
      ∃ value time, Keeps ttl calls key value time ∧ time + ttl ≤ now) ∧
    (∀ key, ((m.clean now).remove key).1 = m.get? now key) ∧
    ∀ others, (times others ++ [now]).Pairwise (· ≤ ·) → writes others = writes calls →
      let n := (TtlMap.new ttl).play others
      (∀ key, n.get? now key = m.get? now key ∧ n.contains now key = m.contains now key) ∧
      (n.toList now).Perm (m.toList now) ∧
      ∀ key value, (n.insert now key value).1 = (m.insert now key value).1 := by
  intro m
  have hstart : ∀ run : List (Call κ α), (times run ++ [now]).Pairwise (· ≤ ·) →
      (0 :: (times run ++ [now])).Pairwise (· ≤ ·) := fun run h =>
    List.pairwise_cons.mpr ⟨fun _ _ => Nat.zero_le _, h⟩
  have h : Retains ttl m now calls := (new_retains ttl 0).play calls (hstart calls htimes)
  have hm : Remembers ttl m now calls := (new_remembers ttl 0).play calls (hstart calls htimes)
  refine ⟨h.remove_iff, fun key value => remove_of_get?, h.remove_ne_get?_iff now,
    h.sound.remove_clean now, ?_⟩
  intro others hothers hwrites n
  have hn : Remembers ttl n now others :=
    (new_remembers ttl 0).play others (hstart others hothers)
  have hget := hm.get?_congr hn hwrites
  refine ⟨?_, toList_perm hm.sound.keys hn.sound.keys hget, ?_⟩
  · intro key
    exact ⟨hget key, congrArg Option.isSome (hget key)⟩
  · intro key value
    rw [hn.sound.insert_previous, hm.sound.insert_previous, hget]

/-- Key 1 is dead at time 6 and key 2 lives. -/
def uncleanedCalls : List (Call Nat Nat) := [.insert 0 1 10, .insert 3 2 20]

/-- Removing gives away that no cleaning has come since key 1 died; a run with one more cleaning
reads the same. -/
theorem removes_dead_until_cleaned_twice :
    (times uncleanedCalls ++ [6]).Pairwise (· ≤ ·) ∧
    (((TtlMap.new 5).play uncleanedCalls).remove 1).1 ≠
      ((TtlMap.new 5).play uncleanedCalls).get? 6 1 ∧
    (((TtlMap.new 5).play uncleanedCalls).remove 2).1 = some 20 ∧
    ((((TtlMap.new 5).play uncleanedCalls).clean 6).remove 1).1 =
      ((TtlMap.new 5).play uncleanedCalls).get? 6 1 ∧
    ((TtlMap.new 5).play (uncleanedCalls ++ [.clean 6])).get? 6 1 =
      ((TtlMap.new 5).play uncleanedCalls).get? 6 1 := by
  have h := removes_dead_until_cleaned 5 uncleanedCalls 6 (by decide)
  obtain ⟨-, hlive, hdead, hclean, hsame⟩ := h
  refine ⟨by decide, (hdead 1).mpr ⟨10, 0, ?_, by decide⟩, hlive 2 20 (by decide), hclean 1, ?_⟩
  · have hfirst : Keeps 5 ([] ++ [.insert 0 1 10]) 1 10 0 := (keeps_write rfl 10 0).mpr rfl
    refine (keeps_other (by decide) 10 0).mpr ⟨hfirst, ?_⟩
    rintro later ⟨⟩
    decide
  · exact ((hsame (uncleanedCalls ++ [.clean 6]) (by decide) (by decide)).1 1).1

/-- Nothing shows under the key any more, but removing it hands out its dead value. -/
theorem remove_hands_out_dead :
    let m := (TtlMap.new 60 : TtlMap Nat Nat).play [.insert 0 1 10]
    m.get? 60 1 = none ∧ m.contains 60 1 = false ∧ m.toList 60 = [] ∧
      (m.remove 1).1 = some 10 ∧ ((m.clean 60).remove 1).1 = none := by
  decide

end Unseen

end Kademlia.TtlMap
