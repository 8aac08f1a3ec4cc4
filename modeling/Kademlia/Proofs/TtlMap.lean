import Mathlib.Data.Finset.Card
import Kademlia.TtlMap
import Kademlia.Proofs.Catalog
import Kademlia.Proofs.Time

/-!
A map with a time to live against the calls that have been made on it. Main statement: a key shows
what its last insertion wrote until the time to live has passed, whatever else has happened in
between, and after a cleaning nothing dead is stored.
-/

namespace Kademlia.TtlMap

variable {κ α : Type} [DecidableEq κ]

section Sweeping

/-- The queue is in the order of expiry, and the insertion of every stored entry stands in it.
Records of insertions that were overwritten or removed may stand in it as well. -/
structure Queued (queue : List (κ × Time)) (entries : Catalog κ (α × Time)) : Prop where
  sorted : queue.Pairwise fun a b => a.2 ≤ b.2
  listed : ∀ key e, entries.get? key = some e → (key, e.2) ∈ queue

variable {queue : List (κ × Time)} {entries : Catalog κ (α × Time)}

/-- What the front record of the queue evicts is its own entry only. -/
theorem get?_evict (entries : Catalog κ (α × Time)) (key other : κ) (expiry : Time) :
    (if (entries.get? key).map Prod.snd = some expiry then entries.erase key
      else entries).get? other =
    (entries.get? other).filter fun e => ¬ (other = key ∧ e.2 = expiry) := by
  by_cases ho : other = key
  · subst ho
    cases he : entries.get? other with
    | none => simp [he]
    | some e =>
      by_cases hx : e.2 = expiry
      · simp [hx, Catalog.get?_erase, Option.filter_some]
      · simp [he, hx, Option.filter_some]
  · have hkeep : (entries.get? other).filter (fun e => ¬ (other = key ∧ e.2 = expiry)) =
        entries.get? other := by
      cases entries.get? other with
      | none => rfl
      | some e => simp [ho, Option.filter_some]
    rw [hkeep]
    split
    · rw [Catalog.get?_erase, if_neg ho]
    · rfl

theorem Queued.evict {key : κ} {expiry : Time} (h : Queued ((key, expiry) :: queue) entries) :
    Queued queue (if (entries.get? key).map Prod.snd = some expiry then entries.erase key
      else entries) := by
  refine ⟨(List.pairwise_cons.mp h.sorted).2, ?_⟩
  intro other e he
  rw [get?_evict, Option.filter_eq_some_iff] at he
  obtain ⟨hs, hne⟩ := he
  refine (List.mem_cons.mp (h.listed other e hs)).resolve_left ?_
  intro hf
  simp [Prod.mk.inj hf] at hne

theorem Queued.sweep (h : Queued queue entries) (now : Time) :
    Queued (sweep now queue entries).1 (sweep now queue entries).2 := by
  fun_induction TtlMap.sweep now queue entries with
  | case1 => exact h
  | case2 => exact h
  | case3 key expiry queue entries hdead ih => exact ih h.evict

theorem Queued.get?_sweep (h : Queued queue entries) (now : Time) (key : κ) :
    (TtlMap.sweep now queue entries).2.get? key =
      (entries.get? key).filter fun e => Time.live e.2 now := by
  fun_induction TtlMap.sweep now queue entries with
  | case1 entries =>
    have hnone : entries.get? key = none := by
      by_contra hs
      obtain ⟨e, he⟩ := Option.ne_none_iff_exists'.mp hs
      exact List.not_mem_nil (h.listed key e he)
    simp [hnone]
  | case2 front expiry queue entries hlive =>
    -- the front is the first to die, so all entries live
    cases he : entries.get? key with
    | none => rfl
    | some e =>
      have hle : expiry ≤ e.2 := by
        rcases List.mem_cons.mp (h.listed key e he) with hf | hm
        · exact le_of_eq (Prod.mk.inj hf).2.symm
        · exact (List.pairwise_cons.mp h.sorted).1 _ hm
      have hl : Time.live e.2 now = true :=
        decide_eq_true (Nat.lt_of_lt_of_le (of_decide_eq_true hlive) hle)
      simp [hl, Option.filter_some]
  | case3 front expiry queue entries hdead ih =>
    rw [ih h.evict, get?_evict, Option.filter_filter]
    congr 1
    funext e
    by_cases hx : e.2 = expiry
    · simp [hx, hdead]
    · simp [hx]

theorem sweep_suffix (now : Time) (queue : List (κ × Time)) (entries : Catalog κ (α × Time)) :
    (TtlMap.sweep now queue entries).1 <:+ queue := by
  fun_induction TtlMap.sweep now queue entries with
  | case1 => exact List.suffix_rfl
  | case2 => exact List.suffix_rfl
  | case3 key expiry queue entries hdead ih => exact ih.trans (List.suffix_cons _ _)

theorem sweep_nodup (now : Time) (queue : List (κ × Time)) {entries : Catalog κ (α × Time)}
    (h : entries.keys.Nodup) : (TtlMap.sweep now queue entries).2.keys.Nodup := by
  fun_induction TtlMap.sweep now queue entries with
  | case1 => exact h
  | case2 => exact h
  | case3 key expiry queue entries hdead ih =>
    apply ih
    split
    · exact Catalog.erase_nodup h key
    · exact h

end Sweeping

section Operations

/-- What holds of a map between the operations, when the last one came at the time of the clock. -/
structure Sound (m : TtlMap κ α) (clock : Time) : Prop where
  keys : m.entries.keys.Nodup
  queued : Queued m.queue m.entries
  near : ∀ q ∈ m.queue, q.2 ≤ clock + m.ttl

variable {m : TtlMap κ α} {clock now : Time}

theorem Sound.mono (h : Sound m clock) (hc : clock ≤ now) : Sound m now :=
  ⟨h.keys, h.queued, fun q hq => Nat.le_trans (h.near q hq) (Nat.add_le_add_right hc m.ttl)⟩

theorem new_sound (ttl : Duration) (clock : Time) : Sound (TtlMap.new ttl : TtlMap κ α) clock := by
  refine ⟨List.nodup_nil, ⟨List.Pairwise.nil, ?_⟩, List.forall_mem_nil _⟩
  intro key e he
  cases he

theorem Sound.clean (h : Sound m clock) (now : Time) : Sound (m.clean now) clock := by
  refine ⟨sweep_nodup now m.queue h.keys, h.queued.sweep now, ?_⟩
  intro q hq
  exact h.near q ((sweep_suffix now m.queue m.entries).subset hq)

theorem Sound.get?_clean (h : Sound m clock) (now : Time) (key : κ) :
    (m.clean now).entries.get? key =
      (m.entries.get? key).filter fun e => Time.live e.2 now :=
  h.queued.get?_sweep now key

theorem Sound.remove (h : Sound m clock) (key : κ) : Sound (m.remove key).2 clock := by
  refine ⟨Catalog.erase_nodup h.keys key, ⟨h.queued.sorted, ?_⟩, h.near⟩
  intro other e he
  rw [TtlMap.remove, Catalog.get?_erase] at he
  split at he
  · cases he
  · exact h.queued.listed other e he

theorem get?_remove (m : TtlMap κ α) (key other : κ) :
    (m.remove key).2.entries.get? other = if other = key then none else m.entries.get? other :=
  Catalog.get?_erase m.entries key other

theorem Sound.get?_insert (h : Sound m clock) (now : Time) (key : κ) (value : α) (other : κ) :
    (m.insert now key value).2.entries.get? other =
      if other = key then some (value, now + m.ttl)
      else (m.entries.get? other).filter fun e => Time.live e.2 now := by
  have hput : (m.insert now key value).2.entries =
      (m.clean now).entries.put key (value, now + m.ttl) := rfl
  rw [hput, Catalog.get?_put, h.get?_clean]

/-- An insertion dies last of all so far, so its record belongs at the end of the queue. -/
theorem Sound.insert (h : Sound m clock) (hc : clock ≤ now) (key : κ) (value : α) :
    Sound (m.insert now key value).2 now := by
  have hclean := (h.mono hc).clean now
  constructor
  case keys => exact Catalog.put_nodup hclean.keys key _
  case queued =>
    constructor
    case sorted =>
      refine List.pairwise_append.mpr ⟨hclean.queued.sorted, List.pairwise_singleton _ _, ?_⟩
      intro q hq r hr
      rw [List.mem_singleton.mp hr]
      exact hclean.near q hq
    case listed =>
      intro other e he
      rw [TtlMap.insert, Catalog.get?_put] at he
      split at he
      next ho =>
        cases he
        exact ho ▸ List.mem_append_right _ (List.mem_singleton_self _)
      next => exact List.mem_append_left _ (hclean.queued.listed other e he)
  case near =>
    intro q hq
    rcases List.mem_append.mp hq with hq | hq
    · exact hclean.near q hq
    · rw [List.mem_singleton.mp hq]
      exact Nat.le_refl _

theorem Sound.insert_previous (h : Sound m clock) (now : Time) (key : κ) (value : α) :
    (m.insert now key value).1 = m.get? now key := by
  rw [TtlMap.insert, TtlMap.get?]
  exact congrArg (Option.map Prod.fst) (h.get?_clean now key)

end Operations

section History

/-- The calls that change a map. Removing looks at no clock. -/
inductive Call (κ α : Type) where
  | insert (now : Time) (key : κ) (value : α)
  | remove (key : κ)
  | clean (now : Time)
  deriving DecidableEq, Repr

def Call.time? : Call κ α → Option Time
  | .insert now _ _ => some now
  | .remove _ => none
  | .clean now => some now

def Call.key? : Call κ α → Option κ
  | .insert _ key _ => some key
  | .remove key => some key
  | .clean _ => none

def times (calls : List (Call κ α)) : List Time := calls.filterMap Call.time?

def step (m : TtlMap κ α) : Call κ α → TtlMap κ α
  | .insert now key value => (m.insert now key value).2
  | .remove key => (m.remove key).2
  | .clean now => m.clean now

def play (m : TtlMap κ α) (calls : List (Call κ α)) : TtlMap κ α := calls.foldl step m

def lastWrite (calls : List (Call κ α)) (key : κ) : Option (Call κ α) :=
  (calls.filter fun c => c.key? = some key).getLast?

/-- The last call that wrote the key inserted the value, and its time to live has not passed. -/
def Lives (ttl : Duration) (calls : List (Call κ α)) (now : Time) (key : κ) (value : α) : Prop :=
  ∃ time, lastWrite calls key = some (.insert time key value) ∧ now < time + ttl

theorem lastWrite_concat (calls : List (Call κ α)) (c : Call κ α) (key : κ) :
    lastWrite (calls ++ [c]) key = if c.key? = some key then some c else lastWrite calls key := by
  by_cases hc : c.key? = some key
  · simp [lastWrite, hc]
  · simp [lastWrite, hc]

/-- The map after some calls, the last one at the time of the clock: it stores only what was written
last, and what it has lost of that is dead. -/
structure Remembers (ttl : Duration) (m : TtlMap κ α) (clock : Time) (calls : List (Call κ α)) :
    Prop where
  ttl_eq : m.ttl = ttl
  sound : Sound m clock
  kept : ∀ key e, m.entries.get? key = some e →
    ∃ time, lastWrite calls key = some (.insert time key e.1) ∧ e.2 = time + ttl
  lost : ∀ key value time, lastWrite calls key = some (.insert time key value) →
    clock < time + ttl → m.entries.get? key = some (value, time + ttl)

variable {ttl : Duration} {m : TtlMap κ α} {clock now : Time} {calls : List (Call κ α)}

theorem Remembers.mono (h : Remembers ttl m clock calls) (hc : clock ≤ now) :
    Remembers ttl m now calls :=
  ⟨h.ttl_eq, h.sound.mono hc, h.kept, fun key value time hw hl =>
    h.lost key value time hw (Nat.lt_of_le_of_lt hc hl)⟩

theorem new_remembers (ttl : Duration) (clock : Time) :
    Remembers ttl (TtlMap.new ttl : TtlMap κ α) clock [] := by
  refine ⟨rfl, new_sound ttl clock, ?_, ?_⟩
  · intro key e he
    cases he
  · intro key value time hw
    cases hw

theorem Remembers.survivor (h : Remembers ttl m clock calls) (hc : clock ≤ now) (key : κ) :
    (∀ e, ((m.entries.get? key).filter fun e => Time.live e.2 now) = some e →
      ∃ time, lastWrite calls key = some (.insert time key e.1) ∧ e.2 = time + ttl) ∧
    ∀ value time, lastWrite calls key = some (.insert time key value) → now < time + ttl →
      ((m.entries.get? key).filter fun e => Time.live e.2 now) = some (value, time + ttl) := by
  constructor
  · intro e he
    exact h.kept key e (Option.filter_eq_some_iff.mp he).1
  · intro value time hw hl
    rw [Option.filter_eq_some_iff]
    exact ⟨h.lost key value time hw (Nat.lt_of_le_of_lt hc hl), decide_eq_true hl⟩

theorem Remembers.insert (h : Remembers ttl m clock calls) (hc : clock ≤ now) (key : κ)
    (value : α) :
    Remembers ttl (m.insert now key value).2 now (calls ++ [.insert now key value]) := by
  have hget := h.sound.get?_insert now key value
  have hlast := lastWrite_concat calls (.insert now key value)
  constructor
  case ttl_eq => exact h.ttl_eq
  case sound => exact h.sound.insert hc key value
  case kept =>
    intro other e he
    rw [hget] at he
    rw [hlast]
    by_cases ho : other = key
    · subst ho
      rw [if_pos rfl, Option.some.injEq] at he
      exact ⟨now, by rw [← he]; exact if_pos rfl, by rw [← he, h.ttl_eq]⟩
    · have hk : (Call.insert now key value).key? ≠ some other := by simp [Call.key?, Ne.symm ho]
      rw [if_neg ho] at he
      rw [if_neg hk]
      exact (h.survivor hc other).1 e he
  case lost =>
    intro other v time hw hl
    rw [hlast] at hw
    rw [hget]
    by_cases ho : other = key
    · subst ho
      rw [Call.key?, if_pos rfl] at hw
      cases hw
      rw [if_pos rfl, h.ttl_eq]
    · have hk : (Call.insert now key value).key? ≠ some other := by simp [Call.key?, Ne.symm ho]
      rw [if_neg hk] at hw
      rw [if_neg ho]
      exact (h.survivor hc other).2 v time hw hl

theorem Remembers.remove (h : Remembers ttl m clock calls) (key : κ) :
    Remembers ttl (m.remove key).2 clock (calls ++ [.remove key]) := by
  have hlast := lastWrite_concat calls (.remove key)
  constructor
  case ttl_eq => exact h.ttl_eq
  case sound => exact h.sound.remove key
  case kept =>
    intro other e he
    rw [get?_remove] at he
    split at he
    next => cases he
    next ho =>
      have hk : (Call.remove key : Call κ α).key? ≠ some other := by simp [Call.key?, Ne.symm ho]
      rw [hlast, if_neg hk]
      exact h.kept other e he
  case lost =>
    intro other v time hw hl
    rw [hlast] at hw
    split at hw
    next => cases hw
    next hk =>
      have ho : other ≠ key := fun ho => hk (by rw [ho]; rfl)
      rw [get?_remove, if_neg ho]
      exact h.lost other v time hw hl

theorem Remembers.clean (h : Remembers ttl m clock calls) (hc : clock ≤ now) :
    Remembers ttl (m.clean now) now (calls ++ [.clean now]) := by
  have hlast : ∀ key, lastWrite (calls ++ [.clean now]) key = lastWrite calls key := fun key => by
    rw [lastWrite_concat, if_neg (by simp [Call.key?])]
  constructor
  case ttl_eq => exact h.ttl_eq
  case sound => exact (h.sound.mono hc).clean now
  case kept =>
    intro key e he
    rw [h.sound.get?_clean] at he
    rw [hlast]
    exact (h.survivor hc key).1 e he
  case lost =>
    intro key v time hw hl
    rw [hlast] at hw
    rw [h.sound.get?_clean]
    exact (h.survivor hc key).2 v time hw hl

/-- Where nothing is stored nothing lives, so that a new map does as well. -/
theorem Remembers.renew (h : Remembers ttl m clock calls) (he : m.isEmpty = true) :
    Remembers ttl (TtlMap.new ttl) clock calls := by
  refine ⟨rfl, new_sound ttl clock, ?_, ?_⟩
  · intro key e hs
    cases hs
  · intro key value time hw hl
    have hm := Catalog.mem_of_get? (h.lost key value time hw hl)
    rw [List.isEmpty_iff.mp he] at hm
    cases hm

theorem Remembers.step (h : Remembers ttl m clock calls) (c : Call κ α)
    (hc : ∀ time, c.time? = some time → clock ≤ time) :
    Remembers ttl (m.step c) (c.time?.getD clock) (calls ++ [c]) := by
  cases c with
  | insert now key value => exact h.insert (hc now rfl) key value
  | remove key => exact h.remove key
  | clean now => exact h.clean (hc now rfl)

theorem Remembers.play (h : Remembers ttl m clock calls) (more : List (Call κ α))
    (ht : (clock :: (times more ++ [now])).Pairwise (· ≤ ·)) :
    Remembers ttl (m.play more) now (calls ++ more) :=
  kept_by_run (P := Remembers ttl) (fun h hc => h.mono hc) (fun c h hc => h.step c hc) h more ht

end History

section Reading

/-- The entries that are stored, dead ones included. -/
def stored (m : TtlMap κ α) : List (κ × α) := m.entries.entries.map fun e => (e.1, e.2.1)

omit [DecidableEq κ] in
theorem isEmpty_eq_false_iff (m : TtlMap κ α) :
    m.isEmpty = false ↔ ∃ key value, (key, value) ∈ m.stored := by
  have hs : m.isEmpty = true ↔ m.stored = [] := by simp [TtlMap.isEmpty, Catalog.isEmpty, stored]
  rw [← Bool.not_eq_true, hs, List.eq_nil_iff_forall_not_mem]
  simp only [not_forall, not_not, Prod.exists]

/-- Just the entries of which `P` holds are stored, and the size counts their keys. -/
structure Stores (m : TtlMap κ α) (P : κ → α → Prop) : Prop where
  entries : ∀ key value, (key, value) ∈ m.stored ↔ P key value
  size : ∃ S : Finset κ, m.size = S.card ∧ ∀ key, key ∈ S ↔ ∃ value, P key value

variable {ttl : Duration} {m : TtlMap κ α} {clock now : Time} {calls : List (Call κ α)}

theorem get?_eq_some (m : TtlMap κ α) (now : Time) (key : κ) (value : α) :
    m.get? now key = some value ↔
      ∃ expiry, m.entries.get? key = some (value, expiry) ∧ now < expiry := by
  simp [TtlMap.get?, Time.live, Option.filter_eq_some_iff]

theorem contains_iff (m : TtlMap κ α) (now : Time) (key : κ) :
    m.contains now key = true ↔ ∃ value, m.get? now key = some value :=
  Option.isSome_iff_exists

theorem mem_stored (hn : m.entries.keys.Nodup) (key : κ) (value : α) :
    (key, value) ∈ m.stored ↔ ∃ expiry, m.entries.get? key = some (value, expiry) := by
  rw [stored, List.mem_map]
  constructor
  · rintro ⟨⟨k, v, expiry⟩, he, hkv⟩
    cases hkv
    exact ⟨expiry, Catalog.get?_of_mem hn he⟩
  · rintro ⟨expiry, he⟩
    exact ⟨(key, value, expiry), Catalog.mem_of_get? he, rfl⟩

theorem mem_toList (hn : m.entries.keys.Nodup) (now : Time) (key : κ) (value : α) :
    (key, value) ∈ m.toList now ↔ m.get? now key = some value := by
  rw [get?_eq_some, toList, List.mem_map]
  constructor
  · rintro ⟨⟨k, v, expiry⟩, he, hkv⟩
    cases hkv
    obtain ⟨he, hl⟩ := List.mem_filter.mp he
    exact ⟨expiry, Catalog.get?_of_mem hn he, of_decide_eq_true hl⟩
  · rintro ⟨expiry, he, hl⟩
    exact ⟨(key, value, expiry),
      List.mem_filter.mpr ⟨Catalog.mem_of_get? he, decide_eq_true hl⟩, rfl⟩

omit [DecidableEq κ] in
theorem toList_nodup (hn : m.entries.keys.Nodup) (now : Time) :
    ((m.toList now).map Prod.fst).Nodup := by
  rw [toList, List.map_map]
  exact hn.sublist (List.filter_sublist.map _)

theorem size_counts (hn : m.entries.keys.Nodup) : ∃ S : Finset κ, m.size = S.card ∧
    ∀ key, key ∈ S ↔ ∃ e, m.entries.get? key = some e := by
  refine ⟨m.entries.keys.toFinset, ?_, ?_⟩
  · rw [List.toFinset_card_of_nodup hn, Catalog.keys, List.length_map]
    rfl
  · intro key
    rw [List.mem_toFinset, Catalog.mem_keys_iff, Option.ne_none_iff_exists']

theorem stores_of_get? (hn : m.entries.keys.Nodup) {P : κ → α → Prop}
    (h : ∀ key value, (∃ expiry, m.entries.get? key = some (value, expiry)) ↔ P key value) :
    Stores m P := by
  constructor
  case entries =>
    intro key value
    rw [mem_stored hn, h]
  case size =>
    obtain ⟨S, hS, hkeys⟩ := size_counts hn
    refine ⟨S, hS, fun key => ?_⟩
    rw [hkeys, Prod.exists]
    exact exists_congr (h key)

omit [DecidableEq κ] in
theorem Stores.congr {P Q : κ → α → Prop} (h : Stores m P)
    (hpq : ∀ key value, P key value ↔ Q key value) : Stores m Q := by
  have he : P = Q := funext fun key => funext fun value => propext (hpq key value)
  exact he ▸ h

theorem Remembers.get?_iff (h : Remembers ttl m clock calls) (hc : clock ≤ now) (key : κ)
    (value : α) : m.get? now key = some value ↔ Lives ttl calls now key value := by
  rw [get?_eq_some]
  constructor
  · rintro ⟨expiry, he, hl⟩
    obtain ⟨time, hw, hx⟩ := h.kept key _ he
    exact ⟨time, hw, hx ▸ hl⟩
  · rintro ⟨time, hw, hl⟩
    exact ⟨time + ttl, h.lost key value time hw (Nat.lt_of_le_of_lt hc hl), hl⟩

theorem Remembers.clean_stores (h : Remembers ttl m clock calls) (hc : clock ≤ now) :
    Stores (m.clean now) (Lives ttl calls now) := by
  refine stores_of_get? (h.clean hc).sound.keys fun key value => ?_
  rw [← h.get?_iff hc, get?_eq_some]
  refine exists_congr fun expiry => ?_
  rw [h.sound.get?_clean, Option.filter_eq_some_iff]
  exact and_congr_right fun _ => decide_eq_true_iff

/-- An insertion cleans first, so only what it inserts may be dead. -/
theorem Remembers.insert_stores (h : Remembers ttl m clock calls) (hc : clock ≤ now) (key : κ)
    (value : α) :
    Stores (m.insert now key value).2 fun k v =>
      Lives ttl (calls ++ [.insert now key value]) now k v ∨ k = key ∧ v = value := by
  have hafter := h.insert hc key value
  refine stores_of_get? hafter.sound.keys fun k v => ?_
  rw [← hafter.get?_iff (Nat.le_refl now), get?_eq_some]
  constructor
  · rintro ⟨expiry, he⟩
    have hget := h.sound.get?_insert now key value k
    rw [he] at hget
    by_cases hk : k = key
    · rw [if_pos hk] at hget
      cases hget
      exact Or.inr ⟨hk, rfl⟩
    · rw [if_neg hk] at hget
      have hl := (Option.filter_eq_some_iff.mp hget.symm).2
      exact Or.inl ⟨expiry, he, of_decide_eq_true hl⟩
  · rintro (⟨expiry, he, -⟩ | ⟨rfl, rfl⟩)
    · exact ⟨expiry, he⟩
    · exact ⟨now + m.ttl, by rw [h.sound.get?_insert, if_pos rfl]⟩

theorem lives_of_insert (httl : 0 < ttl) (calls : List (Call κ α)) (now : Time) (key : κ)
    (value : α) : Lives ttl (calls ++ [.insert now key value]) now key value :=
  ⟨now, (lastWrite_concat calls _ key).trans (if_pos rfl), Nat.lt_add_of_pos_right httl⟩

/-- Take a run in which time only goes on. A key shows a value exactly as long as its last insertion
or removal was an insertion of it, no longer ago than the time to live; whether it is contained and
what is listed agrees with this, and an insertion hands back what its key showed. After a cleaning
just what lives is stored, and after an insertion what lives and what it has inserted, which lives
too if there is any time to live. -/
theorem shows_last_insertion_while_live (ttl : Duration) (calls : List (Call κ α)) (now : Time)
    (htimes : (times calls ++ [now]).Pairwise (· ≤ ·)) :
    let m := (TtlMap.new ttl).play calls
    (∀ key value, m.get? now key = some value ↔ Lives ttl calls now key value) ∧
    (∀ key, m.contains now key = true ↔ ∃ value, Lives ttl calls now key value) ∧
    ((m.toList now).map Prod.fst).Nodup ∧
    (∀ key value, (key, value) ∈ m.toList now ↔ Lives ttl calls now key value) ∧
    Stores (m.clean now) (Lives ttl calls now) ∧
    ∀ key value,
      let after := calls ++ [.insert now key value]
      (m.insert now key value).1 = m.get? now key ∧
      Stores (m.insert now key value).2 (fun k v =>
        Lives ttl after now k v ∨ k = key ∧ v = value) ∧
      (0 < ttl → Stores (m.insert now key value).2 (Lives ttl after now)) := by
  intro m
  have hclock : (0 :: (times calls ++ [now])).Pairwise (· ≤ ·) :=
    List.pairwise_cons.mpr ⟨fun _ _ => Nat.zero_le _, htimes⟩
  have h : Remembers ttl m now calls := (new_remembers ttl 0).play calls hclock
  have hget := h.get?_iff (Nat.le_refl now)
  refine ⟨hget, ?_, toList_nodup h.sound.keys now, ?_, h.clean_stores (Nat.le_refl now), ?_⟩
  · intro key
    rw [contains_iff]
    exact exists_congr (hget key)
  · intro key value
    rw [mem_toList h.sound.keys, hget]
  · intro key value after
    have hstores := h.insert_stores (Nat.le_refl now) key value
    refine ⟨h.sound.insert_previous now key value, hstores, fun httl => ?_⟩
    refine hstores.congr fun k v => or_iff_left_of_imp ?_
    rintro ⟨rfl, rfl⟩
    exact lives_of_insert httl calls now k v

/-- Key 1 is refreshed, and key 2 is removed and inserted again at the same time. -/
def refreshedCalls : List (Call Nat Nat) :=
  [.insert 0 1 10, .insert 2 1 11, .insert 2 2 20, .remove 2, .insert 2 2 21]

/-- At time 6 the first insertion of key 1 would be dead. A cleaning takes neither key, and an
insertion of key 3 leaves both beside it. -/
theorem shows_last_insertion_while_live_refreshed :
    (times refreshedCalls ++ [6]).Pairwise (· ≤ ·) ∧
    ((TtlMap.new 5).play refreshedCalls).get? 6 1 = some 11 ∧
    ((TtlMap.new 5).play refreshedCalls).get? 6 2 = some 21 ∧
    Stores (((TtlMap.new 5).play refreshedCalls).clean 6) (Lives 5 refreshedCalls 6) ∧
    Stores (((TtlMap.new 5).play refreshedCalls).insert 6 3 30).2
      (Lives 5 (refreshedCalls ++ [.insert 6 3 30]) 6) := by
  have h := shows_last_insertion_while_live 5 refreshedCalls 6 (by decide)
  exact ⟨by decide, (h.1 1 11).mpr ⟨2, by decide, by decide⟩,
    (h.1 2 21).mpr ⟨2, by decide, by decide⟩, h.2.2.2.2.1,
    (h.2.2.2.2.2 3 30).2.2 (by decide)⟩

/-- Without any time to live, what has just been inserted is stored although it is dead. -/
theorem insert_stores_dead :
    let m := ((TtlMap.new 0 : TtlMap Nat Nat).insert 0 1 10).2
    m.size = 1 ∧ m.toList 0 = [] ∧ ¬ Stores m (Lives 0 [.insert 0 1 10] 0) := by
  refine ⟨by decide, by decide, fun h => ?_⟩
  obtain ⟨time, hw, hl⟩ := (h.entries 1 10).mp (by decide)
  cases hw
  exact absurd hl (by decide)

end Reading

end Kademlia.TtlMap
