import Mathlib.Data.List.Basic
import Mathlib.Data.List.Nodup
import Kademlia.Bucket

/-!
What adding and removing do to the peers of a bucket, whatever places they stand in.
-/

namespace Kademlia

theorem exists_around {α : Type} {xs : List α} {i : Nat} {x : α} (h : xs[i]? = some x) :
    ∃ front back, xs = front ++ x :: back ∧ front.length = i ∧
      ∀ y, xs.set i y = front ++ y :: back := by
  obtain ⟨hi, hx⟩ := List.getElem?_eq_some_iff.mp h
  refine ⟨xs.take i, xs.drop (i + 1), ?_, List.length_take_of_le (Nat.le_of_lt hi), fun y => ?_⟩
  · rw [← hx, List.getElem_cons_drop, List.take_append_drop]
  · rw [List.set_eq_take_append_cons_drop, if_pos hi]

/-- Removing a place loses the element there and nothing else. -/
theorem swapRemove_perm {α : Type} {xs : List α} {i : Nat} {x : α} (h : xs[i]? = some x) :
    xs.Perm (x :: swapRemove xs i) := by
  rcases List.eq_nil_or_concat' xs with rfl | ⟨front, last, rfl⟩
  · simp at h
  have hs : swapRemove (front ++ [last]) i = ((front ++ [last]).set i last).dropLast := by
    simp [swapRemove]
  rw [hs]
  by_cases hi : i < front.length
  · rw [List.getElem?_append_left hi] at h
    obtain ⟨a, b, rfl, -, hset⟩ := exists_around h
    rw [List.set_append_left i last hi, List.dropLast_concat, hset]
    calc
      List.Perm (a ++ x :: b ++ [last]) (last :: (a ++ x :: b)) := List.perm_append_singleton _ _
      List.Perm _ (last :: x :: (a ++ b)) := List.perm_middle.cons last
      List.Perm _ (x :: last :: (a ++ b)) := .swap x last _
      List.Perm _ (x :: (a ++ last :: b)) := List.perm_middle.symm.cons x
  · have hlen := (List.getElem?_eq_some_iff.mp h).1
    have he : i = front.length := by
      simp only [List.length_append, List.length_singleton] at hlen
      omega
    subst he
    simp only [List.getElem?_concat_length, Option.some.injEq] at h
    subst h
    rw [List.set_append_right _ _ (Nat.le_refl _)]
    simp

namespace Bucket

theorem contains_iff (b : Bucket) (id : Ident) :
    b.contains id = true ↔ ∃ p ∈ b.peers, p.id = id := by
  simp [contains, position?, List.findIdx?_isSome]

theorem add_of_room {b : Bucket} {p : Peer} (hr : b.peers.length < b.capacity)
    (hn : ∀ q ∈ b.peers, q.id ≠ p.id) :
    b.add p = (true, { b with peers := b.peers ++ [p] }) := by
  have hf : b.isFull = false := by simpa [isFull] using hr
  have hc : b.contains p.id = false := by
    rw [Bool.eq_false_iff, Ne, contains_iff]
    rintro ⟨q, hq, he⟩
    exact hn q hq he
  simp [add, hf, hc]

theorem add_of_full {b : Bucket} (hr : b.capacity ≤ b.peers.length) (p : Peer) :
    b.add p = (false, b) := by
  have hf : b.isFull = true := by simpa [isFull] using hr
  simp [add, hf]

theorem add_of_known {b : Bucket} {p : Peer} (h : ∃ q ∈ b.peers, q.id = p.id) :
    b.add p = (false, b) := by
  simp [add, (contains_iff b p.id).mpr h]

theorem foldl_add {b : Bucket} {peers : List Peer}
    (hr : b.peers.length + peers.length ≤ b.capacity)
    (hn : ((b.peers ++ peers).map Peer.id).Nodup) :
    peers.foldl (fun b p => (b.add p).2) b = { b with peers := b.peers ++ peers } := by
  induction peers generalizing b with
  | nil => simp
  | cons p rest ih =>
    have hnew : ∀ q ∈ b.peers, q.id ≠ p.id := by
      intro q hq he
      rw [List.map_append, List.nodup_append] at hn
      exact hn.2.2 _ (List.mem_map_of_mem hq) p.id (by simp) he
    rw [List.length_cons] at hr
    rw [List.foldl_cons, add_of_room (by omega) hnew]
    rw [ih]
    · simp
    · simp only [List.length_append, List.length_singleton]
      omega
    · simpa using hn

theorem remove_cases (b : Bucket) (id : Ident) :
    (∃ p, p.id = id ∧ (b.remove id).1 = true ∧ (b.remove id).2.capacity = b.capacity ∧
      b.peers.Perm (p :: (b.remove id).2.peers)) ∨
    ((∀ p ∈ b.peers, p.id ≠ id) ∧ b.remove id = (false, b)) := by
  cases hi : b.position? id with
  | none =>
    refine Or.inr ⟨?_, by simp [remove, hi]⟩
    simpa [position?] using hi
  | some i =>
    obtain ⟨hlt, hp, -⟩ := List.findIdx?_eq_some_iff_getElem.mp hi
    have hget : b.peers[i]? = some b.peers[i] := List.getElem?_eq_getElem hlt
    refine Or.inl ⟨b.peers[i], of_decide_eq_true hp, by simp [remove, hi], by simp [remove, hi], ?_⟩
    simpa [remove, hi] using swapRemove_perm hget

end Bucket

end Kademlia
