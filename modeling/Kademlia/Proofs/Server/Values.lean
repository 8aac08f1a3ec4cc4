import Kademlia.Proofs.Server

/-!
The values that a server finds again. Main statement: a value is found as long as fewer other keys
have been touched since its own was than there is room for, where a key is touched when a value is
stored under it and when one is found.
-/

namespace Kademlia.Server

section Touching

/-- The key that a call touches, given what the call is answered. -/
def Call.touches? : Call → Option Response → Option Ident
  | .handle _ _ _ _ (.store key _), _ => some key
  | .handle _ _ _ _ (.findValue _ key), some (.findValue _ _ (some _)) => some key
  | _, _ => none

def touches (s : Server) : List Call → List Ident
  | [] => []
  | c :: calls => (c.touches? (s.answer c)).toList ++ (s.step c).touches calls

def Call.stores? (key : Ident) : Call → Option Bytes
  | .handle _ _ _ _ (.store k value) => if k = key then some value else none
  | _ => none

def lastStored (calls : List Call) (key : Ident) : Option Bytes :=
  (calls.filterMap (Call.stores? key)).getLast?

theorem touches_concat (s : Server) (calls : List Call) (c : Call) :
    s.touches (calls ++ [c]) =
      s.touches calls ++ (c.touches? ((s.play calls).answer c)).toList := by
  induction calls generalizing s with
  | nil => simp [touches]
  | cons first calls ih => simp [touches, ih]

theorem lastStored_concat (calls : List Call) (c : Call) (key : Ident) :
    lastStored (calls ++ [c]) key = (c.stores? key).or (lastStored calls key) := by
  cases hc : c.stores? key <;> simp [lastStored, hc]

end Touching

section Run

variable {room : Nat} {s : Server} {touched : List Ident} {last : Ident → Option Bytes}

theorem answer_findValue (s : Server) (choice : Choice) (now : Time) (tables : Directory)
    (sender : Peer) (context : UInt64) (key : Ident) :
    s.answer (.handle choice now tables sender (.findValue context key)) =
      some (.findValue context (tables.closest mainTable key (some sender.id))
        (s.values.get? key)) := by
  rw [← Store.read_fst]
  rfl

theorem values_step (h : s.values.Holds room touched last) (c : Call) :
    (s.step c).values.Holds room (touched ++ (c.touches? (s.answer c)).toList) fun key =>
      (c.stores? key).or (last key) := by
  have hsame : ∀ t : Server, t.values = s.values →
      t.values.Holds room (touched ++ []) last := fun t ht => by
    rw [List.append_nil, ht]
    exact h
  cases c with
  | clean now => exact hsame _ rfl
  | handle choice now tables sender request =>
    cases request with
    | findNode context target table => exact hsame _ rfl
    | findMembers of context id => exact hsame _ rfl
    | join of group => exact hsame _ (by cases of <;> rfl)
    | store key value =>
      have hlast : (fun k => (if key = k then some value else none).or (last k)) =
          Function.update last key (some value) := by
        funext k
        by_cases hk : key = k
        · subst hk
          simp
        · simp [hk, Function.update_of_ne (Ne.symm hk)]
      simp only [Call.stores?, hlast]
      exact h.write key value
    | findValue context key =>
      rw [answer_findValue]
      cases hg : s.values.get? key with
      | none => exact hsame _ (congrArg Prod.snd (Store.read_of_none hg))
      | some value => exact h.read hg

theorem values_play (p : Parameters) (calls : List Call) :
    ((Server.new p).play calls).values.Holds (max 1 p.maxValues) ((Server.new p).touches calls)
      (lastStored calls) := by
  induction calls using List.reverseRecOn with
  | nil => exact Store.new_holds p.maxValues
  | append_singleton calls c ih =>
    rw [play_concat, touches_concat, funext (lastStored_concat calls c)]
    exact values_step ih c

theorem values_of_untouched {c : Call} (h : c.touches? (s.answer c) = none) :
    (s.step c).values = s.values := by
  cases c with
  | clean now => rfl
  | handle choice now tables sender request =>
    cases request with
    | findNode context target table => rfl
    | findMembers of context id => rfl
    | join of group => cases of <;> rfl
    | store key value => cases h
    | findValue context key =>
      rw [answer_findValue] at h
      cases hg : s.values.get? key with
      | none => exact congrArg Prod.snd (Store.read_of_none hg)
      | some value =>
        rw [hg] at h
        cases h

/-- A value is answered exactly when it was stored last under its key and, since that key was touched
last, fewer other keys have been touched than there is room for; there is always room for one. Never
are more values stored than there is room for, nor two under one key, and a call that touches no key
leaves all of them, in their order. -/
theorem finds_recently_touched (p : Parameters) (calls : List Call) :
    let s := (Server.new p).play calls
    let room := max 1 p.maxValues
    (∀ choice now tables sender context key, ∃ answer,
      s.answer (.handle choice now tables sender (.findValue context key)) =
        some (.findValue context (tables.closest mainTable key (some sender.id)) answer) ∧
      ∀ value, answer = some value ↔ lastStored calls key = some value ∧
        (Store.since ((Server.new p).touches calls) key).toFinset.card < room) ∧
    s.values.values.length ≤ room ∧ (s.values.values.map Prod.fst).Nodup ∧
    ∀ c, c.touches? (s.answer c) = none → (s.step c).values = s.values := by
  intro s room
  have h : s.values.Holds room ((Server.new p).touches calls) (lastStored calls) :=
    values_play p calls
  refine ⟨?_, h.length_le, h.nodup, fun c => values_of_untouched⟩
  intro choice now tables sender context key
  exact ⟨_, answer_findValue s choice now tables sender context key, h.get?_iff key⟩

end Run

end Kademlia.Server
