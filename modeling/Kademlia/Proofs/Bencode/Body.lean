import Kademlia.Bencode.Body
import Kademlia.Proofs.Bencode.Scan

/-!
Gathering what was spelled. The tokens of a value leave the value where it is due, whatever tokens
stand behind them, so a container is read back with all that it holds.
-/

namespace Kademlia.Bencode

def alternate (entries : List (Value × Value)) : List Value :=
  entries.flatMap fun e => [e.1, e.2]

theorem pairs?_alternate (entries : List (Value × Value)) :
    pairs? (alternate entries) = some entries := by
  induction entries with
  | nil => rfl
  | cons e rest ih =>
    have ha : alternate (e :: rest) = e.1 :: e.2 :: alternate rest := rfl
    rw [ha, pairs?, ih]
    rfl

def pushAll (vs : List Value) (items : List Value) (frames : List Frame) :
    List Value × List Frame :=
  vs.foldl (fun s v => push v s.1 s.2) (items, frames)

theorem pushAll_outside (vs items : List Value) :
    pushAll vs items [] = (vs.reverse ++ items, []) := by
  induction vs generalizing items with
  | nil => rfl
  | cons v rest ih =>
    rw [pushAll, List.foldl_cons]
    simpa [pushAll, push] using ih (v :: items)

theorem pushAll_inside (vs items : List Value) (f : Frame) (outer : List Frame) :
    pushAll vs items (f :: outer) =
      (items, { f with items := vs.reverse ++ f.items } :: outer) := by
  induction vs generalizing f with
  | nil => rfl
  | cons v rest ih =>
    rw [pushAll, List.foldl_cons]
    simpa [pushAll, push] using ih { f with items := v :: f.items }

section Gather

variable (fault : Error)

mutual

theorem gather_tokens (v : Value) (ts : List Token) (items : List Value) (frames : List Frame) :
    Body.gather fault (v.tokens ++ ts) items frames =
      Body.gather fault ts (push v items frames).1 (push v items frames).2 := by
  cases v with
  | int n => simp [Value.tokens, Body.gather]
  | bytes content => simp [Value.tokens, Body.gather]
  | list vs =>
    simp only [Value.tokens, List.cons_append, List.append_assoc, Body.gather]
    rw [gather_listTokens vs, pushAll_inside]
    simp [Body.gather, Frame.close?]
  | dict entries =>
    simp only [Value.tokens, List.cons_append, List.append_assoc, Body.gather]
    rw [gather_entryTokens entries, pushAll_inside]
    simp [Body.gather, Frame.close?, pairs?_alternate]

theorem gather_listTokens (vs : List Value) (ts : List Token) (items : List Value)
    (frames : List Frame) :
    Body.gather fault (Value.listTokens vs ++ ts) items frames =
      Body.gather fault ts (pushAll vs items frames).1 (pushAll vs items frames).2 := by
  cases vs with
  | nil => rfl
  | cons v rest =>
    rw [Value.listTokens, List.append_assoc, gather_tokens v, gather_listTokens rest]
    rfl

theorem gather_entryTokens (entries : List (Value × Value)) (ts : List Token) (items : List Value)
    (frames : List Frame) :
    Body.gather fault (Value.entryTokens entries ++ ts) items frames =
      Body.gather fault ts (pushAll (alternate entries) items frames).1
        (pushAll (alternate entries) items frames).2 := by
  match entries with
  | [] => rfl
  | (key, v) :: rest =>
    rw [Value.entryTokens, List.append_assoc, List.append_assoc, gather_tokens key,
      gather_tokens v, gather_entryTokens rest]
    rfl

end

end Gather

def Value.Fits (v : Value) : Prop := ∀ t ∈ v.tokens, t.Fits

instance Value.decidableFits : DecidablePred Value.Fits :=
  fun v => inferInstanceAs (Decidable (∀ t ∈ v.tokens, t.Fits))

theorem Body.ofBytes_dict {entries : List (Value × Value)} (h : (Value.dict entries).Fits)
    (rest : Bytes) :
    Body.ofBytes ((Value.dict entries).spell ++ rest) =
      .ok (.dict, ⟨alternate entries, .closed⟩) := by
  have hs := Token.scan_spell h rest
  have hg := gather_entryTokens (Token.scan rest).2 entries (.leave :: (Token.scan rest).1) [] []
  rw [pushAll_outside] at hg
  rw [Value.spell, Body.ofBytes, hs, Value.tokens]
  simp only [List.cons_append, List.append_assoc, List.nil_append, hg,
    Body.gather, List.append_nil, List.reverse_reverse]

end Kademlia.Bencode
