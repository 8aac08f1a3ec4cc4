import Kademlia.Proofs.Directory
import Kademlia.Proofs.Table.Admission

/-!
The tables of a node through any changes. Main statements: what stands under a name is made by the
changes to the table of this name alone, and every table stays in good shape and keeps the capacity
of its kind.
-/

namespace Kademlia

section Suiting

/-- A table in good shape that measures from an owner, with room for `k` peers in each bucket. -/
structure Table.Suits (owner : Ident) (k : Nat) (t : Table) : Prop where
  wellFormed : t.WellFormed
  owner_eq : t.owner = owner
  k_eq : t.k = k

variable {owner : Ident} {k : Nat} {t : Table}

theorem Table.new_suits (owner : Ident) (k : Nat) : (Table.new owner k).Suits owner k :=
  ⟨Table.new_wellFormed owner k, rfl, rfl⟩

theorem Table.Suits.changes (h : t.Suits owner k) (cs : List Table.Change) :
    (t.changes cs).Suits owner k := by
  obtain ⟨hw, ho, hk, -⟩ := h.wellFormed.changes (.refl _) cs
  exact ⟨hw, ho.trans h.owner_eq, hk.trans h.k_eq⟩

end Suiting

namespace Directory

section Changes

/-- Calls that change the tables of a node. Of a table that is not there nothing is altered. -/
inductive Change where
  | create (name : Ident)
  | addPeer (name : Ident) (p : Peer)
  | alterMain (cs : List Table.Change)
  | alter (name : Ident) (cs : List Table.Change)
  | remove (name : Ident)
  | removePeer (id : Ident)

def Change.name? : Change → Option Ident
  | .create name => some name
  | .addPeer name _ => some name
  | .alterMain _ => some mainTable
  | .alter name _ => some name
  | .remove name => some name
  | .removePeer _ => none

def change (d : Directory) : Change → Directory
  | .create name => (d.create name).2
  | .addPeer name p => (d.addPeer name p).2
  | .alterMain cs => (d.create mainTable).2.set mainTable ((d.create mainTable).1.changes cs)
  | .alter name cs =>
    match d.get? name with
    | none => d
    | some t => d.set name (t.changes cs)
  | .remove name => (d.remove name).2
  | .removePeer id => d.removePeer id

def changes (d : Directory) (cs : List Change) : Directory := cs.foldl change d

/-- What a change makes of the table under a name, when `fresh` is what a new table is. -/
def Change.effect (fresh : Table) (name : Ident) : Change → Option Table → Option Table
  | .create other, t => if other = name then some (t.getD fresh) else t
  | .addPeer other p, t => if other = name then some ((t.getD fresh).add p).2 else t
  | .alterMain cs, t => if mainTable = name then some ((t.getD fresh).changes cs) else t
  | .alter other cs, t => if other = name then t.map (·.changes cs) else t
  | .remove other, t => if other = name ∧ name ≠ mainTable then none else t
  | .removePeer id, t => t.map fun t => (t.remove id).2

theorem Change.effect_other {c : Change} {named name : Ident} (hc : c.name? = some named)
    (hne : name ≠ named) (fresh : Table) (t : Option Table) : c.effect fresh name t = t := by
  cases c with
  | removePeer id => cases hc
  | remove other =>
    cases hc
    exact if_neg fun h => hne h.1.symm
  | _ =>
    cases hc
    exact if_neg (Ne.symm hne)

variable (d : Directory)

theorem get?_mainTable : d.get? mainTable = some d.main := if_pos rfl

theorem get?_set (name other : Ident) (t : Table) :
    (d.set name t).get? other = if name = other then some t else d.get? other := by
  by_cases hm : name = mainTable
  · subst hm
    by_cases ho : other = mainTable
    · subst ho
      simp [set, get?]
    · simp [set, get?, ho, Ne.symm ho]
  · by_cases ho : other = mainTable
    · subst ho
      simp [set, get?, hm]
    · simp [set, get?, hm, ho, Catalog.get?_put, eq_comm]

theorem create_eq (name : Ident) : d.create name =
    ((d.get? name).getD (Table.new d.owner d.topicK),
      if d.contains name then d else d.set name (Table.new d.owner d.topicK)) := by
  cases ht : d.get? name <;> simp [create, contains, ht]

theorem get?_create (name other : Ident) : (d.create name).2.get? other =
    if name = other then some ((d.get? name).getD (Table.new d.owner d.topicK))
    else d.get? other := by
  rw [create_eq]
  cases ht : d.get? name with
  | none => simp [contains, ht, get?_set]
  | some t =>
    simp only [contains, ht, Option.isSome_some, if_true, Option.getD_some]
    split
    next he => rw [← he, ht]
    next => rfl

theorem get?_remove (name other : Ident) : (d.remove name).2.get? other =
    if name = other ∧ other ≠ mainTable then none else d.get? other := by
  by_cases hm : name = mainTable
  · subst hm
    have hnot : ¬ (mainTable = other ∧ other ≠ mainTable) := fun h => h.2 h.1.symm
    rw [if_neg hnot]
    rfl
  · by_cases ho : other = mainTable
    · subst ho
      simp [remove, get?, hm]
    · simp [remove, get?, hm, ho, Catalog.get?_erase, eq_comm]

theorem get?_removePeer (id name : Ident) :
    (d.removePeer id).get? name = (d.get? name).map fun t => (t.remove id).2 := by
  by_cases hm : name = mainTable
  · simp [removePeer, get?, hm]
  · simp [removePeer, get?, hm, Catalog.get?_mapValues]

/-- What stands under a name after a change depends on what stood there before, and on no other
table. -/
theorem get?_change (c : Change) (name : Ident) : (d.change c).get? name =
    c.effect (Table.new d.owner d.topicK) name (d.get? name) := by
  have hcreated : ∀ other, (d.create other).1 =
      (d.get? other).getD (Table.new d.owner d.topicK) := fun other => by rw [create_eq]
  cases c with
  | create other =>
    rw [change, get?_create, Change.effect]
    split
    next he => rw [he]
    next => rfl
  | addPeer other p =>
    rw [change, addPeer, get?_set, get?_create, hcreated, Change.effect]
    split
    next he => rw [he]
    next => rfl
  | alterMain cs =>
    rw [change, get?_set, get?_create, hcreated, Change.effect]
    split
    next he => rw [he]
    next => rfl
  | alter other cs =>
    rw [change, Change.effect]
    split
    next hn =>
      split
      next he => rw [← he, hn, Option.map_none]
      next => rfl
    next t ht =>
      rw [get?_set]
      split
      next he => rw [← he, ht, Option.map_some]
      next => rfl
  | remove other => exact d.get?_remove other name
  | removePeer id => exact d.get?_removePeer id name

end Changes

section Order

variable {d : Directory}

def room (d : Directory) (name : Ident) : Nat := if name = mainTable then d.k else d.topicK

/-- What holds of the tables of a node between any changes. The main table stands apart from the
others. -/
structure Orderly (d : Directory) : Prop where
  apart : d.others.get? mainTable = none
  tables : ∀ name t, d.get? name = some t → t.Suits d.owner (d.room name)

theorem new_orderly (owner : Ident) (k topicK : Nat) : (new owner k topicK).Orderly := by
  refine ⟨rfl, fun name t ht => ?_⟩
  unfold get? at ht
  split at ht
  next hm =>
    cases ht
    rw [room, if_pos hm]
    exact Table.new_suits owner k
  next => cases ht

theorem Orderly.getD (h : d.Orderly) (name : Ident) :
    ((d.get? name).getD (Table.new d.owner d.topicK)).Suits d.owner (d.room name) := by
  cases ht : d.get? name with
  | some t => exact h.tables name t ht
  | none =>
    have hm : name ≠ mainTable := by
      rintro rfl
      cases ht
    rw [room, if_neg hm]
    exact Table.new_suits d.owner d.topicK

theorem Orderly.effect (h : d.Orderly) (c : Change) {name : Ident} {t : Table}
    (ht : c.effect (Table.new d.owner d.topicK) name (d.get? name) = some t) :
    t.Suits d.owner (d.room name) := by
  cases c with
  | create other =>
    rw [Change.effect] at ht
    split at ht
    · cases ht
      exact h.getD name
    · exact h.tables name t ht
  | addPeer other p =>
    rw [Change.effect] at ht
    split at ht
    · cases ht
      exact (h.getD name).changes [.add p]
    · exact h.tables name t ht
  | alterMain cs =>
    rw [Change.effect] at ht
    split at ht
    · cases ht
      exact (h.getD name).changes cs
    · exact h.tables name t ht
  | alter other cs =>
    rw [Change.effect] at ht
    split at ht
    · obtain ⟨u, hu, rfl⟩ := Option.map_eq_some_iff.mp ht
      exact (h.tables name u hu).changes cs
    · exact h.tables name t ht
  | remove other =>
    rw [Change.effect] at ht
    split at ht
    · cases ht
    · exact h.tables name t ht
  | removePeer id =>
    obtain ⟨u, hu, rfl⟩ := Option.map_eq_some_iff.mp ht
    exact (h.tables name u hu).changes [.remove id]

structure SameNode (d e : Directory) : Prop where
  owner : e.owner = d.owner
  k : e.k = d.k
  topicK : e.topicK = d.topicK

theorem SameNode.refl (d : Directory) : SameNode d d := ⟨rfl, rfl, rfl⟩

theorem SameNode.trans {d e f : Directory} (h : SameNode d e) (i : SameNode e f) : SameNode d f :=
  ⟨i.owner.trans h.owner, i.k.trans h.k, i.topicK.trans h.topicK⟩

theorem set_sameNode (d : Directory) (name : Ident) (t : Table) : SameNode d (d.set name t) := by
  unfold set
  split <;> exact ⟨rfl, rfl, rfl⟩

theorem create_sameNode (d : Directory) (name : Ident) : SameNode d (d.create name).2 := by
  rw [create_eq]
  dsimp only
  split
  · exact .refl d
  · exact set_sameNode d name _

theorem change_sameNode (d : Directory) (c : Change) : SameNode d (d.change c) := by
  cases c with
  | create name => exact create_sameNode d name
  | addPeer name p => exact (create_sameNode d name).trans (set_sameNode _ name _)
  | alterMain cs => exact (create_sameNode d mainTable).trans (set_sameNode _ mainTable _)
  | alter name cs =>
    rw [change]
    split
    · exact .refl d
    · exact set_sameNode d name _
  | remove name =>
    rw [change, remove]
    split <;> exact ⟨rfl, rfl, rfl⟩
  | removePeer id => exact ⟨rfl, rfl, rfl⟩

theorem set_apart (h : d.others.get? mainTable = none) (name : Ident) (t : Table) :
    (d.set name t).others.get? mainTable = none := by
  unfold set
  split
  next => exact h
  next hm =>
    dsimp only
    rw [Catalog.get?_put, if_neg (Ne.symm hm), h]

theorem create_apart (h : d.others.get? mainTable = none) (name : Ident) :
    (d.create name).2.others.get? mainTable = none := by
  rw [create_eq]
  dsimp only
  split
  · exact h
  · exact set_apart h name _

theorem change_apart (h : d.others.get? mainTable = none) (c : Change) :
    (d.change c).others.get? mainTable = none := by
  cases c with
  | create name => exact create_apart h name
  | addPeer name p => exact set_apart (create_apart h name) name _
  | alterMain cs => exact set_apart (create_apart h mainTable) mainTable _
  | alter name cs =>
    rw [change]
    split
    · exact h
    · exact set_apart h name _
  | remove name =>
    rw [change, remove]
    split
    · exact h
    · dsimp only
      rw [Catalog.get?_erase]
      split
      · rfl
      · exact h
  | removePeer id =>
    change (d.others.mapValues _).get? mainTable = none
    rw [Catalog.get?_mapValues, h, Option.map_none]

theorem Orderly.change (h : d.Orderly) (c : Change) : (d.change c).Orderly := by
  have hs := change_sameNode d c
  refine ⟨change_apart h.apart c, fun name t ht => ?_⟩
  have hroom : (d.change c).room name = d.room name := by rw [room, room, hs.k, hs.topicK]
  rw [get?_change] at ht
  rw [hs.owner, hroom]
  exact h.effect c ht

theorem Orderly.changes (h : d.Orderly) (cs : List Change) :
    (d.changes cs).Orderly ∧ SameNode d (d.changes cs) := by
  induction cs generalizing d with
  | nil => exact ⟨h, .refl d⟩
  | cons c cs ih =>
    obtain ⟨ho, hs⟩ := ih (h.change c)
    exact ⟨ho, (change_sameNode d c).trans hs⟩

end Order

end Directory

end Kademlia
