import Kademlia.Proofs.Directory.Changes

/-!
The tables of a node in one catalog, the main table under its name like any other. Here it has to be
looked up, and might be missing. Main statement: after any changes it is there, with its own
capacity, every table is in good shape, and no change to one table reaches another.
-/

namespace Kademlia

/-- The tables of a node, each under its name. -/
structure KeyedDirectory where
  owner : Ident
  k : Nat
  topicK : Nat
  tables : Catalog Ident Table

namespace KeyedDirectory

def new (owner : Ident) (k topicK : Nat) : KeyedDirectory :=
  ⟨owner, k, topicK, Catalog.empty.put mainTable (Table.new owner k)⟩

variable (d : KeyedDirectory)

def main? : Option Table := d.tables.get? mainTable

def set (name : Ident) (t : Table) : KeyedDirectory := { d with tables := d.tables.put name t }

def create (name : Ident) : Table × KeyedDirectory :=
  match d.tables.get? name with
  | some t => (t, d)
  | none =>
    let t := Table.new d.owner d.topicK
    (t, d.set name t)

def remove (name : Ident) : Option Table × KeyedDirectory :=
  if name = mainTable then (none, d)
  else (d.tables.get? name, { d with tables := d.tables.erase name })

def addPeer (name : Ident) (p : Peer) : Bool × KeyedDirectory :=
  let (t, d) := d.create name
  let (added, t) := t.add p
  (added, d.set name t)

def change : Directory.Change → KeyedDirectory
  | .create name => (d.create name).2
  | .addPeer name p => (d.addPeer name p).2
  | .alterMain cs => (d.create mainTable).2.set mainTable ((d.create mainTable).1.changes cs)
  | .alter name cs =>
    match d.tables.get? name with
    | none => d
    | some t => d.set name (t.changes cs)
  | .remove name => (d.remove name).2
  | .removePeer id => { d with tables := d.tables.mapValues fun t => (t.remove id).2 }

def changes (cs : List Directory.Change) : KeyedDirectory := cs.foldl change d

end KeyedDirectory

namespace Directory

def keyed (d : Directory) : KeyedDirectory :=
  ⟨d.owner, d.k, d.topicK, ⟨(mainTable, d.main) :: d.others.entries⟩⟩

variable {d : Directory}

theorem keyed_get? (d : Directory) (name : Ident) : d.keyed.tables.get? name = d.get? name := by
  by_cases hm : name = mainTable
  · subst hm
    simp [keyed, Catalog.get?, get?]
  · simp [keyed, Catalog.get?, get?, hm, Ne.symm hm]

theorem keyed_set (h : d.others.get? mainTable = none) (name : Ident) (t : Table) :
    d.keyed.set name t = (d.set name t).keyed := by
  by_cases hm : name = mainTable
  · subst hm
    have habsent : ∀ e ∈ d.others.entries, e.1 ≠ mainTable := by
      intro e he hk
      have hkey : mainTable ∈ d.others.keys := List.mem_map.mpr ⟨e, he, hk⟩
      exact (Catalog.mem_keys_iff d.others mainTable).mp hkey h
    have hrest : (d.others.entries.map fun e => if e.1 = mainTable then (mainTable, t) else e) =
        d.others.entries :=
      (List.map_congr_left fun e he => if_neg (habsent e he)).trans (List.map_id' _)
    have hmain : d.keyed.tables.contains mainTable = true := by
      rw [Catalog.contains, keyed_get?]
      rfl
    rw [KeyedDirectory.set, Catalog.put, if_pos hmain]
    simp [keyed, set, hrest]
  · have hother : d.keyed.tables.contains name = d.others.contains name := by
      rw [Catalog.contains, keyed_get?, get?, if_neg hm]
      rfl
    rw [KeyedDirectory.set, Catalog.put, hother]
    by_cases hk : d.others.contains name
    · simp [keyed, set, hm, hk, Catalog.put, Ne.symm hm]
    · simp [keyed, set, hm, hk, Catalog.put]

theorem keyed_create (h : d.others.get? mainTable = none) (name : Ident) :
    d.keyed.create name = ((d.create name).1, (d.create name).2.keyed) := by
  rw [KeyedDirectory.create, keyed_get?, create]
  cases d.get? name with
  | some t => rfl
  | none => exact congrArg (Prod.mk _) (keyed_set h name _)

/-- Each change does to the catalog what it does to the main table and the others. -/
theorem keyed_change (h : d.others.get? mainTable = none) (c : Change) :
    d.keyed.change c = (d.change c).keyed := by
  cases c with
  | create name => rw [KeyedDirectory.change, keyed_create h, change]
  | addPeer name p =>
    rw [KeyedDirectory.change, KeyedDirectory.addPeer, keyed_create h]
    exact keyed_set (create_apart h name) name _
  | alterMain cs =>
    rw [KeyedDirectory.change, keyed_create h]
    exact keyed_set (create_apart h mainTable) mainTable _
  | alter name cs =>
    rw [KeyedDirectory.change, keyed_get?, change]
    cases d.get? name with
    | none => rfl
    | some t => exact keyed_set h name _
  | remove name =>
    rw [KeyedDirectory.change, KeyedDirectory.remove, change, remove]
    by_cases hm : name = mainTable
    · rw [if_pos hm, if_pos hm]
    · simp [keyed, hm, Ne.symm hm, Catalog.erase]
  | removePeer id => rfl

theorem Orderly.keyed_changes (h : d.Orderly) (cs : List Change) :
    d.keyed.changes cs = (d.changes cs).keyed := by
  induction cs generalizing d with
  | nil => rfl
  | cons c cs ih =>
    rw [KeyedDirectory.changes, List.foldl_cons, keyed_change h.apart]
    exact ih (h.change c)

/-- After any changes the main table is found under its name and has its capacity, and so has every
other table the one of its kind; all measure from the owner and are in good shape. A change that
names a table leaves every other one as it is, and making a table that is there changes nothing.
When a peer is removed, it stands in no table any more, and all other peers stand where they stood. -/
theorem keeps_tables_apart (owner : Ident) (k topicK : Nat) (cs : List Change) :
    let d := (new owner k topicK).changes cs
    let catalog := (KeyedDirectory.new owner k topicK).changes cs
    (catalog.main? = some d.main ∧ d.main.k = k ∧
      ∀ name, catalog.tables.get? name = d.get? name) ∧
    (∀ name t, d.get? name = some t →
      t.WellFormed ∧ t.owner = owner ∧ t.k = if name = mainTable then k else topicK) ∧
    (∀ c named, c.name? = some named → ∀ name, name ≠ named →
      (d.change c).get? name = d.get? name) ∧
    (∀ name, d.contains name = true → d.change (.create name) = d) ∧
    ∀ id name,
      (d.removePeer id).contains name = d.contains name ∧
      ∀ t u, d.get? name = some t → (d.removePeer id).get? name = some u →
        u.contains id = false ∧ u.peers.Perm (t.peers.filter (·.id ≠ id)) := by
  intro d catalog
  have hnew := new_orderly owner k topicK
  obtain ⟨ho, hs⟩ : d.Orderly ∧ SameNode (new owner k topicK) d := hnew.changes cs
  have hcatalog : catalog = d.keyed := hnew.keyed_changes cs
  have htables : ∀ name t, d.get? name = some t →
      t.WellFormed ∧ t.owner = owner ∧ t.k = if name = mainTable then k else topicK := by
    intro name t ht
    obtain ⟨hw, hto, htk⟩ := ho.tables name t ht
    rw [room, hs.k, hs.topicK] at htk
    exact ⟨hw, hto.trans hs.owner, htk⟩
  refine ⟨⟨?_, ?_, fun name => hcatalog ▸ d.keyed_get? name⟩, htables, ?_, ?_, ?_⟩
  · rw [hcatalog, KeyedDirectory.main?, keyed_get?, get?_mainTable]
  · exact ((htables mainTable d.main d.get?_mainTable).2.2).trans (if_pos rfl)
  · intro c named hc name hne
    rw [get?_change, c.effect_other hc hne]
  · intro name hin
    rw [change, create_eq]
    exact if_pos hin
  · intro id name
    constructor
    · rw [contains, contains, get?_removePeer, Option.isSome_map]
    · intro t u ht hu
      rw [get?_removePeer, ht, Option.map_some, Option.some.injEq] at hu
      obtain ⟨hw, -, -, hp⟩ := (htables name t ht).1.remove id
      rw [hu] at hw hp
      refine ⟨?_, hp⟩
      rw [Bool.eq_false_iff, Ne, hw.contains_iff]
      rintro ⟨p, hpm, hid⟩
      exact of_decide_eq_true (List.mem_filter.mp (hp.mem_iff.mp hpm)).2 hid

end Directory

end Kademlia
