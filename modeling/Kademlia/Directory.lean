import Kademlia.Catalog
import Kademlia.Parameters
import Kademlia.Table.Closest

/-!
The routing tables of a node by name: the main table, which is always there, and the tables of
swarms, pools and topics, which come and go.
-/

namespace Kademlia

structure Directory where
  owner : Ident
  k : Nat
  topicK : Nat
  main : Table
  others : Catalog Ident Table := {}

namespace Directory

def new (owner : Ident) (k topicK : Nat) : Directory :=
  { owner, k, topicK, main := Table.new owner k }

def ofParameters (owner : Ident) (p : Parameters) : Directory := new owner p.k p.topicK

def get? (d : Directory) (name : Ident) : Option Table :=
  if name = mainTable then some d.main else d.others.get? name

def contains (d : Directory) (name : Ident) : Bool := (d.get? name).isSome

def set (d : Directory) (name : Ident) (t : Table) : Directory :=
  if name = mainTable then { d with main := t } else { d with others := d.others.put name t }

def create (d : Directory) (name : Ident) : Table × Directory :=
  match d.get? name with
  | some t => (t, d)
  | none =>
    let t := Table.new d.owner d.topicK
    (t, d.set name t)

/-- Removes a table and returns it; the main table stays. -/
def remove (d : Directory) (name : Ident) : Option Table × Directory :=
  if name = mainTable then (none, d)
  else (d.others.get? name, { d with others := d.others.erase name })

def removePeer (d : Directory) (id : Ident) : Directory :=
  { d with
    main := (d.main.remove id).2
    others := d.others.mapValues fun t => (t.remove id).2 }

def addPeer (d : Directory) (name : Ident) (p : Peer) : Bool × Directory :=
  let (t, d) := d.create name
  let (added, t) := t.add p
  (added, d.set name t)

def closest (d : Directory) (name target : Ident) (ignore : Option Ident) : List Peer :=
  ((d.get? name).map fun t => t.closest target ignore).getD []

def sample (d : Directory) (name : Ident) : List Peer :=
  ((d.get? name).map fun t => t.sample d.k).getD []

def names (d : Directory) : List Ident := mainTable :: d.others.keys

def count (d : Directory) : Nat := 1 + d.others.size

/-- Number of peers in all tables, where a peer in two tables counts twice. -/
def size (d : Directory) : Nat := d.others.values.foldr (fun t n => t.size + n) d.main.size

end Directory

end Kademlia
