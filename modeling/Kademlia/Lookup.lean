import Kademlia.Directory
import Kademlia.Lookup.Frontier
import Kademlia.Lookup.Goal

/-!
An iterative lookup. It keeps up to `alpha` requests in flight, always to the closest candidates of
its frontier, until no candidate and no request is left or its content is complete. Every step
returns the requests that it wants sent, and the step that finishes the lookup returns the finding.
-/

namespace Kademlia

structure Outgoing where
  context : UInt64
  recipient : Peer
  request : Request
  deriving DecidableEq, Repr

inductive Pursuit where
  | closest (table : Ident)
  /-- The value with the peer that had it. -/
  | value (found : Option (Bytes × Ident))
  /-- Distinct members, of which `wanted` are enough. -/
  | members (of : GroupKind) (wanted : Nat) (found : List Peer)
  deriving DecidableEq, Repr

structure Lookup where
  context : UInt64
  owner : Ident
  target : Ident
  alpha : Nat
  timeout : Duration
  frontier : Frontier
  /-- The first known address of each contact. -/
  addresses : Catalog Ident Address := {}
  /-- The requests in flight, with the times when they were sent. -/
  active : List (Ident × Time) := []
  pursuit : Pursuit
  finished : Bool := false
  deriving Repr

structure Effects where
  requests : List Outgoing := []
  finding : Option Finding := none
  deriving Repr

def Effects.append (e f : Effects) : Effects :=
  ⟨e.requests ++ f.requests, e.finding.or f.finding⟩

namespace Lookup

/-- Enters peers as contacts, except the owner. The first address of a peer counts. -/
def addPeers (l : Lookup) (peers : List Peer) : Lookup :=
  peers.foldl (fun l p =>
    if p.id = l.owner then l
    else
      { l with
        addresses := l.addresses.putNew p.id p.address
        frontier := (l.frontier.add p.id).2 }) l

def begin (k : Nat) : Goal → Pursuit
  | .closest table _ => .closest table
  | .value _ => .value none
  | .members of _ sample => .members of (sample.getD k) []

/-- A lookup that starts from the closest peers of the routing table of its goal. -/
def new (context : UInt64) (p : Parameters) (d : Directory) (goal : Goal) : Lookup :=
  let l : Lookup :=
    { context
      owner := d.owner
      target := goal.target
      alpha := p.alpha
      timeout := p.requestTimeout
      frontier := Frontier.new p.k goal.target
      pursuit := begin p.k goal }
  l.addPeers (d.closest goal.table goal.target none)

def request (l : Lookup) : Request :=
  match l.pursuit with
  | .closest table =>
    .findNode l.context l.target (if table = mainTable then none else some table)
  | .value _ => .findValue l.context l.target
  | .members of _ _ => .findMembers of l.context l.target

def peer? (l : Lookup) (id : Ident) : Option Peer :=
  (l.addresses.get? id).map fun address => ⟨id, address⟩

def finding (l : Lookup) : Finding :=
  let closest := l.frontier.finishedClosest.filterMap l.peer?
  match l.pursuit with
  | .closest table => .closest table l.target closest
  | .value found =>
    let provider := found.map Prod.snd
    let others := l.frontier.finished.filter fun id => some id ≠ provider
    .value l.target (found.map Prod.fst) (provider.bind l.peer?) (others.findSome? l.peer?) closest
  | .members _ _ found => .members l.target closest found

def finish (l : Lookup) : Lookup × Effects :=
  ({ l with finished := true }, { finding := some l.finding })

def ask (now : Time) (l : Lookup) (id : Ident) : Lookup × List Outgoing :=
  ({ l with
      frontier := (l.frontier.mark id .inProgress).2
      active := l.active ++ [(id, now)] },
    (l.peer? id).toList.map fun peer => ⟨l.context, peer, l.request⟩)

def fill (now : Time) : (slots : Nat) → Lookup → Lookup × List Outgoing
  | 0, l => (l, [])
  | slots + 1, l =>
    match l.frontier.candidate? with
    | none => (l, [])
    | some id =>
      let (l, sent) := l.ask now id
      let (l, more) := fill now slots l
      (l, sent ++ more)

/-- Uses the free slots, and ends the lookup if there is nothing left to wait for. -/
def pump (now : Time) (l : Lookup) : Lookup × Effects :=
  let (l, requests) := l.fill now (l.alpha - l.frontier.inFlight)
  if l.frontier.inFlight = 0 ∧ l.frontier.candidates.isEmpty then
    let (l, effects) := l.finish
    (l, { effects with requests })
  else (l, { requests })

/-- Sends the first requests; ends at once when there is nobody to ask. -/
def start (now : Time) (l : Lookup) : Lookup × Effects := l.pump now

/-- Ends the request in flight to a peer, if there is one, and records how it ended. -/
def settle (l : Lookup) (id : Ident) (progress : Progress) : Lookup :=
  { l with
    frontier := (l.frontier.mark id progress).2
    active := l.active.filter fun a => a.1 ≠ id }

def joinMembers (found members : List Peer) : List Peer :=
  members.foldl (fun found m =>
    if found.any fun p => p.id = m.id then found else found ++ [m]) found

/-- Takes in what a peer says besides naming closer peers, and tells whether this completes the
content. -/
def takeIn (sender : Ident) : Pursuit → Content → Pursuit × Bool
  | .value _, .value (some value) => (.value (some (value, sender)), true)
  | .members of wanted found, .members members =>
    let found := joinMembers found members
    if wanted ≤ found.length then (.members of wanted (found.take wanted), true)
    else (.members of wanted found, false)
  | pursuit, _ => (pursuit, false)

/-- A response. It is accepted from a peer that was asked and has not answered yet, even when its
request was given up; after the end of the lookup every response is let pass without effect. -/
def respond (now : Time) (sender : Ident) (peers : List Peer) (content : Content) (l : Lookup) :
    Except Error (Lookup × Effects) :=
  if l.finished then .ok (l, {})
  else
    match l.frontier.progress? sender with
    | some .inProgress | some .failed =>
      let l := (l.settle sender .finished).addPeers peers
      let (pursuit, complete) := takeIn sender l.pursuit content
      let l := { l with pursuit }
      .ok (if complete then l.finish else l.pump now)
    | progress => .error (.unexpectedResponse l.context sender progress)

/-- Gives up on a peer, unless it is unknown or has answered. -/
def giveUp (now : Time) (id : Ident) (l : Lookup) : Lookup × Effects :=
  if l.finished then (l, {})
  else
    match l.frontier.progress? id with
    | none | some .finished => (l, {})
    | some _ => (l.settle id .failed).pump now

def overdue (now : Time) (l : Lookup) : List Ident :=
  (l.active.filter fun a => Time.overdue a.2 l.timeout now).map Prod.fst

def giveUpAll (now : Time) : List Ident → Lookup → Lookup × Effects
  | [], l => (l, {})
  | id :: ids, l =>
    let (l, effects) := l.giveUp now id
    let (l, more) := giveUpAll now ids l
    (l, effects.append more)

/-- Gives up on every peer whose request is overdue when the sweep begins. -/
def sweep (now : Time) (l : Lookup) : Lookup × Effects :=
  if l.finished then (l, {}) else giveUpAll now (l.overdue now) l

end Lookup

end Kademlia
