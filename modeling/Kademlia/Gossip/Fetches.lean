import Kademlia.Catalog
import Kademlia.Error
import Kademlia.Time

/-!
The broadcasts that a node knows of and does not have yet. For each it keeps the peers that offered
it and the one request in flight. A failed request costs its provider; a request in flight for too
long ends the whole fetch.
-/

namespace Kademlia

structure ContentRequest where
  peer : Ident
  start : Time
  deriving DecidableEq, Repr

structure Fetch where
  table : Ident
  /-- The peers that offered the broadcast, without repetition. -/
  providers : List Ident := []
  request : Option ContentRequest := none
  deriving DecidableEq, Repr

structure ExpiredFetch where
  table : Ident
  id : MessageId
  deriving DecidableEq, Repr

structure Fetches where
  timeout : Duration
  fetches : Catalog MessageId Fetch := {}
  deriving Repr

namespace Fetches

def new (timeout : Duration) : Fetches := { timeout }

def isTracking (f : Fetches) (id : MessageId) : Bool := f.fetches.contains id

def isRequesting (f : Fetches) (id : MessageId) : Bool :=
  ((f.fetches.get? id).map fun fetch => fetch.request.isSome).getD false

def get (f : Fetches) (id : MessageId) : Except Error Fetch :=
  match f.fetches.get? id with
  | some fetch => .ok fetch
  | none => .error (.notTracking id)

def set (f : Fetches) (id : MessageId) (fetch : Fetch) : Fetches :=
  { f with fetches := f.fetches.put id fetch }

def forget (f : Fetches) (id : MessageId) : Fetches :=
  { f with fetches := f.fetches.erase id }

def startTracking (f : Fetches) (table : Ident) (id : MessageId) : Except Error Fetches :=
  if f.isTracking id then .error (.alreadyTracking id) else .ok (f.set id { table })

def stopTracking (f : Fetches) (id : MessageId) : Except Error Fetches := do
  let _ ← f.get id
  return f.forget id

def addProvider (f : Fetches) (id : MessageId) (peer : Ident) : Except Error Fetches := do
  let fetch ← f.get id
  return f.set id
    { fetch with
      providers := if peer ∈ fetch.providers then fetch.providers else fetch.providers ++ [peer] }

def provider (f : Fetches) (id : MessageId) : Except Error (Option Ident) := do
  return (← f.get id).providers.head?

def beginRequest (f : Fetches) (now : Time) (id : MessageId) (peer : Ident) :
    Except Error Fetches := do
  let fetch ← f.get id
  match fetch.request with
  | some _ => .error (.requestInFlight id)
  | none => return f.set id { fetch with request := some ⟨peer, now⟩ }

def failRequest (f : Fetches) (id : MessageId) : Except Error Fetches := do
  let fetch ← f.get id
  match fetch.request with
  | none => .error (.noActiveRequest id)
  | some request =>
    return f.set id
      { fetch with
        providers := fetch.providers.filter fun p => p ≠ request.peer
        request := none }

def overdue (f : Fetches) (now : Time) (fetch : Fetch) : Bool :=
  match fetch.request with
  | some request => Time.overdue request.start f.timeout now
  | none => false

def sweep (f : Fetches) (now : Time) : List ExpiredFetch × Fetches :=
  ((f.fetches.filter fun _ fetch => f.overdue now fetch).entries.map
      fun e => ⟨e.2.table, e.1⟩,
    { f with fetches := f.fetches.filter fun _ fetch => !f.overdue now fetch })

/-- Asks one provider of a broadcast after the other, each of which fails, until none is left or a
step is refused. Returns the providers that were asked. -/
def exhaust (now : Time) (id : MessageId) : (rounds : Nat) → Fetches →
    Except Error (List Ident) × Fetches
  | 0, f => (.ok [], f)
  | rounds + 1, f =>
    match f.provider id with
    | .error e => (.error e, f)
    | .ok none => (.ok [], f)
    | .ok (some peer) =>
      match f.beginRequest now id peer with
      | .error e => (.error e, f)
      | .ok f =>
        match f.failRequest id with
        | .error e => (.error e, f)
        | .ok f =>
          let (asked, f) := exhaust now id rounds f
          (asked.map (peer :: ·), f)

def drain (f : Fetches) (now : Time) (id : MessageId) : Except Error (List Ident) × Fetches :=
  exhaust now id (((f.fetches.get? id).map fun fetch => fetch.providers.length).getD 0 + 1) f

def size (f : Fetches) : Nat := f.fetches.size

def isEmpty (f : Fetches) : Bool := f.fetches.isEmpty

end Fetches

end Kademlia
