import Kademlia.Lookup

/-!
The dispatcher runs lookups side by side. Each lookup has a context of its own, which its requests
carry and responses to them repeat; the requests of all lookups wait in one queue. Whoever asks for
a lookup leaves a ticket, which comes back with the finding.
-/

namespace Kademlia

/-- A way of going through a list in some order. -/
structure Arrangement (α : Type) where
  arrange : List α → List α
  perm : ∀ xs, (arrange xs).Perm xs

namespace Arrangement

variable {α : Type}

def listed : Arrangement α := ⟨id, .refl⟩

def reversed : Arrangement α := ⟨List.reverse, List.reverse_perm⟩

end Arrangement

structure Running (τ : Type) where
  ticket : τ
  lookup : Lookup
  deriving Repr

/-- A finding with the ticket of the one who asked for it. -/
structure Delivery (τ : Type) where
  ticket : τ
  finding : Finding
  deriving DecidableEq, Repr

structure Dispatcher (τ : Type) where
  parameters : Parameters
  /-- The lookups that have not finished, by context. -/
  lookups : Catalog UInt64 (Running τ) := {}
  nextContext : UInt64 := 0
  outbound : List Outgoing := []
  deriving Repr

namespace Dispatcher

variable {τ : Type}

def new (parameters : Parameters) : Dispatcher τ := { parameters }

def active (d : Dispatcher τ) : Nat := d.lookups.size

/-- Queues the requests of a step, keeps its lookup unless it has finished, and delivers what it
found. -/
def absorb (d : Dispatcher τ) (ticket : τ) (step : Lookup × Effects) :
    Dispatcher τ × List (Delivery τ) :=
  let (l, effects) := step
  ({ d with
      lookups :=
        if l.finished then d.lookups.erase l.context else d.lookups.put l.context ⟨ticket, l⟩
      outbound := d.outbound ++ effects.requests },
    effects.finding.toList.map fun finding => ⟨ticket, finding⟩)

/-- Starts a lookup under the next context. It is kept only if it does not end at once. -/
def start (now : Time) (tables : Directory) (goal : Goal) (ticket : τ) (d : Dispatcher τ) :
    Dispatcher τ × List (Delivery τ) :=
  let (l, effects) := (Lookup.new d.nextContext d.parameters tables goal).start now
  ({ d with
      lookups := if l.finished then d.lookups else d.lookups.put l.context ⟨ticket, l⟩
      nextContext := d.nextContext + 1
      outbound := d.outbound ++ effects.requests },
    effects.finding.toList.map fun finding => ⟨ticket, finding⟩)

/-- Takes in a response for a context. A context without a running lookup is let pass. -/
def answer (now : Time) (context : UInt64) (sender : Ident) (peers : List Peer)
    (content : Content) (d : Dispatcher τ) :
    Except Error (Dispatcher τ × List (Delivery τ)) :=
  match d.lookups.get? context with
  | none => .ok (d, [])
  | some r => (r.lookup.respond now sender peers content).map (d.absorb r.ticket)

def respond (now : Time) (sender : Ident) (response : Response) (d : Dispatcher τ) :
    Except Error (Dispatcher τ × List (Delivery τ)) :=
  d.answer now response.context sender response.closerPeers response.content

def peerFailed (now : Time) (context : UInt64) (peer : Ident) (d : Dispatcher τ) :
    Dispatcher τ × List (Delivery τ) :=
  match d.lookups.get? context with
  | none => (d, [])
  | some r => d.absorb r.ticket (r.lookup.giveUp now peer)

def sweepAll (now : Time) :
    List (UInt64 × Running τ) → Dispatcher τ → Dispatcher τ × List (Delivery τ)
  | [], d => (d, [])
  | (_, r) :: rest, d =>
    let (d, delivered) := d.absorb r.ticket (r.lookup.sweep now)
    let (d, more) := sweepAll now rest d
    (d, delivered ++ more)

/-- Gives up on all overdue requests. The running lookups stand in no order of their own. -/
def sweep (now : Time) (order : Arrangement (UInt64 × Running τ)) (d : Dispatcher τ) :
    Dispatcher τ × List (Delivery τ) :=
  sweepAll now (order.arrange d.lookups.entries) d

def pop (d : Dispatcher τ) : Option Outgoing × Dispatcher τ :=
  match d.outbound with
  | [] => (none, d)
  | request :: rest => (some request, { d with outbound := rest })

end Dispatcher

end Kademlia
