import Kademlia.Coalescer

/-!
A searcher is what a node uses to run its lookups: a dispatcher alone, or one behind a coalescer.
-/

namespace Kademlia

inductive Searcher (τ : Type) where
  | plain (dispatcher : Dispatcher τ)
  | coalescing (coalescer : Coalescer τ)
  deriving Repr

namespace Searcher

variable {τ : Type}

def lift {σ : Type} (wrap : σ → Searcher τ) (step : σ × List (Delivery τ)) :
    Searcher τ × List (Delivery τ) :=
  (wrap step.1, step.2)

def start (now : Time) (tables : Directory) (goal : Goal) (ticket : τ) :
    Searcher τ → Searcher τ × List (Delivery τ)
  | .plain d => lift .plain (d.start now tables goal ticket)
  | .coalescing c => lift .coalescing (c.start now tables goal ticket)

def respond (now : Time) (sender : Ident) (response : Response) :
    Searcher τ → Except Error (Searcher τ × List (Delivery τ))
  | .plain d => (d.respond now sender response).map (lift .plain)
  | .coalescing c => (c.respond now sender response).map (lift .coalescing)

def peerFailed (now : Time) (context : UInt64) (peer : Ident) :
    Searcher τ → Searcher τ × List (Delivery τ)
  | .plain d => lift .plain (d.peerFailed now context peer)
  | .coalescing c => lift .coalescing (c.peerFailed now context peer)

/-- Sweeps the lookups in any order, in that in which they stand if none is said. -/
def sweep (now : Time) (s : Searcher τ)
    (order : (α : Type) → Arrangement α := fun _ => .listed) : Searcher τ × List (Delivery τ) :=
  match s with
  | .plain d => lift .plain (d.sweep now (order _))
  | .coalescing c => lift .coalescing (c.sweep now (order _))

def pop : Searcher τ → Option Outgoing × Searcher τ
  | .plain d => (d.pop.1, .plain d.pop.2)
  | .coalescing c => (c.pop.1, .coalescing c.pop.2)

def popMany : (rounds : Nat) → Searcher τ → List Outgoing × Searcher τ
  | 0, s => ([], s)
  | rounds + 1, s =>
    match s.pop with
    | (none, s) => ([], s)
    | (some request, s) =>
      let (rest, s) := popMany rounds s
      (request :: rest, s)

def outbound : Searcher τ → List Outgoing
  | .plain d => d.outbound
  | .coalescing c => c.inner.outbound

def drain (s : Searcher τ) : List Outgoing × Searcher τ :=
  s.popMany s.outbound.length

def active : Searcher τ → Nat
  | .plain d => d.active
  | .coalescing c => c.active

/-- Number of questions about which something is known; a dispatcher alone knows of none. -/
def cached? : Searcher τ → Option Nat
  | .plain _ => none
  | .coalescing c => some c.cached

end Searcher

end Kademlia
