import Kademlia.Dispatcher

/-!
The coalescer starts at most one lookup for equal goals. While a lookup runs, those who ask for the
same wait for its finding; once it has finished, the finding is given again to whoever asks, until
its time to live has passed.
-/

namespace Kademlia

/-- What makes two goals equal: no sample size said is the same as the default size said. -/
inductive Question where
  | closest (table target : Ident)
  | value (key : Ident)
  | members (of : GroupKind) (id : Ident) (sample : Nat)
  deriving DecidableEq, Repr

def Goal.question (defaultSample : Nat) : Goal → Question
  | .closest table target => .closest table target
  | .value key => .value key
  | .members of id sample => .members of id (sample.getD defaultSample)

structure CacheEntry (τ : Type) where
  running : Bool := false
  /-- The finding of the last lookup, with the time at which it came. -/
  finding : Option (Finding × Time) := none
  /-- The tickets of those who wait for the running lookup, first come first. -/
  waiting : List τ := []
  deriving Repr

def CacheEntry.expired {τ : Type} (e : CacheEntry τ) (ttl : Duration) (now : Time) : Bool :=
  match e.finding with
  | some (_, time) => Time.overdue time ttl now
  | none => false

structure Coalescer (τ : Type) where
  /-- The lookups, each with its question as the ticket. -/
  inner : Dispatcher Question
  ttl : Duration
  /-- Number of members to find for a goal that says none. -/
  defaultSample : Nat
  entries : Catalog Question (CacheEntry τ) := {}
  deriving Repr

namespace Coalescer

variable {τ : Type}

def wrapping (inner : Dispatcher Question) (ttl : Duration) (defaultSample : Nat) : Coalescer τ :=
  { inner, ttl, defaultSample }

def new (p : Parameters) : Coalescer τ := wrapping (Dispatcher.new p) p.resultTtl p.k

def cached (c : Coalescer τ) : Nat := c.entries.size

def active (c : Coalescer τ) : Nat := c.inner.active

def fill (now : Time) (d : Delivery Question) (c : Coalescer τ) :
    Coalescer τ × List (Delivery τ) :=
  let e := (c.entries.get? d.ticket).getD {}
  ({ c with entries := c.entries.put d.ticket ⟨false, some (d.finding, now), []⟩ },
    e.waiting.map fun ticket => ⟨ticket, d.finding⟩)

def fillAll (now : Time) : List (Delivery Question) → Coalescer τ → Coalescer τ × List (Delivery τ)
  | [], c => (c, [])
  | d :: rest, c =>
    let (c, delivered) := c.fill now d
    let (c, more) := fillAll now rest c
    (c, delivered ++ more)

def absorb (now : Time) (c : Coalescer τ) (step : Dispatcher Question × List (Delivery Question)) :
    Coalescer τ × List (Delivery τ) :=
  { c with inner := step.1 }.fillAll now step.2

/-- Asks for a goal. A finding that is still good is given at once; else a running lookup is waited
for, or one is started. -/
def start (now : Time) (tables : Directory) (goal : Goal) (ticket : τ) (c : Coalescer τ) :
    Coalescer τ × List (Delivery τ) :=
  let question := goal.question c.defaultSample
  let e := (c.entries.get? question).getD {}
  let e := if !e.running && e.expired c.ttl now then { e with finding := none } else e
  match e.finding with
  | some (finding, _) => ({ c with entries := c.entries.put question e }, [⟨ticket, finding⟩])
  | none =>
    let c := { c with
      entries := c.entries.put question
        { e with running := true, waiting := e.waiting ++ [ticket] } }
    if e.running then (c, [])
    else c.absorb now (c.inner.start now tables goal question)

def respond (now : Time) (sender : Ident) (response : Response) (c : Coalescer τ) :
    Except Error (Coalescer τ × List (Delivery τ)) :=
  (c.inner.respond now sender response).map (c.absorb now)

def peerFailed (now : Time) (context : UInt64) (peer : Ident) (c : Coalescer τ) :
    Coalescer τ × List (Delivery τ) :=
  c.absorb now (c.inner.peerFailed now context peer)

def purge (now : Time) (c : Coalescer τ) : Coalescer τ :=
  { c with entries := c.entries.filter fun _ e => e.running || !e.expired c.ttl now }

/-- Gives up on all overdue requests and forgets expired findings. -/
def sweep (now : Time) (order : Arrangement (UInt64 × Running Question)) (c : Coalescer τ) :
    Coalescer τ × List (Delivery τ) :=
  let (c, delivered) := c.absorb now (c.inner.sweep now order)
  (c.purge now, delivered)

def pop (c : Coalescer τ) : Option Outgoing × Coalescer τ :=
  let (request, inner) := c.inner.pop
  (request, { c with inner })

end Coalescer

end Kademlia
