import Kademlia.Dispatcher

/-!
Tickets: who asked for a lookup, and the outlet through which the finding is delivered.
-/

namespace Kademlia

inductive Outlet where
  /-- The finding is handed over at once. -/
  | callback
  /-- The finding is handed over at once and dropped. -/
  | discard
  /-- The finding waits to be fetched. -/
  | channel
  /-- Nobody is left to fetch the finding. -/
  | deserted
  deriving DecidableEq, Repr

def Outlet.describe : Outlet → String
  | .callback | .discard => "Responder::Callback"
  | .channel | .deserted => "Responder::Channel"

/-- Requests for lookups are numbered in the order in which they are made. -/
structure Ticket where
  number : Nat
  outlet : Outlet
  deriving DecidableEq, Repr

def arrivals (outlet : Outlet) (deliveries : List (Delivery Ticket)) : List (Delivery Ticket) :=
  deliveries.filter fun d => d.ticket.outlet = outlet

def byNumber (deliveries : List (Delivery Ticket)) : List (Delivery Ticket) :=
  deliveries.mergeSort fun a b => a.ticket.number ≤ b.ticket.number

/-- What is seen of some deliveries: those handed over, in order, and then those that wait, by
number. -/
def readout (deliveries : List (Delivery Ticket)) : List (Delivery Ticket) :=
  arrivals .callback deliveries ++ byNumber (arrivals .channel deliveries)

end Kademlia
