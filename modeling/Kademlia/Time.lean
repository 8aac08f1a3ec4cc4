/-!
Time is a number of milliseconds since the node started, and it is passed to whatever depends on it.
-/

namespace Kademlia

abbrev Time := Nat

abbrev Duration := Nat

/-- Whether more than `limit` has passed since `start`; at the limit itself it has not. -/
def Time.overdue (start : Time) (limit : Duration) (now : Time) : Bool :=
  start + limit < now

/-- Whether something that ends at `expiry` still lives; at that very time it does not. -/
def Time.live (expiry : Time) (now : Time) : Bool :=
  now < expiry

end Kademlia
