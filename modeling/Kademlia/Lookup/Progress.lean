/-!
How far a lookup has come with one peer.
-/

namespace Kademlia

inductive Progress where
  /-- Known and not asked yet. -/
  | pending
  /-- Asked, with the request in flight. -/
  | inProgress
  | finished
  /-- Timed out or reported unreachable. -/
  | failed
  deriving DecidableEq, Repr

def Progress.text : Progress → String
  | .pending => "pending"
  | .inProgress => "in-progress"
  | .finished => "finished"
  | .failed => "failed"

end Kademlia
