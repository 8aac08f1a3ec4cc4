import Kademlia.Ident
import Kademlia.Bencode.Error
import Kademlia.Lookup.Progress

/-!
The ways in which an operation of a node can be refused, and their texts.
-/

namespace Kademlia

inductive Error where
  /-- Bytes that should be an identifier have the wrong length. -/
  | identSize (size : Nat)
  /-- A text that should be an identifier is not forty hexadecimal digits. -/
  | identText (text : String)
  | slotOutOfBounds (slot size : Nat)
  /-- Bytes that should be a message are not one. -/
  | unreadable (cause : Bencode.Error)
  /-- Bytes that should be a compact peer have the wrong length. -/
  | compactPeerSize (size : Nat)
  /-- A lookup got a response that it does not wait for; `none` is a peer it does not know. -/
  | unexpectedResponse (context : UInt64) (sender : Ident) (progress : Option Progress)
  | alreadyTracking (message : MessageId)
  | notTracking (message : MessageId)
  | requestInFlight (message : MessageId)
  | noActiveRequest (message : MessageId)
  deriving DecidableEq, Repr

def Error.message : Error → String
  | .identSize size => s!"Invalid Id size, expected 20 bytes, got {size}"
  | .identText text => s!"Invalid Id encoding: {text}"
  | .slotOutOfBounds slot size => s!"Index {slot} out of bounds for bucket of size {size}"
  | .unreadable cause => "Failed to parse packet bytes: " ++ cause.message
  | .compactPeerSize size => s!"Wrong number of bytes for a compact peer: {size}"
  | .unexpectedResponse context sender progress =>
    s!"Response for context {context} from " ++ sender.text ++ " which is in state " ++
      (progress.map Progress.text).getD "unknown"
  | .alreadyTracking message => "Message " ++ message.text ++ " is already being tracked"
  | .notTracking message => "Message " ++ message.text ++ " is not being tracked"
  | .requestInFlight message => "Message " ++ message.text ++ " already has a request in flight"
  | .noActiveRequest message => "Message " ++ message.text ++ " has no request in flight"

end Kademlia
