import Kademlia.Error

/-!
Reading identifiers, from their bytes and from their hexadecimal text.
-/

namespace Kademlia

namespace Ident

def ofBytes (bytes : Bytes) : Except Error Ident :=
  if bytes.length = 20 then .ok ⟨BitVec.ofNat 160 (beValue bytes)⟩
  else .error (.identSize bytes.length)

def ofText (text : String) : Except Error Ident :=
  match unhex? text.toList with
  | none => .error (.identText text)
  | some bytes =>
    if bytes.length = 20 then .ok ⟨BitVec.ofNat 160 (beValue bytes)⟩
    else .error (.identText text)

end Ident

end Kademlia
