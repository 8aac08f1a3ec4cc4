import Kademlia.Bytes

/-!
The values of the message notation, and the tokens that spell them. A dictionary keeps its entries
in the order in which they stand, repeated keys included, and any value may stand as a key.
-/

namespace Kademlia.Bencode

inductive Value where
  | int (n : Int)
  | bytes (content : Bytes)
  | list (items : List Value)
  | dict (entries : List (Value × Value))
  deriving Repr, Inhabited

inductive Container where
  | list
  | dict
  deriving DecidableEq, Repr

inductive Token where
  | int (n : Int)
  | bytes (content : Bytes)
  | enter (container : Container)
  | leave
  deriving DecidableEq, Repr

mutual

def Value.tokens : Value → List Token
  | .int n => [.int n]
  | .bytes content => [.bytes content]
  | .list items => .enter .list :: (Value.listTokens items ++ [.leave])
  | .dict entries => .enter .dict :: (Value.entryTokens entries ++ [.leave])

def Value.listTokens : List Value → List Token
  | [] => []
  | v :: rest => v.tokens ++ Value.listTokens rest

def Value.entryTokens : List (Value × Value) → List Token
  | [] => []
  | (key, v) :: rest => key.tokens ++ (v.tokens ++ Value.entryTokens rest)

end

def decimal (n : Nat) : Bytes :=
  if n < 10 then [UInt8.ofNat (48 + n)]
  else decimal (n / 10) ++ [UInt8.ofNat (48 + n % 10)]

def signedDecimal : Int → Bytes
  | .ofNat n => decimal n
  | .negSucc n => 45 :: decimal (n + 1)

/-- An integer stands between `i` and `e`; bytes follow their length and a colon; `l` and `d` enter
a container, and `e` leaves it. -/
def Token.spell : Token → Bytes
  | .int n => 105 :: (signedDecimal n ++ [101])
  | .bytes content => decimal content.length ++ 58 :: content
  | .enter .list => [108]
  | .enter .dict => [100]
  | .leave => [101]

def Value.spell (v : Value) : Bytes :=
  v.tokens.flatMap Token.spell

/-- Alternate values as the keys and values of a dictionary; an odd one out has no value. -/
def pairs? : List Value → Option (List (Value × Value))
  | [] => some []
  | [_] => none
  | key :: v :: rest => (pairs? rest).map ((key, v) :: ·)

end Kademlia.Bencode
