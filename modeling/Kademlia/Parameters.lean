import Kademlia.Time

/-!
The parameters of a node and their defaults.
-/

namespace Kademlia

structure Parameters where
  /-- Capacity of the buckets of the main table, and number of peers that a lookup converges on. -/
  k : Nat := 20
  /-- Greatest number of requests that a lookup keeps in flight. -/
  alpha : Nat := 3
  /-- Capacity of the buckets of all other tables. -/
  topicK : Nat := 20
  /-- How long a lookup waits for one peer. -/
  requestTimeout : Duration := 3000
  /-- How long the result of a lookup is given to equal lookups. -/
  resultTtl : Duration := 30000
  /-- How long a request for the content of a broadcast may stay in flight. -/
  contentTimeout : Duration := 10000
  /-- How long a broadcast is kept. -/
  broadcastTtl : Duration := 600000
  /-- How long a peer is remembered to hold a broadcast. -/
  holderTtl : Duration := 600000
  /-- How long a member of a group is remembered after it joined. -/
  memberTtl : Duration := 600000
  /-- Greatest number of values that a node stores. -/
  maxValues : Nat := 1000
  deriving Repr

end Kademlia
