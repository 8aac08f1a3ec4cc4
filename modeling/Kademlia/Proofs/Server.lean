import Kademlia.Server
import Kademlia.Proofs.Directory
import Kademlia.Proofs.Message.Wire
import Kademlia.Proofs.Store

/-!
What a server makes of the requests of lookups: a response under the same context that names only
peers of its tables. It brings no new value about. The calls that are made on a server make up a run.
-/

namespace Kademlia

namespace Server

/-- What answers a request that carries a context. -/
structure Answers (tables : Directory) (s : Server) (context : UInt64) (response : Response)
    (s' : Server) : Prop where
  context_eq : response.context = context
  closer : ∀ p ∈ response.closerPeers, p ∈ tables.peers
  blobs : ∀ b ∈ (Message.response response).blobs, ∃ key, (key, b) ∈ s.values.values
  values : ∀ e ∈ s'.values.values, e ∈ s.values.values

theorem handle_answers (choice : Choice) (now : Time) (tables : Directory) (sender : Peer)
    (s : Server) {request : Request} {context : UInt64} (h : request.context? = some context) :
    ∃ response s', s.handle choice now tables sender request = (some response, s') ∧
      Answers tables s context response s' := by
  have hclosest : ∀ name target, ∀ p ∈ tables.closest name target (some sender.id),
      p ∈ tables.peers := fun name target => tables.closest_subset name target _
  cases request with
  | findNode c target table =>
    cases h
    exact ⟨_, _, rfl, rfl, hclosest _ _, by simp [Message.blobs], fun _ he => he⟩
  | findValue c key =>
    cases h
    obtain ⟨hv, hs⟩ := s.values.read_subset key
    exact ⟨_, _, rfl, rfl, hclosest _ _, fun b hb => ⟨key, hv b (Option.mem_toList.mp hb)⟩, hs⟩
  | findMembers of c id =>
    cases h
    exact ⟨_, _, rfl, rfl, hclosest _ _, by simp [Message.blobs], fun _ he => he⟩
  | store key value => cases h
  | join of id => cases h

section Run

inductive Call where
  | handle (choice : Choice) (now : Time) (tables : Directory) (sender : Peer) (request : Request)
  | clean (now : Time)

def Call.time : Call → Time
  | .handle _ now _ _ _ => now
  | .clean now => now

def step (s : Server) : Call → Server
  | .handle choice now tables sender request => (s.handle choice now tables sender request).2
  | .clean now => s.clean now

def answer (s : Server) : Call → Option Response
  | .handle choice now tables sender request => (s.handle choice now tables sender request).1
  | .clean _ => none

def play (s : Server) (calls : List Call) : Server := calls.foldl step s

@[simp] theorem play_nil (s : Server) : s.play [] = s := rfl

@[simp] theorem play_cons (s : Server) (c : Call) (calls : List Call) :
    s.play (c :: calls) = (s.step c).play calls := rfl

theorem play_concat (s : Server) (calls : List Call) (c : Call) :
    s.play (calls ++ [c]) = (s.play calls).step c := by
  rw [play, List.foldl_append]
  rfl

end Run

end Server

end Kademlia
