import Kademlia.Bencode.Scan

/-!
What a container holds, as far as it can be read. The values are gathered one token at a time, with
a frame for each container that is still open; the reading ends where the outer container is closed
or where the bytes cannot be read on.
-/

namespace Kademlia.Bencode

/-- An open container with the values read in it, newest first. -/
structure Frame where
  container : Container
  items : List Value := []

/-- The value of a container that closes; a dictionary needs a value for every key. -/
def Frame.close? (f : Frame) : Option Value :=
  match f.container with
  | .list => some (.list f.items.reverse)
  | .dict => (pairs? f.items.reverse).map .dict

inductive Ending where
  | closed
  /-- Reading stopped at a fault, possibly within a container that stands among the values. -/
  | stopped (within : Option Container) (fault : Error)

structure Body where
  items : List Value
  ending : Ending

def outermost? (frames : List Frame) : Option Container :=
  frames.getLast?.map Frame.container

def push (v : Value) (items : List Value) : List Frame → List Value × List Frame
  | [] => (v :: items, [])
  | f :: outer => (items, { f with items := v :: f.items } :: outer)

/-- Gathers values from tokens, `items` being the finished ones, newest first. -/
def Body.gather (fault : Error) : List Token → List Value → List Frame → Body
  | [], items, frames => ⟨items.reverse, .stopped (outermost? frames) fault⟩
  | .int n :: tokens, items, frames =>
    let (items, frames) := push (.int n) items frames
    Body.gather fault tokens items frames
  | .bytes content :: tokens, items, frames =>
    let (items, frames) := push (.bytes content) items frames
    Body.gather fault tokens items frames
  | .enter container :: tokens, items, frames =>
    Body.gather fault tokens items (⟨container, []⟩ :: frames)
  | .leave :: _, items, [] => ⟨items.reverse, .closed⟩
  | .leave :: tokens, items, f :: outer =>
    match f.close? with
    | none => ⟨items.reverse, .stopped (outermost? (f :: outer)) .endOfStream⟩
    | some v =>
      let (items, frames) := push v items outer
      Body.gather fault tokens items frames

/-- The outer container of some bytes, and what it holds. Bytes behind its end do not matter. -/
def Body.ofBytes (bytes : Bytes) : Except Error (Container × Body) :=
  match Token.scan bytes with
  | ([], fault) => .error fault
  | (.int n :: _, _) => .error (.wrongShape (.int n) .message)
  | (.bytes _ :: _, _) => .error (.wrongShape .bytes .message)
  | (.leave :: _, _) => .error .endOfStream
  | (.enter container :: tokens, fault) => .ok (container, Body.gather fault tokens [] [])

end Kademlia.Bencode
