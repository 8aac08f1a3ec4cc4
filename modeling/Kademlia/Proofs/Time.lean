import Mathlib.Data.List.Basic
import Kademlia.Time

/-!
Runs in which time only goes on. Some calls have a time, and the clock is at the last one; what is
kept by waiting and by each call is kept by a whole run.
-/

namespace Kademlia

variable {κ σ : Type} {time? : κ → Option Time} {clock now : Time}

/-- The first call comes no earlier than the clock, which it moves on to its time if it has one. -/
theorem ordered_cons {call : κ} {calls : List κ}
    (h : (clock :: ((call :: calls).filterMap time? ++ [now])).Pairwise (· ≤ ·)) :
    (∀ time, time? call = some time → clock ≤ time) ∧
      ((time? call).getD clock :: (calls.filterMap time? ++ [now])).Pairwise (· ≤ ·) := by
  cases hc : time? call with
  | none =>
    rw [List.filterMap_cons_none hc] at h
    exact ⟨nofun, h⟩
  | some time =>
    rw [List.filterMap_cons_some hc] at h
    obtain ⟨hfirst, hrest⟩ := List.pairwise_cons.mp h
    refine ⟨fun later hl => ?_, hrest⟩
    cases hl
    exact hfirst time List.mem_cons_self

theorem kept_by_run {step : σ → κ → σ} {P : σ → Time → List κ → Prop}
    (hwait : ∀ {s clock now past}, P s clock past → clock ≤ now → P s now past)
    (hstep : ∀ {s clock past} (call), P s clock past →
      (∀ time, time? call = some time → clock ≤ time) →
      P (step s call) ((time? call).getD clock) (past ++ [call]))
    {s : σ} {past : List κ} (h : P s clock past) (calls : List κ)
    (ht : (clock :: (calls.filterMap time? ++ [now])).Pairwise (· ≤ ·)) :
    P (calls.foldl step s) now (past ++ calls) := by
  induction calls generalizing s clock past with
  | nil =>
    rw [List.append_nil]
    exact hwait h ((List.pairwise_cons.mp ht).1 now (List.mem_singleton_self now))
  | cons call calls ih =>
    obtain ⟨hcall, hrest⟩ := ordered_cons ht
    have hall := ih (hstep call h hcall) hrest
    rwa [List.append_assoc, List.singleton_append] at hall

theorem kept_by_timed_run {time : κ → Time} {step : σ → κ → σ} {P : σ → Time → List κ → Prop}
    (hwait : ∀ {s clock now past}, P s clock past → clock ≤ now → P s now past)
    (hstep : ∀ {s clock past} (call), P s clock past → clock ≤ time call →
      P (step s call) (time call) (past ++ [call]))
    {s : σ} {past : List κ} (h : P s clock past) (calls : List κ)
    (ht : (clock :: (calls.map time ++ [now])).Pairwise (· ≤ ·)) :
    P (calls.foldl step s) now (past ++ calls) := by
  rw [← List.filterMap_eq_map] at ht
  exact kept_by_run (P := P) hwait (fun call h hc => hstep call h (hc _ rfl)) h calls ht

end Kademlia
