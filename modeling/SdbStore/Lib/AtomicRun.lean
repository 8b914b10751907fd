import Mathlib.Data.List.Basic
import Mathlib.Tactic.Common

/-!
# Steps that happen or do not

A program is run again and again on a state that is kept between the runs.  A run that goes wrong
can have happened all the same, or not at all, and it may not return: what is seen from outside is
then explained by a sequential specification in which each step either happens as a whole or does
nothing, and a step whose status is zero has happened.
-/

namespace SdbStore.Lib

variable {σ τ ι ω : Type*}

/-- The steps one after another, up to one that does not return: the status and the output of each,
and the state at the end. -/
def runSteps (run : τ → ι → Option (Nat × ω × τ)) : τ → List ι → List (Nat × ω) × τ
  | w, [] => ([], w)
  | w, i :: is =>
      match run w i with
      | none => ([], w)
      | some r =>
          let t := runSteps run r.2.2 is
          ((r.1, r.2.1) :: t.1, t.2)

/-- Each of the steps finds a state that is good for it. -/
def AllAlong (ok : τ → ι → Prop) (run : τ → ι → Option (Nat × ω × τ)) : τ → List ι → Prop
  | _, [] => True
  | w, i :: is => ok w i ∧ ∀ r, run w i = some r → AllAlong ok run r.2.2 is

theorem AllAlong.mono {ok ok' : τ → ι → Prop} {run : τ → ι → Option (Nat × ω × τ)} {w : τ}
    {is : List ι} (h : AllAlong ok run w is) (himp : ∀ w i, ok w i → ok' w i) :
    AllAlong ok' run w is := by
  induction is generalizing w with
  | nil => trivial
  | cons i is ih => exact ⟨himp w i h.1, fun r hr ↦ ih (h.2 r hr)⟩

/-- The outputs are those of the specification, from the first state to the last.  A step that
reports an error may have happened, or been lost after its output, or been refused before it; and
the run may stop anywhere. -/
inductive AtomicRun (step : σ → ι → ω × σ) (silent : ω) : σ → List ι → List (Nat × ω) → σ → Prop
  | stopped (s : σ) (is : List ι) : AtomicRun step silent s is [] s
  | kept {s s' : σ} {i : ι} {is : List ι} {outs : List (Nat × ω)} (ret : Nat)
      (h : AtomicRun step silent (step s i).2 is outs s') :
      AtomicRun step silent s (i :: is) ((ret, (step s i).1) :: outs) s'
  | lost {s s' : σ} {i : ι} {is : List ι} {outs : List (Nat × ω)} {ret : Nat} (hret : ret ≠ 0)
      (h : AtomicRun step silent s is outs s') :
      AtomicRun step silent s (i :: is) ((ret, (step s i).1) :: outs) s'
  | refused {s s' : σ} {i : ι} {is : List ι} {outs : List (Nat × ω)} {ret : Nat} (hret : ret ≠ 0)
      (h : AtomicRun step silent s is outs s') :
      AtomicRun step silent s (i :: is) ((ret, silent) :: outs) s'

/-- What a step that returns has done, where `R` says which state of the specification a state
stands for. -/
inductive StepDone (step : σ → ι → ω × σ) (silent : ω) (R : τ → σ → Prop) (s : σ) (i : ι) :
    Nat × ω × τ → Prop
  | kept {ret : Nat} {w : τ} (h : R w (step s i).2) : StepDone step silent R s i
      (ret, (step s i).1, w)
  | lost {ret : Nat} {w : τ} (hret : ret ≠ 0) (h : R w s) : StepDone step silent R s i
      (ret, (step s i).1, w)
  | refused {ret : Nat} {w : τ} (hret : ret ≠ 0) (h : R w s) : StepDone step silent R s i
      (ret, silent, w)

section Run

variable {run : τ → ι → Option (Nat × ω × τ)} {ok : τ → ι → Prop} {w : τ} {is : List ι}

/-- **Whole runs are explained** if each step that returns is. -/
theorem atomicRun_of_steps {step : σ → ι → ω × σ} {silent : ω} {R : τ → σ → Prop}
    (hstep : ∀ w s i r, R w s → ok w i → run w i = some r → StepDone step silent R s i r)
    {s : σ} (hR : R w s) (hok : AllAlong ok run w is) :
    ∃ s', AtomicRun step silent s is (runSteps run w is).1 s' ∧ R (runSteps run w is).2 s' := by
  induction is generalizing w s with
  | nil => exact ⟨s, .stopped s [], hR⟩
  | cons i is ih =>
      obtain ⟨hi, his⟩ := hok
      rw [runSteps]
      cases hr : run w i with
      | none => exact ⟨s, .stopped s (i :: is), hR⟩
      | some r =>
          have hdone := hstep w s i r hR hi hr
          cases hdone with
          | kept h =>
              obtain ⟨s', hrun, hend⟩ := ih h (his _ hr)
              exact ⟨s', .kept _ hrun, hend⟩
          | lost hret h =>
              obtain ⟨s', hrun, hend⟩ := ih h (his _ hr)
              exact ⟨s', .lost hret hrun, hend⟩
          | refused hret h =>
              obtain ⟨s', hrun, hend⟩ := ih h (his _ hr)
              exact ⟨s', .refused hret hrun, hend⟩

/-- A run that stops has come to a step that does not return. -/
theorem runSteps_stops (run : τ → ι → Option (Nat × ω × τ)) (w : τ) (is : List ι) :
    (runSteps run w is).1.length = is.length ∨ ∃ i ∈ is, run (runSteps run w is).2 i = none := by
  induction is generalizing w with
  | nil => exact .inl rfl
  | cons i is ih =>
      rw [runSteps]
      cases hr : run w i with
      | none => exact .inr ⟨i, List.mem_cons_self, hr⟩
      | some r =>
          dsimp only
          rcases ih r.2.2 with hall | ⟨j, hj, hstop⟩
          · exact .inl (congrArg (· + 1) hall)
          · exact .inr ⟨j, List.mem_cons_of_mem i hj, hstop⟩

/-- A run comes to its end if each step returns from a state that is free, and leaves it free. -/
theorem runSteps_complete {free : τ → Prop}
    (hstep : ∀ w, free w → ∀ i ∈ is, ∃ r, run w i = some r ∧ free r.2.2) (hfree : free w) :
    (runSteps run w is).1.length = is.length ∧ free (runSteps run w is).2 := by
  induction is generalizing w with
  | nil => exact ⟨rfl, hfree⟩
  | cons i is ih =>
      obtain ⟨r, hr, hnext⟩ := hstep w hfree i List.mem_cons_self
      obtain ⟨hall, hend⟩ := ih (fun w h j hj ↦ hstep w h j (List.mem_cons_of_mem i hj)) hnext
      rw [runSteps, hr]
      exact ⟨congrArg (· + 1) hall, hend⟩

end Run

end SdbStore.Lib
