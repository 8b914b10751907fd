import Mathlib.Logic.Relation
import Mathlib.Tactic.Common

/-!
# Runs of a program

A program that goes from one state to the next with something from outside, or stops.  `Runs` are
its runs in which every step meets a condition, and `exec` finds out where a list of things from
outside leads to.

A loop makes one turn after another until a turn gives a result.  `repeatM` says nothing of a loop
that goes on for ever, so what is proved of a loop is that it comes to an end (`LoopEnds`).
-/

namespace SdbStore.Lib

universe u v

variable {σ : Type u} {ι : Type v} (step : σ → ι → Option σ) (ok : σ → ι → Prop)

/-- A run leads from one state to another, and each of its steps meets the condition. -/
def Runs : σ → σ → Prop := Relation.ReflTransGen fun s t ↦ ∃ i, ok s i ∧ step s i = some t

/-- Where a run leads to, if its steps meet the condition. -/
def exec [∀ s i, Decidable (ok s i)] : List ι → σ → Option σ
  | [], s => some s
  | i :: is, s => if ok s i then (step s i).bind (exec is) else none

variable {step ok}

/-- What each step keeps holds at the end of a run. -/
theorem Runs.keeps {P : σ → Prop} {s t : σ}
    (hstep : ∀ s i t, P s → ok s i → step s i = some t → P t) (h : Runs step ok s t) (hs : P s) :
    P t := by
  induction h with
  | refl => exact hs
  | tail _ hlast ih =>
      obtain ⟨i, hok, ht⟩ := hlast
      exact hstep _ i _ ih hok ht

theorem runs_of_exec [∀ s i, Decidable (ok s i)] {is : List ι} {s t : σ}
    (h : exec step ok is s = some t) : Runs step ok s t := by
  induction is generalizing s with
  | nil =>
      cases h
      exact .refl
  | cons i is ih =>
      rw [exec] at h
      split at h
      · next hok =>
          obtain ⟨s', hs', h⟩ := Option.bind_eq_some_iff.mp h
          exact .head ⟨i, hok, hs'⟩ (ih h)
      · cases h

section Loop

variable {α β : Type u} {f : α → Option (α ⊕ β)} {a : α} {b : β}

/-- The loop comes to an end, with a result. -/
inductive LoopEnds (f : α → Option (α ⊕ β)) : α → β → Prop
  | stop {a : α} {b : β} (h : f a = some (.inr b)) : LoopEnds f a b
  | turn {a a' : α} {b : β} (h : f a = some (.inl a')) (hb : LoopEnds f a' b) : LoopEnds f a b

/-- What a loop that comes to an end gives. -/
theorem LoopEnds.result [Nonempty β] (h : LoopEnds f a b) : repeatM f a = some b := by
  induction h with
  | stop h =>
      rw [repeatM_eq_of_monadTail, repeatM.body, h]
      rfl
  | turn h _ ih =>
      rw [repeatM_eq_of_monadTail, repeatM.body, h]
      exact ih

/-- What each turn keeps holds at the end of a loop. -/
theorem LoopEnds.keeps {P : α → Prop} {Q : β → Prop}
    (hturn : ∀ a a', P a → f a = some (.inl a') → P a')
    (hstop : ∀ a b, P a → f a = some (.inr b) → Q b) (h : LoopEnds f a b) (ha : P a) : Q b := by
  induction h with
  | stop h => exact hstop _ _ ha h
  | turn h _ ih => exact ih (hturn _ _ ha h)

end Loop

end SdbStore.Lib
