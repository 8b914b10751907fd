import Mathlib.Data.Option.Basic
import Mathlib.Tactic.Common

/-!
# Operations that may not come back

A state machine whose operations answer with a result, or never come back.  An implementation agrees
with its specification if in related states an operation comes back in both or in neither, answers
alike and leaves related states; whole runs then do the same.
-/

namespace SdbStore.Lib

variable {σ α ι ρ κ κ' : Type*}

/-- The results of a run and the state that it ends in, if every operation comes back. -/
def runAll (step : σ → ι → Option (ρ × σ)) : σ → List ι → Option (List ρ × σ)
  | s, [] => some ([], s)
  | s, i :: ops => (step s i).bind fun r ↦ (runAll step r.2 ops).map fun rs ↦ (r.1 :: rs.1, rs.2)

/-- The same answer, and related states after it. -/
def SameAnswer (R : σ → α → Prop) : Option (κ × σ) → Option (κ × α) → Prop :=
  Option.Rel fun r t ↦ r.1 = t.1 ∧ R r.2 t.2

/-- One operation of an implementation and of its specification. -/
def AnswersAs (R : σ → α → Prop) (step : σ → ι → Option (ρ × σ)) (spec : α → ι → Option (ρ × α)) :
    Prop :=
  ∀ s a i, R s a → SameAnswer R (step s i) (spec a i)

section SameAnswer

variable {R : σ → α → Prop} {x : Option (κ × σ)} {y : Option (κ × α)}

theorem SameAnswer.bind {f : κ × σ → Option (κ' × σ)} {g : κ × α → Option (κ' × α)}
    (h : SameAnswer R x y) (hfg : ∀ r t, r.1 = t.1 → R r.2 t.2 → SameAnswer R (f r) (g t)) :
    SameAnswer R (x.bind f) (y.bind g) := by
  cases h with
  | none => exact .none
  | some h => exact hfg _ _ h.1 h.2

theorem SameAnswer.map (h : SameAnswer R x y) (f : κ → κ') :
    SameAnswer R (x.map fun r ↦ (f r.1, r.2)) (y.map fun t ↦ (f t.1, t.2)) := by
  cases h with
  | none => exact .none
  | some h => exact .some ⟨congrArg f h.1, h.2⟩

theorem SameAnswer.exists_some (h : SameAnswer R x y) {r : κ × σ} (hr : x = some r) :
    ∃ t, y = some t ∧ r.1 = t.1 ∧ R r.2 t.2 := by
  cases hr
  cases h with
  | some h => exact ⟨_, rfl, h⟩

end SameAnswer

/-- **Whole runs** come back in both or in neither, and answer alike. -/
theorem AnswersAs.run {R : σ → α → Prop} {step : σ → ι → Option (ρ × σ)}
    {spec : α → ι → Option (ρ × α)} (h : AnswersAs R step spec) {s : σ} {a : α} (hR : R s a)
    (ops : List ι) :
    SameAnswer R (runAll step s ops) (runAll spec a ops) := by
  induction ops generalizing s a with
  | nil => exact .some ⟨rfl, hR⟩
  | cons i ops ih =>
      refine (h s a i hR).bind fun r t hres hR' ↦ ?_
      rw [hres]
      exact (ih hR').map (t.1 :: ·)

/-- What every operation keeps that answers in a given way holds at the end of a run of such
answers. -/
theorem runAll_keeps {P : σ → Prop} {Q : ι → ρ → Prop} {step : σ → ι → Option (ρ × σ)}
    (hstep : ∀ s i r s', P s → Q i r → step s i = some (r, s') → P s') {s s' : σ} {ops : List ι}
    {rs : List ρ} (h : runAll step s ops = some (rs, s')) (hQ : ∀ p ∈ ops.zip rs, Q p.1 p.2)
    (hs : P s) : P s' := by
  induction ops generalizing s rs with
  | nil =>
      cases h
      exact hs
  | cons i ops ih =>
      obtain ⟨⟨r, t⟩, hi, hrest⟩ := Option.bind_eq_some_iff.mp h
      obtain ⟨⟨rs', t'⟩, hops, heq⟩ := Option.map_eq_some_iff.mp hrest
      cases heq
      refine ih hops (fun p hp ↦ hQ p (List.mem_cons_of_mem _ hp)) ?_
      exact hstep s i r t hs (hQ (i, r) List.mem_cons_self) hi

/-- The answers of a run, and what it ends in, if the specification may answer in more than one
way. -/
inductive Behaves (spec : α → ι → ρ → α → Prop) : α → List ι → List ρ → α → Prop
  | done (a : α) : Behaves spec a [] [] a
  | call {a a' a'' : α} {i : ι} {r : ρ} {ops : List ι} {rs : List ρ} (hcall : spec a i r a')
      (hrest : Behaves spec a' ops rs a'') : Behaves spec a (i :: ops) (r :: rs) a''

/-- **Whole runs** come back with answers of the specification, if every operation does. -/
theorem runAll_behaves {R : σ → α → Prop} {step : σ → ι → Option (ρ × σ)}
    {spec : α → ι → ρ → α → Prop} (hstep : ∀ s a i, R s a → ∃ r s' a', step s i = some (r, s') ∧
      spec a i r a' ∧ R s' a') {s : σ} {a : α}
    (hR : R s a) (ops : List ι) :
    ∃ rs s' a', runAll step s ops = some (rs, s') ∧ Behaves spec a ops rs a' ∧ R s' a' := by
  induction ops generalizing s a with
  | nil => exact ⟨[], s, a, rfl, .done a, hR⟩
  | cons i ops ih =>
      obtain ⟨r, s', a', hi, hspec, hR'⟩ := hstep s a i hR
      obtain ⟨rs, s'', a'', hops, hbeh, hR''⟩ := ih hR'
      refine ⟨r :: rs, s'', a'', ?_, .call hspec hbeh, hR''⟩
      rw [runAll, hi, Option.bind_some, hops, Option.map_some]

end SdbStore.Lib
