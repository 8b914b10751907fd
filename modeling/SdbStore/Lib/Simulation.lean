import Mathlib.Data.List.Basic
import Mathlib.Tactic.Common

/-!
# Simulations between state machines

A state machine takes one operation after another, and answers each with a result.  An
implementation refines its specification if related states answer alike and stay related,
as far as the operation is allowed in them; whole runs then answer alike.
-/

namespace SdbStore.Lib

variable {σ α ι ρ : Type*}

/-- The results of a run, and the state that it ends in. -/
def runOps (step : σ → ι → ρ × σ) : σ → List ι → List ρ × σ
  | s, [] => ([], s)
  | s, i :: ops =>
      let r := step s i
      let rs := runOps step r.2 ops
      (r.1 :: rs.1, rs.2)

theorem runOps_concat (step : σ → ι → ρ × σ) (s : σ) (ops : List ι) (i : ι) :
    runOps step s (ops ++ [i]) =
      ((runOps step s ops).1 ++ [(step (runOps step s ops).2 i).1],
        (step (runOps step s ops).2 i).2) := by
  induction ops generalizing s with
  | nil => rfl
  | cons j ops ih => rw [List.cons_append, runOps, ih, runOps, List.cons_append]

/-- The state after the first `n` operations of a run. -/
def stateAfter (step : σ → ι → ρ × σ) (s : σ) (ops : List ι) (n : Nat) : σ :=
  (runOps step s (ops.take n)).2

/-- One operation keeps related states related, and gives the same result in both. -/
def Simulates (R : σ → α → Prop) (ok : σ → α → ι → Prop) (step : σ → ι → ρ × σ)
    (spec : α → ι → ρ × α) : Prop :=
  ∀ s a i, R s a → ok s a i → (step s i).1 = (spec a i).1 ∧ R (step s i).2 (spec a i).2

theorem stateAfter_cons (step : σ → ι → ρ × σ) (s : σ) (i : ι) (ops : List ι) (n : Nat) :
    stateAfter step s (i :: ops) (n + 1) = stateAfter step (step s i).2 ops n := rfl

/-- The state after one more operation. -/
theorem stateAfter_succ (step : σ → ι → ρ × σ) (s : σ) {ops : List ι} {n : Nat} {i : ι}
    (hi : ops[n]? = some i) :
    stateAfter step s ops (n + 1) = (step (stateAfter step s ops n) i).2 := by
  induction ops generalizing s n with
  | nil => cases hi
  | cons j ops ih =>
      cases n with
      | zero =>
          obtain rfl := Option.some.inj hi
          rfl
      | succ n =>
          rw [stateAfter_cons, stateAfter_cons]
          exact ih (step s j).2 hi

/-- What every operation keeps holds all along a run. -/
theorem stateAfter_keeps {P : σ → Prop} {step : σ → ι → ρ × σ} (hstep : ∀ s i, P s → P (step s i).2)
    {s : σ} (h0 : P s) (ops : List ι) (n : Nat) : P (stateAfter step s ops n) := by
  induction ops generalizing s n with
  | nil =>
      rw [stateAfter, List.take_nil]
      exact h0
  | cons i ops ih =>
      cases n with
      | zero => exact h0
      | succ n => exact ih (hstep s i h0) n

/-- **Whole runs** answer alike, and go through related states. -/
theorem Simulates.run {R : σ → α → Prop} {ok : σ → α → ι → Prop} {step : σ → ι → ρ × σ}
    {spec : α → ι → ρ × α} (h : Simulates R ok step spec) {s : σ} {a : α} (hR : R s a)
    {ops : List ι}
    (hok : ∀ n i, ops[n]? = some i → ok (stateAfter step s ops n) (stateAfter spec a ops n) i) :
    (runOps step s ops).1 = (runOps spec a ops).1 ∧
      ∀ n, R (stateAfter step s ops n) (stateAfter spec a ops n) := by
  induction ops generalizing s a with
  | nil =>
      refine ⟨rfl, fun n ↦ ?_⟩
      rw [stateAfter, stateAfter, List.take_nil]
      exact hR
  | cons i ops ih =>
      obtain ⟨hres, hR'⟩ := h s a i hR (hok 0 i rfl)
      obtain ⟨hress, hall⟩ := ih hR' fun n j hj ↦ hok (n + 1) j hj
      constructor
      · rw [runOps, runOps, hres, hress]
      · intro n
        cases n with
        | zero => exact hR
        | succ n => exact hall n

/-- A relation that may depend on the number of operations so far is kept along a run, if each
operation of the run keeps it. -/
theorem stateAfter_counted {R : Nat → σ → α → Prop} {step : σ → ι → ρ × σ} {spec : α → ι → ρ × α}
    {s : σ} {a : α} {ops : List ι} (h0 : R 0 s a)
    (hstep : ∀ n i, ops[n]? = some i → R n (stateAfter step s ops n) (stateAfter spec a ops n) →
      R (n + 1) (step (stateAfter step s ops n) i).2 (spec (stateAfter spec a ops n) i).2)
    {n : Nat} (hn : n ≤ ops.length) : R n (stateAfter step s ops n) (stateAfter spec a ops n) := by
  induction n with
  | zero => exact h0
  | succ n ih =>
      have hi := List.getElem?_eq_getElem hn
      rw [stateAfter_succ step s hi, stateAfter_succ spec a hi]
      exact hstep n _ hi (ih (Nat.le_of_succ_le hn))

/-- **Runs without a bad operation.**  A relation that is kept by all operations but the bad ones
implies a property that no bad operation leaves: then the property holds all along a run if and only
if no operation of the run is bad.  The operations need only be those that are allowed. -/
theorem stateAfter_iff_of_ok {R P : σ → α → Prop} {ok bad : σ → α → ι → Prop} {step : σ → ι → ρ × σ}
    {spec : α → ι → ρ × α} (hP : ∀ s a, R s a → P s a)
    (hgood : ∀ s a i, R s a → ok s a i → ¬ bad s a i → R (step s i).2 (spec a i).2)
    (hbad : ∀ s a i, R s a → ok s a i → bad s a i → ¬ P (step s i).2 (spec a i).2) {s : σ} {a : α}
    (h0 : R s a) {ops : List ι}
    (hok : ∀ n i, ops[n]? = some i → ok (stateAfter step s ops n) (stateAfter spec a ops n) i) :
    (∀ n ≤ ops.length, P (stateAfter step s ops n) (stateAfter spec a ops n)) ↔
      ∀ n i, ops[n]? = some i → ¬ bad (stateAfter step s ops n) (stateAfter spec a ops n) i := by
  have hlt : ∀ {n i}, ops[n]? = some i → n < ops.length :=
    fun hi ↦ (List.getElem?_eq_some_iff.mp hi).1
  -- up to the first bad operation the relation is kept
  have hkept : ∀ n ≤ ops.length, (∀ m < n, ∀ i, ops[m]? = some i →
      ¬ bad (stateAfter step s ops m) (stateAfter spec a ops m) i) →
      R (stateAfter step s ops n) (stateAfter spec a ops n) := by
    intro n hn
    induction n with
    | zero => exact fun _ ↦ h0
    | succ n ih =>
        intro hno
        have hi := List.getElem?_eq_getElem hn
        rw [stateAfter_succ step s hi, stateAfter_succ spec a hi]
        exact hgood _ _ _ (ih (Nat.le_of_succ_le hn) fun m hm ↦ hno m (Nat.lt_succ_of_lt hm))
          (hok n _ hi) (hno n (Nat.lt_succ_self n) _ hi)
  constructor
  · intro hall n
    induction n using Nat.strongRecOn with
    | ind n ih =>
        intro i hi hb
        have hR := hkept n (Nat.le_of_lt (hlt hi)) ih
        have hn := hall (n + 1) (hlt hi)
        rw [stateAfter_succ step s hi, stateAfter_succ spec a hi] at hn
        exact hbad _ _ i hR (hok n i hi) hb hn
  · exact fun hno n hn ↦ hP _ _ (hkept n hn fun m _ ↦ hno m)

/-- The same when every operation is allowed. -/
theorem stateAfter_iff {R P : σ → α → Prop} {bad : σ → α → ι → Prop} {step : σ → ι → ρ × σ}
    {spec : α → ι → ρ × α} (hP : ∀ s a, R s a → P s a)
    (hgood : ∀ s a i, R s a → ¬ bad s a i → R (step s i).2 (spec a i).2)
    (hbad : ∀ s a i, R s a → bad s a i → ¬ P (step s i).2 (spec a i).2) {s : σ} {a : α}
    (h0 : R s a) (ops : List ι) :
    (∀ n ≤ ops.length, P (stateAfter step s ops n) (stateAfter spec a ops n)) ↔
      ∀ n i, ops[n]? = some i → ¬ bad (stateAfter step s ops n) (stateAfter spec a ops n) i :=
  stateAfter_iff_of_ok hP (fun s a i hR (_ : True) ↦ hgood s a i hR)
    (fun s a i hR (_ : True) ↦ hbad s a i hR) h0 fun _ _ _ ↦ trivial

end SdbStore.Lib
