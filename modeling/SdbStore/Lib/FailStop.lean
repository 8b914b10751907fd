import Mathlib.Data.List.Basic
import Mathlib.Tactic.Common

/-!
# Fail-stop programs

A program that talks to an unreliable environment makes one call after another
and gives up at the first one that fails.  Such programs are the values of
`EStateM ε σ α`; the state `σ` carries a clock that counts the calls made so far
and an oracle that says which of them fail.  This file has the rules the
proofs about such programs use:

* `bind_of_ok` and `bind_of_error` take a run of a composite program apart;
* `Moves.bind` composes what the state changes by, whether the run ends well or
  not (frame conditions), and what its results have in common;
* `Ends.bind` and `Ends.foldlM` are the rules of a program logic for the outcome of a run;
* `FailStop.bind` composes the fail-stop property: a run ends in the error `flt`
  exactly when one of the calls it made was due to fail;
* `Takes.bind` counts the calls of a run that ends well.
-/

namespace SdbStore.Lib

variable {ε σ α β : Type}

/-- The state in which a run ends, whatever its outcome. -/
def after : EStateM.Result ε σ α → σ
  | .ok _ s => s
  | .error _ s => s

theorem pure_apply (a : α) (s : σ) : (pure a : EStateM ε σ α) s = .ok a s := rfl

theorem throw_apply (e : ε) (s : σ) : (throw e : EStateM ε σ α) s = .error e s := rfl

theorem bind_of_ok {x : EStateM ε σ α} {f : α → EStateM ε σ β} {s s' : σ} {a : α}
    (h : x s = .ok a s') : (x >>= f) s = f a s' := by
  change EStateM.bind x f s = _
  simp only [EStateM.bind, h]

theorem bind_of_error {x : EStateM ε σ α} {f : α → EStateM ε σ β} {s s' : σ} {e : ε}
    (h : x s = .error e s') : (x >>= f) s = .error e s' := by
  change EStateM.bind x f s = _
  simp only [EStateM.bind, h]

/-! ## What a program does to the state -/

/-- Every run of `x` relates its first state to its last one by `R`, and every result
is in `P`. -/
def Moves (R : σ → σ → Prop) (P : α → Prop) (x : EStateM ε σ α) : Prop :=
  ∀ s, R s (after (x s)) ∧ ∀ a s', x s = .ok a s' → P a

section Moves

variable {R : σ → σ → Prop} {P : α → Prop} {P₁ : β → Prop}

theorem Moves.pure (hr : ∀ s, R s s) {a : α} (ha : P a) : Moves R P (pure a : EStateM ε σ α) :=
  fun s ↦ ⟨hr s, fun _ _ h ↦ by cases h; exact ha⟩

theorem Moves.throw (hr : ∀ s, R s s) (e : ε) : Moves R P (throw e : EStateM ε σ α) :=
  fun s ↦ ⟨hr s, fun _ _ h ↦ nomatch h⟩

theorem Moves.bind (ht : ∀ s s' s'', R s s' → R s' s'' → R s s'') {x : EStateM ε σ α}
    {f : α → EStateM ε σ β} (hx : Moves R P x) (hf : ∀ a, P a → Moves R P₁ (f a)) :
    Moves R P₁ (x >>= f) := by
  intro s
  have hxs := hx s
  cases h : x s with
  | ok a s' =>
      rw [bind_of_ok h]
      rw [h] at hxs
      have hfs := hf a (hxs.2 a s' rfl) s'
      exact ⟨ht _ _ _ hxs.1 hfs.1, hfs.2⟩
  | error e s' =>
      rw [bind_of_error h]
      rw [h] at hxs
      exact ⟨hxs.1, fun _ _ h ↦ nomatch h⟩

theorem Moves.foldlM (hr : ∀ s, R s s) (ht : ∀ s s' s'', R s s' → R s' s'' → R s s'')
    {f : β → α → EStateM ε σ β} (hf : ∀ b a, P₁ b → Moves R P₁ (f b a)) (l : List α) {b : β}
    (hb : P₁ b) : Moves R P₁ (l.foldlM f b) := by
  induction l generalizing b with
  | nil => exact Moves.pure hr hb
  | cons a l ih =>
      rw [List.foldlM_cons]
      exact Moves.bind ht (hf b a hb) fun b' hb' ↦ ih hb'

end Moves

/-! ## How a program ends -/

/-- The run ends well with a result and state in `Q`, or in an error in `E`. -/
def Ends (Q : α → σ → Prop) (E : ε → Prop) : EStateM.Result ε σ α → Prop
  | .ok a s => Q a s
  | .error e _ => E e

section Ends

variable {Q : α → σ → Prop} {R : β → σ → Prop} {E : ε → Prop}

theorem Ends.of_ok {r : EStateM.Result ε σ α} {a : α} {s : σ} (h : Ends Q E r)
    (hr : r = .ok a s) : Q a s := by
  rw [hr] at h
  exact h

theorem Ends.of_error {r : EStateM.Result ε σ α} {e : ε} {s : σ} (h : Ends Q E r)
    (hr : r = .error e s) : E e := by
  rw [hr] at h
  exact h

theorem Ends.mono {r : EStateM.Result ε σ α} {Q' : α → σ → Prop} {E' : ε → Prop}
    (h : Ends Q E r) (hQ : ∀ a s, Q a s → Q' a s) (hE : ∀ e, E e → E' e) : Ends Q' E' r := by
  cases r with
  | ok a s => exact hQ a s h
  | error e s => exact hE e h

theorem Ends.bind {x : EStateM ε σ α} {f : α → EStateM ε σ β} {s : σ} (hx : Ends Q E (x s))
    (hf : ∀ a s', Q a s' → Ends R E (f a s')) : Ends R E ((x >>= f) s) := by
  cases h : x s with
  | ok a s' =>
      rw [bind_of_ok h]
      exact hf a s' (hx.of_ok h)
  | error e s' =>
      rw [bind_of_error h]
      exact hx.of_error h

/-- The rule for loops over a list: the invariant knows which elements are done. -/
theorem Ends.foldlM {I : List α → β → σ → Prop} {f : β → α → EStateM ε σ β} {l : List α}
    (hf : ∀ pre a post b s, l = pre ++ a :: post → I pre b s →
      Ends (I (pre ++ [a])) E (f b a s)) {b : β} {s : σ} (h : I [] b s) :
    Ends (I l) E (l.foldlM f b s) := by
  have key : ∀ todo done b s, l = done ++ todo → I done b s →
      Ends (I l) E (todo.foldlM f b s) := by
    intro todo
    induction todo with
    | nil =>
        intro done b s hl hI
        rw [List.append_nil] at hl
        rw [hl]
        exact hI
    | cons a todo ih =>
        intro done b s hl hI
        rw [List.foldlM_cons]
        refine (hf done a todo b s hl hI).bind fun b' s' hI' ↦ ih (done ++ [a]) b' s' ?_ hI'
        rw [hl, List.append_assoc]
        rfl
  exact key l [] b s rfl h

theorem Ends.foldlM_range {I : Nat → β → σ → Prop} {f : β → Nat → EStateM ε σ β} {n : Nat}
    (hf : ∀ i b s, i < n → I i b s → Ends (I (i + 1)) E (f b i s)) {b : β} {s : σ}
    (h : I 0 b s) : Ends (I n) E ((List.range n).foldlM f b s) := by
  have hfold := Ends.foldlM (E := E) (I := fun pre ↦ I pre.length) (f := f) (l := List.range n)
    (fun pre a post b s hl hI ↦ ?_) (b := b) (s := s) h
  · rwa [List.length_range] at hfold
  · have ha : (List.range n)[pre.length]? = some a := by
      rw [hl]
      simp
    obtain ⟨hlt, ha⟩ := List.getElem?_eq_some_iff.mp ha
    rw [List.getElem_range] at ha
    subst ha
    rw [List.length_append]
    exact hf _ b s (by simpa using hlt) hI

end Ends

/-! ## Faults -/

/-- A state that counts the calls made to the environment and knows which of
them fail. -/
class Faulty (σ : Type) where
  /-- The number of calls made so far. -/
  calls : σ → Nat
  /-- Whether the call with this number fails. -/
  fails : σ → Nat → Bool

variable [Faulty σ]

/-- Between `s` and `s'` a call was made that was due to fail. -/
def Hit (s s' : σ) : Prop :=
  ∃ j, Faulty.calls s ≤ j ∧ j < Faulty.calls s' ∧ Faulty.fails s j = true

theorem not_hit_of_calls_le {s s' : σ} (h : Faulty.calls s' ≤ Faulty.calls s) :
    ¬ Hit s s' := by
  rintro ⟨j, h₁, h₂, -⟩
  omega

/-- One run of a fail-stop program: the clock only advances, the oracle stays,
and the run ends in the error `flt` exactly when a fault was hit. -/
structure StopsAt (flt : ε) (s : σ) (r : EStateM.Result ε σ α) : Prop where
  mono : Faulty.calls s ≤ Faulty.calls (after r)
  same : Faulty.fails (after r) = Faulty.fails s
  hit_iff : Hit s (after r) ↔ r = .error flt (after r)

/-- A program that ends in the error `flt` exactly when one of its calls was due
to fail. -/
def FailStop (flt : ε) (x : EStateM ε σ α) : Prop := ∀ s, StopsAt flt s (x s)

variable {flt : ε}

theorem FailStop.pure (a : α) : FailStop flt (pure a : EStateM ε σ α) := fun s ↦
  { mono := Nat.le_refl _
    same := rfl
    hit_iff := by
      rw [pure_apply]
      constructor
      · exact fun h ↦ absurd h (not_hit_of_calls_le (Nat.le_refl _))
      · exact fun h ↦ nomatch h }

theorem FailStop.throw {e : ε} (he : e ≠ flt) :
    FailStop flt (throw e : EStateM ε σ α) := fun s ↦
  { mono := Nat.le_refl _
    same := rfl
    hit_iff := by
      rw [throw_apply]
      constructor
      · exact fun h ↦ absurd h (not_hit_of_calls_le (Nat.le_refl _))
      · intro h
        cases h
        exact absurd rfl he }

theorem FailStop.bind {x : EStateM ε σ α} {f : α → EStateM ε σ β} (hx : FailStop flt x)
    (hf : ∀ a, FailStop flt (f a)) : FailStop flt (x >>= f) := by
  intro s
  have hxs := hx s
  cases h : x s with
  | error e s' =>
      rw [h] at hxs
      rw [bind_of_error h]
      refine ⟨hxs.mono, hxs.same, hxs.hit_iff.trans ?_⟩
      constructor
      · intro he; cases he; rfl
      · intro he; cases he; rfl
  | ok a s' =>
      rw [h] at hxs
      rw [bind_of_ok h]
      have hfs := hf a s'
      have hno : ¬ Hit s s' := fun hh ↦ nomatch hxs.hit_iff.mp hh
      have hsame : Faulty.fails s' = Faulty.fails s := hxs.same
      refine ⟨Nat.le_trans hxs.mono hfs.mono, hfs.same.trans hxs.same, ?_⟩
      rw [← hfs.hit_iff]
      -- a fault of the whole run lies in the first part, which had none, or in the second
      constructor
      · rintro ⟨j, hlo, hhi, hj⟩
        by_cases hmid : j < Faulty.calls s'
        · exact absurd ⟨j, hlo, hmid, hj⟩ hno
        · exact ⟨j, Nat.not_lt.mp hmid, hhi, (congrFun hsame j).trans hj⟩
      · rintro ⟨j, hlo, hhi, hj⟩
        exact ⟨j, Nat.le_trans hxs.mono hlo, hhi, (congrFun hsame j).symm.trans hj⟩

theorem FailStop.foldlM {f : β → α → EStateM ε σ β} (hf : ∀ b a, FailStop flt (f b a))
    (l : List α) (b : β) : FailStop flt (l.foldlM f b) := by
  induction l generalizing b with
  | nil => exact FailStop.pure b
  | cons a l ih =>
      rw [List.foldlM_cons]
      exact FailStop.bind (hf b a) ih

/-- A run that ends well hit no fault. -/
theorem FailStop.not_hit_of_ok {x : EStateM ε σ α} (hx : FailStop flt x) {s s' : σ} {a : α}
    (h : x s = .ok a s') : ¬ Hit s s' := by
  intro hh
  have hxs := hx s
  rw [h] at hxs
  exact nomatch hxs.hit_iff.mp hh

/-- Where no call is due to fail, no run ends in the error `flt`. -/
theorem FailStop.not_error {x : EStateM ε σ α} (hx : FailStop flt x) {s s' : σ}
    (hs : ∀ j, Faulty.fails s j = false) : x s ≠ .error flt s' := by
  intro h
  have hxs := hx s
  rw [h] at hxs
  obtain ⟨j, -, -, hj⟩ := hxs.hit_iff.mpr rfl
  exact absurd hj (by rw [hs j]; decide)

/-- A program that makes `n` calls and ends with `a` when none of them is due to fail. -/
def Takes (n : Nat) (a : α) (x : EStateM ε σ α) : Prop :=
  ∀ s, (∀ j, j < Faulty.calls s + n → Faulty.fails s j = false) →
    ∃ s', x s = .ok a s' ∧ Faulty.calls s' = Faulty.calls s + n ∧
      Faulty.fails s' = Faulty.fails s

theorem Takes.pure (a : α) : Takes 0 a (pure a : EStateM ε σ α) :=
  fun s _ ↦ ⟨s, rfl, rfl, rfl⟩

theorem Takes.bind {k n m : Nat} {a : α} {b : β} {x : EStateM ε σ α} {f : α → EStateM ε σ β}
    (hx : Takes n a x) (hf : Takes m b (f a)) (hk : n + m = k) : Takes k b (x >>= f) := by
  intro s hs
  obtain ⟨s₁, hx₁, hcalls₁, hfails₁⟩ := hx s fun j hj ↦ hs j (by omega)
  obtain ⟨s₂, hf₂, hcalls₂, hfails₂⟩ := hf s₁ fun j hj ↦ by
    rw [hfails₁]
    exact hs j (by omega)
  exact ⟨s₂, (bind_of_ok hx₁).trans hf₂, by omega, hfails₂.trans hfails₁⟩

end SdbStore.Lib
