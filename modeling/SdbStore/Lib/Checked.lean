/-!
# Numbers that an `int` holds

A number that counts something is an `int` of 32 bits.  What is beyond the largest one has no
result: the overflow of a signed number is undefined.
-/

namespace SdbStore.Lib

/-- The largest `int`. -/
def intMax : Nat := 2147483647

/-- The number, if an `int` holds it. -/
def checkedInt (n : Nat) : Option Nat := if n ≤ intMax then some n else none

variable {m n : Nat}

theorem checkedInt_of_le (h : n ≤ intMax) : checkedInt n = some n := if_pos h

theorem checkedInt_of_lt (h : intMax < n) : checkedInt n = none := if_neg (Nat.not_le.mpr h)

theorem checkedInt_eq_some_iff : checkedInt n = some m ↔ n = m ∧ n ≤ intMax := by
  rw [checkedInt]
  split
  · next h => exact ⟨fun he ↦ ⟨Option.some.inj he, h⟩, fun he ↦ congrArg some he.1⟩
  · next h => exact ⟨fun he ↦ absurd he.symm (Option.some_ne_none m), fun he ↦ absurd he.2 h⟩

/-- What is added to a number that is too large is too large. -/
theorem checkedInt_bind {α : Type} {f : Nat → Option α} {k : Nat} {g : Nat → Option α}
    (hf : n ≤ intMax → f n = g (n + k)) (hg : intMax < n → g (n + k) = none) :
    (checkedInt n).bind f = g (n + k) := by
  rcases Nat.lt_or_ge intMax n with h | h
  · rw [checkedInt_of_lt h, hg h]
    rfl
  · rw [checkedInt_of_le h]
    exact hf h

end SdbStore.Lib
