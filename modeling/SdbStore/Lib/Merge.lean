import Mathlib.Data.List.Sort

/-!
# Merging in rounds

A sorted list is merged into another one in rounds: each takes over what is not greater than the
next value, and then the value.  What comes out is `List.merge`.
-/

namespace SdbStore.Lib

universe u

variable {α : Type u} (le : α → α → Bool)

/-- One round: what has been taken over, and what is left. -/
def mergeStep (st : List α × List α) (v : α) : List α × List α :=
  (st.1 ++ (st.2.takeWhile (le · v) ++ [v]), st.2.dropWhile (le · v))

variable {le}

theorem merge_cons_right (R : List α) (v : α) (vs : List α) : List.merge R (v :: vs) le =
    R.takeWhile (le · v) ++ v :: List.merge (R.dropWhile (le · v)) vs le := by
  induction R with
  | nil => rw [List.nil_merge, List.takeWhile_nil, List.dropWhile_nil, List.nil_merge]; rfl
  | cons x R ih =>
      rw [List.takeWhile_cons, List.dropWhile_cons]
      by_cases h : le x v = true
      · rw [List.cons_merge_cons_pos le R vs h, ih, if_pos h, if_pos h]
        rfl
      · rw [List.cons_merge_cons_neg le R vs h, if_neg h, if_neg h]
        rfl

/-- **All rounds** merge the lists. -/
theorem foldl_mergeStep (M R vs : List α) :
    (vs.foldl (mergeStep le) (M, R)).1 ++ (vs.foldl (mergeStep le) (M, R)).2 =
      M ++ List.merge R vs le := by
  induction vs generalizing M R with
  | nil => rw [List.foldl_nil, List.merge_right]
  | cons v vs ih =>
      rw [List.foldl_cons, mergeStep, ih, merge_cons_right, List.append_assoc, List.append_assoc]
      rfl

end SdbStore.Lib
