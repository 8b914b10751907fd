import SdbStore.CStr
import Mathlib.Data.List.Perm.Basic
import Mathlib.Order.Defs.Unbundled

/-!
# Sorting lists

`ls_sort` of `ls.c`: short lists are sorted by exchanges, long ones are split until
they are short and merged again.  A comparator is a function to the integers, as in C.
-/

namespace SdbStore

open Lib

universe u

variable {α : Type u} (cmp : α → α → Int)

/-- `MERGELIMIT`. -/
def mergelimit : Nat := 24

/-- The inner loop of `ls_insertion_sort_iter`: what stands at `it` after it, and the
elements behind it. -/
def lsExchange (x : α) : List α → α × List α
  | [] => (x, [])
  | y :: l =>
      if cmp x y > 0 then
        let r := lsExchange y l
        (r.1, x :: r.2)
      else
        let r := lsExchange x l
        (r.1, y :: r.2)

theorem lsExchange_perm (x : α) (l : List α) :
    ((lsExchange cmp x l).1 :: (lsExchange cmp x l).2).Perm (x :: l) := by
  induction l generalizing x with
  | nil => exact List.Perm.refl _
  | cons y l ih =>
      rw [lsExchange]
      split
      · exact (List.Perm.swap _ _ _).trans (((ih y).cons x))
      · exact ((List.Perm.swap _ _ _).trans ((ih x).cons y)).trans (List.Perm.swap _ _ _)

/-- `ls_insertion_sort_iter`. -/
def lsInsertionSort : List α → List α
  | [] => []
  | x :: l => (lsExchange cmp x l).1 :: lsInsertionSort (lsExchange cmp x l).2
termination_by l => l.length
decreasing_by
  have hlen := (lsExchange_perm cmp x l).length_eq
  simp only [List.length_cons] at hlen ⊢
  omega

/-- `_merge`. -/
def lsMerge : List α → List α → List α
  | [], second => second
  | x :: first, [] => x :: first
  | x :: first, y :: second =>
      if cmp x y ≤ 0 then x :: lsMerge first (y :: second) else y :: lsMerge (x :: first) second

/-- `_sdb_list_split`: the length of the first half, unless the list is short. -/
def lsSplit (l : List α) : Option Nat :=
  let count := (l.length - 1) / 2
  if count < mergelimit then none else some (count + 1)

theorem lsSplit_eq_some {l : List α} {n : Nat} (h : lsSplit l = some n) :
    0 < n ∧ n < l.length := by
  unfold lsSplit at h
  dsimp only at h
  by_cases hc : (l.length - 1) / 2 < mergelimit
  · rw [if_pos hc] at h
    cases h
  · rw [if_neg hc, Option.some.injEq] at h
    rw [mergelimit] at hc
    omega

/-- `_merge_sort`. -/
def lsMergeSort (l : List α) : List α :=
  match _h : lsSplit l with
  | none => lsInsertionSort cmp l
  | some n => lsMerge cmp (lsMergeSort (l.take n)) (lsMergeSort (l.drop n))
termination_by l.length
decreasing_by
  all_goals
    have hn := lsSplit_eq_some _h
    simp only [List.length_take, List.length_drop]
    omega

/-- `ls_sort`, on a list that was not sorted before. -/
def lsSort (l : List α) : List α :=
  if l.length > mergelimit then lsMergeSort cmp l else lsInsertionSort cmp l

theorem lsInsertionSort_perm (l : List α) : (lsInsertionSort cmp l).Perm l := by
  fun_induction lsInsertionSort cmp l with
  | case1 => exact List.Perm.refl _
  | case2 x l ih => exact (ih.cons _).trans (lsExchange_perm cmp x l)

theorem lsMerge_perm (first second : List α) :
    (lsMerge cmp first second).Perm (first ++ second) := by
  fun_induction lsMerge cmp first second with
  | case1 second => exact List.Perm.refl _
  | case2 x first => rw [List.append_nil]
  | case3 x first y second h ih => exact ih.cons x
  | case4 x first y second h ih => exact (ih.cons y).trans List.perm_middle.symm

theorem lsMergeSort_perm (l : List α) : (lsMergeSort cmp l).Perm l := by
  fun_induction lsMergeSort cmp l with
  | case1 l h => exact lsInsertionSort_perm cmp l
  | case2 l n h ih₁ ih₂ =>
      refine (lsMerge_perm cmp _ _).trans ((ih₁.append ih₂).trans ?_)
      rw [List.take_append_drop]

/-- **Sorting** loses nothing and invents nothing. -/
theorem lsSort_perm (l : List α) : (lsSort cmp l).Perm l := by
  rw [lsSort]
  split
  · exact lsMergeSort_perm cmp l
  · exact lsInsertionSort_perm cmp l

/-! ## Order -/

/-- No element is greater than one behind it. -/
def InOrder (l : List α) : Prop := l.Pairwise fun a b ↦ ¬ cmp a b > 0

section Order

variable [IsStrictWeakOrder α fun a b ↦ cmp a b > 0] {a b c x : α} {l first second : List α}

theorem not_gt_of_gt (h : cmp a b > 0) : ¬ cmp b a > 0 := fun h' ↦
  Std.Irrefl.irrefl (r := fun a b ↦ cmp a b > 0) a
    (IsTrans.trans (r := fun a b ↦ cmp a b > 0) a b a h h')

theorem not_gt_trans (hab : ¬ cmp a b > 0) (hbc : ¬ cmp b c > 0) : ¬ cmp a c > 0 := by
  intro hac
  have hba : ¬ cmp b a > 0 := fun h ↦ hbc (IsTrans.trans (r := fun a b ↦ cmp a b > 0) b a c h hac)
  have hcb : ¬ cmp c b > 0 := fun h ↦ hab (IsTrans.trans (r := fun a b ↦ cmp a b > 0) a c b hac h)
  have hincomp : ∀ a b c, ¬ cmp a b > 0 ∧ ¬ cmp b a > 0 → ¬ cmp b c > 0 ∧ ¬ cmp c b > 0 →
      ¬ cmp a c > 0 ∧ ¬ cmp c a > 0 := IsStrictWeakOrder.incomp_trans
  exact (hincomp a b c ⟨hab, hba⟩ ⟨hbc, hcb⟩).1 hac

/-- The element that the inner loop leaves is not greater than the one before, nor than any
other. -/
theorem lsExchange_min (x : α) (l : List α) : ¬ cmp (lsExchange cmp x l).1 x > 0 ∧
    ∀ z ∈ (lsExchange cmp x l).2, ¬ cmp (lsExchange cmp x l).1 z > 0 := by
  induction l generalizing x with
  | nil => exact ⟨fun h ↦ not_gt_of_gt cmp h h, fun _ hz ↦ nomatch hz⟩
  | cons y l ih =>
      rw [lsExchange]
      split
      · next h =>
          obtain ⟨hle, hmin⟩ := ih y
          have hx := not_gt_trans cmp hle (not_gt_of_gt cmp h)
          refine ⟨hx, fun z hz ↦ ?_⟩
          rcases List.mem_cons.mp hz with rfl | hz
          · exact hx
          · exact hmin z hz
      · next h =>
          obtain ⟨hle, hmin⟩ := ih x
          refine ⟨hle, fun z hz ↦ ?_⟩
          rcases List.mem_cons.mp hz with rfl | hz
          · exact not_gt_trans cmp hle h
          · exact hmin z hz

theorem lsInsertionSort_inOrder (l : List α) : InOrder cmp (lsInsertionSort cmp l) := by
  fun_induction lsInsertionSort cmp l with
  | case1 => exact List.Pairwise.nil
  | case2 x l ih =>
      refine List.pairwise_cons.mpr ⟨fun z hz ↦ (lsExchange_min cmp x l).2 z ?_, ih⟩
      exact (lsInsertionSort_perm cmp _).mem_iff.mp hz

theorem lsMerge_inOrder (h₁ : InOrder cmp first) (h₂ : InOrder cmp second) :
    InOrder cmp (lsMerge cmp first second) := by
  fun_induction lsMerge cmp first second with
  | case1 second => exact h₂
  | case2 x first => exact h₁
  | case3 x first y second h ih =>
      obtain ⟨hx, hfirst⟩ := List.pairwise_cons.mp h₁
      have hy := (List.pairwise_cons.mp h₂).1
      have hxy : ¬ cmp x y > 0 := Int.not_lt.mpr h
      refine List.pairwise_cons.mpr ⟨fun z hz ↦ ?_, ih hfirst h₂⟩
      rcases List.mem_append.mp ((lsMerge_perm cmp _ _).mem_iff.mp hz) with hz | hz
      · exact hx z hz
      · rcases List.mem_cons.mp hz with rfl | hz
        · exact hxy
        · exact not_gt_trans cmp hxy (hy z hz)
  | case4 x first y second h ih =>
      obtain ⟨hy, hsecond⟩ := List.pairwise_cons.mp h₂
      have hx := (List.pairwise_cons.mp h₁).1
      have hyx : ¬ cmp y x > 0 := not_gt_of_gt cmp (Int.not_le.mp h)
      refine List.pairwise_cons.mpr ⟨fun z hz ↦ ?_, ih h₁ hsecond⟩
      rcases List.mem_append.mp ((lsMerge_perm cmp _ _).mem_iff.mp hz) with hz | hz
      · rcases List.mem_cons.mp hz with rfl | hz
        · exact hyx
        · exact not_gt_trans cmp hyx (hx z hz)
      · exact hy z hz

end Order

end SdbStore
