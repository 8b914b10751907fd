import Mathlib.Algebra.GroupWithZero.Nat
import Mathlib.Data.List.Basic
import Mathlib.Tactic.Common

/-!
# Lines

A text is a sequence of lines, each ended by a separator; what follows the last separator
is not a line.  Printing lines that do not hold the separator and splitting them again
gives the lines back, and nothing else can be read from a text than what is in it.
-/

namespace SdbStore.Lib

universe u

variable {α : Type u} [BEq α] [LawfulBEq α]

/-- The lines of `l`, which `sep` ends. -/
def lines (sep : α) (l : List α) : List (List α) := (l.splitOn sep).dropLast

/-- The first line is read, and then the others. -/
theorem lines_append {sep : α} {x : List α} (hx : sep ∉ x) (l : List α) :
    lines sep (x ++ sep :: l) = x :: lines sep l := by
  have hsplit : (x ++ sep :: l).splitOn sep = x :: l.splitOn sep := by
    rw [List.splitOn_eq_splitOnP, List.splitOn_eq_splitOnP]
    refine List.splitOnP_append_cons_of_forall_mem (fun y hy ↦ ?_) sep (by simp) l
    rw [beq_eq_false_iff_ne]
    rintro rfl
    exact hx hy
  rw [lines, hsplit, List.dropLast_cons_of_ne_nil (List.splitOn_ne_nil sep l), lines]

/-- What is left after the last separator is no line. -/
theorem lines_of_not_mem {sep : α} {x : List α} (hx : sep ∉ x) : lines sep x = [] := by
  rw [lines, List.splitOn_eq_singleton hx]
  rfl

/-- Every list is a sequence of lines and a rest. -/
theorem lines_induction (sep : α) {motive : List α → Prop}
    (rest : ∀ x, sep ∉ x → motive x) (line : ∀ x l, sep ∉ x → motive l → motive (x ++ sep :: l))
    (l : List α) : motive l := by
  by_cases h : sep ∈ l
  · obtain ⟨x, l', rfl, hx⟩ := List.eq_append_cons_of_mem h
    exact line x l' hx (lines_induction sep rest line l')
  · exact rest l h
termination_by l.length
decreasing_by
  subst l
  simp only [List.length_append, List.length_cons]
  omega

theorem not_mem_of_mem_lines {sep : α} {l x : List α} (hx : x ∈ lines sep l) : sep ∉ x := by
  induction l using lines_induction sep with
  | rest y hy =>
      rw [lines_of_not_mem hy] at hx
      exact absurd hx (by simp)
  | line y l hy ih =>
      rw [lines_append hy, List.mem_cons] at hx
      rcases hx with rfl | hx
      · exact hy
      · exact ih hx

/-- The lines and their separators fit into the list. -/
theorem length_lines (sep : α) (l : List α) :
    ((lines sep l).map fun x ↦ x.length + 1).sum ≤ l.length := by
  induction l using lines_induction sep with
  | rest y hy =>
      rw [lines_of_not_mem hy]
      exact Nat.zero_le _
  | line y l hy ih =>
      rw [lines_append hy, List.map_cons, List.sum_cons, List.length_append, List.length_cons]
      omega

/-- The text of lines, each with its separator. -/
def unlines (sep : α) (xs : List (List α)) : List α := xs.flatMap (· ++ [sep])

omit [BEq α] [LawfulBEq α] in
theorem unlines_cons (sep : α) (x : List α) (xs : List (List α)) :
    unlines sep (x :: xs) = x ++ sep :: unlines sep xs := by
  rw [unlines, List.flatMap_cons, List.append_assoc]
  rfl

/-- A text that is cut off anywhere has the lines that are complete in it. -/
theorem lines_take_unlines {sep : α} {xs : List (List α)} (hxs : ∀ x ∈ xs, sep ∉ x) (n : Nat) :
    ∃ m ≤ xs.length, lines sep ((unlines sep xs).take n) = xs.take m ∧
      (unlines sep (xs.take m)).length ≤ n ∧
      (m < xs.length → n < (unlines sep (xs.take (m + 1))).length) := by
  induction xs generalizing n with
  | nil =>
      refine ⟨0, Nat.le_refl 0, ?_, Nat.zero_le n, fun h ↦ absurd h (Nat.lt_irrefl 0)⟩
      rw [unlines, List.flatMap_nil, List.take_nil]
      exact lines_of_not_mem List.not_mem_nil
  | cons x xs ih =>
      have hx := hxs x List.mem_cons_self
      rw [unlines_cons]
      rcases Nat.lt_or_ge x.length n with hn | hn
      · obtain ⟨n, rfl⟩ := Nat.exists_eq_add_of_lt hn
        obtain ⟨m, hm, hlines, hle, hlt⟩ := ih (fun y hy ↦ hxs y (List.mem_cons_of_mem x hy)) n
        have htake : (x ++ sep :: unlines sep xs).take (x.length + n + 1) =
            x ++ sep :: (unlines sep xs).take n := by
          rw [Nat.add_assoc, List.take_length_add_append, List.take_succ_cons]
        refine ⟨m + 1, Nat.succ_le_succ hm, ?_, ?_, fun hm' ↦ ?_⟩
        · rw [htake, lines_append hx, hlines, List.take_succ_cons]
        · rw [List.take_succ_cons, unlines_cons, List.length_append, List.length_cons]
          omega
        · have hlt := hlt (Nat.lt_of_succ_lt_succ hm')
          rw [List.take_succ_cons, unlines_cons, List.length_append, List.length_cons]
          omega
      · refine ⟨0, Nat.zero_le _, ?_, Nat.zero_le n, fun _ ↦ ?_⟩
        · rw [List.take_append_of_le_length hn]
          exact lines_of_not_mem fun h ↦ hx (List.mem_of_mem_take h)
        · rw [List.take_succ_cons, unlines_cons, List.length_append, List.length_cons]
          omega

end SdbStore.Lib
