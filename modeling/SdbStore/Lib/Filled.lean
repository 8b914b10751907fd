import SdbStore.Lib.Fields
import Mathlib.Data.List.TakeWhile

/-!
# The fields that are not empty

A separator in front of a list, behind it, or behind another separator adds an empty field and
nothing else: the fields that are not empty are the same without it.
-/

namespace SdbStore.Lib

universe u

variable {α : Type u} [DecidableEq α] (sep : α)

/-- The fields that are not empty. -/
def filled (l : List α) : List (List α) := (l.splitOn sep).filter (· ≠ [])

variable {sep}

theorem filled_of_notMem {x : List α} (hx : sep ∉ x) :
    filled sep x = if x = [] then [] else [x] := by
  rw [filled, List.splitOn_eq_singleton hx, List.filter_singleton]
  by_cases h : x = []
  · simp [h]
  · simp [h]

theorem filled_append {x : List α} (hx : sep ∉ x) (l : List α) :
    filled sep (x ++ sep :: l) = (if x = [] then [] else [x]) ++ filled sep l := by
  rw [filled, List.splitOn_append_cons_self_of_not_mem hx, List.filter_cons, filled]
  by_cases h : x = []
  · simp [h]
  · simp [h]

@[simp] theorem filled_cons_self (l : List α) : filled sep (sep :: l) = filled sep l :=
  filled_append List.not_mem_nil l

theorem filled_dropWhile (l : List α) : filled sep (l.dropWhile (· = sep)) = filled sep l := by
  induction l with
  | nil => rfl
  | cons a l ih =>
      by_cases ha : a = sep
      · rw [List.dropWhile_cons_of_pos (by simpa using ha), ih, ha, filled_cons_self]
      · rw [List.dropWhile_cons_of_neg (by simpa using ha)]

theorem of_mem_filled {l e : List α} (h : e ∈ filled sep l) : e ≠ [] ∧ sep ∉ e := by
  rw [filled, List.mem_filter] at h
  exact ⟨by simpa using h.2, (of_mem_splitOn h.1).1⟩

/-- What is behind separators does not begin with one. -/
theorem head?_dropWhile_ne (l : List α) : (l.dropWhile (· = sep)).head? ≠ some sep := by
  intro h
  have hno := List.head?_dropWhile_not (fun a ↦ decide (a = sep)) l
  rw [h] at hno
  simp at hno

/-- A list that does not begin with a separator: a field, and perhaps more behind separators. -/
@[elab_as_elim]
theorem field_induction {motive : List α → Prop} (nil : motive [])
    (rest : ∀ x, x ≠ [] → sep ∉ x → motive x)
    (field : ∀ x l, x ≠ [] → sep ∉ x → motive (l.dropWhile (· = sep)) → motive (x ++ sep :: l))
    (l : List α) (h : l.head? ≠ some sep) : motive l := by
  by_cases hmem : sep ∈ l
  · obtain ⟨x, l', rfl, hx⟩ := List.eq_append_cons_of_mem hmem
    have hne : x ≠ [] := by
      rintro rfl
      exact h rfl
    exact field x l' hne hx (field_induction nil rest field _ (head?_dropWhile_ne l'))
  · by_cases hl : l = []
    · rw [hl]
      exact nil
    · exact rest l hl hmem
termination_by l.length
decreasing_by
  subst l
  have hle := (List.dropWhile_sublist (l := l') fun a ↦ decide (a = sep)).length_le
  simp only [List.length_append, List.length_cons]
  omega

theorem filled_ne_nil {l : List α} (hl : l ≠ []) (h : l.head? ≠ some sep) : filled sep l ≠ [] := by
  revert hl
  refine field_induction ?_ (fun x hne hx _ ↦ ?_) (fun x l hne hx _ _ ↦ ?_) l h
  · exact fun hno ↦ absurd rfl hno
  · rw [filled_of_notMem hx, if_neg hne]
    exact List.cons_ne_nil x []
  · rw [filled_append hx, if_neg hne]
    exact List.cons_ne_nil x _

/-- The end of a list behind separators. -/
theorem getLast?_cons_sep (l : List α) : (sep :: l).getLast? =
    if l.dropWhile (· = sep) = [] then some sep else (l.dropWhile (· = sep)).getLast? := by
  have hsplit : sep :: (l.takeWhile (· = sep) ++ l.dropWhile (· = sep)) = sep :: l :=
    congrArg (sep :: ·) List.takeWhile_append_dropWhile
  by_cases hdrop : l.dropWhile (· = sep) = []
  · rw [if_pos hdrop, List.getLast?_eq_some_getLast (List.cons_ne_nil sep l)]
    have hall := List.dropWhile_eq_nil_iff.mp hdrop
    have hmem := List.getLast_mem (List.cons_ne_nil sep l)
    rcases List.mem_cons.mp hmem with hlast | hlast
    · rw [hlast]
    · rw [of_decide_eq_true (hall _ hlast)]
  · rw [if_neg hdrop, ← hsplit, ← List.cons_append, List.getLast?_append_of_ne_nil _ hdrop]

end SdbStore.Lib
