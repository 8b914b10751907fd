import SdbStore.Lib.Lines

/-!
# Fields with a separator between them

A list of fields is kept as one list, with a separator between each two of them.  What is in front
of a field is the fields before it, each with the separator after it (`ended`), and what is behind
a field is the fields after it, each with the separator before it (`led`).  A loop that looks for
one separator after another comes by the beginnings of all the fields (`starts`).
-/

namespace SdbStore.Lib

universe u v

variable {α : Type u} (sep : α)

/-- The fields with the separator between them. -/
def joinSep (L : List (List α)) : List α := [sep].intercalate L

/-- The fields, each with the separator after it. -/
def ended (L : List (List α)) : List α := L.flatMap (· ++ [sep])

/-- The fields, each with the separator before it. -/
def led (L : List (List α)) : List α := L.flatMap (sep :: ·)

@[simp] theorem joinSep_nil : joinSep sep [] = [] := rfl

@[simp] theorem joinSep_singleton (e : List α) : joinSep sep [e] = e := by
  rw [joinSep, List.intercalate_singleton]

@[simp] theorem ended_nil : ended sep [] = [] := rfl

@[simp] theorem ended_cons (e : List α) (L : List (List α)) :
    ended sep (e :: L) = e ++ sep :: ended sep L := by
  rw [ended, List.flatMap_cons, List.append_assoc]
  rfl

@[simp] theorem led_nil : led sep [] = [] := rfl

@[simp] theorem led_cons (e : List α) (L : List (List α)) :
    led sep (e :: L) = sep :: (e ++ led sep L) := rfl

theorem ended_append (L M : List (List α)) : ended sep (L ++ M) = ended sep L ++ ended sep M :=
  List.flatMap_append

theorem led_append (L M : List (List α)) : led sep (L ++ M) = led sep L ++ led sep M :=
  List.flatMap_append

theorem joinSep_cons (e : List α) (L : List (List α)) :
    joinSep sep (e :: L) = e ++ led sep L := by
  induction L generalizing e with
  | nil => rw [joinSep_singleton, led_nil, List.append_nil]
  | cons d L ih =>
      rw [joinSep, List.intercalate_cons_cons, ← joinSep, ih, List.append_assoc]
      rfl

theorem led_eq {L : List (List α)} (h : L ≠ []) : led sep L = sep :: joinSep sep L := by
  cases L with
  | nil => exact absurd rfl h
  | cons e L => rw [led_cons, joinSep_cons]

/-- What is in front of a field. -/
theorem joinSep_append {M : List (List α)} (L : List (List α)) (h : M ≠ []) :
    joinSep sep (L ++ M) = ended sep L ++ joinSep sep M := by
  induction L with
  | nil => rfl
  | cons e L ih =>
      have hne : L ++ M ≠ [] := fun hno ↦ h (List.append_eq_nil_iff.mp hno).2
      rw [List.cons_append, joinSep_cons, led_eq sep hne, ih, ended_cons, List.append_assoc]
      rfl

theorem ended_eq {L : List (List α)} (h : L ≠ []) : ended sep L = joinSep sep L ++ [sep] := by
  induction L with
  | nil => exact absurd rfl h
  | cons e L ih =>
      cases L with
      | nil => rw [ended_cons, joinSep_singleton, ended_nil]
      | cons d L =>
          rw [ended_cons, ih (List.cons_ne_nil d L), joinSep_cons, joinSep_cons, led_cons,
            List.append_assoc, List.append_assoc, List.cons_append, List.append_assoc]

/-- Another field at the end. -/
theorem joinSep_concat {L : List (List α)} (h : L ≠ []) (M : List (List α)) :
    joinSep sep (L ++ M) = joinSep sep L ++ led sep M := by
  cases L with
  | nil => exact absurd rfl h
  | cons e L => rw [List.cons_append, joinSep_cons, led_append, joinSep_cons, List.append_assoc]

theorem length_ended (L : List (List α)) : (ended sep L).length = (L.map (·.length + 1)).sum := by
  induction L with
  | nil => rfl
  | cons e L ih =>
      rw [ended_cons, List.length_append, List.length_cons, ih, List.map_cons, List.sum_cons]
      omega

/-- The separators count, one less than there are fields. -/
theorem length_joinSep {L : List (List α)} (h : L ≠ []) :
    (joinSep sep L).length + 1 = (L.map (·.length + 1)).sum := by
  rw [← length_ended sep, ended_eq sep h, List.length_append]
  rfl

/-- The length does not depend on the order. -/
theorem length_joinSep_perm {L M : List (List α)} (h : L.Perm M) :
    (joinSep sep L).length = (joinSep sep M).length := by
  cases L with
  | nil => rw [List.nil_perm.mp h]
  | cons e L =>
      have hM : M ≠ [] := fun hno ↦ by
        rw [hno] at h
        exact absurd h.eq_nil (List.cons_ne_nil e L)
      have hsum := (h.map (·.length + 1)).sum_nat
      have hL := length_joinSep sep (List.cons_ne_nil e L)
      have hM' := length_joinSep sep hM
      omega

section Find

variable [DecidableEq α] {sep}

theorem idxOf?_field {e : List α} (he : sep ∉ e) {L : List (List α)} (hL : L ≠ []) :
    (e ++ led sep L).idxOf? sep = some e.length := by
  rw [led_eq sep hL, List.idxOf?_eq_some_iff]
  refine ⟨by rw [List.length_append, List.length_cons]; omega, ?_, fun j hj ↦ ?_⟩
  · rw [List.getElem_append_right (Nat.le_refl _)]
    simp
  · rw [List.getElem_append_left hj]
    exact fun h ↦ he (h ▸ List.getElem_mem hj)

theorem count_led {L : List (List α)} (h : ∀ e ∈ L, sep ∉ e) :
    (led sep L).count sep = L.length := by
  induction L with
  | nil => rfl
  | cons e L ih =>
      rw [led_cons, List.count_cons_self, List.count_append,
        List.count_eq_zero.mpr (h e List.mem_cons_self),
        ih fun d hd ↦ h d (List.mem_cons_of_mem e hd), List.length_cons]
      omega

/-- The fields of a list hold no separator, and nothing that the list does not. -/
theorem of_mem_splitOn {l e : List α} (h : e ∈ l.splitOn sep) : sep ∉ e ∧ e ⊆ l := by
  induction l using lines_induction sep with
  | rest x hx =>
      rw [List.splitOn_eq_singleton hx, List.mem_singleton] at h
      rw [h]
      exact ⟨hx, List.Subset.refl x⟩
  | line x l hx ih =>
      rw [List.splitOn_append_cons_self_of_not_mem hx, List.mem_cons] at h
      rcases h with rfl | h
      · exact ⟨hx, List.subset_append_left _ _⟩
      · exact ⟨(ih h).1, List.Subset.trans (ih h).2
          fun a ha ↦ List.mem_append_right x (List.mem_cons_of_mem sep ha)⟩

variable (sep)

/-- What is behind each separator. -/
def behindSep : List α → List (List α)
  | [] => []
  | a :: l => if a = sep then l :: behindSep l else behindSep l

/-- The list from each field on: where a loop that looks for one separator after another comes
by. -/
def starts (l : List α) : List (List α) := l :: behindSep sep l

variable {sep}

theorem behindSep_append {e : List α} (he : sep ∉ e) (l : List α) :
    behindSep sep (e ++ l) = behindSep sep l := by
  induction e with
  | nil => rfl
  | cons a e ih =>
      have ha : a ≠ sep := fun h ↦ he (h ▸ List.mem_cons_self)
      rw [List.cons_append, behindSep, if_neg ha, ih fun h ↦ he (List.mem_cons_of_mem a h)]

theorem starts_cons {e : List α} (he : sep ∉ e) (d : List α) (L : List (List α)) :
    starts sep (joinSep sep (e :: d :: L)) =
      (e ++ led sep (d :: L)) :: starts sep (joinSep sep (d :: L)) := by
  rw [starts, joinSep_cons, behindSep_append he, led_eq sep (List.cons_ne_nil d L), behindSep,
    if_pos rfl, starts]

/-- What is found out at each beginning of a field is about the field. -/
theorem map_starts {β : Type v} (f g : List α → β)
    (hf : ∀ e L, sep ∉ e → f (e ++ led sep L) = g e) {L : List (List α)} (hL : L ≠ [])
    (hfree : ∀ e ∈ L, sep ∉ e) : (starts sep (joinSep sep L)).map f = L.map g := by
  induction L with
  | nil => exact absurd rfl hL
  | cons e L ih =>
      have he := hfree e List.mem_cons_self
      cases L with
      | nil =>
          have hnone := behindSep_append he []
          have hfield := hf e [] he
          rw [led_nil, List.append_nil] at hfield
          rw [List.append_nil] at hnone
          rw [joinSep_singleton, starts, hnone, List.map_singleton, List.map_cons, hfield]
          rfl
      | cons d L =>
          rw [starts_cons he, List.map_cons, List.map_cons, hf e (d :: L) he,
            ih (List.cons_ne_nil d L) fun c hc ↦ hfree c (List.mem_cons_of_mem e hc)]

section Starts

variable {f g : List α → Bool} (hf : ∀ e L, sep ∉ e → f (e ++ led sep L) = g e)
  {L : List (List α)} (hL : L ≠ []) (hfree : ∀ e ∈ L, sep ∉ e)
include hf hL hfree

/-- A loop over the beginnings of the fields finds what there is among the fields. -/
theorem any_starts : (starts sep (joinSep sep L)).any f = L.any g := by
  have hany : ∀ (p : List α → Bool) (l : List (List α)), l.any p = (l.map p).any id := fun p l ↦ by
    rw [List.any_map]
    rfl
  rw [hany f, hany g, map_starts f g hf hL hfree]

/-- It finds the first one. -/
theorem findIdx?_starts : (starts sep (joinSep sep L)).findIdx? f = L.findIdx? g := by
  have hfind : ∀ (p : List α → Bool) (l : List (List α)), l.findIdx? p = (l.map p).findIdx? id :=
    fun p l ↦ by
      rw [List.findIdx?_map]
      rfl
  rw [hfind f, hfind g, map_starts f g hf hL hfree]

end Starts

end Find

end SdbStore.Lib
