import SdbStore.Arrays
import SdbStore.Lib.Fields
import SdbStore.Memory

/-!
# The elements of an array

A string is an array of the texts between its commas.  An `Elem` is a text that can stand there;
`joinElems` is the string of a list of them and `elements` finds them again.  The empty string has
no element, as the functions of `array.c` see it, and one empty element, as `elements` does.
-/

namespace SdbStore

open Lib

/-- An element of an array: a string without a comma. -/
structure Elem where
  text : CStr
  noSep : sdbRs ∉ text.val
deriving DecidableEq

namespace Elem

/-- The bytes of an element. -/
def bytes (e : Elem) : Bytes := e.text.val

/-- The empty element. -/
def empty : Elem := ⟨CStr.empty, List.not_mem_nil⟩

@[ext] theorem ext {e d : Elem} (h : e.bytes = d.bytes) : e = d := by
  cases e
  cases d
  congr
  exact CStr.ext h

theorem bytes_injective : Function.Injective bytes := fun _ _ h ↦ ext h

theorem sep_notMem (e : Elem) : sdbRs ∉ e.bytes := e.noSep

theorem zero_notMem (e : Elem) : 0 ∉ e.bytes := e.text.property

theorem bytes_eq_nil {e : Elem} : e.bytes = [] ↔ e = empty :=
  ⟨fun h ↦ ext h, fun h ↦ by rw [h]; rfl⟩

end Elem

theorem sep_notMem_of_mem {L : List Elem} {x : Bytes} (h : x ∈ L.map Elem.bytes) : sdbRs ∉ x := by
  obtain ⟨e, -, rfl⟩ := List.mem_map.mp h
  exact e.sep_notMem

theorem zero_notMem_led (L : List Elem) : 0 ∉ led sdbRs (L.map Elem.bytes) := by
  intro h
  rw [led, List.flatMap_map, List.mem_flatMap] at h
  obtain ⟨e, -, h⟩ := h
  exact e.zero_notMem ((List.mem_cons.mp h).resolve_left (by decide))

theorem zero_notMem_joinSep (L : List Elem) : 0 ∉ joinSep sdbRs (L.map Elem.bytes) := by
  cases L with
  | nil => exact List.not_mem_nil
  | cons e L =>
      rw [List.map_cons, joinSep_cons, List.mem_append]
      exact not_or.mpr ⟨e.zero_notMem, zero_notMem_led L⟩

/-- The string with the elements between commas. -/
def joinElems (L : List Elem) : CStr := ⟨joinSep sdbRs (L.map Elem.bytes), zero_notMem_joinSep L⟩

theorem val_cons_cons (e d : Elem) (L : List Elem) :
    (joinElems (e :: d :: L)).val = e.bytes ++ sdbRs :: (joinElems (d :: L)).val := by
  change joinSep sdbRs ((e :: d :: L).map Elem.bytes) = _
  rw [List.map_cons, joinSep_cons, led_eq sdbRs (by simp)]
  rfl

/-- The elements of a string. -/
def elements (s : CStr) : List Elem :=
  (s.val.splitOn sdbRs).pmap (fun x h ↦ ⟨⟨x, fun h0 ↦ s.property (h.2 h0)⟩, h.1⟩)
    fun _ h ↦ of_mem_splitOn h

theorem val_joinElems (L : List Elem) : (joinElems L).val = joinSep sdbRs (L.map Elem.bytes) := rfl

theorem map_bytes_elements (s : CStr) : (elements s).map Elem.bytes = s.val.splitOn sdbRs := by
  rw [elements, List.map_pmap]
  exact List.pmap_eq_self.mpr fun _ _ ↦ rfl

@[simp] theorem joinElems_elements (s : CStr) : joinElems (elements s) = s := by
  apply CStr.ext
  rw [val_joinElems, map_bytes_elements]
  exact List.intercalate_splitOn sdbRs

theorem elements_ne_nil (s : CStr) : elements s ≠ [] := by
  intro h
  have hsplit := map_bytes_elements s
  rw [h] at hsplit
  exact List.splitOn_ne_nil sdbRs s.val hsplit.symm

theorem map_bytes_ne_nil {L : List Elem} (h : L ≠ []) : L.map Elem.bytes ≠ [] :=
  fun hno ↦ h (List.map_eq_nil_iff.mp hno)

theorem elements_joinElems {L : List Elem} (h : L ≠ []) : elements (joinElems L) = L := by
  refine List.map_injective_iff.mpr Elem.bytes_injective ?_
  rw [map_bytes_elements]
  exact List.splitOn_intercalate sdbRs (fun _ hx ↦ sep_notMem_of_mem hx) (map_bytes_ne_nil h)

@[simp] theorem joinElems_nil : joinElems [] = CStr.empty := rfl

@[simp] theorem joinElems_singleton (e : Elem) : joinElems [e] = e.text := by
  apply CStr.ext
  exact joinSep_singleton sdbRs e.bytes

/-- Only no element at all and the empty one alone make the empty string. -/
theorem joinElems_eq_empty {L : List Elem} :
    joinElems L = CStr.empty ↔ L = [] ∨ L = [Elem.empty] := by
  constructor
  · intro h
    by_cases hL : L = []
    · exact .inl hL
    · right
      rw [← elements_joinElems hL, h]
      rfl
  · rintro (rfl | rfl)
    · rfl
    · exact joinElems_singleton Elem.empty

/-- The string of `L`, as a value that is read back. -/
theorem ofBytes_joinSep (L : List Elem) :
    CStr.ofBytes (joinSep sdbRs (L.map Elem.bytes)) = joinElems L :=
  CStr.ofBytes_val (joinElems L)

theorem length_joinElems_perm {L M : List Elem} (h : L.Perm M) :
    (joinElems L).length = (joinElems M).length := length_joinSep_perm sdbRs (h.map Elem.bytes)

/-! ## Where the elements are -/

theorem sdbAlen_joinElems {L : List Elem} (h : joinElems L ≠ CStr.empty) :
    sdbAlen (joinElems L) = L.length := by
  cases L with
  | nil => exact absurd rfl h
  | cons e L =>
      have hled := count_led (L := L.map Elem.bytes) fun _ hx ↦ sep_notMem_of_mem hx
      rw [sdbAlen, if_neg h, val_joinElems, List.map_cons, joinSep_cons, List.count_append,
        List.count_eq_zero.mpr e.sep_notMem, hled, List.length_map, Nat.zero_add]
      rfl

/-- `Aindexof` finds the place behind the elements before, for as many elements as there are. -/
theorem aindexof_joinSep {L : List Bytes} (hfree : ∀ x ∈ L, sdbRs ∉ x) (hL : L ≠ []) (i : Nat) :
    aindexof (joinSep sdbRs L) i =
      if i < L.length then some (ended sdbRs (L.take i)).length else none := by
  induction i generalizing L with
  | zero => rw [if_pos (List.length_pos_of_ne_nil hL)]; rfl
  | succ i ih =>
      cases L with
      | nil => exact absurd rfl hL
      | cons e L =>
          have he := hfree e List.mem_cons_self
          rw [aindexof, joinSep_cons]
          by_cases hnil : L = []
          · rw [hnil, led_nil, List.append_nil, List.idxOf?_eq_none_iff.mpr he, if_neg (by simp)]
          · have hdrop : (e ++ led sdbRs L).drop (e.length + 1) = joinSep sdbRs L := by
              rw [led_eq sdbRs hnil, List.drop_append, List.drop_of_length_le (by omega)]
              simp
            rw [idxOf?_field he hnil]
            dsimp only
            rw [hdrop, ih (fun x hx ↦ hfree x (List.mem_cons_of_mem e hx)) hnil, List.length_cons,
              List.take_succ_cons, ended_cons]
            by_cases hi : i < L.length
            · rw [if_pos hi, if_pos (by omega), Option.map_some, List.length_append,
                List.length_cons]
              congr 1
              omega
            · rw [if_neg hi, if_neg (by omega), Option.map_none]

/-- Before an element, the element, and behind it. -/
theorem val_split (P : List Elem) (e : Elem) (S : List Elem) : (joinElems (P ++ e :: S)).val =
    ended sdbRs (P.map Elem.bytes) ++ (e.bytes ++ led sdbRs (S.map Elem.bytes)) := by
  rw [val_joinElems, List.map_append, List.map_cons, joinSep_append sdbRs _ (List.cons_ne_nil _ _),
    joinSep_cons]

section Split

variable (P : List Elem) (e : Elem) (S : List Elem)

theorem take_split : (joinElems (P ++ e :: S)).val.take (ended sdbRs (P.map Elem.bytes)).length =
    ended sdbRs (P.map Elem.bytes) := by
  rw [val_split, List.take_left]

theorem drop_split : (joinElems (P ++ e :: S)).val.drop (ended sdbRs (P.map Elem.bytes)).length =
    e.bytes ++ led sdbRs (S.map Elem.bytes) := by
  rw [val_split, List.drop_left]

theorem aindexof_split : aindexof (joinElems (P ++ e :: S)).val P.length =
    some (ended sdbRs (P.map Elem.bytes)).length := by
  rw [val_joinElems, aindexof_joinSep (fun _ hx ↦ sep_notMem_of_mem hx)
    (map_bytes_ne_nil (by simp)), if_pos (by simp), ← List.map_take, List.take_left]

theorem aindexof_split_last : aindexof (joinElems (P ++ [e])).val (P.length + 1) = none := by
  rw [val_joinElems, aindexof_joinSep (fun _ hx ↦ sep_notMem_of_mem hx)
    (map_bytes_ne_nil (by simp)), if_neg (by simp)]

/-- The place of the element after. -/
theorem aindexof_split_next (d : Elem) :
    aindexof (joinElems (P ++ e :: d :: S)).val (P.length + 1) =
      some ((ended sdbRs (P.map Elem.bytes)).length + (e.bytes.length + 1)) := by
  have h := aindexof_split (P ++ [e]) d S
  rw [List.append_assoc, List.length_append] at h
  refine h.trans (congrArg some ?_)
  rw [List.map_append, length_ended, length_ended, List.map_append, List.sum_append]
  rfl

theorem drop_split_next (d : Elem) : (joinElems (P ++ e :: d :: S)).val.drop
    ((ended sdbRs (P.map Elem.bytes)).length + (e.bytes.length + 1)) =
    (joinElems (d :: S)).val := by
  rw [← List.drop_drop, drop_split, ← List.drop_drop, List.drop_left, List.map_cons, led_cons,
    List.drop_one, List.tail_cons, ← joinSep_cons]
  rfl

end Split

/-- No place is found behind the last element. -/
theorem aindexof_ge {L : List Elem} (hL : L ≠ []) {i : Nat} (hi : L.length ≤ i) :
    aindexof (joinElems L).val i = none := by
  rw [val_joinElems, aindexof_joinSep (fun _ hx ↦ sep_notMem_of_mem hx) (map_bytes_ne_nil hL),
    if_neg (by rw [List.length_map]; omega)]

/-- An element and what is around it. -/
theorem exists_split {L : List Elem} {i : Nat} (hi : i < L.length) :
    ∃ P e S, L = P ++ e :: S ∧ P.length = i := by
  refine ⟨L.take i, L[i], L.drop (i + 1), ?_, by rw [List.length_take]; omega⟩
  rw [← List.drop_eq_getElem_cons hi, List.take_append_drop]

/-- One array behind another. -/
theorem joined_joinElems {L M : List Elem} (hL : L ≠ []) (hM : M ≠ []) :
    joined (joinElems L) (joinElems M) = joinElems (L ++ M) := by
  rw [joined, val_joinElems, val_joinElems, ← led_eq sdbRs (map_bytes_ne_nil hM),
    ← joinSep_concat sdbRs (map_bytes_ne_nil hL), ← List.map_append, ofBytes_joinSep]

end SdbStore
