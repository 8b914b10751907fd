import SdbStore.Array.Order
import SdbStore.Array.Lists
import SdbStore.Array.Stacks
import SdbStore.Lib.Merge

/-!
# Sorted arrays

`sdb_array_sort` writes the sorted elements one after another, and `sdb_array_add_sorted` sorts the
new ones and copies the old string up to the first element that is greater than the next new one,
again and again.  It is a merge (`addSortedStr_joinElems`), so what is sorted stays sorted and
nothing is lost (`arrays_stay_sorted`).
-/

namespace SdbStore

open Lib

/-- `sdb_array_sort`. -/
def sdbArraySort (s : Sdb) (w : World) (key : CStr) (cas : Nat) : Sdb × World :=
  let r := sdbConstGetLen s w key
  match r.1.value with
  | none => r.2
  | some str =>
      if str = CStr.empty then r.2
      else
        let strs := (sdbFmtArray str).insertionSort fun a b ↦ astrcmp a b ≤ 0
        let nstr := (strs.flatMap (· ++ [sdbRs])).dropLast
        (sdbSetOwned r.2.1 r.2.2 key (CStr.ofBytes nstr) cas).2

/-! ## The order as a relation -/

/-- The order of the elements. -/
def elemLe (a b : Elem) : Prop := astrcmp a.bytes b.bytes ≤ 0

instance : DecidableRel elemLe :=
  fun a b ↦ inferInstanceAs (Decidable (astrcmp a.bytes b.bytes ≤ 0))

theorem elemLe_iff {a b : Elem} : elemLe a b ↔ a.key ≤ b.key := astrcmp_le_iff

instance : Std.Total elemLe where
  total a b := by
    rw [elemLe_iff, elemLe_iff]
    exact le_total a.key b.key

instance : IsTrans Elem elemLe where
  trans a b c hab hbc := by
    rw [elemLe_iff] at *
    exact le_trans hab hbc

theorem elemLe_empty (v : Elem) : elemLe Elem.empty v := by
  rw [elemLe_iff]
  exact not_lt.mp (List.not_lt_nil v.key)

/-- The elements are sorted. -/
def Ascending (L : List Elem) : Prop := L.Pairwise elemLe

/-- The elements, sorted. -/
def sortElems (L : List Elem) : List Elem := L.insertionSort elemLe

theorem ascending_sortElems (L : List Elem) : Ascending (sortElems L) :=
  List.pairwise_insertionSort elemLe L

theorem sortElems_perm (L : List Elem) : (sortElems L).Perm L := List.perm_insertionSort elemLe L

/-- `qsort` on the pointers sorts the elements. -/
theorem sort_fmtArray (A : CStr) :
    (sdbFmtArray A).insertionSort (fun a b ↦ astrcmp a b ≤ 0) =
    (sortElems (elements A)).map Elem.bytes := by
  rw [sdbFmtArray, ← map_bytes_elements]
  exact (List.map_insertionSort elemLe _ Elem.bytes _ fun _ _ _ _ ↦ Iff.rfl).symm

/-! ## Sorting -/

theorem dropLast_ended (L : List Elem) :
    CStr.ofBytes ((ended sdbRs (L.map Elem.bytes)).dropLast) = joinElems L := by
  by_cases hL : L = []
  · rw [hL]
    rfl
  · rw [ended_eq sdbRs (map_bytes_ne_nil hL), List.dropLast_concat, ofBytes_joinSep]

/-- **`sdb_array_sort`** leaves the sorted elements. -/
theorem Cell.arraySort {st : Sdb × World} {k A : CStr} (h : Cell st k A) (hA : A ≠ CStr.empty) :
    Cell (sdbArraySort st.1 st.2 k 0) k (joinElems (sortElems (elements A))) := by
  obtain ⟨c, hget, -⟩ := h.get
  have hfit : (joinElems (sortElems (elements A))).length < 0xffffff := by
    rw [length_joinElems_perm (sortElems_perm (elements A)), joinElems_elements]
    exact h.length_lt
  rw [readAs_of_ne hA] at hget
  rw [sdbArraySort, hget]
  dsimp only
  rw [if_neg hA, sort_fmtArray, show (List.flatMap (· ++ [sdbRs])
    ((sortElems (elements A)).map Elem.bytes)) = ended sdbRs _ from rfl, dropLast_ended]
  exact h.write hfit true (.inl rfl)

/-! ## Merging -/

/-- The comparison of a merge. -/
def elemLeB (a b : Elem) : Bool := elemLe a b

theorem elemLeB_iff {a b : Elem} : elemLeB a b = true ↔ elemLe a b := decide_eq_true_iff

/-- The test of the inner loop of `sdb_array_add_sorted`. -/
theorem astrcmp_joinElems (v x : Elem) (R : List Elem) :
    astrcmp v.bytes (joinElems (x :: R)).bytesZ < 0 ↔ elemLeB x v = false := by
  have hkey : elemKey (joinElems (x :: R)).bytesZ = x.key := by
    rw [CStr.bytesZ, elemKey_append (elemKey_end (by decide) []), val_joinElems, List.map_cons,
      joinSep_cons, elemKey_field]
    rfl
  rw [astrcmp_lt_iff, hkey, ← Bool.not_eq_true, elemLeB_iff, elemLe_iff, not_le]
  rfl

/-- The elements in front of a greater one are not the empty string. -/
theorem joinElems_ne_of_greater {v x : Elem} (h : elemLeB x v = false) (R : List Elem) :
    joinElems (x :: R) ≠ CStr.empty := by
  intro hno
  rcases joinElems_eq_empty.mp hno with hno | hno
  · exact absurd hno (List.cons_ne_nil x R)
  · rw [(List.cons.inj hno).1, elemLeB_iff.mpr (elemLe_empty v)] at h
    cases h

section Split

variable (T : List Elem) (y : Elem) (S : List Elem)

/-- The text up to an element, with its comma, and the text from there on. -/
theorem val_joinElems_split : (joinElems (T ++ y :: S)).val =
    ended sdbRs (T.map Elem.bytes) ++ (joinElems (y :: S)).val := by
  rw [val_split, val_joinElems, List.map_cons, joinSep_cons]

theorem bytesZ_joinElems_split : (joinElems (T ++ y :: S)).bytesZ =
    ended sdbRs (T.map Elem.bytes) ++ (joinElems (y :: S)).bytesZ := by
  rw [CStr.bytesZ, val_joinElems_split, List.append_assoc, CStr.bytesZ]

theorem length_joinElems_split : (joinElems (T ++ y :: S)).length =
    (ended sdbRs (T.map Elem.bytes)).length + (joinElems (y :: S)).length := by
  rw [CStr.length, val_joinElems_split, List.length_append, CStr.length]

end Split

theorem length_le_joinElems (L : List Elem) : L.length ≤ (joinElems L).length + 1 := by
  cases L with
  | nil => exact Nat.zero_le _
  | cons e L =>
      have hled := count_led (L := L.map Elem.bytes) fun _ hx ↦ sep_notMem_of_mem hx
      have hle := List.count_le_length (a := sdbRs) (l := led sdbRs (L.map Elem.bytes))
      rw [hled, List.length_map] at hle
      rw [CStr.length, val_joinElems, List.map_cons, joinSep_cons, List.length_append,
        List.length_cons]
      omega

/-- The inner loop steps over the elements that are not greater. -/
theorem addSortedSkip_eq {R : List Elem} (hR : R ≠ []) (v : Elem) (pre : Bytes) (fuel : Nat)
    (hfuel : R.length ≤ fuel) : addSortedSkip (pre ++ (joinElems R).bytesZ) v.bytes
      (pre.length + (joinElems R).length) fuel pre.length =
        if R.dropWhile (elemLeB · v) = [] then pre.length + (joinElems R).length
        else pre.length + (ended sdbRs ((R.takeWhile (elemLeB · v)).map Elem.bytes)).length := by
  induction R generalizing pre fuel with
  | nil => exact absurd rfl hR
  | cons x R ih =>
      obtain ⟨fuel, rfl⟩ := Nat.exists_eq_succ_of_ne_zero (n := fuel) (by
        rw [List.length_cons] at hfuel
        omega)
      have hcmp := astrcmp_joinElems v x R
      rw [addSortedSkip, List.drop_left, CStr.ofBytes_bytesZ, List.takeWhile_cons,
        List.dropWhile_cons]
      cases hle : elemLeB x v with
      | false =>
          have hpos := mt CStr.length_eq_zero.mp (joinElems_ne_of_greater hle R)
          rw [if_pos (by omega), if_pos (hcmp.mpr hle)]
          simp
      | true =>
          have hno : ¬ astrcmp v.bytes (joinElems (x :: R)).bytesZ < 0 := by
            rw [hcmp, hle]
            decide
          rw [if_pos rfl, if_pos rfl, if_neg hno]
          cases R with
          | nil =>
              rw [joinElems_singleton, List.idxOf?_eq_none_iff.mpr x.noSep, List.dropWhile_nil,
                if_pos rfl]
              dsimp only
              split
              · rfl
              · omega
          | cons y R =>
              have hended : ended sdbRs ([x].map Elem.bytes) = x.bytes ++ [sdbRs] := by
                rw [List.map_singleton, ended_cons, ended_nil]
              have hblock := bytesZ_joinElems_split [x] y R
              have hlen := length_joinElems_split [x] y R
              rw [List.singleton_append, hended] at hblock hlen
              rw [List.length_append, List.length_singleton] at hlen
              have hidx : (joinElems (x :: y :: R)).val.idxOf? sdbRs = some x.bytes.length := by
                rw [val_joinElems, List.map_cons, joinSep_cons]
                exact idxOf?_field x.sep_notMem (List.cons_ne_nil _ _)
              have hrest := ih (List.cons_ne_nil y R) (pre ++ (x.bytes ++ [sdbRs])) fuel
                (Nat.le_of_succ_le_succ hfuel)
              rw [List.append_assoc, ← hblock, List.length_append, List.length_append,
                List.length_singleton, ← Nat.add_assoc] at hrest
              have hend : pre.length + (joinElems (x :: y :: R)).length =
                  pre.length + x.bytes.length + 1 + (joinElems (y :: R)).length := by omega
              rw [if_pos (by omega), hidx]
              dsimp only
              rw [hend, hrest, List.map_cons, ended_cons, List.length_append, List.length_cons]
              split
              · rfl
              · omega

section Round

variable (v : Elem) (out pre : Bytes)

/-- A round with nothing left appends its element. -/
theorem addSortedStep_nil (block : Bytes) (e : Nat) :
    addSortedStep block e (e, e, out) v.bytes = (e, e, out ++ (v.bytes ++ [sdbRs])) := by
  have hskip : addSortedSkip block v.bytes e (e + 1) e = e := by
    rw [addSortedSkip, if_neg (Nat.lt_irrefl e)]
  rw [addSortedStep]
  dsimp only
  rw [hskip, Nat.sub_self, if_neg (fun hno ↦ hno.2 rfl), slice, List.take_zero, List.append_nil,
    List.append_assoc]

/-- A round that finds no greater element copies all the rest, which gets a comma. -/
theorem addSortedStep_all {R : List Elem} (hne : joinElems R ≠ CStr.empty)
    (hdrop : R.dropWhile (elemLeB · v) = []) :
    addSortedStep (pre ++ (joinElems R).bytesZ) (pre.length + (joinElems R).length)
        (pre.length, pre.length, out) v.bytes =
      (pre.length + (joinElems R).length, pre.length + (joinElems R).length,
        out ++ (ended sdbRs (R.map Elem.bytes) ++ (v.bytes ++ [sdbRs]))) := by
  have hR := ne_nil_of_join hne
  have hpos := mt CStr.length_eq_zero.mp hne
  have hskip := addSortedSkip_eq hR v pre (pre.length + (joinElems R).length + 1)
    (by have := length_le_joinElems R; omega)
  have hslice : slice (pre ++ (joinElems R).bytesZ) pre.length
      (pre.length + (joinElems R).length - pre.length) = (joinElems R).val := by
    rw [slice, List.drop_left, Nat.add_sub_cancel_left, take_bytesZ_length]
  rw [addSortedStep]
  dsimp only
  rw [hskip, hdrop, if_pos rfl, if_pos ⟨rfl, by omega⟩, hslice,
    ended_eq sdbRs (map_bytes_ne_nil hR)]
  simp only [List.append_assoc]
  rfl

/-- A round copies what is in front of the first greater element, with its comma. -/
theorem addSortedStep_part {T S : List Elem} {y : Elem}
    (htake : (T ++ y :: S).takeWhile (elemLeB · v) = T)
    (hdrop : (T ++ y :: S).dropWhile (elemLeB · v) = y :: S)
    (hne : joinElems (y :: S) ≠ CStr.empty) :
    addSortedStep (pre ++ (joinElems (T ++ y :: S)).bytesZ)
      (pre.length + (joinElems (T ++ y :: S)).length)
        (pre.length, pre.length, out) v.bytes =
      (pre.length + (ended sdbRs (T.map Elem.bytes)).length,
        pre.length + (ended sdbRs (T.map Elem.bytes)).length,
        out ++ (ended sdbRs (T.map Elem.bytes) ++ (v.bytes ++ [sdbRs]))) := by
  have hpos := mt CStr.length_eq_zero.mp hne
  have hlen := length_joinElems_split T y S
  have hskip := addSortedSkip_eq (R := T ++ y :: S) (by simp) v pre
    (pre.length + (joinElems (T ++ y :: S)).length + 1)
    (by have := length_le_joinElems (T ++ y :: S); omega)
  have hslice : slice (pre ++ (joinElems (T ++ y :: S)).bytesZ) pre.length
      (pre.length + (ended sdbRs (T.map Elem.bytes)).length - pre.length) =
        ended sdbRs (T.map Elem.bytes) := by
    rw [slice, List.drop_left, Nat.add_sub_cancel_left, bytesZ_joinElems_split, List.take_left]
  rw [addSortedStep]
  dsimp only
  rw [hskip, hdrop, htake, if_neg (List.cons_ne_nil y S),
    if_neg (fun hno ↦ by have := hno.1; omega), hslice]
  simp only [List.append_assoc]

end Round

/-- Where a merge is: `M` has been written and `R` is left, of the block that ends at `e`. -/
structure Merging (block : Bytes) (e : Nat) (st : Nat × Nat × Bytes) (M R : List Elem) : Prop where
  out : st.2.2 = ended sdbRs (M.map Elem.bytes)
  same : st.2.1 = st.1
  rest : (R = [] ∧ st.1 = e) ∨
    (joinElems R ≠ CStr.empty ∧ ∃ pre, block = pre ++ (joinElems R).bytesZ ∧ st.1 = pre.length ∧
      e = pre.length + (joinElems R).length)

theorem ended_round (M T : List Elem) (v : Elem) :
    ended sdbRs (M.map Elem.bytes) ++ (ended sdbRs (T.map Elem.bytes) ++ (v.bytes ++ [sdbRs])) =
      ended sdbRs ((M ++ (T ++ [v])).map Elem.bytes) := by
  rw [List.map_append, List.map_append, ended_append, ended_append, List.map_singleton, ended_cons,
    ended_nil]

/-- One round of the outer loop is one of the merge. -/
theorem Merging.step {block : Bytes} {e : Nat} {st : Nat × Nat × Bytes} {M R : List Elem}
    (h : Merging block e st M R) (v : Elem) :
    Merging block e (addSortedStep block e st v.bytes) (mergeStep elemLeB (M, R) v).1
      (mergeStep elemLeB (M, R) v).2 := by
  obtain ⟨p, lp, out⟩ := st
  obtain ⟨hout, hsame, hrest⟩ := h
  dsimp only at hout hsame hrest
  subst hout hsame
  rcases hrest with ⟨rfl, rfl⟩ | ⟨hne, pre, rfl, rfl, rfl⟩
  · rw [addSortedStep_nil]
    exact ⟨ended_round M [] v, rfl, .inl ⟨rfl, rfl⟩⟩
  · have hsplit := List.takeWhile_append_dropWhile (p := (elemLeB · v)) (l := R)
    rw [mergeStep]
    dsimp only
    cases hdrop : R.dropWhile (elemLeB · v) with
    | nil =>
        rw [hdrop, List.append_nil] at hsplit
        rw [addSortedStep_all v _ pre hne hdrop, hsplit]
        exact ⟨ended_round M R v, rfl, .inl ⟨rfl, rfl⟩⟩
    | cons y S =>
        have hy := List.head?_dropWhile_not (elemLeB · v) R
        generalize htake : R.takeWhile (elemLeB · v) = T at hsplit ⊢
        rw [hdrop] at hsplit hy
        subst hsplit
        have hyS : joinElems (y :: S) ≠ CStr.empty := joinElems_ne_of_greater hy S
        rw [addSortedStep_part v _ pre htake hdrop hyS]
        refine ⟨ended_round M T v, rfl,
          .inr ⟨hyS, pre ++ ended sdbRs (T.map Elem.bytes), ?_, ?_, ?_⟩⟩
        · rw [bytesZ_joinElems_split, List.append_assoc]
        · rw [List.length_append]
        · rw [List.length_append, length_joinElems_split, Nat.add_assoc]

theorem Merging.foldl {block : Bytes} {e : Nat} {st : Nat × Nat × Bytes} {M R : List Elem}
    (h : Merging block e st M R) (V : List Elem) :
    Merging block e ((V.map Elem.bytes).foldl (addSortedStep block e) st)
      (V.foldl (mergeStep elemLeB) (M, R)).1 (V.foldl (mergeStep elemLeB) (M, R)).2 := by
  induction V generalizing st M R with
  | nil => exact h
  | cons v V ih => exact ih (h.step v)

/-- What is left is copied, or else the last comma is taken back. -/
theorem Merging.finish {block : Bytes} {e : Nat} {st : Nat × Nat × Bytes} {M R : List Elem}
    (h : Merging block e st M R) : CStr.ofBytes
      (if st.2.1 < e then st.2.2 ++ slice block st.2.1 (e - st.2.1) else st.2.2.dropLast) =
        joinElems (M ++ R) := by
  obtain ⟨hout, hsame, hrest⟩ := h
  rw [hsame, hout]
  rcases hrest with ⟨rfl, he⟩ | ⟨hne, pre, rfl, hp, rfl⟩
  · rw [he, if_neg (Nat.lt_irrefl e), List.append_nil, dropLast_ended]
  · have hpos := mt CStr.length_eq_zero.mp hne
    rw [hp, if_pos (by omega), slice, List.drop_left, Nat.add_sub_cancel_left, take_bytesZ_length,
      val_joinElems, ← joinSep_append sdbRs _ (map_bytes_ne_nil (ne_nil_of_join hne)),
      ← List.map_append, ofBytes_joinSep]

/-- The elements that `sdb_array_add_sorted` leaves. -/
def addSortedElems (L : List Elem) (val : CStr) : List Elem :=
  List.merge L (sortElems (elements val)) elemLeB

/-- **`sdb_array_add_sorted`** builds the string of a merge. -/
theorem addSortedStr_eq {block : Bytes} {e : Nat} {L : List Elem}
    (h : Merging block e (0, 0, []) [] L) (val : CStr) :
    addSortedStr block e ((sdbFmtArray val).insertionSort fun a b ↦ astrcmp a b ≤ 0) =
      joinElems (addSortedElems L val) := by
  rw [sort_fmtArray, addSortedStr, (h.foldl _).finish, foldl_mergeStep]
  rfl

theorem addSortedElems_perm (L : List Elem) (val : CStr) :
    (addSortedElems L val).Perm (L ++ elements val) :=
  (List.merge_perm_append elemLeB).trans ((sortElems_perm (elements val)).append_left L)

theorem ascending_addSortedElems {L : List Elem} (hL : Ascending L) (val : CStr) :
    Ascending (addSortedElems L val) := by
  have hiff : ∀ {M : List Elem}, M.Pairwise (fun a b ↦ elemLeB a b = true) ↔ Ascending M :=
    List.Pairwise.iff fun _ _ ↦ elemLeB_iff
  refine hiff.mp (List.pairwise_merge (fun a b c hab hbc ↦ ?_) (fun a b ↦ ?_) _ _ (hiff.mpr hL)
    (hiff.mpr (ascending_sortElems _)))
  · rw [elemLeB_iff, elemLe_iff] at *
    exact le_trans hab hbc
  · rw [Bool.or_eq_true, elemLeB_iff, elemLeB_iff]
    exact total_of elemLe a b

/-- **`sdb_array_add_sorted`** leaves the elements of both. -/
theorem Cell.addSorted {st : Sdb × World} {k : CStr} {L : List Elem} (h : Cell st k (joinElems L))
    (hL : L ≠ [Elem.empty]) {val : CStr} (hval : val ≠ CStr.empty)
    (hfit : (joinElems (L ++ elements val)).length < 0xffffff) :
    Cell (sdbArrayAddSorted st.1 st.2 k val 0).2 k (joinElems (addSortedElems L val)) := by
  rw [← length_joinElems_perm (addSortedElems_perm L val)] at hfit
  obtain ⟨c, hget, -⟩ := h.get
  rw [sdbArrayAddSorted, hget]
  dsimp only
  rw [if_neg hval]
  by_cases hx : joinElems L = CStr.empty
  · obtain rfl := (joinElems_eq_empty.mp hx).resolve_right hL
    have hstart : Merging [0] 0 (0, 0, []) [] [] := ⟨rfl, rfl, .inl ⟨rfl, rfl⟩⟩
    rw [hx, readAs_empty]
    dsimp only
    rw [addSortedStr_eq hstart]
    exact h.write hfit true (.inl rfl)
  · obtain ⟨kv, hf, -⟩ := h.exists_entry hx
    have hstart : Merging (getBlock st.1 k (joinElems L)) (joinElems L).length (0, 0, []) [] L := by
      refine ⟨rfl, rfl, .inr ⟨hx, [], ?_, rfl, (Nat.zero_add _).symm⟩⟩
      rw [getBlock, hf]
      rfl
    rw [readAs_of_ne hx]
    dsimp only
    rw [if_neg hx, addSortedStr_eq hstart]
    exact h.write hfit true (.inl rfl)

/-! ## Arrays that stay sorted -/

/-- One call of `sdb_array_add_sorted` after another. -/
def addAllSorted (k : CStr) (st : Sdb × World) (vals : List CStr) : Sdb × World :=
  vals.foldl (fun st val ↦ (sdbArrayAddSorted st.1 st.2 k val 0).2) st

/-- The key has a sorted array of the elements `L`, in another order. -/
def HasSorted (st : Sdb × World) (k : CStr) (L : List Elem) : Prop :=
  ∃ B, sdbGet st.1 st.2 k = readAs B ∧ Ascending (stackOf B) ∧ (stackOf B).Perm L

/-- The array of a key can be sorted, and stays sorted with all that is added to it. -/
structure StaysSorted (st : Sdb × World) (k : CStr) : Prop where
  sort : ∀ A, sdbGet st.1 st.2 k = some A → HasSorted (sdbArraySort st.1 st.2 k 0) k (elements A)
  add : ∀ A val, sdbGet st.1 st.2 k = readAs A → Ascending (stackOf A) → val ≠ CStr.empty →
    (joinElems (stackOf A ++ elements val)).length < 0xffffff →
    HasSorted (sdbArrayAddSorted st.1 st.2 k val 0).2 k (stackOf A ++ elements val)
  run : ∀ A vals, sdbGet st.1 st.2 k = some A → (∀ val ∈ vals, val ≠ CStr.empty) →
    (joinElems (elements A ++ vals.flatMap elements)).length < 0xffffff →
    HasSorted (addAllSorted k (sdbArraySort st.1 st.2 k 0) vals) k
      (elements A ++ vals.flatMap elements)

theorem length_joinElems_le (L M : List Elem) :
    (joinElems L).length ≤ (joinElems (L ++ M)).length := by
  by_cases hL : L = []
  · rw [hL]
    exact Nat.zero_le _
  · rw [CStr.length, CStr.length, val_joinElems, val_joinElems, List.map_append,
      joinSep_concat sdbRs (map_bytes_ne_nil hL), List.length_append]
    exact Nat.le_add_right _ _

theorem stackOf_joinElems {L : List Elem} (hL : L ≠ [Elem.empty]) : stackOf (joinElems L) = L := by
  rw [stackOf]
  split
  · next h => exact ((joinElems_eq_empty.mp h).resolve_right hL).symm
  · next h => exact elements_joinElems (ne_nil_of_join h)

theorem addSortedElems_ne (L : List Elem) {val : CStr} (hval : val ≠ CStr.empty) :
    addSortedElems L val ≠ [Elem.empty] := by
  intro h
  have hperm := addSortedElems_perm L val
  rw [h, List.singleton_perm] at hperm
  rcases List.append_eq_singleton_iff.mp hperm.symm with ⟨-, hv⟩ | ⟨-, hv⟩
  · apply hval
    rw [← joinElems_elements val, hv]
    exact joinElems_singleton Elem.empty
  · exact elements_ne_nil val hv

theorem HasSorted.perm {st : Sdb × World} {k : CStr} {L M : List Elem} (h : HasSorted st k L)
    (hLM : L.Perm M) : HasSorted st k M := by
  obtain ⟨B, hget, hasc, hperm⟩ := h
  exact ⟨B, hget, hasc, hperm.trans hLM⟩

section Run

variable {st : Sdb × World} {k : CStr} {L : List Elem} (h : Cell st k (joinElems L))
  (hL : L ≠ [Elem.empty])
include h hL

/-- A cell with a sorted array. -/
theorem Cell.hasSorted (hasc : Ascending L) {M : List Elem} (hperm : L.Perm M) :
    HasSorted st k M := by
  refine ⟨joinElems L, h.sdbGet, ?_, ?_⟩
  · rwa [stackOf_joinElems hL]
  · rwa [stackOf_joinElems hL]

theorem Cell.addAllSorted (hasc : Ascending L) {vals : List CStr}
    (hvals : ∀ val ∈ vals, val ≠ CStr.empty)
    (hfit : (joinElems (L ++ vals.flatMap elements)).length < 0xffffff) :
    HasSorted (SdbStore.addAllSorted k st vals) k (L ++ vals.flatMap elements) := by
  induction vals generalizing st L with
  | nil =>
      rw [List.flatMap_nil, List.append_nil]
      exact h.hasSorted hL hasc (List.Perm.refl L)
  | cons val vals ih =>
      have hval := hvals val List.mem_cons_self
      have hperm := addSortedElems_perm L val
      rw [List.flatMap_cons, ← List.append_assoc] at hfit ⊢
      have hadd := h.addSorted hL hval (Nat.lt_of_le_of_lt (length_joinElems_le _ _) hfit)
      rw [← length_joinElems_perm (hperm.append_right _)] at hfit
      exact (ih hadd (addSortedElems_ne L hval) (ascending_addSortedElems hasc val)
        (fun v hv ↦ hvals v (List.mem_cons_of_mem val hv)) hfit).perm (hperm.append_right _)

end Run

theorem sortElems_ne {A : CStr} (hA : A ≠ CStr.empty) : sortElems (elements A) ≠ [Elem.empty] := by
  intro h
  have hperm := sortElems_perm (elements A)
  rw [h, List.singleton_perm] at hperm
  apply hA
  rw [← joinElems_elements A, ← hperm]
  exact joinElems_singleton Elem.empty

theorem stackOf_ne (A : CStr) : stackOf A ≠ [Elem.empty] := by
  rw [stackOf]
  split
  · exact List.cons_ne_nil _ _ |>.symm
  · next h =>
      intro hno
      apply h
      rw [← joinElems_elements A, hno]
      exact joinElems_singleton Elem.empty

/-- A key that has a string, or can get one. -/
theorem cell_of_readable {st : Sdb × World} (hm : st.1.Memory) {k : CStr}
    (hkey : sdbGet st.1 st.2 k = none → k.length < 0xff ∧ ¬ TimedOut st.1 st.2 k) {A : CStr}
    (hA : sdbGet st.1 st.2 k = readAs A) : Cell st k (joinElems (stackOf A)) := by
  rw [joinElems_stackOf]
  by_cases hempty : A = CStr.empty
  · rw [hempty] at hA ⊢
    exact Cell.of_read hm (hkey hA).1 (hkey hA).2 hA
  · exact (Cell.of_some hm (hA.trans (readAs_of_ne hempty))).1

/-- **Arrays stay sorted**, under a key in memory that has a value or can get one. -/
theorem arrays_stay_sorted {st : Sdb × World} (hm : st.1.Memory) {k : CStr}
    (hkey : sdbGet st.1 st.2 k = none → k.length < 0xff ∧ ¬ TimedOut st.1 st.2 k) :
    StaysSorted st k where
  sort A hA := by
    obtain ⟨hcell, hne⟩ := Cell.of_some hm hA
    exact (hcell.arraySort hne).hasSorted (sortElems_ne hne) (ascending_sortElems _)
      (sortElems_perm _)
  add A val hA hasc hval hfit := by
    have hcell : Cell st k (joinElems (stackOf A)) := cell_of_readable hm hkey hA
    exact (hcell.addSorted (stackOf_ne A) hval hfit).hasSorted (addSortedElems_ne _ hval)
      (ascending_addSortedElems hasc val) (addSortedElems_perm _ val)
  run A vals hA hvals hfit := by
    obtain ⟨hcell, hne⟩ := Cell.of_some hm hA
    have hperm := (sortElems_perm (elements A)).append_right (vals.flatMap elements)
    rw [← length_joinElems_perm hperm] at hfit
    exact ((hcell.arraySort hne).addAllSorted (sortElems_ne hne)
      (ascending_sortElems _) hvals hfit).perm
      hperm

/-- The array `a,,b` can be sorted, and gets more elements. -/
theorem memArray_staysSorted : StaysSorted memArray (CStr.ofBytes [107]) :=
  arrays_stay_sorted memory_memArray fun h ↦ absurd h (by decide)

theorem Sdb.Memory.addSorted_long {s : Sdb} (h : s.Memory) (w : World) {k : CStr}
    (hk : 0xff ≤ k.length) (val : CStr) : (sdbArrayAddSorted s w k val 0).2 = (s, w) := by
  rw [sdbArrayAddSorted, h.constGetLen_long w hk]
  dsimp only
  split
  · rfl
  · exact congrArg Prod.snd (congrArg (fun r : Nat × Sdb × World ↦ (decide (r.1 ≠ 0), r.2))
      (sdbSetInternal_long w hk s _ true 0))

/-- It does not, if an element is added to an unset key that has no value then. -/
theorem StaysSorted.not_of_lost {st : Sdb × World} {k : CStr} (hget : sdbGet st.1 st.2 k = none)
    (hlost : let st' := (sdbArrayAddSorted st.1 st.2 k (CStr.ofBytes [97]) 0).2
      sdbGet st'.1 st'.2 k = none) : ¬ StaysSorted st k := by
  intro h
  obtain ⟨B, hB, -, hperm⟩ :=
    h.add CStr.empty (CStr.ofBytes [97]) hget List.Pairwise.nil (by decide)
    (by decide)
  have hempty : readAs CStr.empty = readAs B := hlost.symm.trans hB
  have hlen := hperm.length_eq
  rw [← readAs_injective hempty] at hlen
  exact absurd hlen (by decide)

/-- Nothing is added under an unset key that is too long, and what is added under one that has run
out of time is not seen. -/
theorem sorted_is_lost :
    (sdbNew0.Memory ∧ ¬ StaysSorted (sdbNew0, .empty) (letters 255)) ∧
      memStale.1.Memory ∧ ¬ StaysSorted memStale (CStr.ofBytes [107]) := by
  have hk : 0xff ≤ (letters 255).length := Nat.le_of_eq (length_letters 255).symm
  have hget : sdbGet sdbNew0 .empty (letters 255) = none := by
    rw [sdbGet, Sdb.Memory.new0.constGetLen_long .empty hk]
    rfl
  refine ⟨⟨Sdb.Memory.new0, StaysSorted.not_of_lost hget ?_⟩, memory_memStale,
    StaysSorted.not_of_lost (by decide) (by decide)⟩
  dsimp only
  rw [Sdb.Memory.new0.addSorted_long .empty hk]
  exact hget

end SdbStore
