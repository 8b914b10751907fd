import SdbStore.Array.Nums
import SdbStore.Array.Sorted

/-!
# Sorted arrays of numbers

`sdb_array_sort_num` reads all the numbers, sorts them and prints them in decimal.
`sdb_array_add_sorted_num` looks for the first number that is not smaller and puts the new one in
front of it, in hexadecimal.  The numbers that are read stay the same and sorted
(`arrays_stay_sorted_num`).
-/

namespace SdbStore

open Lib

/-! ## More of `array.c` and `fmt.c` -/

/-- `int_cmp`. -/
def intCmp (va vb : UInt64) : Int := if va > vb then 1 else if va < vb then -1 else 0

/-- `sdb_fmt_array_num`: the numbers of a string. -/
def sdbFmtArrayNum (list : CStr) : List UInt64 :=
  (starts sdbRs list.val).map fun str ↦ sdbAtoi (some str)

/-- One round of `sdb_fmt_tostr`, for a `q`. -/
def fmtQ (sb : Bytes) (n : UInt64) : Bytes :=
  let val := sdbItoa n 10
  if val ≠ [] then (if sb.length > 0 then sb ++ [sdbRs] else sb) ++ val else sb

/-- `sdb_fmt_tostr`, for a format of as many `q` as there are numbers. -/
def sdbFmtTostr (nums : List UInt64) : Bytes := nums.foldl fmtQ []

/-- `sdb_array_sort_num`. -/
def sdbArraySortNum (s : Sdb) (w : World) (key : CStr) (cas : Nat) : Sdb × World :=
  let r := sdbConstGetLen s w key
  match r.1.value with
  | none => r.2
  | some str =>
      if str = CStr.empty then r.2
      else
        let nums := (sdbFmtArrayNum str).insertionSort fun a b ↦ intCmp a b ≤ 0
        (sdbSetOwned r.2.1 r.2.2 key (CStr.ofBytes (sdbFmtTostr nums)) cas).2

/-- `sdb_array_insert_num`. -/
def sdbArrayInsertNum (s : Sdb) (w : World) (key : CStr) (idx : Int) (val : UInt64) (cas : Nat) :
    Bool × Sdb × World :=
  sdbArrayInsert s w key idx (CStr.ofBytes (sdbItoa val sdbNumDefault)) cas

/-- `sdb_array_add_sorted_num`. -/
def sdbArrayAddSortedNum (s : Sdb) (w : World) (key : CStr) (val : UInt64) (cas : Nat) :
    Bool × Sdb × World :=
  let r := sdbConstGetLen s w key
  match r.1.value with
  | none => sdbSet r.2.1 r.2.2 key (CStr.ofBytes (sdbItoa val sdbNumDefault)) cas
  | some str =>
      if str = CStr.empty then
        sdbSet r.2.1 r.2.2 key (CStr.ofBytes (sdbItoa val sdbNumDefault)) cas
      else
        let idx : Int :=
          match (starts sdbRs str.val).findIdx? fun n ↦ val ≤ sdbAtoi (some n) with
          | some i => i
          | none => -1
        sdbArrayInsertNum r.2.1 r.2.2 key idx val cas

/-! ## Sorting -/

/-- The order of `int_cmp`. -/
def intLe (a b : UInt64) : Prop := intCmp a b ≤ 0

instance : DecidableRel intLe := fun a b ↦ inferInstanceAs (Decidable (intCmp a b ≤ 0))

theorem intLe_iff {a b : UInt64} : intLe a b ↔ a ≤ b := by
  rw [intLe, intCmp]
  split
  · next h => exact iff_of_false (by decide) (UInt64.not_le.mpr h)
  · next h =>
      refine iff_of_true ?_ (UInt64.not_lt.mp h)
      split
      · decide
      · decide

instance : Std.Total intLe where
  total a b := by
    rw [intLe_iff, intLe_iff]
    exact UInt64.le_total a b

instance : IsTrans UInt64 intLe where
  trans a b c hab hbc := by
    rw [intLe_iff] at *
    exact UInt64.le_trans hab hbc

/-- The numbers of the elements. -/
def nums (L : List Elem) : List UInt64 := L.map Elem.num

/-- The numbers, sorted. -/
def sortNums (L : List UInt64) : List UInt64 := L.insertionSort intLe

theorem sortNums_perm (L : List UInt64) : (sortNums L).Perm L := List.perm_insertionSort intLe L

theorem sortNums_ascending (L : List UInt64) : (sortNums L).Pairwise (· ≤ ·) :=
  (List.pairwise_insertionSort intLe L).imp intLe_iff.mp

theorem sdbFmtArrayNum_eq (A : CStr) : sdbFmtArrayNum A = nums (elements A) := by
  have hmap : (starts sdbRs (joinSep sdbRs ((elements A).map Elem.bytes))).map
      (fun p ↦ sdbAtoi (some p)) = ((elements A).map Elem.bytes).map fun p ↦ sdbAtoi (some p) :=
    map_starts _ _ (fun e L _ ↦ sdbAtoi_field e L) (map_bytes_ne_nil (elements_ne_nil A))
      fun _ hx ↦ sep_notMem_of_mem hx
  rw [← val_joinElems, joinElems_elements] at hmap
  rw [sdbFmtArrayNum, hmap, List.map_map]
  rfl

theorem fmtQ_eq (sb : Bytes) (n : UInt64) :
    fmtQ sb n = if sb = [] then (decElem n).bytes else sb ++ sdbRs :: (decElem n).bytes := by
  have hne : sdbItoa n 10 ≠ [] := (sdbItoa_text (.inr (.inl rfl)) n).2.2.1
  rw [fmtQ, decElem, bytes_itoaElem, if_pos hne]
  by_cases hsb : sb = []
  · rw [hsb]
    rfl
  · rw [if_neg hsb, if_pos (List.length_pos_of_ne_nil hsb), List.append_assoc]
    rfl

/-- The numbers are printed with commas between them. -/
theorem sdbFmtTostr_eq (L : List UInt64) :
    CStr.ofBytes (sdbFmtTostr L) = joinElems (L.map decElem) := by
  have hfold : ∀ (L : List UInt64) (sb : Bytes), sb ≠ [] →
      L.foldl fmtQ sb = sb ++ led sdbRs ((L.map decElem).map Elem.bytes) := by
    intro L
    induction L with
    | nil => exact fun sb _ ↦ (List.append_nil sb).symm
    | cons n L ih =>
        intro sb hsb
        rw [List.foldl_cons, fmtQ_eq, if_neg hsb, ih _ (by simp), List.append_assoc]
        rfl
  cases L with
  | nil => rfl
  | cons n L =>
      have hne : (decElem n).bytes ≠ [] := fun h ↦ itoaElem_ne _ n (Elem.bytes_eq_nil.mp h)
      rw [sdbFmtTostr, List.foldl_cons, fmtQ_eq, if_pos rfl, hfold L _ hne, ← joinSep_cons,
        ← List.map_cons, ← List.map_cons, ofBytes_joinSep]

theorem nums_decElem (L : List UInt64) : nums (L.map decElem) = L := by
  rw [nums, List.map_map]
  exact List.map_id'' num_decElem L

/-- **`sdb_array_sort_num`** leaves the sorted numbers, in decimal. -/
theorem Cell.arraySortNum {st : Sdb × World} {k A : CStr} (h : Cell st k A) (hA : A ≠ CStr.empty)
    (hfit : (joinElems ((nums (elements A)).map decElem)).length < 0xffffff) :
    Cell (sdbArraySortNum st.1 st.2 k 0) k
      (joinElems ((sortNums (nums (elements A))).map decElem)) := by
  rw [← length_joinElems_perm ((sortNums_perm _).map decElem)] at hfit
  obtain ⟨c, hget, -⟩ := h.get
  rw [readAs_of_ne hA] at hget
  rw [sdbArraySortNum, hget]
  dsimp only
  rw [if_neg hA, sdbFmtArrayNum_eq,
    show (nums (elements A)).insertionSort (fun a b ↦ intCmp a b ≤ 0) =
        sortNums (nums (elements A)) from rfl, sdbFmtTostr_eq]
  exact h.write hfit true (.inl rfl)

/-! ## Adding -/

/-- The index of the first number that is not smaller. -/
def numIdx (L : List Elem) (v : UInt64) : Int :=
  match L.findIdx? fun e ↦ v ≤ e.num with
  | some i => i
  | none => -1

/-- The elements with a number in its place. -/
def addSortedNum (L : List Elem) (v : UInt64) : List Elem :=
  listInsert Elem.empty L (numIdx L v) (hexElem v)

/-- The number comes behind the smaller ones and in front of the others. -/
theorem addSortedNum_split (L : List Elem) (v : UInt64) :
    ∃ P S, L = P ++ S ∧ addSortedNum L v = P ++ hexElem v :: S ∧ (∀ e ∈ P, e.num < v) ∧
      ∀ e, S.head? = some e → v ≤ e.num := by
  rw [addSortedNum, numIdx]
  cases hfind : L.findIdx? fun e ↦ v ≤ e.num with
  | none =>
      refine ⟨L, [], (List.append_nil L).symm, rfl, fun e he ↦ ?_, fun e he ↦ by cases he⟩
      have hno := List.findIdx?_eq_none_iff.mp hfind e he
      exact UInt64.not_le.mp (of_decide_eq_false hno)
  | some i =>
      obtain ⟨hi, hstop, hbefore⟩ := List.findIdx?_eq_some_iff_getElem.mp hfind
      have hlen : (L.take i).length = i := List.length_take_of_le (Nat.le_of_lt hi)
      have hins := insertIdx_mid (L.take i) (L.drop i) (hexElem v)
      rw [hlen, List.take_append_drop] at hins
      refine ⟨L.take i, L.drop i, (List.take_append_drop i L).symm, ?_, fun e he ↦ ?_,
        fun e he ↦ ?_⟩
      · dsimp only
        rw [listInsert, if_pos (by omega)]
        exact hins
      · obtain ⟨j, hj, rfl⟩ := List.getElem_of_mem he
        rw [List.getElem_take]
        exact UInt64.not_le.mp (of_decide_eq_false (Bool.not_eq_true _ ▸ hbefore j (by omega)))
      · rw [List.head?_drop, List.getElem?_eq_getElem hi] at he
        rw [← Option.some.inj he]
        exact of_decide_eq_true hstop

theorem addSortedNum_perm (L : List Elem) (v : UInt64) :
    (nums (addSortedNum L v)).Perm (nums L ++ [v]) := by
  obtain ⟨P, S, rfl, hadd, -, -⟩ := addSortedNum_split L v
  rw [hadd, nums, nums, List.map_append, List.map_append, List.map_cons, num_hexElem,
    List.append_assoc]
  exact (List.perm_append_singleton v _).symm.append_left _

/-- What was ascending still is. -/
theorem ascending_addSortedNum {L : List Elem} (hL : (nums L).Pairwise (· ≤ ·)) (v : UInt64) :
    (nums (addSortedNum L v)).Pairwise (· ≤ ·) := by
  obtain ⟨P, S, rfl, hadd, hP, hS⟩ := addSortedNum_split L v
  rw [nums, List.map_append] at hL
  obtain ⟨hasc, hrest, hcross⟩ := List.pairwise_append.mp hL
  have hle : ∀ b ∈ S.map Elem.num, v ≤ b := by
    intro b hb
    cases S with
    | nil => cases hb
    | cons e S =>
        have he := hS e rfl
        rcases List.mem_cons.mp hb with rfl | hb
        · exact he
        · exact UInt64.le_trans he (List.rel_of_pairwise_cons hrest hb)
  rw [hadd, nums, List.map_append, List.map_cons, num_hexElem]
  refine List.pairwise_append.mpr ⟨hasc, List.pairwise_cons.mpr ⟨hle, hrest⟩, fun a ha b hb ↦ ?_⟩
  rcases List.mem_cons.mp hb with rfl | hb
  · obtain ⟨e, he, rfl⟩ := List.mem_map.mp ha
    exact UInt64.le_of_lt (hP e he)
  · exact hcross a ha b hb

/-- The search of `sdb_array_add_sorted_num`. -/
theorem findIdx?_starts_le {L : List Elem} (hL : L ≠ []) (v : UInt64) :
    ((starts sdbRs (joinElems L).val).findIdx? fun n ↦ v ≤ sdbAtoi (some n)) =
      L.findIdx? fun e ↦ v ≤ e.num := by
  have hfield : ∀ e M, sdbRs ∉ e → (fun n : Bytes ↦ decide (v ≤ sdbAtoi (some n)))
      (e ++ led sdbRs M) = decide (v ≤ sdbAtoi (some e)) := fun e M _ ↦ by
    dsimp only
    rw [sdbAtoi_field]
  rw [val_joinElems, findIdx?_starts hfield (map_bytes_ne_nil hL) fun _ hx ↦ sep_notMem_of_mem hx,
    List.findIdx?_map]
  rfl

/-- **`sdb_array_add_sorted_num`** leaves the numbers with another one. -/
theorem Cell.addSortedNum {st : Sdb × World} {k : CStr} {L : List Elem}
    (h : Cell st k (joinElems L)) (hL : L ≠ [Elem.empty]) (v : UInt64)
    (hfit : (joinElems (L ++ [hexElem v])).length < 0xffffff) :
    Cell (sdbArrayAddSortedNum st.1 st.2 k v 0).2 k (joinElems (SdbStore.addSortedNum L v)) := by
  have hfit' : (joinElems (SdbStore.addSortedNum L v)).length < 0xffffff := by
    obtain ⟨P, S, rfl, hadd, -, -⟩ := addSortedNum_split L v
    rw [hadd, length_joinElems_perm (List.perm_middle.trans (List.perm_append_singleton _ _).symm)]
    exact hfit
  obtain ⟨c, hget, -⟩ := h.get
  rw [sdbArrayAddSortedNum, hget]
  dsimp only
  by_cases hx : joinElems L = CStr.empty
  · obtain rfl := (joinElems_eq_empty.mp hx).resolve_right hL
    have hone : joinElems (SdbStore.addSortedNum [] v) = CStr.ofBytes (sdbItoa v sdbNumDefault) :=
      joinElems_singleton (hexElem v)
    rw [hone] at hfit' ⊢
    rw [hx]
    exact h.write hfit' false (.inl rfl)
  · rw [readAs_of_ne hx]
    dsimp only
    rw [if_neg hx, findIdx?_starts_le (ne_nil_of_join hx)]
    exact h.arrayInsert hx (numIdx L v) (hexElem v) hfit'

/-! ## Arrays that stay sorted -/

/-- The key has an array of the numbers `N`, in ascending order. -/
def HasSortedNum (st : Sdb × World) (k : CStr) (N : List UInt64) : Prop :=
  ∃ B, sdbGet st.1 st.2 k = readAs B ∧ (nums (stackOf B)).Pairwise (· ≤ ·) ∧
    (nums (stackOf B)).Perm N

/-- The numbers of a key can be sorted, and stay sorted with all that is added to them. -/
structure StaysSortedNum (st : Sdb × World) (k : CStr) : Prop where
  sort : ∀ A, sdbGet st.1 st.2 k = some A →
    (joinElems ((nums (elements A)).map decElem)).length < 0xffffff →
    HasSortedNum (sdbArraySortNum st.1 st.2 k 0) k (nums (elements A))
  add : ∀ A v, sdbGet st.1 st.2 k = readAs A → (nums (stackOf A)).Pairwise (· ≤ ·) →
    (joinElems (stackOf A ++ [hexElem v])).length < 0xffffff →
    HasSortedNum (sdbArrayAddSortedNum st.1 st.2 k v 0).2 k (nums (stackOf A) ++ [v])

theorem Cell.hasSortedNum {st : Sdb × World} {k : CStr} {L : List Elem}
    (h : Cell st k (joinElems L)) (hL : L ≠ [Elem.empty]) (hasc : (nums L).Pairwise (· ≤ ·))
    {N : List UInt64} (hperm : (nums L).Perm N) : HasSortedNum st k N := by
  refine ⟨joinElems L, h.sdbGet, ?_, ?_⟩
  · rwa [stackOf_joinElems hL]
  · rwa [stackOf_joinElems hL]

/-- A printed number is no empty element. -/
theorem ne_of_mem_itoa {L : List Elem} {n : UInt64} {base : Nat}
    {hbase : base = 8 ∨ base = 10 ∨ base = 16} (h : itoaElem n base hbase ∈ L) :
    L ≠ [Elem.empty] := by
  rintro rfl
  exact itoaElem_ne hbase n (List.mem_singleton.mp h)

/-- **Arrays of numbers stay sorted**, under a key in memory that has a value or can get one. -/
theorem arrays_stay_sorted_num {st : Sdb × World} (hm : st.1.Memory) {k : CStr}
    (hkey : sdbGet st.1 st.2 k = none → k.length < 0xff ∧ ¬ TimedOut st.1 st.2 k) :
    StaysSortedNum st k where
  sort A hA hfit := by
    obtain ⟨hcell, hne⟩ := Cell.of_some hm hA
    refine (hcell.arraySortNum hne hfit).hasSortedNum ?_ ?_ ?_
    · obtain ⟨n, N, hN⟩ : ∃ n N, sortNums (nums (elements A)) = n :: N := by
        refine List.exists_cons_of_ne_nil fun hno ↦ elements_ne_nil A ?_
        have hlen := (sortNums_perm (nums (elements A))).length_eq
        rw [hno, nums, List.length_map] at hlen
        exact List.length_eq_zero_iff.mp hlen.symm
      rw [hN]
      exact ne_of_mem_itoa List.mem_cons_self
    · rw [nums_decElem]
      exact sortNums_ascending _
    · rw [nums_decElem]
      exact sortNums_perm _
  add A v hA hasc hfit := by
    have hcell : Cell st k (joinElems (stackOf A)) := cell_of_readable hm hkey hA
    refine (hcell.addSortedNum (stackOf_ne A) v hfit).hasSortedNum ?_
      (ascending_addSortedNum hasc v)
      (addSortedNum_perm _ v)
    obtain ⟨P, S, -, hadd, -, -⟩ := addSortedNum_split (stackOf A) v
    rw [hadd]
    exact ne_of_mem_itoa (List.mem_append_right P List.mem_cons_self)

/-- The array `a,,b` has the numbers 0, 0 and 0, and gets more. -/
theorem memArray_staysSortedNum : StaysSortedNum memArray (CStr.ofBytes [107]) :=
  arrays_stay_sorted_num memory_memArray fun h ↦ absurd h (by decide)

theorem Sdb.Memory.addSortedNum_long {s : Sdb} (h : s.Memory) (w : World) {k : CStr}
    (hk : 0xff ≤ k.length) (v : UInt64) : (sdbArrayAddSortedNum s w k v 0).2 = (s, w) := by
  rw [sdbArrayAddSortedNum, h.constGetLen_long w hk]
  exact congrArg Prod.snd (sdbSet_long w hk s _ 0)

/-- They do not, if a number is added to an unset key that has no value then. -/
theorem StaysSortedNum.not_of_lost {st : Sdb × World} {k : CStr} (hget : sdbGet st.1 st.2 k = none)
    (hlost : let st' := (sdbArrayAddSortedNum st.1 st.2 k 1 0).2
      sdbGet st'.1 st'.2 k = none) : ¬ StaysSortedNum st k := by
  intro h
  obtain ⟨B, hB, -, hperm⟩ := h.add CStr.empty 1 hget List.Pairwise.nil (by decide)
  have hempty : readAs CStr.empty = readAs B := hlost.symm.trans hB
  have hlen := hperm.length_eq
  rw [← readAs_injective hempty] at hlen
  exact absurd hlen (by decide)

/-- No number is added under an unset key that is too long, and one that is added under a key that
has run out of time is not seen. -/
theorem sorted_num_is_lost :
    (sdbNew0.Memory ∧ ¬ StaysSortedNum (sdbNew0, .empty) (letters 255)) ∧
      memStale.1.Memory ∧ ¬ StaysSortedNum memStale (CStr.ofBytes [107]) := by
  have hk : 0xff ≤ (letters 255).length := Nat.le_of_eq (length_letters 255).symm
  have hget : sdbGet sdbNew0 .empty (letters 255) = none := by
    rw [sdbGet, Sdb.Memory.new0.constGetLen_long .empty hk]
    rfl
  refine ⟨⟨Sdb.Memory.new0, StaysSortedNum.not_of_lost hget ?_⟩, memory_memStale,
    StaysSortedNum.not_of_lost (by decide) (by decide)⟩
  dsimp only
  rw [Sdb.Memory.new0.addSortedNum_long .empty hk]
  exact hget

end SdbStore
