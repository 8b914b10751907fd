import SdbStore.Array.NumSets
import SdbStore.Array.SortedNum
import SdbStore.Array.Stacks
import SdbStore.Fmt
import SdbStore.Util
import Mathlib.Logic.Function.Basic

/-!
# A database of lists

The functions of `array.c` can be called on any keys, in any order, with texts and with numbers.
A database is then a map from keys to lists: every run answers as it does on the lists, and leaves
them (`arrays_refine`).

An array with one empty element is an empty one (`fillElems`), and in an empty one an index means
nothing: what is set or inserted at any index is the first element.  `sdb_array_get_num` does not
count from the end for a negative index, as `sdb_array_get` does, and reads the first element.

What the functions that write answer depends on the counter of the key, and is left out.
-/

namespace SdbStore

open Lib

/-! ## More of `array.c` -/

/-- `sdb_alen_ignore_empty`: a loop over the beginnings of the elements behind the leading
commas. -/
def sdbAlenIgnoreEmpty (str : CStr) : Nat :=
  if str = CStr.empty then 0 else
    let ps := starts sdbRs (str.val.dropWhile fun c ↦ c = sdbRs)
    ps.tail.countP (fun p ↦ p.head? ≠ some sdbRs) + if ps.getLast? = some [] then 0 else 1

/-- `sdb_array_length`. -/
def sdbArrayLength (s : Sdb) (w : World) (key : CStr) : Nat × Sdb × World :=
  let r := sdbConstGetLen s w key
  (r.1.value.elim 0 sdbAlenIgnoreEmpty, r.2)

/-- `sdb_array_get_num`: the number, and the counter of its key.  The loop is not entered for a
negative index. -/
def sdbArrayGetNum (s : Sdb) (w : World) (key : CStr) (idx : Int) : (UInt64 × Nat) × Sdb × World :=
  let r := sdbConstGetLen s w key
  let n :=
    match r.1.value with
    | none => 0
    | some str =>
        if str = CStr.empty then 0
        else (aindexof str.val idx.toNat).elim 0 fun p ↦ sdbAtoi (some (str.val.drop p))
  ((n, r.1.cas), r.2)

/-- `sdb_array_set_num`. -/
def sdbArraySetNum (s : Sdb) (w : World) (key : CStr) (idx : Int) (val : UInt64) (cas : Nat) :
    Bool × Sdb × World :=
  sdbArraySet s w key idx (CStr.ofBytes (sdbItoa val sdbNumDefault)) cas

/-- `sdb_array_append_num`. -/
def sdbArrayAppendNum (s : Sdb) (w : World) (key : CStr) (val : UInt64) (cas : Nat) :
    Bool × Sdb × World :=
  sdbArraySetNum s w key (-1) val cas

/-- `sdb_array_push_num`. -/
def sdbArrayPushNum (s : Sdb) (w : World) (key : CStr) (num : UInt64) (cas : Nat) :
    Bool × Sdb × World :=
  sdbArrayPush s w key (CStr.ofBytes (sdbItoa num sdbNumDefault)) cas

/-- `sdb_array_prepend_num`. -/
def sdbArrayPrependNum (s : Sdb) (w : World) (key : CStr) (num : UInt64) (cas : Nat) :
    Bool × Sdb × World :=
  sdbArrayPush s w key (CStr.ofBytes (sdbItoa num sdbNumDefault)) cas

/-- `sdb_array_pop_num`: the number and what becomes of the counter, `UT64_MAX` and `UT32_MAX` for
an array without elements. -/
def sdbArrayPopNum (s : Sdb) (w : World) (key : CStr) : (UInt64 × Nat) × Sdb × World :=
  let r := sdbArrayPop s w key
  match r.1 with
  | none => ((0xffffffffffffffff, 0xffffffff), r.2)
  | some (a, _) => ((sdbAtoi (some a.val), 0), r.2)

/-- `sdb_array_unset`. -/
def sdbArrayUnset (s : Sdb) (w : World) (key : CStr) (idx : Int) (cas : Nat) : Bool × Sdb × World :=
  sdbArraySet s w key idx CStr.empty cas

/-! ## The calls -/

/-- The calls on the array of a key. -/
inductive ArrayCall where
  | size
  | length
  | get (idx : Int)
  | getNum (idx : Int)
  | indexof (v : Elem)
  | contains (v : Elem)
  | containsNum (n : UInt64)
  | set (idx : Int) (v : Elem)
  | setNum (idx : Int) (n : UInt64)
  | insert (idx : Int) (v : Elem)
  | insertNum (idx : Int) (n : UInt64)
  | append (v : Elem)
  | appendNum (n : UInt64)
  | prepend (v : Elem)
  | prependNum (n : UInt64)
  | push (v : Elem)
  | pushNum (n : UInt64)
  | pop
  | popNum
  | add (v : Elem)
  | addNum (n : UInt64)
  | addSortedNum (n : UInt64)
  | remove (v : Elem)
  | removeNum (n : UInt64)
  | delete (idx : Int)
  | unset (idx : Int)
  | sort
  | sortNum
deriving DecidableEq

/-- What a call answers. -/
inductive ArrayAnswer where
  | done
  | yes (b : Bool)
  | count (i : Int)
  | text (o : Option CStr)
  | num (n : UInt64)
deriving DecidableEq

/-- A call on the array of a key, as the functions make it. -/
def ArrayCall.run (k : CStr) (st : Sdb × World) : ArrayCall → ArrayAnswer × Sdb × World
  | .size => ((sdbArraySize st.1 st.2 k).map (fun n : Nat ↦ .count n) id)
  | .length => ((sdbArrayLength st.1 st.2 k).map (fun n : Nat ↦ .count n) id)
  | .get i => ((sdbArrayGet st.1 st.2 k i).map (fun r ↦ .text r.1) id)
  | .getNum i => ((sdbArrayGetNum st.1 st.2 k i).map (fun r ↦ .num r.1) id)
  | .indexof v => ((sdbArrayIndexof st.1 st.2 k v.text).map .count id)
  | .contains v => ((sdbArrayContains st.1 st.2 k v.text).map (fun r ↦ .yes r.1) id)
  | .containsNum n => ((sdbArrayContainsNum st.1 st.2 k n).map (fun r ↦ .yes r.1) id)
  | .set i v => (.done, (sdbArraySet st.1 st.2 k i v.text 0).2)
  | .setNum i n => (.done, (sdbArraySetNum st.1 st.2 k i n 0).2)
  | .insert i v => (.done, (sdbArrayInsert st.1 st.2 k i v.text 0).2)
  | .insertNum i n => (.done, (sdbArrayInsertNum st.1 st.2 k i n 0).2)
  | .append v => (.done, (sdbArrayAppend st.1 st.2 k v.text 0).2)
  | .appendNum n => (.done, (sdbArrayAppendNum st.1 st.2 k n 0).2)
  | .prepend v => (.done, (sdbArrayPrepend st.1 st.2 k v.text 0).2)
  | .prependNum n => (.done, (sdbArrayPrependNum st.1 st.2 k n 0).2)
  | .push v => (.done, (sdbArrayPush st.1 st.2 k v.text 0).2)
  | .pushNum n => (.done, (sdbArrayPushNum st.1 st.2 k n 0).2)
  | .pop => ((sdbArrayPop st.1 st.2 k).map (fun r ↦ .text (r.map Prod.fst)) id)
  | .popNum => ((sdbArrayPopNum st.1 st.2 k).map (fun r ↦ .num r.1) id)
  | .add v => (.done, (sdbArrayAdd st.1 st.2 k v.text 0).2)
  | .addNum n => (.done, (sdbArrayAddNum st.1 st.2 k n 0).2)
  | .addSortedNum n => (.done, (sdbArrayAddSortedNum st.1 st.2 k n 0).2)
  | .remove v => ((sdbArrayRemove st.1 st.2 k v.text 0).map .yes id)
  | .removeNum n => ((sdbArrayRemoveNum st.1 st.2 k n 0).map .yes id)
  | .delete i => ((sdbArrayDelete st.1 st.2 k i 0).map .yes id)
  | .unset i => (.done, (sdbArrayUnset st.1 st.2 k i 0).2)
  | .sort => (.done, sdbArraySort st.1 st.2 k 0)
  | .sortNum => (.done, sdbArraySortNum st.1 st.2 k 0)

/-! ## What the calls are to lists -/

/-- The array of the same string: one empty element is none. -/
def fillElems (L : List Elem) : List Elem := if L = [Elem.empty] then [] else L

/-- The place of an element that is written counts from the first one on. -/
def setElem (L : List Elem) (i : Int) (v : Elem) : List Elem :=
  fillElems (if L = [] then [v] else listSet Elem.empty L i v)

/-- The same for an element that is put in front of another. -/
def insertElem (L : List Elem) (i : Int) (v : Elem) : List Elem :=
  fillElems (if L = [] then [v] else listInsert Elem.empty L i v)

/-- An element that is there is not added. -/
def addElem (L : List Elem) (v : Elem) : List Elem := if v ∈ L then L else fillElems (L ++ [v])

/-- The element that `sdb_array_add_num` adds: the hexadecimal text if it is there or the number is
not small, and the decimal one otherwise. -/
def addedElem (L : List Elem) (n : UInt64) : Elem :=
  if hexElem n ∉ L ∧ n < 256 then decElem n else hexElem n

/-- The index that is deleted, which is the last one for a negative index. -/
def deletedIdx (L : List Elem) (i : Int) : Option Nat :=
  if i < 0 then (if L = [] then none else some (L.length - 1))
  else if i.toNat < L.length then some i.toNat
  else none

theorem deletedIdx_lt {L : List Elem} {i : Int} {j : Nat} (h : deletedIdx L i = some j) :
    j < L.length := by
  rw [deletedIdx] at h
  split at h
  · split at h
    · cases h
    · next hL =>
        cases h
        exact Nat.sub_one_lt (mt List.length_eq_zero_iff.mp hL)
  · split at h
    · next hlt =>
        cases h
        exact hlt
    · cases h

/-- What is left without the element at an index, if there is one. -/
def eraseAt (L : List Elem) : Option Nat → ArrayAnswer × List Elem
  | some i => (.yes true, fillElems (L.eraseIdx i))
  | none => (.yes false, L)

/-- A call on a list. -/
def ArrayCall.apply (L : List Elem) : ArrayCall → ArrayAnswer × List Elem
  | .size => (.count L.length, L)
  | .length => (.count (L.countP (· ≠ Elem.empty) : Nat), L)
  | .get i => (.text ((listGet L i).map Elem.text), L)
  | .getNum i => (.num (L[i.toNat]?.elim 0 Elem.num), L)
  | .indexof v => (.count ((L.idxOf? v).elim (-1) Nat.cast), L)
  | .contains v => (.yes (decide (v ∈ L)), L)
  | .containsNum n => (.yes (decide (hexElem n ∈ L)), L)
  | .set i v => (.done, setElem L i v)
  | .setNum i n => (.done, setElem L i (hexElem n))
  | .insert i v => (.done, insertElem L i v)
  | .insertNum i n => (.done, insertElem L i (hexElem n))
  | .append v => (.done, fillElems (L ++ [v]))
  | .appendNum n => (.done, fillElems (L ++ [hexElem n]))
  | .prepend v | .push v => (.done, fillElems (v :: L))
  | .prependNum n | .pushNum n => (.done, fillElems (hexElem n :: L))
  | .pop => (.text (L.head?.map Elem.text), fillElems L.tail)
  | .popNum => (.num (L.head?.elim 0xffffffffffffffff Elem.num), fillElems L.tail)
  | .add v => (.done, addElem L v)
  | .addNum n => (.done, addElem L (addedElem L n))
  | .addSortedNum n => (.done, SdbStore.addSortedNum L n)
  | .remove v => eraseAt L (L.idxOf? v)
  | .removeNum n => eraseAt L (L.findIdx? fun e ↦ e.num = n)
  | .delete i => eraseAt L (deletedIdx L i)
  | .unset i => (.done, setElem L i Elem.empty)
  | .sort => (.done, sortElems L)
  | .sortNum => (.done, (sortNums (nums L)).map decElem)

@[simp] theorem joinElems_fillElems (L : List Elem) : joinElems (fillElems L) = joinElems L := by
  rw [fillElems]
  split
  · next h =>
      rw [h]
      rfl
  · rfl

theorem fillElems_ne (L : List Elem) : fillElems L ≠ [Elem.empty] := by
  rw [fillElems]
  split
  · exact (List.cons_ne_nil _ _).symm
  · next h => exact h

/-- At the index -1 an element comes behind the others. -/
theorem insertElem_last (L : List Elem) (v : Elem) :
    insertElem L (-1) v = fillElems (L ++ [v]) := by
  rw [insertElem]
  split
  · next hL => rw [hL, List.nil_append]
  · rfl

theorem setElem_last (L : List Elem) (v : Elem) : setElem L (-1) v = fillElems (L ++ [v]) := by
  rw [setElem]
  split
  · next hL => rw [hL, List.nil_append]
  · rfl

theorem listGet_nil {α : Type} (i : Int) : listGet ([] : List α) i = none := by
  rw [listGet]
  split
  · rfl
  · split
    · rfl
    · rfl

/-! ## What is written -/

/-- Nothing is written, or a text under the key. -/
inductive WritesTo (k : CStr) (st : Sdb × World) : Sdb × World → Prop
  | nothing : WritesTo k st st
  | text (y : CStr) (owned : Bool) (cas : Nat) :
      WritesTo k st (sdbSetInternal st.1 st.2 k y owned cas).2

/-- What is under other keys stays. -/
theorem WritesTo.other {k k' x : CStr} {st st' : Sdb × World} (h : WritesTo k st st')
    (hx : Cell st k' x) (hk : k' ≠ k) : Cell st' k' x := by
  cases h with
  | nothing => exact hx
  | text y owned cas =>
      refine Cell.of_read (hx.memory.setInternal st.2 k y owned cas) hx.short ?_ ?_
      · rw [hx.memory.timedOut_setInternal]
        exact hx.live
      · rw [hx.memory.sdbGet_setInternal_ne st.2 hk]
        exact hx.sdbGet

section Writes

variable {st : Sdb × World} {k : CStr} {g : Got} (hget : sdbConstGetLen st.1 st.2 k = (g, st))
include hget

theorem writesTo_insertLast (v : CStr) : WritesTo k st (sdbArrayInsertLast st.1 st.2 k v 0).2 := by
  rw [sdbArrayInsertLast, hget]
  dsimp only
  split
  · exact .text v false 0
  · split
    · exact .text v false 0
    · exact .text _ true 0

theorem writesTo_set (i : Int) (v : CStr) : WritesTo k st (sdbArraySet st.1 st.2 k i v 0).2 := by
  rw [sdbArraySet, hget]
  dsimp only
  split
  · exact .text v false 0
  · split
    · exact .text v false 0
    · split
      · exact writesTo_insertLast hget v
      · split
        · exact writesTo_insertLast hget _
        · split
          · exact .nothing
          · exact .text _ false 0

theorem writesTo_insert (i : Int) (v : CStr) :
    WritesTo k st (sdbArrayInsert st.1 st.2 k i v 0).2 := by
  rw [sdbArrayInsert]
  split
  · exact writesTo_insertLast hget v
  · rw [hget]
    dsimp only
    split
    · exact .text v false 0
    · split
      · exact .text v false 0
      · split
        · exact .text _ true 0
        · split
          · exact .text _ true 0
          · exact writesTo_set hget i v

theorem writesTo_append (v : CStr) : WritesTo k st (sdbArrayAppend st.1 st.2 k v 0).2 := by
  rw [sdbArrayAppend, hget]
  dsimp only
  rw [if_neg fun hno ↦ hno.1 rfl]
  split
  · split
    · exact .text _ true g.cas
    · exact .text v false g.cas
  · exact .text v false g.cas

theorem writesTo_prepend (v : CStr) : WritesTo k st (sdbArrayPrepend st.1 st.2 k v 0).2 := by
  rw [sdbArrayPrepend, hget]
  dsimp only
  rw [if_neg fun hno ↦ hno.1 rfl]
  split
  · split
    · exact .text _ true g.cas
    · exact .text v false g.cas
  · exact .text v false g.cas

theorem writesTo_pop : WritesTo k st (sdbArrayPop st.1 st.2 k).2 := by
  rw [sdbArrayPop, sdbArrayPopHead, hget]
  dsimp only
  split
  · exact .nothing
  · split
    · exact .nothing
    · split
      · exact .text _ false 0
      · exact .text CStr.empty false 0

theorem writesTo_delete (i : Int) : WritesTo k st (sdbArrayDelete st.1 st.2 k i 0).2 := by
  rw [sdbArrayDelete, hget]
  dsimp only
  split
  · exact .nothing
  · split
    · exact .nothing
    · split
      · exact .nothing
      · exact .text _ true 0

theorem writesTo_addSortedNum (n : UInt64) :
    WritesTo k st (sdbArrayAddSortedNum st.1 st.2 k n 0).2 := by
  rw [sdbArrayAddSortedNum, hget]
  dsimp only
  split
  · exact .text _ false 0
  · split
    · exact .text _ false 0
    · exact writesTo_insert hget _ _

theorem writesTo_remove (v : CStr) : WritesTo k st (sdbArrayRemove st.1 st.2 k v 0).2 := by
  rw [sdbArrayRemove, hget]
  dsimp only
  split
  · exact .nothing
  · split
    · exact writesTo_delete hget _
    · exact .nothing

theorem writesTo_removeNum (n : UInt64) : WritesTo k st (sdbArrayRemoveNum st.1 st.2 k n 0).2 := by
  rw [sdbArrayRemoveNum, hget]
  dsimp only
  split
  · exact .nothing
  · split
    · exact writesTo_delete hget _
    · exact .nothing

theorem writesTo_sort : WritesTo k st (sdbArraySort st.1 st.2 k 0) := by
  rw [sdbArraySort, hget]
  dsimp only
  split
  · exact .nothing
  · split
    · exact .nothing
    · exact .text _ true 0

theorem writesTo_sortNum : WritesTo k st (sdbArraySortNum st.1 st.2 k 0) := by
  rw [sdbArraySortNum, hget]
  dsimp only
  split
  · exact .nothing
  · split
    · exact .nothing
    · exact .text _ true 0

end Writes

/-! ## What each call does -/

/-- The key has the string of a list. -/
structure HasList (k : CStr) (st : Sdb × World) (L : List Elem) : Prop where
  cell : Cell st k (joinElems L)
  full : L ≠ [Elem.empty]

theorem Cell.hasList {k : CStr} {st : Sdb × World} {L : List Elem} (h : Cell st k (joinElems L)) :
    HasList k st (fillElems L) where
  cell := by
    rw [joinElems_fillElems]
    exact h
  full := fillElems_ne L

theorem head?_ne_sep {e : Elem} (he : e ≠ Elem.empty) (r : Bytes) :
    (e.bytes ++ r).head? ≠ some sdbRs := by
  intro hno
  have hbytes : e.bytes ≠ [] := mt Elem.bytes_eq_nil.mp he
  rw [List.head?_append_of_ne_nil _ hbytes] at hno
  exact e.sep_notMem (List.mem_of_mem_head? hno)

/-- Of the beginnings of the elements the comma is the first byte for those that are empty, but for
the last one. -/
theorem countP_starts {L : List Elem} (hL : L ≠ []) :
    (starts sdbRs (joinElems L).val).countP (fun p ↦ p.head? ≠ some sdbRs) +
        (if (starts sdbRs (joinElems L).val).getLast? = some [] then 0 else 1) =
      L.countP (· ≠ Elem.empty) + 1 := by
  induction L with
  | nil => exact absurd rfl hL
  | cons e L ih =>
      cases L with
      | nil =>
          have hstart : starts sdbRs (joinElems [e]).val = [e.bytes] := by
            have hnone := behindSep_append e.sep_notMem []
            rw [List.append_nil] at hnone
            rw [val_joinElems, List.map_singleton, joinSep_singleton, starts, hnone]
            rfl
          rw [hstart]
          by_cases he : e = Elem.empty
          · rw [he]
            decide
          · have hne := head?_ne_sep he []
            rw [List.append_nil] at hne
            simp [he, hne, mt Elem.bytes_eq_nil.mp he]
      | cons d L =>
          have hstart : starts sdbRs (joinElems (e :: d :: L)).val =
              (e.bytes ++ led sdbRs ((d :: L).map Elem.bytes)) ::
                starts sdbRs (joinElems (d :: L)).val :=
            starts_cons e.sep_notMem _ _
          have hlast : (starts sdbRs (joinElems (e :: d :: L)).val).getLast? =
              (starts sdbRs (joinElems (d :: L)).val).getLast? := by
            rw [hstart, starts, List.getLast?_cons_cons]
          rw [hlast, hstart, List.countP_cons, List.countP_cons, Nat.add_right_comm,
            ih (List.cons_ne_nil d L), Nat.add_right_comm]
          by_cases he : e = Elem.empty
          · rw [he]
            rfl
          · rw [if_pos (decide_eq_true (head?_ne_sep he _)), if_pos (decide_eq_true he)]

/-- The leading commas are those of empty elements. -/
theorem dropWhile_joinElems (L : List Elem) : (joinElems L).val.dropWhile (fun c ↦ c = sdbRs) =
    (joinElems (L.dropWhile fun e ↦ e = Elem.empty)).val := by
  induction L with
  | nil => rfl
  | cons e L ih =>
      by_cases he : e = Elem.empty
      · have hdrop : (Elem.empty :: L).dropWhile (fun e ↦ decide (e = Elem.empty)) =
            L.dropWhile fun e ↦ decide (e = Elem.empty) :=
              List.dropWhile_cons_of_pos (decide_eq_true rfl)
        rw [he, hdrop, ← ih]
        cases L with
        | nil => rfl
        | cons d L =>
            rw [val_cons_cons]
            exact List.dropWhile_cons_of_pos (decide_eq_true rfl)
      · rw [List.dropWhile_cons_of_neg (by simpa using he)]
        obtain ⟨a, l, hbytes⟩ := List.exists_cons_of_ne_nil (mt Elem.bytes_eq_nil.mp he)
        have ha : a ≠ sdbRs := fun h ↦ e.sep_notMem (by rw [hbytes, h]; exact List.mem_cons_self)
        have hval : ∃ r, (joinElems (e :: L)).val = a :: r := by
          refine ⟨l ++ led sdbRs (L.map Elem.bytes), ?_⟩
          rw [val_joinElems, List.map_cons, joinSep_cons, hbytes, List.cons_append]
        obtain ⟨r, hr⟩ := hval
        rw [hr, List.dropWhile_cons_of_neg (by simpa using ha)]

/-- `sdb_alen_ignore_empty` counts the elements that are not empty. -/
theorem sdbAlenIgnoreEmpty_joinElems (L : List Elem) :
    sdbAlenIgnoreEmpty (joinElems L) = L.countP (· ≠ Elem.empty) := by
  rw [sdbAlenIgnoreEmpty]
  split
  · next h =>
      rcases joinElems_eq_empty.mp h with rfl | rfl
      · rfl
      · rfl
  · have hcount : L.countP (· ≠ Elem.empty) =
        (L.dropWhile fun e ↦ e = Elem.empty).countP (· ≠ Elem.empty) := by
      conv_lhs => rw [← List.takeWhile_append_dropWhile (p := fun e ↦ decide (e = Elem.empty))
        (l := L)]
      rw [List.countP_append, Nat.add_eq_right, List.countP_eq_zero]
      intro e he
      have hempty := List.mem_takeWhile_imp he
      simpa using hempty
    rw [hcount, dropWhile_joinElems]
    cases hM : L.dropWhile fun e ↦ e = Elem.empty with
    | nil => rfl
    | cons e M =>
        have he : e ≠ Elem.empty := by
          have hhead := List.head?_dropWhile_not (fun e ↦ decide (e = Elem.empty)) L
          rw [hM] at hhead
          simpa using hhead
        have hfirst : (joinElems (e :: M)).val.head? ≠ some sdbRs := by
          rw [val_joinElems, List.map_cons, joinSep_cons]
          exact head?_ne_sep he _
        have hall := countP_starts (List.cons_ne_nil e M)
        rw [starts, List.countP_cons, if_pos (decide_eq_true hfirst)] at hall
        rw [Nat.add_right_comm] at hall
        exact Nat.succ.inj hall

/-- The two counts are those of `util.c`, where they are an `int`.  What is in a database is
shorter. -/
theorem util_counts {s : CStr} (h : s.length < 2147483647) :
    Util.sdbAlen (some s) = some (sdbAlen s) ∧
      Util.sdbAlenIgnoreEmpty (some s) = some (sdbAlenIgnoreEmpty s) := by
  have hcount : Util.elementCount (some s) = sdbAlen s := by
    rw [Util.elementCount]
    split
    · next hempty =>
        rw [hempty]
        rfl
    · next hempty =>
        have halen := sdbAlen_joinElems (L := elements s) (by rwa [joinElems_elements])
        rw [joinElems_elements] at halen
        exact halen.symm
  have hnonEmpty : Util.nonEmptyCount (some s) = sdbAlenIgnoreEmpty s := by
    have halen := sdbAlenIgnoreEmpty_joinElems (elements s)
    rw [joinElems_elements, List.countP_eq_length_filter] at halen
    exact halen.symm
  have hle : sdbAlen s ≤ 2147483647 := by
    have hcommas : s.val.count sdbRs ≤ s.length := List.count_le_length
    rw [sdbAlen]
    split
    · exact Nat.zero_le _
    · omega
  have hle' : sdbAlenIgnoreEmpty s ≤ 2147483647 := by
    rw [← hnonEmpty]
    exact Nat.le_trans (Util.nonEmptyCount_le (some s)) (hcount ▸ hle)
  rw [Util.sdbAlen_eq, Util.sdbAlenIgnoreEmpty_eq, hcount, hnonEmpty]
  exact ⟨checkedInt_of_le hle, checkedInt_of_le hle'⟩

namespace HasList

variable {k : CStr} {st : Sdb × World} {L : List Elem} (h : HasList k st L)
include h

theorem join_ne (hL : L ≠ []) : joinElems L ≠ CStr.empty := by
  intro hno
  rcases joinElems_eq_empty.mp hno with hno | hno
  · exact hL hno
  · exact h.full hno

theorem get : ∃ g, sdbConstGetLen st.1 st.2 k = (g, st) := by
  obtain ⟨c, hget, -⟩ := h.cell.get
  exact ⟨_, hget⟩

/-- The first element of an empty array is stored as the array. -/
theorem first {v : Elem} (hfit : (joinElems (fillElems [v])).length < 0xffffff) {cas : Nat}
    (hcas : cas = 0 ∨ ∃ kv, sdbHtFindKvp st.1 k = some kv ∧ kv.cas = cas) :
    HasList k (sdbSet st.1 st.2 k v.text cas).2 (fillElems [v]) := by
  rw [joinElems_fillElems, joinElems_singleton] at hfit
  refine Cell.hasList ?_
  rw [joinElems_singleton]
  exact h.cell.write hfit false hcas

/-- In an empty array nothing is found. -/
theorem get_nil (hL : L = []) : ∃ c, sdbConstGetLen st.1 st.2 k = (⟨none, 0, c⟩, st) ∧
    (c = 0 ∨ ∃ kv, sdbHtFindKvp st.1 k = some kv ∧ kv.cas = c) := by
  obtain ⟨c, hget, hc⟩ := h.cell.get
  rw [hL] at hget
  exact ⟨c, hget, hc⟩

theorem set {i : Int} {v : Elem} (hfit : (joinElems (setElem L i v)).length < 0xffffff) :
    HasList k (sdbArraySet st.1 st.2 k i v.text 0).2 (setElem L i v) := by
  by_cases hL : L = []
  · obtain ⟨c, hget, -⟩ := h.get_nil hL
    rw [setElem, if_pos hL] at hfit ⊢
    rw [sdbArraySet, hget]
    exact h.first hfit (.inl rfl)
  · rw [setElem, if_neg hL] at hfit ⊢
    rw [joinElems_fillElems] at hfit
    exact (h.cell.arraySet (h.join_ne hL) i v hfit).hasList

theorem insert {i : Int} {v : Elem} (hfit : (joinElems (insertElem L i v)).length < 0xffffff) :
    HasList k (sdbArrayInsert st.1 st.2 k i v.text 0).2 (insertElem L i v) := by
  by_cases hL : L = []
  · obtain ⟨c, hget, -⟩ := h.get_nil hL
    rw [insertElem, if_pos hL] at hfit ⊢
    have hrun : (sdbArrayInsert st.1 st.2 k i v.text 0).2 = (sdbSet st.1 st.2 k v.text 0).2 := by
      rw [sdbArrayInsert, sdbArrayInsertLast, hget]
      split
      · rfl
      · rfl
    rw [hrun]
    exact h.first hfit (.inl rfl)
  · rw [insertElem, if_neg hL] at hfit ⊢
    rw [joinElems_fillElems] at hfit
    exact (h.cell.arrayInsert (h.join_ne hL) i v hfit).hasList

theorem append {v : Elem} (hfit : (joinElems (fillElems (L ++ [v]))).length < 0xffffff) :
    HasList k (sdbArrayAppend st.1 st.2 k v.text 0).2 (fillElems (L ++ [v])) := by
  by_cases hL : L = []
  · obtain ⟨c, hget, hc⟩ := h.get_nil hL
    rw [hL, List.nil_append] at hfit ⊢
    rw [sdbArrayAppend, hget]
    exact h.first hfit hc
  · have hne := h.join_ne hL
    obtain ⟨c, hget, hc⟩ := h.cell.get
    rw [readAs_of_ne hne] at hget
    rw [joinElems_fillElems, ← joined_elem hne] at hfit
    have hpos : (joinElems L).length > 0 := Nat.pos_of_ne_zero (mt CStr.length_eq_zero.mp hne)
    have hstr : CStr.ofBytes ((getBlock st.1 k (joinElems L)).take (joinElems L).length ++
        sdbRs :: v.text.bytesZ) = joined (joinElems L) v.text := by
      have hzero : 0 ∉ (joinElems L).val ++ sdbRs :: v.text.val := by
        rw [List.mem_append, List.mem_cons]
        rintro (hno | hno | hno)
        · exact (joinElems L).property hno
        · exact absurd hno (by decide)
        · exact v.text.property hno
      rw [(h.cell.located hne).take (.inl rfl), take_bytesZ_length, joined,
        ← CStr.ofBytes_append_zero hzero [], List.append_assoc]
      rfl
    rw [sdbArrayAppend, hget]
    dsimp only
    rw [if_neg (fun hno ↦ hno.1 rfl), if_pos ⟨hne, hpos⟩, hstr]
    refine Cell.hasList ?_
    rw [← joined_elem hne]
    exact h.cell.write hfit true hc

theorem prepend {v : Elem} (hfit : (joinElems (fillElems (v :: L))).length < 0xffffff) :
    HasList k (sdbArrayPrepend st.1 st.2 k v.text 0).2 (fillElems (v :: L)) := by
  rw [joinElems_fillElems] at hfit
  refine Cell.hasList (h.cell.arrayPush (fun hno ↦ ?_) hfit)
  by_contra hL
  exact h.join_ne hL hno

theorem pop : (sdbArrayPop st.1 st.2 k).1.map Prod.fst = L.head?.map Elem.text ∧
    HasList k (sdbArrayPop st.1 st.2 k).2 (fillElems L.tail) := by
  cases L with
  | nil =>
      rw [h.cell.arrayPop_empty]
      exact ⟨rfl, h⟩
  | cons e L =>
      obtain ⟨hret, hcell⟩ := h.cell.arrayPop (h.join_ne (List.cons_ne_nil e L))
      exact ⟨hret, hcell.hasList⟩

/-- What is found is deleted. -/
theorem deleteAt {i : Int} {j : Nat}
    (hj : (if i < 0 then L.length - 1 else i.toNat) = j) (hlt : j < L.length) :
    (sdbArrayDelete st.1 st.2 k i 0).1 = true ∧
      HasList k (sdbArrayDelete st.1 st.2 k i 0).2 (fillElems (L.eraseIdx j)) := by
  have hL : joinElems L ≠ CStr.empty := h.join_ne (List.ne_nil_of_length_pos (by omega))
  obtain ⟨hret, hcell⟩ := h.cell.delete_at hL (i := i) (by rw [sdbAlen_joinElems hL, hj]) hlt
  exact ⟨hret, hcell.hasList⟩

/-! ### Reading -/

theorem size : sdbArraySize st.1 st.2 k = (L.length, st) := by
  by_cases hL : L = []
  · obtain ⟨c, hget, -⟩ := h.get_nil hL
    rw [sdbArraySize, hget, hL]
    rfl
  · exact h.cell.arraySize (h.join_ne hL)

theorem length : sdbArrayLength st.1 st.2 k = (L.countP (· ≠ Elem.empty), st) := by
  by_cases hL : L = []
  · obtain ⟨c, hget, -⟩ := h.get_nil hL
    rw [sdbArrayLength, hget, hL]
    rfl
  · obtain ⟨c, hget⟩ := h.cell.getElems (h.join_ne hL)
    rw [sdbArrayLength, hget]
    exact congrArg (·, st) (sdbAlenIgnoreEmpty_joinElems L)

theorem getAt (i : Int) :
    ∃ c, sdbArrayGet st.1 st.2 k i = (((listGet L i).map Elem.text, c), st) := by
  by_cases hL : L = []
  · obtain ⟨c, hget, -⟩ := h.get_nil hL
    refine ⟨c, ?_⟩
    rw [sdbArrayGet, hget, hL, listGet_nil]
    rfl
  · exact h.cell.arrayGet (h.join_ne hL) i

/-- `sdb_atoi` stops at the comma behind the element. -/
theorem getNum (i : Int) :
    ∃ c, sdbArrayGetNum st.1 st.2 k i = ((L[i.toNat]?.elim 0 Elem.num, c), st) := by
  by_cases hL : L = []
  · obtain ⟨c, hget, -⟩ := h.get_nil hL
    refine ⟨c, ?_⟩
    rw [sdbArrayGetNum, hget, hL]
    rfl
  · have hne := h.join_ne hL
    obtain ⟨c, hget⟩ := h.cell.getElems hne
    refine ⟨c, ?_⟩
    rw [sdbArrayGetNum, hget]
    dsimp only
    rw [if_neg hne]
    congr 2
    by_cases hi : i.toNat < L.length
    · obtain ⟨P, e, S, rfl, hP⟩ := exists_split hi
      rw [← hP, aindexof_split, Option.elim_some, drop_split, sdbAtoi_field,
        List.getElem?_append_right (Nat.le_refl _), Nat.sub_self]
      rfl
    · rw [aindexof_ge hL (Nat.le_of_not_lt hi), List.getElem?_eq_none (Nat.le_of_not_lt hi)]
      rfl

theorem contains (v : Elem) :
    ∃ c, sdbArrayContains st.1 st.2 k v.text = ((decide (v ∈ L), c), st) := by
  by_cases hL : L = []
  · obtain ⟨c, hget, -⟩ := h.get_nil hL
    refine ⟨c, ?_⟩
    rw [sdbArrayContains, hget, hL]
    rfl
  · have hne := h.join_ne hL
    obtain ⟨c, hget⟩ := h.cell.getElems hne
    refine ⟨c, ?_⟩
    rw [sdbArrayContains, hget]
    dsimp only
    rw [if_neg hne, any_starts_eq hL]

theorem indexof (v : Elem) :
    sdbArrayIndexof st.1 st.2 k v.text = ((L.idxOf? v).elim (-1) Nat.cast, st) := by
  by_cases hL : L = []
  · obtain ⟨c, hget, -⟩ := h.get_nil hL
    rw [sdbArrayIndexof, hget, hL]
    rfl
  · obtain ⟨c, hget⟩ := h.cell.getElems (h.join_ne hL)
    rw [sdbArrayIndexof, hget]
    dsimp only
    rw [findIdx?_starts_eq hL]
    cases L.idxOf? v with
    | none => rfl
    | some i => rfl

/-! ### Adding, deleting and sorting -/

theorem popNum : (sdbArrayPopNum st.1 st.2 k).1.1 = L.head?.elim 0xffffffffffffffff Elem.num ∧
    (sdbArrayPopNum st.1 st.2 k).2 = (sdbArrayPop st.1 st.2 k).2 := by
  have hret := h.pop.1
  rw [sdbArrayPopNum]
  cases hr : (sdbArrayPop st.1 st.2 k).1 with
  | none =>
      rw [hr] at hret
      cases L with
      | nil => exact ⟨rfl, rfl⟩
      | cons e L => cases hret
  | some r =>
      rw [hr] at hret
      cases L with
      | nil => cases hret
      | cons e L =>
          have htext : r.1 = e.text := Option.some.inj hret
          refine ⟨?_, rfl⟩
          dsimp only
          rw [htext]
          rfl

theorem add {v : Elem} (hfit : (joinElems (addElem L v)).length < 0xffffff) :
    HasList k (sdbArrayAdd st.1 st.2 k v.text 0).2 (addElem L v) := by
  obtain ⟨c, hcont⟩ := h.contains v
  rw [sdbArrayAdd, hcont]
  dsimp only
  rw [addElem] at hfit ⊢
  by_cases hv : v ∈ L
  · rw [if_pos hv, if_pos (decide_eq_true hv)]
    exact h
  · rw [if_neg hv, ← insertElem_last] at hfit ⊢
    rw [if_neg fun hno ↦ hv (of_decide_eq_true hno)]
    exact h.insert hfit

theorem writesTo_add {g : Got} (hget : sdbConstGetLen st.1 st.2 k = (g, st)) (v : Elem) :
    WritesTo k st (sdbArrayAdd st.1 st.2 k v.text 0).2 := by
  obtain ⟨c, hcont⟩ := h.contains v
  rw [sdbArrayAdd, hcont]
  dsimp only
  split
  · exact .nothing
  · exact writesTo_insert hget (-1) v.text

theorem run_addNum (n : UInt64) : sdbArrayAddNum st.1 st.2 k n 0 =
    sdbArrayAdd st.1 st.2 k (addedElem L n).text 0 := by
  obtain ⟨c, hcont⟩ := h.contains (hexElem n)
  have hhex : (hexElem n).text = CStr.ofBytes (sdbItoa n sdbNumDefault) := rfl
  rw [hhex] at hcont
  rw [sdbArrayAddNum, hcont, addedElem]
  dsimp only
  congr 1
  by_cases hnew : hexElem n ∉ L ∧ n < 256
  · rw [if_pos hnew, if_pos ⟨by simpa using hnew.1, hnew.2⟩]
    rfl
  · rw [if_neg hnew, if_neg (by simpa using hnew)]
    rfl

theorem addSortedNum {n : UInt64}
    (hfit : (joinElems (SdbStore.addSortedNum L n)).length < 0xffffff) :
    HasList k (sdbArrayAddSortedNum st.1 st.2 k n 0).2 (SdbStore.addSortedNum L n) := by
  obtain ⟨P, S, hL, hadd, -, -⟩ := addSortedNum_split L n
  refine ⟨h.cell.addSortedNum h.full n ?_, ?_⟩
  · rw [hadd, length_joinElems_perm (List.perm_middle.trans (List.perm_append_singleton _ _).symm),
      ← hL]
      at hfit
    exact hfit
  · intro hno
    have hmem : hexElem n ∈ [Elem.empty] := by
      rw [← hno, hadd]
      exact List.mem_append_right P List.mem_cons_self
    exact itoaElem_ne _ n (List.mem_singleton.mp hmem)

/-- What is left after a call that deletes what it has found. -/
theorem erase {o : Option Nat} (ho : ∀ j, o = some j → j < L.length) {r : Bool × Sdb × World}
    (hr : r = o.elim (false, st) fun j ↦ sdbArrayDelete st.1 st.2 k j 0) :
    .yes r.1 = (eraseAt L o).1 ∧ HasList k r.2 (eraseAt L o).2 := by
  rw [hr]
  cases o with
  | none => exact ⟨rfl, h⟩
  | some j =>
      obtain ⟨hret, hleft⟩ := h.deleteAt (i := j) (j := j) (if_neg (by omega)) (ho j rfl)
      exact ⟨congrArg ArrayAnswer.yes hret, hleft⟩

theorem run_remove (v : Elem) : sdbArrayRemove st.1 st.2 k v.text 0 =
    (L.idxOf? v).elim (false, st) fun j ↦ sdbArrayDelete st.1 st.2 k j 0 := by
  by_cases hL : L = []
  · obtain ⟨c, hget, -⟩ := h.get_nil hL
    rw [sdbArrayRemove, hget, hL]
    rfl
  · obtain ⟨c, hget⟩ := h.cell.getElems (h.join_ne hL)
    rw [sdbArrayRemove, hget]
    dsimp only
    rw [findIdx?_starts_eq hL]
    cases L.idxOf? v with
    | none => rfl
    | some j => rfl

theorem run_removeNum (n : UInt64) : sdbArrayRemoveNum st.1 st.2 k n 0 =
    (L.findIdx? fun e ↦ e.num = n).elim (false, st) fun j ↦ sdbArrayDelete st.1 st.2 k j 0 := by
  by_cases hL : L = []
  · obtain ⟨c, hget, -⟩ := h.get_nil hL
    rw [sdbArrayRemoveNum, hget, hL]
    rfl
  · obtain ⟨c, hget⟩ := h.cell.getElems (h.join_ne hL)
    have hfind : ((starts sdbRs (joinElems L).val).findIdx? fun p ↦ sdbAtoi (some p) = n) =
        L.findIdx? fun e ↦ e.num = n := by
      have hfield : ∀ e M, sdbRs ∉ e → (fun p : Bytes ↦ decide (sdbAtoi (some p) = n))
          (e ++ led sdbRs M) = decide (sdbAtoi (some e) = n) := fun e M _ ↦ by
        dsimp only
        rw [sdbAtoi_field]
      rw [val_joinElems, findIdx?_starts hfield
        (map_bytes_ne_nil hL) fun _ hx ↦ sep_notMem_of_mem hx, List.findIdx?_map]
      rfl
    rw [sdbArrayRemoveNum, hget]
    dsimp only
    rw [hfind]
    cases L.findIdx? fun e ↦ e.num = n with
    | none => rfl
    | some j => rfl

/-- The index that is deleted, counted from the first element on. -/
theorem run_delete (i : Int) : sdbArrayDelete st.1 st.2 k i 0 =
    (deletedIdx L i).elim (false, st) fun j ↦ sdbArrayDelete st.1 st.2 k j 0 := by
  by_cases hL : L = []
  · obtain ⟨c, hget, -⟩ := h.get_nil hL
    have hrun : ∀ i, sdbArrayDelete st.1 st.2 k i 0 = (false, st) := fun i ↦ by
      rw [sdbArrayDelete, hget]
    have hnone : deletedIdx L i = none := by
      cases hj : deletedIdx L i with
      | none => rfl
      | some j =>
          have hlt := deletedIdx_lt hj
          rw [hL] at hlt
          exact absurd hlt (Nat.not_lt_zero j)
    rw [hrun, hnone]
    rfl
  · have hne := h.join_ne hL
    rw [deletedIdx]
    by_cases hneg : i < 0
    · obtain ⟨c, hget⟩ := h.cell.getElems hne
      rw [if_pos hneg, if_neg hL, Option.elim_some, sdbArrayDelete, sdbArrayDelete, hget]
      dsimp only
      rw [if_neg hne, if_neg hne, if_pos hneg, sdbAlen_joinElems hne, if_neg (by omega),
        Int.toNat_natCast]
    · rw [if_neg hneg]
      by_cases hlt : i.toNat < L.length
      · rw [if_pos hlt, Option.elim_some, Int.toNat_of_nonneg (Int.not_lt.mp hneg)]
      · rw [if_neg hlt]
        refine h.cell.arrayDelete_behind hne ?_
        rw [listDelete, if_neg hneg, if_neg (by omega)]

theorem sort : HasList k (sdbArraySort st.1 st.2 k 0) (sortElems L) := by
  by_cases hL : L = []
  · obtain ⟨c, hget, -⟩ := h.get_nil hL
    have hrun : sdbArraySort st.1 st.2 k 0 = st := by rw [sdbArraySort, hget]
    rw [hrun]
    have hself := h
    rw [hL] at hself ⊢
    exact hself
  · have hcell := h.cell.arraySort (h.join_ne hL)
    rw [elements_joinElems hL] at hcell
    refine ⟨hcell, fun hno ↦ h.full ?_⟩
    have hperm := sortElems_perm L
    rw [hno] at hperm
    exact hperm.symm.eq_singleton

theorem sortNum (hfit : (joinElems ((sortNums (nums L)).map decElem)).length < 0xffffff) :
    HasList k (sdbArraySortNum st.1 st.2 k 0) ((sortNums (nums L)).map decElem) := by
  by_cases hL : L = []
  · obtain ⟨c, hget, -⟩ := h.get_nil hL
    have hrun : sdbArraySortNum st.1 st.2 k 0 = st := by rw [sdbArraySortNum, hget]
    rw [hrun]
    have hself := h
    rw [hL] at hself ⊢
    exact hself
  · rw [length_joinElems_perm ((sortNums_perm (nums L)).map decElem)] at hfit
    have hcell := h.cell.arraySortNum (h.join_ne hL) (by rw [elements_joinElems hL]; exact hfit)
    rw [elements_joinElems hL] at hcell
    refine ⟨hcell, fun hno ↦ ?_⟩
    have hmem : Elem.empty ∈ (sortNums (nums L)).map decElem := by
      rw [hno]
      exact List.mem_cons_self
    obtain ⟨n, -, hn⟩ := List.mem_map.mp hmem
    exact itoaElem_ne _ n hn

end HasList

/-! ## Runs -/

/-- What a call writes is written under its key. -/
theorem ArrayCall.writesTo {k : CStr} {st : Sdb × World} {L : List Elem} (h : HasList k st L)
    (c : ArrayCall) : WritesTo k st (c.run k st).2 := by
  obtain ⟨g, hget⟩ := h.get
  have hnothing : ∀ {r : Sdb × World}, r = st → WritesTo k st r := fun hr ↦ hr ▸ .nothing
  cases c with
  | size => exact hnothing (congrArg Prod.snd h.size)
  | length => exact hnothing (congrArg Prod.snd h.length)
  | get i =>
      obtain ⟨c, hc⟩ := h.getAt i
      exact hnothing (congrArg Prod.snd hc)
  | getNum i =>
      obtain ⟨c, hc⟩ := h.getNum i
      exact hnothing (congrArg Prod.snd hc)
  | indexof v => exact hnothing (congrArg Prod.snd (h.indexof v))
  | contains v =>
      obtain ⟨c, hc⟩ := h.contains v
      exact hnothing (congrArg Prod.snd hc)
  | containsNum n =>
      obtain ⟨c, hc⟩ := h.contains (hexElem n)
      exact hnothing (congrArg Prod.snd hc)
  | set i v => exact writesTo_set hget i v.text
  | setNum i n => exact writesTo_set hget i _
  | insert i v => exact writesTo_insert hget i v.text
  | insertNum i n => exact writesTo_insert hget i _
  | append v => exact writesTo_append hget v.text
  | appendNum n => exact writesTo_set hget (-1) _
  | prepend v => exact writesTo_prepend hget v.text
  | prependNum n => exact writesTo_prepend hget _
  | push v => exact writesTo_prepend hget v.text
  | pushNum n => exact writesTo_prepend hget _
  | pop => exact writesTo_pop hget
  | popNum =>
      have hpop := writesTo_pop hget
      rw [← h.popNum.2] at hpop
      exact hpop
  | add v => exact h.writesTo_add hget v
  | addNum n =>
      have hadd := h.writesTo_add hget (addedElem L n)
      rw [← h.run_addNum] at hadd
      exact hadd
  | addSortedNum n => exact writesTo_addSortedNum hget n
  | remove v => exact writesTo_remove hget v.text
  | removeNum n => exact writesTo_removeNum hget n
  | delete i => exact writesTo_delete hget i
  | unset i => exact writesTo_set hget i _
  | sort => exact writesTo_sort hget
  | sortNum => exact writesTo_sortNum hget

/-- **One call** answers as it does on the list, and leaves the list. -/
theorem HasList.call {k : CStr} {st : Sdb × World} {L : List Elem} (h : HasList k st L)
    {c : ArrayCall} (hfit : (joinElems (c.apply L).2).length < 0xffffff) :
    (c.run k st).1 = (c.apply L).1 ∧ HasList k (c.run k st).2 (c.apply L).2 := by
  obtain ⟨g, hget⟩ := h.get
  have hread : ∀ {a : ArrayAnswer} {r : ArrayAnswer × Sdb × World}, r = (a, st) → r.1 = a ∧
      HasList k r.2 L := by
    intro a r hr
    rw [hr]
    exact ⟨rfl, h⟩
  cases c with
  | size => exact hread (congrArg (Prod.map (fun n : Nat ↦ ArrayAnswer.count n) id) h.size)
  | length => exact hread (congrArg (Prod.map (fun n : Nat ↦ ArrayAnswer.count n) id) h.length)
  | get i =>
      obtain ⟨c, hc⟩ := h.getAt i
      exact hread (congrArg (Prod.map (fun r : Option CStr × Nat ↦ ArrayAnswer.text r.1) id) hc)
  | getNum i =>
      obtain ⟨c, hc⟩ := h.getNum i
      exact hread (congrArg (Prod.map (fun r : UInt64 × Nat ↦ ArrayAnswer.num r.1) id) hc)
  | indexof v => exact hread (congrArg (Prod.map ArrayAnswer.count id) (h.indexof v))
  | contains v =>
      obtain ⟨c, hc⟩ := h.contains v
      exact hread (congrArg (Prod.map (fun r : Bool × Nat ↦ ArrayAnswer.yes r.1) id) hc)
  | containsNum n =>
      obtain ⟨c, hc⟩ := h.contains (hexElem n)
      exact hread (congrArg (Prod.map (fun r : Bool × Nat ↦ ArrayAnswer.yes r.1) id) hc)
  | set i v => exact ⟨rfl, h.set hfit⟩
  | setNum i n => exact ⟨rfl, h.set (v := hexElem n) hfit⟩
  | insert i v => exact ⟨rfl, h.insert hfit⟩
  | insertNum i n => exact ⟨rfl, h.insert (v := hexElem n) hfit⟩
  | append v => exact ⟨rfl, h.append hfit⟩
  | appendNum n =>
      refine ⟨rfl, ?_⟩
      rw [ArrayCall.apply, ← setElem_last] at hfit ⊢
      exact h.set (v := hexElem n) hfit
  | prepend v => exact ⟨rfl, h.prepend hfit⟩
  | prependNum n => exact ⟨rfl, h.prepend (v := hexElem n) hfit⟩
  | push v => exact ⟨rfl, h.prepend hfit⟩
  | pushNum n => exact ⟨rfl, h.prepend (v := hexElem n) hfit⟩
  | pop => exact ⟨congrArg ArrayAnswer.text h.pop.1, h.pop.2⟩
  | popNum =>
      refine ⟨congrArg ArrayAnswer.num h.popNum.1, ?_⟩
      have hleft := h.pop.2
      rw [← h.popNum.2] at hleft
      exact hleft
  | add v => exact ⟨rfl, h.add hfit⟩
  | addNum n =>
      refine ⟨rfl, ?_⟩
      have hadd := h.add hfit
      rw [← h.run_addNum] at hadd
      exact hadd
  | addSortedNum n => exact ⟨rfl, h.addSortedNum hfit⟩
  | remove v => exact h.erase (fun j hj ↦ (List.idxOf?_eq_some_iff.mp hj).1) (h.run_remove v)
  | removeNum n =>
      exact h.erase (fun j hj ↦ (List.findIdx?_eq_some_iff_getElem.mp hj).1) (h.run_removeNum n)
  | delete i => exact h.erase (fun j hj ↦ deletedIdx_lt hj) (h.run_delete i)
  | unset i => exact ⟨rfl, h.set (v := Elem.empty) hfit⟩
  | sort => exact ⟨rfl, h.sort⟩
  | sortNum => exact ⟨rfl, h.sortNum hfit⟩

/-- A call on the array of any key. -/
def arrayCall (st : Sdb × World) (op : CStr × ArrayCall) : ArrayAnswer × Sdb × World :=
  op.2.run op.1 st

/-- A call on one of the lists. -/
def listsCall (f : CStr → List Elem) (op : CStr × ArrayCall) : ArrayAnswer × (CStr → List Elem) :=
  let r := op.2.apply (f op.1)
  (r.1, Function.update f op.1 r.2)

/-- The list that a key reads as. -/
def arrayOf (st : Sdb × World) (k : CStr) : List Elem := (sdbGet st.1 st.2 k).elim [] elements

theorem HasList.arrayOf_eq {k : CStr} {st : Sdb × World} {L : List Elem} (h : HasList k st L) :
    arrayOf st k = L := by
  rw [arrayOf, h.cell.sdbGet]
  by_cases hL : L = []
  · rw [hL]
    rfl
  · rw [readAs_of_ne (h.join_ne hL)]
    exact elements_joinElems hL

/-- A key that can be written and read has a list. -/
theorem hasList_arrayOf {st : Sdb × World} (hm : st.1.Memory) {k : CStr} (hk : k.length < 0xff)
    (hlive : ¬ TimedOut st.1 st.2 k) : HasList k st (arrayOf st k) := by
  rw [arrayOf]
  cases hget : sdbGet st.1 st.2 k with
  | none => exact ⟨Cell.of_read hm hk hlive hget, (List.cons_ne_nil _ _).symm⟩
  | some A =>
      obtain ⟨hcell, hne⟩ := Cell.of_some hm hget
      refine ⟨(joinElems_elements A).symm ▸ hcell, fun hno ↦ hne ?_⟩
      rw [← joinElems_elements A]
      exact joinElems_eq_empty.mpr (.inr hno)

/-- A call changes the list of its key, and no other one. -/
theorem arrayCall_simulates (live : CStr → Prop) :
    Simulates (fun st f ↦ ∀ k, live k → HasList k st (f k))
      (fun _ f op ↦ live op.1 ∧ (joinElems ((listsCall f op).2 op.1)).length < 0xffffff)
      arrayCall listsCall := by
  rintro st f ⟨k, c⟩ h ⟨hk, hfit⟩
  rw [listsCall] at hfit
  dsimp only at hfit hk
  rw [Function.update_self] at hfit
  obtain ⟨hres, hlist⟩ := (h k hk).call hfit
  refine ⟨hres, fun k' hk' ↦ ?_⟩
  rw [listsCall]
  dsimp only
  by_cases hkk : k' = k
  · rw [hkk, Function.update_self]
    exact hlist
  · rw [Function.update_of_ne hkk]
    exact ⟨(c.writesTo (h k hk)).other (h k' hk').cell hkk, (h k' hk').full⟩

end SdbStore
