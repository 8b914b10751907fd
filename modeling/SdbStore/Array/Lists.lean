import SdbStore.Array.Elem

/-!
# Arrays are lists

The functions of `array.c` with an index walk over the commas of the string, and have cases of
their own for the first and the last element, for negative indices and for those behind the end.
For the elements they are one list: `arrays_are_lists`.
-/

namespace SdbStore

open Lib

/-! ## More of `array.c` -/

/-- `sdb_array_size`. -/
def sdbArraySize (s : Sdb) (w : World) (key : CStr) : Nat × Sdb × World :=
  let r := sdbConstGetLen s w key
  (r.1.value.elim 0 sdbAlen, r.2)

/-- The copy that `sdb_array_get` makes of the element at a pointer. -/
def arrayElem (p : Bytes) : CStr :=
  match p.idxOf? sdbRs with
  | none => CStr.ofBytes p
  | some len => CStr.ofBytes (p.take len)

/-- `sdb_array_get`: the element, and the counter of its key.  Its loop is that of `Aindexof`. -/
def sdbArrayGet (s : Sdb) (w : World) (key : CStr) (idx : Int) :
    (Option CStr × Nat) × Sdb × World :=
  let r := sdbConstGetLen s w key
  let o :=
    match r.1.value with
    | none => none
    | some str =>
        if str = CStr.empty then none
        else
          let alen : Int := sdbAlen str
          if idx < 0 ∧ -idx > alen then none
          else
            let idx := if idx < 0 then idx + alen else idx
            (aindexof str.val idx.toNat).map fun p ↦ arrayElem (str.val.drop p)
  ((o, r.1.cas), r.2)

/-- What `sdb_array_delete` makes of a string, for the element at `p`. -/
def arrayDeleteStr (str : Bytes) (p : Nat) : Bytes :=
  match (str.drop p).idxOf? sdbRs with
  | some n => str.take p ++ str.drop (p + n + 1)
  | none => str.take (p - 1)

/-- `sdb_array_delete`. -/
def sdbArrayDelete (s : Sdb) (w : World) (key : CStr) (idx : Int) (cas : Nat) :
    Bool × Sdb × World :=
  let r := sdbConstGetLen s w key
  match r.1.value with
  | none => (false, r.2)
  | some str =>
      if str = CStr.empty then (false, r.2)
      else
        let idx := if idx < 0 then sdbAlen str - 1 else idx.toNat
        match aindexof str.val idx with
        | none => (false, r.2)
        | some p =>
            (true, (sdbSetOwned r.2.1 r.2.2 key (CStr.ofBytes (arrayDeleteStr str.val p)) cas).2)

/-! ## Lists with integers for indices -/

section List

variable {α : Type}

/-- The element at an index; a negative one counts from the end. -/
def listGet (L : List α) (i : Int) : Option α :=
  if 0 ≤ i then L[i.toNat]?
  else if -(L.length : Int) ≤ i then L[(L.length + i).toNat]?
  else none

/-- Another element at an index.  A negative index stands for the place behind the end, and what
is missing in front of the index is filled with `d`. -/
def listSet (d : α) (L : List α) (i : Int) (v : α) : List α :=
  if i < 0 then L ++ [v]
  else if i < L.length then L.set i.toNat v
  else L ++ (List.replicate (i.toNat - L.length) d ++ [v])

/-- An element in front of an index. -/
def listInsert (d : α) (L : List α) (i : Int) (v : α) : List α :=
  if 0 ≤ i ∧ i < L.length then L.insertIdx i.toNat v else listSet d L i v

/-- No element at an index.  A negative index stands for the last element. -/
def listDelete (L : List α) (i : Int) : Option (List α) :=
  if i < 0 then some L.dropLast
  else if i < L.length then some (L.eraseIdx i.toNat)
  else none

end List

/-! ## The string of each list -/

section Strings

variable (P : List Elem) (e v : Elem) (S : List Elem)

theorem arrayElem_field : arrayElem (e.bytes ++ led sdbRs (S.map Elem.bytes)) = e.text := by
  cases S with
  | nil =>
      rw [List.map_nil, led_nil, List.append_nil, arrayElem,
        List.idxOf?_eq_none_iff.mpr e.sep_notMem]
      exact CStr.ofBytes_val e.text
  | cons d S =>
      rw [arrayElem, idxOf?_field e.sep_notMem (map_bytes_ne_nil (List.cons_ne_nil d S))]
      dsimp only
      rw [List.take_left]
      exact CStr.ofBytes_val e.text

theorem ofBytes_split : CStr.ofBytes (ended sdbRs (P.map Elem.bytes) ++
    (e.bytes ++ led sdbRs (S.map Elem.bytes))) = joinElems (P ++ e :: S) := by
  rw [← val_split]
  exact CStr.ofBytes_val _

/-- The elements before, with the comma in front of the next one. -/
theorem take_split_comma {P : List Elem} (hP : P ≠ []) (e : Elem) (S : List Elem) :
    (joinElems (P ++ e :: S)).val.take ((ended sdbRs (P.map Elem.bytes)).length - 1) =
      joinSep sdbRs (P.map Elem.bytes) := by
  have hend := ended_eq sdbRs (map_bytes_ne_nil hP)
  rw [val_split, hend, List.length_append, List.append_assoc]
  exact List.take_left

/-- Without the element, and without the comma behind it, or before it if it is the last. -/
theorem arrayDeleteStr_split : arrayDeleteStr (joinElems (P ++ e :: S)).val
    (ended sdbRs (P.map Elem.bytes)).length = (joinElems (P ++ S)).val := by
  rw [arrayDeleteStr, drop_split]
  cases S with
  | nil =>
      rw [List.map_nil, led_nil, List.append_nil, List.append_nil,
        List.idxOf?_eq_none_iff.mpr e.sep_notMem]
      dsimp only
      by_cases hP : P = []
      · rw [hP]
        rfl
      · exact take_split_comma hP e []
  | cons d S =>
      rw [idxOf?_field e.sep_notMem (map_bytes_ne_nil (List.cons_ne_nil d S))]
      dsimp only
      rw [take_split, Nat.add_assoc, drop_split_next, val_joinElems, val_joinElems, List.map_append,
        joinSep_append sdbRs _ (map_bytes_ne_nil (List.cons_ne_nil d S))]

/-- Empty elements are so many commas. -/
theorem ended_replicate (n : Nat) :
    ended sdbRs ((List.replicate n Elem.empty).map Elem.bytes) = List.replicate n sdbRs := by
  induction n with
  | zero => rfl
  | succ n ih =>
      rw [List.replicate_succ, List.map_cons, ended_cons, ih, List.replicate_succ]
      rfl

theorem insertIdx_mid {α : Type} (P S : List α) (v : α) :
    (P ++ S).insertIdx P.length v = P ++ v :: S := by
  induction P with
  | nil => rfl
  | cons a P ih => rw [List.cons_append, List.length_cons, List.insertIdx_succ_cons, ih]; rfl

theorem ofBytes_commas (n : Nat) : CStr.ofBytes (List.replicate n sdbRs ++ v.text.val) =
    joinElems (List.replicate n Elem.empty ++ [v]) := by
  have hsplit := val_split (List.replicate n Elem.empty) v []
  rw [ended_replicate, List.map_nil, led_nil, List.append_nil] at hsplit
  rw [← CStr.ofBytes_val (joinElems _), hsplit]
  rfl

end Strings

section Set

variable {L : List Elem} (hL : joinElems L ≠ CStr.empty) (i : Int) (v : Elem)
include hL

theorem ne_nil_of_join : L ≠ [] := fun h ↦ hL (by rw [h]; rfl)

theorem joined_elem : joined (joinElems L) v.text = joinElems (L ++ [v]) := by
  rw [← joinElems_singleton v]
  exact joined_joinElems (ne_nil_of_join hL) (List.cons_ne_nil v [])

/-- `sdb_array_set` stores the list with the element at the index. -/
theorem arraySetStr_joinElems :
    arraySetStr (joinElems L) i v.text = some (joinElems (listSet Elem.empty L i v)) := by
  rw [arraySetStr, sdbAlen_joinElems hL, joined_elem hL, listSet]
  by_cases hneg : i < 0
  · rw [if_pos (.inl hneg), if_pos hneg]
  · rw [if_neg hneg]
    rcases Int.lt_trichotomy i L.length with hlt | heq | hgt
    · obtain ⟨P, e, S, rfl, hP⟩ := exists_split (show i.toNat < L.length by omega)
      rw [if_neg (by omega), if_neg (by omega), if_pos hlt, ← hP, aindexof_split, Option.map_some,
        List.set_append_right _ _ (Nat.le_refl _), Nat.sub_self, List.set_cons_zero, take_split,
        ← ofBytes_split P v S]
      congr 1
      cases S with
      | nil =>
          rw [aindexof_split_last, List.map_nil, led_nil, List.append_nil]
          rfl
      | cons d S =>
          rw [aindexof_split_next]
          dsimp only
          rw [drop_split_next, led_eq sdbRs (map_bytes_ne_nil (List.cons_ne_nil d S)),
            List.append_assoc]
          rfl
    · rw [if_pos (.inr heq), if_neg (by omega), heq, Int.toNat_natCast, Nat.sub_self]
      rfl
    · have hcount : (i - L.length).toNat = i.toNat - L.length := by omega
      rw [if_neg (by omega), if_pos hgt, if_neg (by omega), ofBytes_commas,
        joined_joinElems (ne_nil_of_join hL) (by simp), hcount]

/-- `sdb_array_insert` stores the list with the element in front of the index. -/
theorem arrayInsertStr_joinElems :
    arrayInsertStr (joinElems L) i v.text = some (joinElems (listInsert Elem.empty L i v)) := by
  have hpos := List.length_pos_of_ne_nil (ne_nil_of_join hL)
  rw [arrayInsertStr, listInsert]
  by_cases hlast : i = -1
  · rw [if_pos hlast, if_neg (by omega), listSet, if_pos (by omega), joined_elem hL]
  · rw [if_neg hlast]
    by_cases hfirst : i = 0
    · rw [if_pos hfirst, if_pos (by omega), hfirst, ← joinElems_singleton v,
        joined_joinElems (List.cons_ne_nil v []) (ne_nil_of_join hL)]
      rfl
    · rw [if_neg hfirst]
      by_cases hin : 0 ≤ i ∧ i < L.length
      · obtain ⟨P, e, S, rfl, hP⟩ := exists_split (show i.toNat < L.length by omega)
        have hne : P ≠ [] := fun hno ↦ by
          rw [hno, List.length_nil] at hP
          omega
        rw [if_neg (by omega), if_pos hin, ← hP, aindexof_split, insertIdx_mid]
        dsimp only
        rw [take_split_comma hne, drop_split, ← ofBytes_joinSep (P ++ v :: e :: S)]
        congr 2
        rw [List.map_append, joinSep_concat sdbRs (map_bytes_ne_nil hne), List.map_cons,
          List.map_cons, led_cons, led_cons]
        rfl
      · have hnone : (if i < 0 then none else aindexof (joinElems L).val i.toNat) = none := by
          by_cases hneg : i < 0
          · rw [if_pos hneg]
          · rw [if_neg hneg]
            exact aindexof_ge (ne_nil_of_join hL) (by omega)
        rw [hnone, if_neg hin]
        exact arraySetStr_joinElems hL i v

end Set

section Get

variable {L : List Elem} (hL : joinElems L ≠ CStr.empty)
include hL

/-- The element that is found behind so many commas. -/
theorem arrayElem_joinElems (i : Nat) :
    ((aindexof (joinElems L).val i).map fun p ↦ arrayElem ((joinElems L).val.drop p)) =
      L[i]?.map Elem.text := by
  by_cases hi : i < L.length
  · obtain ⟨P, e, S, rfl, rfl⟩ := exists_split hi
    rw [aindexof_split, Option.map_some, drop_split, arrayElem_field,
      List.getElem?_append_right (Nat.le_refl _), Nat.sub_self]
    rfl
  · rw [aindexof_ge (ne_nil_of_join hL) (Nat.le_of_not_lt hi), List.getElem?_eq_none (by omega)]
    rfl

/-- What is deleted at an index that there is. -/
theorem exists_delete {i : Nat} (hi : i < L.length) : ∃ p, aindexof (joinElems L).val i = some p ∧
    arrayDeleteStr (joinElems L).val p = (joinElems (L.eraseIdx i)).val := by
  obtain ⟨P, e, S, rfl, rfl⟩ := exists_split hi
  refine ⟨_, aindexof_split P e S, ?_⟩
  rw [arrayDeleteStr_split, List.eraseIdx_append_of_length_le (Nat.le_refl _), Nat.sub_self,
    List.eraseIdx_cons_zero]

end Get

theorem length_arrayDeleteStr (str : Bytes) (p : Nat) :
    (arrayDeleteStr str p).length ≤ str.length := by
  rw [arrayDeleteStr]
  split
  · rw [List.length_append, List.length_take, List.length_drop]
    omega
  · rw [List.length_take]
    omega

/-! ## The array of a key -/

/-- What the functions that copy a string need is there. -/
theorem Cell.located {st : Sdb × World} {k x : CStr} (h : Cell st k x) (hx : x ≠ CStr.empty) :
    Located st.1 st.2 k x x.length := by
  obtain ⟨c, hget, hc⟩ := h.get
  rw [readAs_of_ne hx] at hget
  refine ⟨⟨c, hget, fun cas y owned hcas ↦ ?_⟩, ⟨[], ?_⟩, hx⟩
  · have hcas' : cas = 0 ∨ ∃ kv, sdbHtFindKvp st.1 k = some kv ∧ kv.cas = cas := by
      rcases hcas with rfl | rfl
      · exact .inl rfl
      · exact hc
    rw [stored]
    by_cases hy : y.length < 0xffffff
    · rw [(h.write hy owned hcas').sdbGet, if_neg (by have := h.short; omega)]
    · rw [if_pos (.inr (by omega)), sdbSetInternal, if_pos (.inr (by omega)), h.sdbGet,
        readAs_of_ne hx]
  · obtain ⟨kv, hf, -⟩ := h.exists_entry hx
    rw [getBlock, hf, List.append_nil]

/-- A string that fits is written. -/
theorem Cell.writeStr {st : Sdb × World} {k x : CStr} (h : Cell st k x) {o : Option CStr} {y : CStr}
    (ho : o = some y) (hfit : y.length < 0xffffff) (owned : Bool) :
    Cell (SdbStore.writeStr (st.1, st.2) k owned o) k y := by
  rw [ho]
  exact h.write hfit owned (.inl rfl)

/-- The array of a key is the list `L`: each function does what it does to the list, and leaves the
string of the list that comes out. -/
structure ActsAsList (st : Sdb × World) (k : CStr) (L : List Elem) : Prop where
  size : sdbArraySize st.1 st.2 k = (L.length, st)
  get : ∀ i, ∃ cas, sdbArrayGet st.1 st.2 k i = (((listGet L i).map Elem.text, cas), st)
  set : ∀ i v, (joinElems (listSet Elem.empty L i v)).length < 0xffffff →
    Cell (sdbArraySet st.1 st.2 k i v.text 0).2 k (joinElems (listSet Elem.empty L i v))
  insert : ∀ i v, (joinElems (listInsert Elem.empty L i v)).length < 0xffffff →
    Cell (sdbArrayInsert st.1 st.2 k i v.text 0).2 k (joinElems (listInsert Elem.empty L i v))
  insert_behind : ∀ (i : Int) v, L.length ≤ i →
    sdbArrayInsert st.1 st.2 k i v 0 = sdbArraySet st.1 st.2 k i v 0
  delete : ∀ i M, listDelete L i = some M →
    (sdbArrayDelete st.1 st.2 k i 0).1 = true ∧
      Cell (sdbArrayDelete st.1 st.2 k i 0).2 k (joinElems M)
  delete_behind : ∀ i, listDelete L i = none → sdbArrayDelete st.1 st.2 k i 0 = (false, st)

section Cell

variable {st : Sdb × World} {k : CStr} {L : List Elem} (h : Cell st k (joinElems L))
  (hL : joinElems L ≠ CStr.empty)
include h hL

theorem Cell.getElems : ∃ c, sdbConstGetLen st.1 st.2 k =
    (⟨some (joinElems L), (joinElems L).length, c⟩, st) := by
  obtain ⟨c, hget, -⟩ := h.get
  rw [readAs_of_ne hL] at hget
  exact ⟨c, hget⟩

theorem Cell.arraySize : sdbArraySize st.1 st.2 k = (L.length, st) := by
  obtain ⟨c, hget⟩ := h.getElems hL
  rw [sdbArraySize, hget]
  exact congrArg (·, st) (sdbAlen_joinElems hL)

theorem Cell.arrayGet (i : Int) :
    ∃ cas, sdbArrayGet st.1 st.2 k i = (((listGet L i).map Elem.text, cas), st) := by
  obtain ⟨c, hget⟩ := h.getElems hL
  refine ⟨c, ?_⟩
  rw [sdbArrayGet, hget]
  dsimp only
  rw [if_neg hL, sdbAlen_joinElems hL, listGet]
  congr 2
  by_cases hneg : i < 0
  · by_cases hlow : -i > L.length
    · rw [if_pos ⟨hneg, hlow⟩, if_neg (by omega), if_neg (by omega)]
      rfl
    · rw [if_neg (fun hno ↦ hlow hno.2), if_pos hneg, arrayElem_joinElems hL, if_neg (by omega),
        if_pos (by omega), Int.add_comm]
  · rw [if_neg (fun hno ↦ hneg hno.1), if_neg hneg, arrayElem_joinElems hL, if_pos (by omega)]

theorem Cell.arraySet (i : Int) (v : Elem)
    (hfit : (joinElems (listSet Elem.empty L i v)).length < 0xffffff) :
    Cell (sdbArraySet st.1 st.2 k i v.text 0).2 k (joinElems (listSet Elem.empty L i v)) := by
  obtain ⟨owned, hrun⟩ := (h.located hL).run_set (.inl rfl) i v.text
  rw [hrun]
  exact h.writeStr (arraySetStr_joinElems hL i v) hfit owned

theorem Cell.arrayInsert (i : Int) (v : Elem)
    (hfit : (joinElems (listInsert Elem.empty L i v)).length < 0xffffff) :
    Cell (sdbArrayInsert st.1 st.2 k i v.text 0).2 k (joinElems (listInsert Elem.empty L i v)) := by
  obtain ⟨owned, hrun⟩ := (h.located hL).run_insert (.inl rfl) i v.text
  rw [hrun]
  exact h.writeStr (arrayInsertStr_joinElems hL i v) hfit owned

theorem Cell.arrayInsert_behind {i : Int} (v : CStr) (hi : L.length ≤ i) :
    sdbArrayInsert st.1 st.2 k i v 0 = sdbArraySet st.1 st.2 k i v 0 := by
  have hpos := List.length_pos_of_ne_nil (ne_nil_of_join hL)
  obtain ⟨c, hget⟩ := h.getElems hL
  rw [sdbArrayInsert, hget, if_neg (by omega)]
  dsimp only
  rw [if_neg hL, if_neg (by omega), if_neg (by omega), aindexof_ge (ne_nil_of_join hL) (by omega)]

/-- The element at `i` is taken out, which is the last one for a negative index. -/
theorem Cell.run_delete {i : Int} {j : Nat}
    (hj : (if i < 0 then sdbAlen (joinElems L) - 1 else i.toNat) = j) (hlt : j < L.length) :
    sdbArrayDelete st.1 st.2 k i 0 =
        (true, (sdbSetOwned st.1 st.2 k (joinElems (L.eraseIdx j)) 0).2) ∧
      (joinElems (L.eraseIdx j)).length < 0xffffff := by
  obtain ⟨c, hget⟩ := h.getElems hL
  obtain ⟨p, hp, hstr⟩ := exists_delete hL hlt
  have hlen := h.length_lt
  have hle := length_arrayDeleteStr (joinElems L).val p
  constructor
  · rw [sdbArrayDelete, hget]
    dsimp only
    rw [if_neg hL, hj, hp]
    dsimp only
    rw [hstr, CStr.ofBytes_val]
  · rw [hstr] at hle
    rw [CStr.length] at hlen ⊢
    omega

theorem Cell.delete_at {i : Int} {j : Nat}
    (hj : (if i < 0 then sdbAlen (joinElems L) - 1 else i.toNat) = j) (hlt : j < L.length) :
    (sdbArrayDelete st.1 st.2 k i 0).1 = true ∧
      Cell (sdbArrayDelete st.1 st.2 k i 0).2 k (joinElems (L.eraseIdx j)) := by
  obtain ⟨hrun, hfit⟩ := h.run_delete hL hj hlt
  rw [hrun]
  exact ⟨rfl, h.write hfit true (.inl rfl)⟩

theorem Cell.arrayDelete {i : Int} {M : List Elem} (hM : listDelete L i = some M) :
    (sdbArrayDelete st.1 st.2 k i 0).1 = true ∧
      Cell (sdbArrayDelete st.1 st.2 k i 0).2 k (joinElems M) := by
  have hpos := List.length_pos_of_ne_nil (ne_nil_of_join hL)
  rw [listDelete] at hM
  split at hM
  · next hneg =>
      cases hM
      rw [← List.eraseIdx_length_sub_one]
      exact h.delete_at hL (by rw [if_pos hneg, sdbAlen_joinElems hL]) (by omega)
  · next hneg =>
      split at hM
      · cases hM
        exact h.delete_at hL (if_neg hneg) (by omega)
      · cases hM

theorem Cell.arrayDelete_behind {i : Int} (hi : listDelete L i = none) :
    sdbArrayDelete st.1 st.2 k i 0 = (false, st) := by
  obtain ⟨c, hget⟩ := h.getElems hL
  rw [listDelete] at hi
  split at hi
  · cases hi
  · next hneg =>
      split at hi
      · cases hi
      · rw [sdbArrayDelete, hget]
        dsimp only
        rw [if_neg hL, if_neg hneg, aindexof_ge (ne_nil_of_join hL) (by omega)]

theorem Cell.actsAsList : ActsAsList st k L where
  size := h.arraySize hL
  get := h.arrayGet hL
  set := h.arraySet hL
  insert := h.arrayInsert hL
  insert_behind _ v hi := h.arrayInsert_behind hL v hi
  delete _ _ := h.arrayDelete hL
  delete_behind _ := h.arrayDelete_behind hL

end Cell

/-- **Arrays are lists**: with a string under a key in memory, every function with an index does
what it does to the list of the elements of the string. -/
theorem arrays_are_lists {st : Sdb × World} (hm : st.1.Memory) {k A : CStr}
    (h : sdbGet st.1 st.2 k = some A) : ActsAsList st k (elements A) := by
  obtain ⟨hcell, hne⟩ := Cell.of_some hm h
  rw [← joinElems_elements A] at hcell hne
  exact hcell.actsAsList hne

/-- The pair `k=a,,b` in memory. -/
def memArray : Sdb × World :=
  (sdbSet sdbNew0 .empty (CStr.ofBytes [107]) (CStr.ofBytes [97, 44, 44, 98]) 0).2

theorem memory_memArray : memArray.1.Memory :=
  Sdb.Memory.new0.setInternal _ _ _ _ _

/-- The three elements of `a,,b`. -/
theorem memArray_acts :
    ActsAsList memArray (CStr.ofBytes [107]) (elements (CStr.ofBytes [97, 44, 44, 98])) :=
  arrays_are_lists memory_memArray (by decide)

end SdbStore
