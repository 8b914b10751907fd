import SdbStore.Array.Stacks

/-!
# The last element of an array

`sdb_array_pop_tail` cuts the string at its last comma, gives it to `sdb_set_owned` and copies the
element that is behind the comma.  Without a comma nothing is cut: the string that is there already
is stored again, which leaves the key as it is and frees the string that is copied then.

So a call is right if there is a comma (`popsLast_iff`), and an array is drained if its first
element is empty (`drains_iff`): then the last call that finds a string finds a comma.
-/

namespace SdbStore

open Lib

/-- Whether the entry of a key takes over the string that `sdb_set_owned` is given; if not, the
string is freed. -/
def keepsOwned (s : Sdb) (key val : CStr) (cas : Nat) : Bool :=
  if key.length ≥ 0xff ∨ val.length ≥ 0xffffff then false else
    match sdbHtFindKvp s key with
    | none => true
    | some kv =>
        match kv.value with
        | none => true
        | some old => (cdbLookup s.db key).1 ≠ 0 ∧ ¬ (cas ≠ 0 ∧ kv.cas ≠ cas) ∧ val ≠ old

/-- What `sdb_array_pop_tail` returns: `NULL`, or a copy of a string, or a copy of memory that is
freed; and the counter of the key. -/
inductive Tail where
  | null
  | copy (str : CStr) (cas : Nat)
  | freed (cas : Nat)
deriving DecidableEq

/-- The loop of `sdb_array_pop_tail`: back to the last comma, or to the beginning. -/
def popTailEnd (str : Bytes) : Nat → Nat
  | 0 => 0
  | e + 1 => if str[e + 1]? = some sdbRs then e + 1 else popTailEnd str e

/-- `sdb_array_pop_tail`. -/
def sdbArrayPopTail (s : Sdb) (w : World) (key : CStr) : Tail × Sdb × World :=
  let r := sdbConstGetLen s w key
  match r.1.value with
  | none => (.null, r.2)
  | some str =>
      if str = CStr.empty then (.null, r.2)
      else
        let e := popTailEnd str.val (str.length - 1)
        let cut := str.val[e]? = some sdbRs
        let left := if cut then CStr.ofBytes (str.val.take e) else str
        let popped := CStr.ofBytes (str.val.drop (if cut then e + 1 else e))
        (if keepsOwned r.2.1 key left 0 then .copy popped r.1.cas else .freed r.1.cas,
          (sdbSetOwned r.2.1 r.2.2 key left 0).2)

/-! ## The last comma -/

theorem popTailEnd_of_free {str : Bytes} {m n : Nat} (hmn : m ≤ n)
    (hfree : ∀ i, m < i → i ≤ n → str[i]? ≠ some sdbRs) : popTailEnd str n = popTailEnd str m := by
  induction n, hmn using Nat.le_induction with
  | base => rfl
  | succ n hmn ih =>
      rw [popTailEnd, if_neg (hfree (n + 1) (by omega) (Nat.le_refl _))]
      exact ih fun i hi hle ↦ hfree i hi (by omega)

theorem popTailEnd_stop {str : Bytes} {m : Nat} (h : str[m]? = some sdbRs) :
    popTailEnd str m = m := by
  cases m with
  | zero => rfl
  | succ m => rw [popTailEnd, if_pos h]

/-- The last comma is in front of the last element. -/
theorem popTailEnd_concat (P : Bytes) {e : Bytes} (he : sdbRs ∉ e) :
    popTailEnd (P ++ sdbRs :: e) ((P ++ sdbRs :: e).length - 1) = P.length := by
  have hlen : (P ++ sdbRs :: e).length - 1 = P.length + e.length := by
    rw [List.length_append, List.length_cons]
    omega
  rw [hlen, popTailEnd_of_free (Nat.le_add_right _ _), popTailEnd_stop]
  · rw [List.getElem?_append_right (Nat.le_refl _), Nat.sub_self]
    rfl
  · intro i hi hle hno
    rw [List.getElem?_append_right (Nat.le_of_lt hi), List.getElem?_cons, if_neg (by omega)] at hno
    exact he (List.mem_of_getElem? hno)

/-- Without a comma the loop ends at the beginning. -/
theorem popTailEnd_free {e : Bytes} (he : sdbRs ∉ e) : popTailEnd e (e.length - 1) = 0 := by
  refine popTailEnd_of_free (Nat.zero_le _) fun i _ _ hno ↦ he (List.mem_of_getElem? hno)

/-! ## One call -/

section Cell

variable {st : Sdb × World} {k : CStr}

/-- The string of the array stays the value of the entry exactly if it is another one. -/
theorem Cell.keepsOwned_iff {x y : CStr} (h : Cell st k x) (hx : x ≠ CStr.empty)
    (hy : y.length < 0xffffff) : keepsOwned st.1 k y 0 = true ↔ y ≠ x := by
  obtain ⟨kv, hf, hv⟩ := h.exists_entry hx
  have hshort := h.short
  rw [keepsOwned, if_neg (by omega), hf]
  dsimp only
  rw [hv, cdbLookup_bare h.memory.bare]
  simp

/-- With a comma the last element is cut off. -/
theorem Cell.popTail_concat {P : List Elem} (hP : P ≠ []) {e : Elem}
    (h : Cell st k (joinElems (P ++ [e]))) :
    ∃ c, (sdbArrayPopTail st.1 st.2 k).1 = .copy e.text c ∧
      Cell (sdbArrayPopTail st.1 st.2 k).2 k (joinElems P) := by
  have hval : (joinElems (P ++ [e])).val = (joinElems P).val ++ sdbRs :: e.bytes := by
    rw [val_split, ended_eq sdbRs (map_bytes_ne_nil hP), List.map_nil, led_nil, List.append_nil,
      List.append_assoc]
    rfl
  have hlt : (joinElems P).length < (joinElems (P ++ [e])).length := by
    rw [CStr.length, CStr.length, hval, List.length_append, List.length_cons]
    omega
  have hL : joinElems (P ++ [e]) ≠ CStr.empty := fun hno ↦ by
    rw [CStr.length_eq_zero.mpr hno] at hlt
    exact Nat.not_lt_zero _ hlt
  have hfit : (joinElems P).length < 0xffffff := Nat.lt_trans hlt h.length_lt
  have hkeeps : keepsOwned st.1 k (joinElems P) 0 = true :=
    (h.keepsOwned_iff hL hfit).mpr fun hno ↦ Nat.lt_irrefl _ (hno ▸ hlt)
  have hend : popTailEnd (joinElems (P ++ [e])).val ((joinElems (P ++ [e])).length - 1) =
      (joinElems P).val.length := by
    rw [CStr.length, hval]
    exact popTailEnd_concat _ e.sep_notMem
  have hcomma : (joinElems (P ++ [e])).val[(joinElems P).val.length]? = some sdbRs := by
    rw [hval, List.getElem?_append_right (Nat.le_refl _), Nat.sub_self]
    rfl
  obtain ⟨c, hget⟩ := h.getElems hL
  refine ⟨c, ?_⟩
  rw [sdbArrayPopTail, hget]
  dsimp only
  rw [if_neg hL, hend, if_pos hcomma, if_pos hcomma, hval, List.take_left, CStr.ofBytes_val,
    if_pos hkeeps, ← List.drop_drop, List.drop_left]
  exact ⟨congrArg (Tail.copy · c) (CStr.ofBytes_val e.text), h.write hfit true (.inl rfl)⟩

/-- Without one the key is left as it is, and the string that is copied is freed. -/
theorem Cell.popTail_single {e : Elem} (he : e ≠ Elem.empty) (h : Cell st k e.text) :
    (∃ c, (sdbArrayPopTail st.1 st.2 k).1 = .freed c) ∧
      Cell (sdbArrayPopTail st.1 st.2 k).2 k e.text := by
  have hne : e.text ≠ CStr.empty := fun hno ↦ he (Elem.ext (congrArg Subtype.val hno))
  have hcomma : ¬ e.text.val[0]? = some sdbRs := fun hno ↦ e.noSep (List.mem_of_getElem? hno)
  obtain ⟨c, hget, -⟩ := h.get
  rw [readAs_of_ne hne] at hget
  have hkeeps : ¬ keepsOwned st.1 k e.text 0 = true := fun hno ↦
    (h.keepsOwned_iff hne h.length_lt).mp hno rfl
  rw [sdbArrayPopTail, hget]
  dsimp only
  rw [if_neg hne, CStr.length, popTailEnd_free e.noSep, if_neg hcomma, if_neg hkeeps]
  exact ⟨⟨c, rfl⟩, h.write h.length_lt true (.inl rfl)⟩

/-- The string of one element stays. -/
theorem Cell.popTail_one {e : Elem} (h : Cell st k e.text) :
    Cell (sdbArrayPopTail st.1 st.2 k).2 k e.text := by
  by_cases he : e = Elem.empty
  · rw [he] at h ⊢
    obtain ⟨c, hget, -⟩ := h.get
    rw [sdbArrayPopTail, hget]
    exact h
  · exact (h.popTail_single he).2

end Cell

/-! ## Arrays that are drained -/

/-- One call on the array `A` returns its last element and leaves the others. -/
def PopsLast (st : Sdb × World) (k A : CStr) : Prop :=
  (∃ e c, (elements A).getLast? = some e ∧ (sdbArrayPopTail st.1 st.2 k).1 = .copy e.text c) ∧
    let left := (sdbArrayPopTail st.1 st.2 k).2
    sdbGet left.1 left.2 k = readAs (joinElems (elements A).dropLast)

/-- The state after so many calls. -/
def popTails (k : CStr) (st : Sdb × World) : Nat → Sdb × World
  | 0 => st
  | j + 1 => (sdbArrayPopTail (popTails k st j).1 (popTails k st j).2 k).2

/-- As many calls as there are elements return them from the last one on, as long as there is a
string, and leave the key unset. -/
def Drains (st : Sdb × World) (k A : CStr) : Prop :=
  (∀ j < (elements A).length,
    let left := (elements A).take ((elements A).length - j)
    joinElems left ≠ CStr.empty → ∃ e c, left.getLast? = some e ∧
      (sdbArrayPopTail (popTails k st j).1 (popTails k st j).2 k).1 = .copy e.text c) ∧
  let emptied := popTails k st (elements A).length
  sdbGet emptied.1 emptied.2 k = none

theorem sep_mem_iff (e : Elem) (L : List Elem) : sdbRs ∈ (joinElems (e :: L)).val ↔ L ≠ [] := by
  rw [val_joinElems, List.map_cons, joinSep_cons, List.mem_append]
  constructor
  · rintro h rfl
    rcases h with h | h
    · exact e.sep_notMem h
    · exact absurd h List.not_mem_nil
  · intro hL
    rw [led_eq sdbRs (map_bytes_ne_nil hL)]
    exact .inr List.mem_cons_self

theorem head?_eq_sep_iff {e : Elem} {L : List Elem} (h : joinElems (e :: L) ≠ CStr.empty) :
    (joinElems (e :: L)).val.head? = some sdbRs ↔ e = Elem.empty := by
  rw [val_joinElems, List.map_cons, joinSep_cons]
  constructor
  · intro hhead
    by_contra he
    have hne : e.bytes ≠ [] := fun hno ↦ he (Elem.bytes_eq_nil.mp hno)
    rw [List.head?_append_of_ne_nil _ hne] at hhead
    exact e.sep_notMem (List.mem_of_mem_head? hhead)
  · rintro rfl
    have hL : L ≠ [] := fun hno ↦ h (joinElems_eq_empty.mpr (.inr (by rw [hno])))
    rw [led_eq sdbRs (map_bytes_ne_nil hL)]
    rfl

section Drain

variable {st : Sdb × World} {k : CStr} {e : Elem} {L : List Elem}
    (h : Cell st k (joinElems (e :: L)))
include h

/-- The last element of several is cut off. -/
theorem Cell.popTail_last (hL : L ≠ []) : (∃ d c, (e :: L).getLast? = some d ∧
    (sdbArrayPopTail st.1 st.2 k).1 = .copy d.text c) ∧
      Cell (sdbArrayPopTail st.1 st.2 k).2 k (joinElems (e :: L.dropLast)) := by
  have hsplit : e :: L = (e :: L.dropLast) ++ [L.getLast hL] := by
    rw [List.cons_append, List.dropLast_concat_getLast]
  rw [hsplit] at h ⊢
  obtain ⟨c, hret, hcell⟩ := h.popTail_concat (List.cons_ne_nil e L.dropLast)
  exact ⟨⟨L.getLast hL, c, List.getLast?_concat, hret⟩, hcell⟩

/-- After `j` calls the first elements are left, and the first one is never taken. -/
theorem Cell.popTails {j : Nat} (hj : j ≤ L.length) :
    Cell (SdbStore.popTails k st j) k (joinElems (e :: L.take (L.length - j))) := by
  induction j with
  | zero =>
      rw [Nat.sub_zero, List.take_length]
      exact h
  | succ j ih =>
      have hne : L.take (L.length - j) ≠ [] := fun hno ↦ by
        have hlen := congrArg List.length hno
        rw [List.length_take, List.length_nil] at hlen
        omega
      have hcell := ((ih (by omega)).popTail_last hne).2
      have hcount : min ((L.take (L.length - j)).length - 1) (L.length - j) =
          L.length - (j + 1) := by
        rw [List.length_take]
        omega
      rwa [List.dropLast_eq_take, List.take_take, hcount] at hcell

theorem Cell.popTails_all : Cell (SdbStore.popTails k st (L.length + 1)) k e.text := by
  have hcell := h.popTails (Nat.le_refl L.length)
  rw [Nat.sub_self, List.take_zero, joinElems_singleton] at hcell
  exact hcell.popTail_one

end Drain

section Iff

variable {st : Sdb × World} {k : CStr} {e : Elem} {L : List Elem}
    (h : Cell st k (joinElems (e :: L)))
  (hL : joinElems (e :: L) ≠ CStr.empty)
include h hL

theorem Cell.popsLast_iff : PopsLast st k (joinElems (e :: L)) ↔ L ≠ [] := by
  rw [PopsLast, elements_joinElems (List.cons_ne_nil e L)]
  constructor
  · rintro ⟨⟨d, c, -, hret⟩, -⟩ rfl
    rw [joinElems_singleton] at h hL
    obtain ⟨⟨c', hfreed⟩, -⟩ := h.popTail_single fun hno ↦ hL (by rw [hno]; rfl)
    rw [hfreed] at hret
    cases hret
  · intro hne
    obtain ⟨hret, hcell⟩ := h.popTail_last hne
    rw [List.dropLast_cons_of_ne_nil hne]
    exact ⟨hret, hcell.sdbGet⟩

theorem Cell.drains_iff : Drains st k (joinElems (e :: L)) ↔ e = Elem.empty := by
  rw [Drains, elements_joinElems (List.cons_ne_nil e L)]
  constructor
  · rintro ⟨-, hget⟩
    have hread : readAs e.text = readAs CStr.empty := h.popTails_all.sdbGet.symm.trans hget
    exact Elem.ext (congrArg Subtype.val (readAs_injective hread))
  · rintro rfl
    refine ⟨fun j hj hne ↦ ?_, h.popTails_all.sdbGet⟩
    rw [List.length_cons] at hj hne ⊢
    rw [Nat.succ_sub (by omega), List.take_succ_cons] at hne ⊢
    have hrest : L.take (L.length - j) ≠ [] := fun hno ↦ hne (by rw [hno]; rfl)
    exact ((h.popTails (by omega)).popTail_last hrest).1

end Iff

/-- **A call pops the last element** exactly if there is a comma, and **an array is drained**
exactly if it begins with one. -/
theorem popTail_iff {st : Sdb × World} (hm : st.1.Memory) {k A : CStr}
    (h : sdbGet st.1 st.2 k = some A) : (PopsLast st k A ↔ sdbRs ∈ A.val) ∧
      (PopsLast st k A ∧ Drains st k A ↔ A.val.head? = some sdbRs) := by
  obtain ⟨hcell, hne⟩ := Cell.of_some hm h
  obtain ⟨e, L, hA⟩ := List.exists_cons_of_ne_nil (elements_ne_nil A)
  rw [← joinElems_elements A, hA] at hcell hne ⊢
  rw [hcell.popsLast_iff hne, hcell.drains_iff hne, sep_mem_iff, head?_eq_sep_iff hne]
  refine ⟨Iff.rfl, and_iff_right_of_imp ?_⟩
  rintro rfl rfl
  exact hne rfl

/-- The array `a,,b` is not drained. -/
theorem memArray_popTail :
    (PopsLast memArray (CStr.ofBytes [107]) (CStr.ofBytes [97, 44, 44, 98]) ↔
      sdbRs ∈ (CStr.ofBytes [97, 44, 44, 98]).val) ∧
    (PopsLast memArray (CStr.ofBytes [107]) (CStr.ofBytes [97, 44, 44, 98]) ∧
      Drains memArray (CStr.ofBytes [107]) (CStr.ofBytes [97, 44, 44, 98]) ↔
        (CStr.ofBytes [97, 44, 44, 98]).val.head? = some sdbRs) :=
  popTail_iff memory_memArray (by decide)

/-- The pair `k=a` in memory. -/
def memOne : Sdb × World :=
  (sdbSet sdbNew0 .empty (CStr.ofBytes [107]) (CStr.ofBytes [97]) 0).2

/-- The only element of `a` is copied when it is freed, and the key keeps it. -/
theorem not_drained_one : memOne.1.Memory ∧
    sdbGet memOne.1 memOne.2 (CStr.ofBytes [107]) = some (CStr.ofBytes [97]) ∧
    (sdbArrayPopTail memOne.1 memOne.2 (CStr.ofBytes [107])).1 = .freed 2 ∧
    (let left := (sdbArrayPopTail memOne.1 memOne.2 (CStr.ofBytes [107])).2
     sdbGet left.1 left.2 (CStr.ofBytes [107]) = some (CStr.ofBytes [97])) ∧
    ¬ (PopsLast memOne (CStr.ofBytes [107]) (CStr.ofBytes [97]) ∧
      Drains memOne (CStr.ofBytes [107]) (CStr.ofBytes [97])) := by
  refine ⟨Sdb.Memory.new0.setInternal _ _ _ _ _, by decide, by decide, by decide, fun h ↦ ?_⟩
  exact absurd h.2.2 (by decide)

end SdbStore
