import SdbStore.Array.Nums
import SdbStore.Array.Sets

/-!
# Arrays are sets of numbers

`sdb_array_add_num` stores a number below 256 in decimal and any other one in hexadecimal, and
`sdb_array_remove_num` compares what it reads.  `sdb_array_contains_num` looks for the hexadecimal
text, which a number from 1 to 255 does not have: it is not found (`arrays_are_num_sets`).
-/

namespace SdbStore

open Lib

/-! ## More of `array.c` -/

/-- `sdb_array_add_num`. -/
def sdbArrayAddNum (s : Sdb) (w : World) (key : CStr) (val : UInt64) (cas : Nat) :
    Bool × Sdb × World :=
  let v := CStr.ofBytes (sdbItoa val sdbNumDefault)
  let r := sdbArrayContains s w key v
  let v := if ¬ r.1.1 ∧ val < 256 then CStr.ofBytes (sdbItoa val 10) else v
  sdbArrayAdd r.2.1 r.2.2 key v cas

/-- `sdb_array_remove_num`. -/
def sdbArrayRemoveNum (s : Sdb) (w : World) (key : CStr) (val : UInt64) (cas : Nat) :
    Bool × Sdb × World :=
  let r := sdbConstGetLen s w key
  match r.1.value with
  | none => (false, r.2)
  | some str =>
      match (starts sdbRs str.val).findIdx? fun p ↦ sdbAtoi (some p) = val with
      | some idx => sdbArrayDelete r.2.1 r.2.2 key idx cas
      | none => (false, r.2)

/-- `sdb_array_contains_num`. -/
def sdbArrayContainsNum (s : Sdb) (w : World) (key : CStr) (num : UInt64) :
    (Bool × Nat) × Sdb × World :=
  sdbArrayContains s w key (CStr.ofBytes (sdbItoa num sdbNumDefault))

/-! ## The elements of numbers -/

/-- The element that `sdb_array_add_num` stores. -/
def numElem (n : UInt64) : Elem := if n < 256 then decElem n else hexElem n

@[simp] theorem num_numElem (n : UInt64) : (numElem n).num = n := by
  rw [numElem]
  split
  · exact num_decElem n
  · exact num_hexElem n

theorem numElem_injective : Function.Injective numElem := fun n m h ↦ by
  rw [← num_numElem n, h, num_numElem]

theorem numElem_ne (n : UInt64) : numElem n ≠ Elem.empty := by
  rw [numElem]
  split
  · exact itoaElem_ne _ n
  · exact itoaElem_ne _ n

/-- Both are the same for 0 and from 256 on. -/
theorem hexElem_eq_iff {n m : UInt64} : hexElem n = numElem m ↔ m = n ∧ (n = 0 ∨ 256 ≤ n) := by
  constructor
  · intro h
    have hnum : n = m := by
      rw [← num_numElem m, ← h, num_hexElem]
    subst hnum
    refine ⟨rfl, ?_⟩
    by_contra hno
    obtain ⟨h0, hlt⟩ := not_or.mp hno
    have hpos : 0 < n.toNat := Nat.pos_of_ne_zero fun hz ↦ h0 (UInt64.toNat_inj.mp hz)
    obtain ⟨d, l, hd, hd10, hl⟩ := exists_digits_cons (b := 10) (by decide) (by decide) hpos
    have hbytes := congrArg Elem.bytes h
    rw [numElem, if_pos (UInt64.not_le.mp hlt), hexElem, decElem, bytes_itoaElem, bytes_itoaElem,
      sdbItoa, sdbItoa, if_neg h0, if_neg h0, if_neg (by decide), if_pos (by decide), hl] at hbytes
    have hzero := (digitByte_spec d (by omega)).2.2.2.2.2 (List.cons.inj hbytes).1.symm
    omega
  · rintro ⟨rfl, rfl | h⟩
    · exact Elem.ext (by decide)
    · rw [numElem, if_neg (UInt64.not_lt.mpr h)]

/-! ## What each call does -/

/-- One call on the array of a key. -/
def numCall (k : CStr) (st : Sdb × World) : SetOp UInt64 → Bool × Sdb × World
  | .add n => sdbArrayAddNum st.1 st.2 k n 0
  | .remove n => sdbArrayRemoveNum st.1 st.2 k n 0

section Call

variable {k : CStr} {st : Sdb × World} {L : List UInt64} (h : HasSet k st (L.map numElem))
include h

theorem HasSet.containsNum (n : UInt64) : ∃ c, sdbArrayContainsNum st.1 st.2 k n =
    ((decide (n ∈ L ∧ (n = 0 ∨ 256 ≤ n)), c), st) := by
  have hmem : hexElem n ∈ L.map numElem ↔ n ∈ L ∧ (n = 0 ∨ 256 ≤ n) := by
    rw [List.mem_map]
    constructor
    · rintro ⟨m, hm, hmn⟩
      obtain ⟨rfl, hn⟩ := hexElem_eq_iff.mp hmn.symm
      exact ⟨hm, hn⟩
    · rintro ⟨hn, hrange⟩
      exact ⟨n, hn, (hexElem_eq_iff.mpr ⟨rfl, hrange⟩).symm⟩
  obtain ⟨c, hc⟩ := h.cell.arrayContains h.full (hexElem n)
  rw [decide_eq_decide.mpr hmem] at hc
  exact ⟨c, hc⟩

omit h in
/-- The search of `sdb_array_remove_num`. -/
theorem findIdx?_starts_num (hL : L ≠ []) (n : UInt64) :
    ((starts sdbRs (joinElems (L.map numElem)).val).findIdx? fun p ↦ sdbAtoi (some p) = n) =
      (L.map numElem).idxOf? (numElem n) := by
  have hfield : ∀ e M, sdbRs ∉ e → (fun p : Bytes ↦ decide (sdbAtoi (some p) = n))
      (e ++ led sdbRs M) = decide (sdbAtoi (some e) = n) := fun e M _ ↦ by
    dsimp only
    rw [sdbAtoi_field]
  rw [val_joinElems, findIdx?_starts hfield (map_bytes_ne_nil (mt List.map_eq_nil_iff.mp hL))
    fun _ hx ↦ sep_notMem_of_mem hx, List.findIdx?_map, List.findIdx?_map, List.idxOf?,
      List.findIdx?_map]
  congr 1
  funext m
  change decide ((numElem m).num = n) = (numElem m == numElem n)
  rw [num_numElem, beq_eq_decide, decide_eq_decide]
  exact numElem_injective.eq_iff.symm

/-- A call on numbers is the call on their elements. -/
theorem HasSet.numCall_eq (op : SetOp UInt64) :
    numCall k st op = setCall k st (op.map numElem) := by
  cases op with
  | add n =>
      obtain ⟨c, hc⟩ := h.containsNum n
      rw [sdbArrayContainsNum] at hc
      rw [numCall, sdbArrayAddNum, hc, SetOp.map, setCall]
      dsimp only
      congr 1
      rw [numElem]
      by_cases hlt : n < 256
      · rw [if_pos hlt]
        by_cases hmem : n ∈ L ∧ (n = 0 ∨ 256 ≤ n)
        · -- the decimal text of 0 is the hexadecimal one
          obtain rfl := hmem.2.resolve_right (UInt64.not_le.mpr hlt)
          rw [if_neg (by simpa using hmem)]
          rfl
        · rw [if_pos ⟨by simpa using hmem, hlt⟩]
          rfl
      · rw [if_neg hlt, if_neg fun hno ↦ hlt hno.2]
        rfl
  | remove n =>
      rw [numCall, sdbArrayRemoveNum, SetOp.map, setCall, sdbArrayRemove]
      by_cases hL : L = []
      · obtain ⟨c, hget⟩ := h.cell.get_nil (by rw [hL]; rfl)
        rw [hget]
      · have hmap : L.map numElem ≠ [] := mt List.map_eq_nil_iff.mp hL
        obtain ⟨c, hget⟩ := h.cell.getElems (join_ne_of_full h.full hmap)
        rw [hget]
        dsimp only
        rewrite [findIdx?_starts_num hL, findIdx?_starts_eq hmap]
        cases (L.map numElem).idxOf? (numElem n) with
        | none => rfl
        | some i => rfl

end Call

/-! ## Runs on numbers -/

/-- The string does not become too long. -/
def Lib.SetOp.NumFits (L : List UInt64) (op : SetOp UInt64) : Prop :=
  (joinElems ((op.apply L).2.map numElem)).length < 0xffffff

theorem numFits_map {L : List UInt64} {op : SetOp UInt64} (h : op.NumFits L) :
    (op.map numElem).Fits (L.map numElem) := by
  constructor
  · cases op with
    | add n => exact numElem_ne n
    | remove n => exact numElem_ne n
  · rw [SetOp.apply_map numElem_injective]
    exact h

theorem HasSet.numCall {k : CStr} {st : Sdb × World} {L : List UInt64}
    (h : HasSet k st (L.map numElem)) {op : SetOp UInt64} (hop : op.NumFits L) :
    HasSet k (SdbStore.numCall k st op).2 ((op.apply L).2.map numElem) := by
  have hcall := h.call (numFits_map hop)
  rwa [SetOp.apply_map numElem_injective, ← h.numCall_eq op] at hcall

/-- The array of the key is the set of numbers that the calls have made. -/
structure HoldsNums (k : CStr) (st : Sdb × World) (hist : List (SetOp UInt64)) : Prop where
  once : ∀ A, sdbGet st.1 st.2 k = some A → ((elements A).map Elem.num).Nodup
  contains : ∀ n, (sdbArrayContainsNum st.1 st.2 k n).1.1 = true ↔ Member hist n

theorem HasSet.numsOnce {k : CStr} {st : Sdb × World} {L : List UInt64}
    (h : HasSet k st (L.map numElem)) (hL : L.Nodup) {A : CStr} (hA : sdbGet st.1 st.2 k = some A) :
    ((elements A).map Elem.num).Nodup := by
  obtain ⟨hcell, hne⟩ := Cell.of_some h.cell.memory hA
  have htext : joinElems (L.map numElem) = A := h.cell.text.symm.trans hcell.text
  have hmap : L.map numElem ≠ [] := fun hno ↦ hne (by rw [← htext, hno]; rfl)
  have hself : (L.map numElem).map Elem.num = L := by
    rw [List.map_map]
    exact List.map_id'' num_numElem L
  rw [← htext, elements_joinElems hmap, hself]
  exact hL

theorem HasSet.holdsNums_iff {k : CStr} {st : Sdb × World} {L : List UInt64}
    {hist : List (SetOp UInt64)} (h : HasSet k st (L.map numElem)) (hrep : Lists hist L) :
    HoldsNums k st hist ↔ ∀ n, Member hist n → n = 0 ∨ 256 ≤ n := by
  have hfound : ∀ n, (sdbArrayContainsNum st.1 st.2 k n).1.1 = true ↔
      Member hist n ∧ (n = 0 ∨ 256 ≤ n) := fun n ↦ by
    obtain ⟨c, hc⟩ := h.containsNum n
    rw [hc, ← hrep.mem]
    exact decide_eq_true_iff
  constructor
  · exact fun hholds n hn ↦ ((hfound n).mp ((hholds.contains n).mpr hn)).2
  · exact fun hrange ↦ ⟨fun _ hA ↦ h.numsOnce hrep.nodup hA,
      fun n ↦ (hfound n).trans (and_iff_left_of_imp (hrange n))⟩

/-- **Arrays are sets of numbers** in the states of a run in which no number from 1 to 255 is in the
set, and in all states of a run that adds none. -/
theorem arrays_are_num_sets {st : Sdb × World} (hm : st.1.Memory) {k : CStr} (hk : k.length < 0xff)
    (hlive : ¬ TimedOut st.1 st.2 k) (hget : sdbGet st.1 st.2 k = none) {ops : List (SetOp UInt64)}
    (hops : ∀ (n : Nat) op, ops[n]? = some op → op.NumFits (stateAfter SetOp.apply [] ops n)) :
    (∀ n ≤ ops.length, HoldsNums k (stateAfter (numCall k) st ops n) (ops.take n) ↔
      ∀ v, Member (ops.take n) v → v = 0 ∨ 256 ≤ v) ∧
    ((∀ v, .add v ∈ ops → v = 0 ∨ 256 ≤ v) →
      ∀ n ≤ ops.length, HoldsNums k (stateAfter (numCall k) st ops n) (ops.take n)) := by
  have hcell : Cell st k (joinElems []) := Cell.of_read hm hk hlive hget
  have hiff : ∀ n ≤ ops.length, HoldsNums k (stateAfter (numCall k) st ops n) (ops.take n) ↔
      ∀ v, Member (ops.take n) v → v = 0 ∨ 256 ≤ v := fun n hn ↦ by
    refine HasSet.holdsNums_iff ?_ (lists_stateAfter ops hn)
    exact stateAfter_counted (R := fun _ st' (L : List UInt64) ↦ HasSet k st' (L.map numElem))
      ⟨hcell, List.not_mem_nil⟩ (fun n op hop h ↦ h.numCall (hops n op hop)) hn
  refine ⟨hiff, fun hadd n hn ↦ (hiff n hn).mpr fun v hv ↦ hadd v ?_⟩
  obtain ⟨before, since, h, -⟩ := hv
  refine List.mem_of_mem_take (i := n) ?_
  rw [h]
  exact List.mem_append_right before List.mem_cons_self

/-- A run that adds 256 and 0 and removes 256. -/
theorem arrays_are_num_sets_run : HoldsNums (CStr.ofBytes [107])
    (stateAfter (numCall (CStr.ofBytes [107])) (sdbNew0, .empty) [.add 256, .add 0, .remove 256] 3)
      [.add 256, .add 0, .remove 256] :=
  (@arrays_are_num_sets (sdbNew0, .empty) Sdb.Memory.new0 (CStr.ofBytes [107]) (by decide)
    (fun h ↦ absurd h.1 (by decide)) (by decide) [.add 256, .add 0, .remove 256]
    (fun n op hop ↦ by
      match n with
      | 0 => cases hop; unfold SetOp.NumFits; decide
      | 1 => cases hop; unfold SetOp.NumFits; decide
      | 2 => cases hop; unfold SetOp.NumFits; decide
      | _ + 3 => cases hop)).2 (by simp) 3 (by decide)

/-- 1 is added, and not found. -/
theorem one_not_contained :
    let st := (numCall (CStr.ofBytes [107]) (sdbNew0, .empty) (.add 1)).2
    sdbNew0.Memory ∧ sdbGet sdbNew0 .empty (CStr.ofBytes [107]) = none ∧
      Member [.add (1 : UInt64)] 1 ∧
      sdbGet st.1 st.2 (CStr.ofBytes [107]) = some (CStr.ofBytes [49]) ∧
      (sdbArrayContainsNum st.1 st.2 (CStr.ofBytes [107]) 1).1.1 = false :=
  ⟨Sdb.Memory.new0, by decide, ⟨[], [], rfl, List.not_mem_nil⟩, by decide, by decide⟩

end SdbStore
