import SdbStore.Array.Order
import SdbStore.Array.Lists
import SdbStore.Lib.Members

/-!
# Arrays are sets

`sdb_array_add` looks for a value by its length and bytes, `sdb_array_remove` and
`sdb_array_indexof` look for it with `astrcmp`, and what is found is taken out by its index.  On
elements they agree: in every run from an unset key the array holds what was added and not removed
since (`arrays_are_sets`).

The key has to be one that can be written, and its counter must not come round to 0, which a call
reports as a failure.
-/

namespace SdbStore

open Lib

/-! ## More of `array.c` -/

/-- `sdb_array_contains`: whether the value is there, and the counter of the key. -/
def sdbArrayContains (s : Sdb) (w : World) (key val : CStr) : (Bool × Nat) × Sdb × World :=
  let r := sdbConstGetLen s w key
  let found :=
    match r.1.value with
    | none => false
    | some str =>
        if str = CStr.empty then false
        else
          (starts sdbRs str.val).any fun ptr ↦
            let len := (ptr.idxOf? sdbRs).getD ptr.length
            len = val.length ∧ ptr.take len = val.val
  ((found, r.1.cas), r.2)

/-- `sdb_array_indexof`. -/
def sdbArrayIndexof (s : Sdb) (w : World) (key val : CStr) : Int × Sdb × World :=
  let r := sdbConstGetLen s w key
  match r.1.value with
  | none => (-1, r.2)
  | some str =>
      match (starts sdbRs str.val).findIdx? fun p ↦ astrcmp p val.val = 0 with
      | some i => (i, r.2)
      | none => (-1, r.2)

/-- `sdb_array_remove`. -/
def sdbArrayRemove (s : Sdb) (w : World) (key val : CStr) (cas : Nat) : Bool × Sdb × World :=
  let r := sdbConstGetLen s w key
  match r.1.value with
  | none => (false, r.2)
  | some str =>
      match (starts sdbRs str.val).findIdx? fun p ↦ astrcmp p val.val = 0 with
      | some idx => sdbArrayDelete r.2.1 r.2.2 key idx cas
      | none => (false, r.2)

/-- `sdb_array_add`. -/
def sdbArrayAdd (s : Sdb) (w : World) (key val : CStr) (cas : Nat) : Bool × Sdb × World :=
  let r := sdbArrayContains s w key val
  if r.1.1 then (false, r.2) else sdbArrayInsert r.2.1 r.2.2 key (-1) val cas

/-! ## Searching -/

section Search

variable {L : List Elem} (hL : L ≠ []) (v : Elem)
include hL

/-- The search of `sdb_array_contains`. -/
theorem any_starts_eq : ((starts sdbRs (joinElems L).val).any fun ptr ↦
    let len := (ptr.idxOf? sdbRs).getD ptr.length
    len = v.text.length ∧ ptr.take len = v.text.val) = decide (v ∈ L) := by
  have hfield : ∀ e M, sdbRs ∉ e → (fun ptr : Bytes ↦
      let len := (ptr.idxOf? sdbRs).getD ptr.length
      decide (len = v.text.length ∧ ptr.take len = v.text.val)) (e ++ led sdbRs M) =
        decide (e = v.bytes) := by
    intro e M he
    have hlen : ((e ++ led sdbRs M).idxOf? sdbRs).getD (e ++ led sdbRs M).length = e.length := by
      by_cases hM : M = []
      · rw [hM, led_nil, List.append_nil, List.idxOf?_eq_none_iff.mpr he]
        rfl
      · rw [idxOf?_field he hM]
        rfl
    dsimp only
    rw [hlen, List.take_left]
    exact decide_eq_decide.mpr ⟨And.right, fun h ↦ ⟨congrArg List.length h, h⟩⟩
  rw [val_joinElems, any_starts hfield (map_bytes_ne_nil hL) fun _ hx ↦ sep_notMem_of_mem hx,
    List.any_map, Bool.eq_iff_iff, List.any_eq_true, decide_eq_true_iff]
  simp only [Function.comp, decide_eq_true_iff]
  constructor
  · rintro ⟨e, he, heq⟩
    exact Elem.ext heq ▸ he
  · exact fun hv ↦ ⟨v, hv, rfl⟩

/-- The search of `sdb_array_indexof` and `sdb_array_remove`. -/
theorem findIdx?_starts_eq :
    ((starts sdbRs (joinElems L).val).findIdx? fun p ↦ astrcmp p v.text.val = 0) = L.idxOf? v := by
  have hfield : ∀ e M, sdbRs ∉ e → (fun p : Bytes ↦ decide (astrcmp p v.text.val = 0))
      (e ++ led sdbRs M) = decide (elemKey e = v.key) := fun e M _ ↦ by
    refine decide_eq_decide.mpr ?_
    rw [astrcmp_eq_zero_iff, elemKey_field]
    rfl
  rw [val_joinElems, findIdx?_starts hfield (map_bytes_ne_nil hL) fun _ hx ↦ sep_notMem_of_mem hx,
    List.findIdx?_map, List.idxOf?]
  congr 1
  funext e
  exact (decide_eq_decide.mpr Elem.key_injective.eq_iff).trans (beq_eq_decide e v).symm

end Search

/-! ## What each call finds -/

section Cell

variable {st : Sdb × World} {k : CStr} {L : List Elem} (h : Cell st k (joinElems L))
  (hfull : Elem.empty ∉ L)

include hfull in
theorem join_ne_of_full (hL : L ≠ []) : joinElems L ≠ CStr.empty := by
  intro hno
  rcases joinElems_eq_empty.mp hno with rfl | rfl
  · exact hL rfl
  · exact hfull (List.mem_singleton_self _)

include h in
/-- Nothing is found under a key without elements. -/
theorem Cell.get_nil (hL : L = []) : ∃ c, sdbConstGetLen st.1 st.2 k = (⟨none, 0, c⟩, st) := by
  obtain ⟨c, hget, -⟩ := h.get
  rw [hL] at hget
  exact ⟨c, hget⟩

include h hfull

theorem Cell.arrayContains (v : Elem) :
    ∃ c, sdbArrayContains st.1 st.2 k v.text = ((decide (v ∈ L), c), st) := by
  by_cases hL : L = []
  · obtain ⟨c, hget⟩ := h.get_nil hL
    refine ⟨c, ?_⟩
    rw [sdbArrayContains, hget, hL]
    rfl
  · have hne := join_ne_of_full hfull hL
    obtain ⟨c, hget⟩ := h.getElems hne
    refine ⟨c, ?_⟩
    rw [sdbArrayContains, hget]
    dsimp only
    rw [if_neg hne, any_starts_eq hL]

theorem Cell.arrayIndexof (v : Elem) : sdbArrayIndexof st.1 st.2 k v.text =
    (match L.idxOf? v with
      | some i => (i : Int)
      | none => -1, st) := by
  by_cases hL : L = []
  · obtain ⟨c, hget⟩ := h.get_nil hL
    rw [sdbArrayIndexof, hget, hL]
    rfl
  · obtain ⟨c, hget⟩ := h.getElems (join_ne_of_full hfull hL)
    rw [sdbArrayIndexof, hget]
    dsimp only
    rw [findIdx?_starts_eq hL]
    cases L.idxOf? v with
    | none => rfl
    | some i => rfl

/-- What is there is removed by its index, and nothing else is. -/
theorem Cell.run_remove (v : Elem) :
    (v ∉ L → sdbArrayRemove st.1 st.2 k v.text 0 = (false, st)) ∧
    (v ∈ L → sdbArrayRemove st.1 st.2 k v.text 0 =
        (true, (sdbSetOwned st.1 st.2 k (joinElems (L.erase v)) 0).2) ∧
      (joinElems (L.erase v)).length < 0xffffff) := by
  by_cases hL : L = []
  · obtain ⟨c, hget⟩ := h.get_nil hL
    refine ⟨fun _ ↦ ?_, fun hv ↦ absurd (hL ▸ hv) List.not_mem_nil⟩
    rw [sdbArrayRemove, hget]
  · have hne := join_ne_of_full hfull hL
    obtain ⟨c, hget⟩ := h.getElems hne
    have hrun : sdbArrayRemove st.1 st.2 k v.text 0 =
        match L.idxOf? v with
        | some idx => sdbArrayDelete st.1 st.2 k idx 0
        | none => (false, st) := by
      rw [sdbArrayRemove, hget]
      dsimp only
      rw [findIdx?_starts_eq hL]
    constructor
    · intro hv
      rw [hrun, List.idxOf?_eq_none_iff.mpr hv]
    · intro hv
      obtain ⟨i, hi⟩ := Option.isSome_iff_exists.mp (List.isSome_idxOf?.mpr hv)
      rw [hrun, List.erase_eq_eraseIdx, hi]
      exact h.run_delete hne (if_neg (by omega)) (List.idxOf?_eq_some_iff.mp hi).1

/-- What is not there is added at the end, and nothing else is. -/
theorem Cell.run_add (v : Elem) :
    (v ∈ L → sdbArrayAdd st.1 st.2 k v.text 0 = (false, st)) ∧
    (v ∉ L → ∃ owned, sdbArrayAdd st.1 st.2 k v.text 0 =
      let r := sdbSetInternal st.1 st.2 k (joinElems (L ++ [v])) owned 0
      (decide (r.1 ≠ 0), r.2)) := by
  obtain ⟨c, hcont⟩ := h.arrayContains hfull v
  rw [sdbArrayAdd, hcont]
  constructor
  · intro hv
    simp [hv]
  · intro hv
    dsimp only
    rw [if_neg (by simpa using hv), sdbArrayInsert, if_pos rfl]
    by_cases hL : L = []
    · obtain ⟨c, hget⟩ := h.get_nil hL
      refine ⟨false, ?_⟩
      rw [sdbArrayInsertLast, hget, hL, List.nil_append, joinElems_singleton]
      rfl
    · have hne := join_ne_of_full hfull hL
      refine ⟨true, ?_⟩
      rw [(h.located hne).run_insertLast, joined_elem hne]
      rfl

end Cell

/-! ## Runs of a set -/

/-- One call on the array of a key. -/
def setCall (k : CStr) (st : Sdb × World) : SetOp Elem → Bool × Sdb × World
  | .add v => sdbArrayAdd st.1 st.2 k v.text 0
  | .remove v => sdbArrayRemove st.1 st.2 k v.text 0

/-- The value of a call is not empty, and the string does not become too long. -/
def Lib.SetOp.Fits (L : List Elem) (op : SetOp Elem) : Prop :=
  (match op with
    | .add v => v ≠ Elem.empty
    | .remove v => v ≠ Elem.empty) ∧
  (joinElems (op.apply L).2).length < 0xffffff

/-- The key has the string of a set. -/
structure HasSet (k : CStr) (st : Sdb × World) (L : List Elem) : Prop where
  cell : Cell st k (joinElems L)
  full : Elem.empty ∉ L

theorem full_apply {L : List Elem} (h : Elem.empty ∉ L) {op : SetOp Elem} (hop : op.Fits L) :
    Elem.empty ∉ (op.apply L).2 := by
  cases op with
  | add v =>
      rw [SetOp.apply]
      split
      · exact h
      · intro hno
        rcases List.mem_append.mp hno with hno | hno
        · exact h hno
        · exact hop.1 (List.mem_singleton.mp hno).symm
  | remove v =>
      rw [SetOp.apply]
      split
      · exact fun hno ↦ h (List.mem_of_mem_erase hno)
      · exact h

/-- Another element makes another string. -/
theorem joinElems_concat_ne (L : List Elem) {v : Elem} (hv : v ≠ Elem.empty) :
    joinElems (L ++ [v]) ≠ joinElems L := by
  intro h
  by_cases hL : L = []
  · rw [hL, List.nil_append, joinElems_nil, joinElems_eq_empty] at h
    rcases h with h | h
    · exact absurd h (List.cons_ne_nil _ _)
    · exact hv (List.cons.inj h).1
  · have hlen := congrArg (fun s ↦ (elements s).length) h
    rw [elements_joinElems (by simp), elements_joinElems hL, List.length_append] at hlen
    exact absurd hlen (Nat.succ_ne_self _)

section Call

variable {k : CStr} {st : Sdb × World} {L : List Elem} (h : HasSet k st L) {op : SetOp Elem}
  (hop : op.Fits L)
include h hop

/-- A call changes nothing, or it writes the string of the list.  Only `sdb_array_add` reports what
the write has returned. -/
theorem HasSet.call_cases :
    (setCall k st op = ((op.apply L).1, st) ∧ (op.apply L).2 = L) ∨
    ((op.apply L).1 = true ∧ ∃ owned,
      let r := sdbSetInternal st.1 st.2 k (joinElems (op.apply L).2) owned 0
      setCall k st op = (true, r.2) ∨
        (setCall k st op = (decide (r.1 ≠ 0), r.2) ∧ joinElems (op.apply L).2 ≠ joinElems L)) := by
  cases op with
  | add v =>
      rw [setCall, SetOp.apply]
      by_cases hv : v ∈ L
      · rw [(h.cell.run_add h.full v).1 hv, if_pos hv]
        exact .inl ⟨rfl, rfl⟩
      · rw [if_neg hv]
        obtain ⟨owned, hrun⟩ := (h.cell.run_add h.full v).2 hv
        exact .inr ⟨rfl, owned, .inr ⟨hrun, joinElems_concat_ne L hop.1⟩⟩
  | remove v =>
      rw [setCall, SetOp.apply]
      by_cases hv : v ∈ L
      · rw [if_pos hv]
        exact .inr ⟨rfl, true, .inl ((h.cell.run_remove h.full v).2 hv).1⟩
      · rw [(h.cell.run_remove h.full v).1 hv, if_neg hv]
        exact .inl ⟨rfl, rfl⟩

/-- **One call** does to the array what it does to the list. -/
theorem HasSet.call : HasSet k (setCall k st op).2 (op.apply L).2 := by
  refine ⟨?_, full_apply h.full hop⟩
  rcases h.call_cases hop with ⟨hrun, hL⟩ | ⟨-, owned, hrun | ⟨hrun, -⟩⟩
  · rw [hrun, hL]
    exact h.cell
  · rw [hrun]
    exact h.cell.write hop.2 owned (.inl rfl)
  · rw [hrun]
    exact h.cell.write hop.2 owned (.inl rfl)

theorem HasSet.call_counter : counterOf (sdbHtFindKvp (setCall k st op).2.1 k) ≤
    max 2 (counterOf (sdbHtFindKvp st.1 k) + 1) := by
  rcases h.call_cases hop with ⟨hrun, -⟩ | ⟨-, owned, hrun | ⟨hrun, -⟩⟩
  · rw [hrun]
    exact Nat.le_trans (Nat.le_succ _) (Nat.le_max_right _ _)
  · rw [hrun]
    exact h.cell.write_counter _ owned 0
  · rw [hrun]
    exact h.cell.write_counter _ owned 0

/-- It reports the same, unless the counter comes round. -/
theorem HasSet.call_report (hcount : counterOf (sdbHtFindKvp st.1 k) + 1 < 4294967296) :
    (setCall k st op).1 = (op.apply L).1 := by
  rcases h.call_cases hop with ⟨hrun, -⟩ | ⟨hret, owned, hrun | ⟨hrun, hchange⟩⟩
  · rw [hrun]
  · rw [hrun, hret]
  · rw [hrun, hret]
    exact decide_eq_true (h.cell.write_reported hop.2 owned (.inl rfl) hchange hcount)

end Call

/-- The array of the key is the set that the calls have made: no value is in it twice, and the two
searches find what was added and not removed since. -/
structure HoldsSet (k : CStr) (st : Sdb × World) (hist : List (SetOp Elem)) : Prop where
  once : ∀ A, sdbGet st.1 st.2 k = some A → (elements A).Nodup
  contains : ∀ v : Elem, (sdbArrayContains st.1 st.2 k v.text).1.1 = true ↔ Member hist v
  indexof : ∀ v : Elem, (sdbArrayContains st.1 st.2 k v.text).1.1 = true ↔
    0 ≤ (sdbArrayIndexof st.1 st.2 k v.text).1

theorem HasSet.holds {k : CStr} {st : Sdb × World} {L : List Elem}
    {hist : List (SetOp Elem)} (h : HasSet k st L) (hrep : Lists hist L) :
    HoldsSet k st hist where
  once A hA := by
    obtain ⟨-, -, -, htext⟩ := (Cell.of_some h.cell.memory hA).1
    rw [h.cell.text] at htext
    by_cases hL : L = []
    · rw [← htext, hL]
      exact List.nodup_cons.mpr ⟨List.not_mem_nil, List.nodup_nil⟩
    · rw [← htext, elements_joinElems hL]
      exact hrep.nodup
  contains v := by
    obtain ⟨c, hc⟩ := h.cell.arrayContains h.full v
    rw [hc, ← hrep.mem]
    exact decide_eq_true_iff
  indexof v := by
    obtain ⟨c, hc⟩ := h.cell.arrayContains h.full v
    rw [hc, h.cell.arrayIndexof h.full v]
    refine decide_eq_true_iff.trans ?_
    rw [← List.isSome_idxOf?]
    cases L.idxOf? v with
    | none => simp
    | some i => simp

/-- **Arrays are sets**: from an unset key that can be written, and with a counter that does not
come round, each state of a run holds the set, and each call reports whether it has changed it. -/
theorem arrays_are_sets {st : Sdb × World} (hm : st.1.Memory) {k : CStr} (hk : k.length < 0xff)
    (hlive : ¬ TimedOut st.1 st.2 k) (hget : sdbGet st.1 st.2 k = none)
    (hcount : counterOf (sdbHtFindKvp st.1 k) < 2 ^ 31) {ops : List (SetOp Elem)}
    (hlen : ops.length < 2 ^ 31)
    (hops : ∀ (n : Nat) op, ops[n]? = some op → op.Fits (stateAfter SetOp.apply [] ops n))
    {n : Nat} (hn : n ≤ ops.length) :
    HoldsSet k (stateAfter (setCall k) st ops n) (ops.take n) ∧
      ∀ op, ops[n]? = some op →
        ((setCall k (stateAfter (setCall k) st ops n) op).1 = false ↔ op.Idle (ops.take n)) := by
  have hcell : Cell st k (joinElems []) := Cell.of_read hm hk hlive hget
  have hset : HasSet k (stateAfter (setCall k) st ops n) (stateAfter SetOp.apply [] ops n) ∧
      counterOf (sdbHtFindKvp (stateAfter (setCall k) st ops n).1 k) ≤
        counterOf (sdbHtFindKvp st.1 k) + n + 1 := by
    refine stateAfter_counted (R := fun n st' L ↦ HasSet k st' L ∧
      counterOf (sdbHtFindKvp st'.1 k) ≤ counterOf (sdbHtFindKvp st.1 k) + n + 1)
      ⟨⟨hcell, List.not_mem_nil⟩, Nat.le_succ _⟩ (fun n op hop h ↦ ?_) hn
    have hle := h.1.call_counter (hops n op hop)
    exact ⟨h.1.call (hops n op hop), by have := h.2; omega⟩
  have hrep := lists_stateAfter ops hn
  refine ⟨hset.1.holds hrep, fun op hop ↦ ?_⟩
  have hlt := (List.getElem?_eq_some_iff.mp hop).1
  rw [hset.1.call_report (hops n op hop) (by have := hset.2; omega)]
  exact hrep.idle_iff op

/-- The elements `a` and `ab`. -/
def elemA : Elem := ⟨CStr.ofBytes [97], by decide⟩

def elemAb : Elem := ⟨CStr.ofBytes [97, 98], by decide⟩

/-- A run that adds `ab` and `a` and removes `ab`. -/
theorem arrays_are_sets_ab :
    HoldsSet (CStr.ofBytes [107]) (stateAfter (setCall (CStr.ofBytes [107])) (sdbNew0, .empty)
      [.add elemAb, .add elemA, .remove elemAb] 3) [.add elemAb, .add elemA, .remove elemAb] :=
  (@arrays_are_sets (sdbNew0, .empty) Sdb.Memory.new0 (CStr.ofBytes [107]) (by decide)
    (fun h ↦ absurd h.1 (by decide)) (by decide) (by decide)
    [.add elemAb, .add elemA, .remove elemAb] (by decide)
    (fun n op hop ↦ by
      match n with
      | 0 => cases hop; exact ⟨by decide, by decide⟩
      | 1 => cases hop; exact ⟨by decide, by decide⟩
      | 2 => cases hop; exact ⟨by decide, by decide⟩
      | _ + 3 => cases hop) 3 (by decide)).1

theorem Sdb.Memory.arrayAdd_long {s : Sdb} (h : s.Memory) (w : World) {k : CStr}
    (hk : 0xff ≤ k.length) (v : CStr) : sdbArrayAdd s w k v 0 = (false, s, w) := by
  have hget := h.constGetLen_long w hk
  have hcont : sdbArrayContains s w k v = ((false, 0), s, w) := by
    rw [sdbArrayContains, hget]
    rfl
  rw [sdbArrayAdd, hcont]
  dsimp only
  rw [if_neg (by decide), sdbArrayInsert, if_pos rfl, sdbArrayInsertLast, hget]
  exact sdbSet_long w hk s v 0

/-- The unset key `k`, with the last counter before 0. -/
def memWorn : Sdb × World := (memWith ⟨CStr.ofBytes [107], some CStr.empty, 4294967295, 0⟩, .empty)

theorem memory_memWorn : memWorn.1.Memory :=
  memory_memWith (by decide) fun v hv ↦ by cases hv; decide

/-- A value is not there, and a call reports that it cannot be added: the key is too long, or its
counter comes round.  If the key has run out of time the value is added and is not found. -/
theorem set_not_written :
    (sdbNew0.Memory ∧ sdbGet sdbNew0 .empty (letters 255) = none ∧
      (setCall (letters 255) (sdbNew0, .empty) (.add elemA)).1 = false ∧
      ¬ SetOp.Idle [] (.add elemA)) ∧
    (memWorn.1.Memory ∧ sdbGet memWorn.1 memWorn.2 (CStr.ofBytes [107]) = none ∧
      (setCall (CStr.ofBytes [107]) memWorn (.add elemA)).1 = false ∧
      ¬ SetOp.Idle [] (.add elemA)) ∧
    (memStale.1.Memory ∧ sdbGet memStale.1 memStale.2 (CStr.ofBytes [107]) = none ∧
      (let st := (setCall (CStr.ofBytes [107]) memStale (.add elemA)).2
       (sdbArrayContains st.1 st.2 (CStr.ofBytes [107]) elemA.text).1.1 = false) ∧
      Member [.add elemA] elemA) := by
  have hk : 0xff ≤ (letters 255).length := Nat.le_of_eq (length_letters 255).symm
  have hidle : ¬ SetOp.Idle [] (.add elemA) := not_member_nil elemA
  refine ⟨⟨Sdb.Memory.new0, ?_, ?_, hidle⟩, ⟨memory_memWorn, by decide, by decide, hidle⟩,
    memory_memStale, by decide, by decide, [], [], rfl, List.not_mem_nil⟩
  · rw [sdbGet, Sdb.Memory.new0.constGetLen_long .empty hk]
    rfl
  · rw [setCall, Sdb.Memory.new0.arrayAdd_long .empty hk]

end SdbStore
