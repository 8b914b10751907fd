import SdbStore.Array.Lists
import SdbStore.Lib.Simulation

/-!
# Arrays are stacks

`sdb_array_push` puts an element in front of the others and `sdb_array_pop` takes the first one.
An empty array and one with an empty element are the same string, so the element at the bottom of
a stack must not be empty: with that, every run answers as the stack does (`stackOp_simulates`).

A key that is too long, or that has run out of time, cannot be written; what is pushed there is
gone.
-/

namespace SdbStore

open Lib

/-! ## More of `array.c` -/

/-- `sdb_array_push`, with `PUSH_PREPENDS`. -/
def sdbArrayPush (s : Sdb) (w : World) (key val : CStr) (cas : Nat) : Bool × Sdb × World :=
  sdbArrayPrepend s w key val cas

/-- `sdb_array_pop_head`: the first element, and the counter of the key. -/
def sdbArrayPopHead (s : Sdb) (w : World) (key : CStr) : Option (CStr × Nat) × Sdb × World :=
  let r := sdbConstGetLen s w key
  match r.1.value with
  | none => (none, r.2)
  | some str =>
      if str = CStr.empty then (none, r.2)
      else
        match str.val.idxOf? sdbRs with
        | some n =>
            (some (CStr.ofBytes (str.val.take n), r.1.cas),
              (sdbSet r.2.1 r.2.2 key (CStr.ofBytes (str.val.drop (n + 1))) 0).2)
        | none => (some (str, r.1.cas), (sdbUnset r.2.1 r.2.2 key 0).2)

/-- `sdb_array_pop`, with `PUSH_PREPENDS`. -/
def sdbArrayPop (s : Sdb) (w : World) (key : CStr) : Option (CStr × Nat) × Sdb × World :=
  sdbArrayPopHead s w key

/-! ## What one call does -/

section Cell

variable {st : Sdb × World} {k : CStr}

/-- A pushed element is the first one. -/
theorem Cell.arrayPush {L : List Elem} (h : Cell st k (joinElems L))
    (hL : joinElems L = CStr.empty → L = []) {v : Elem}
    (hfit : (joinElems (v :: L)).length < 0xffffff) :
    Cell (sdbArrayPush st.1 st.2 k v.text 0).2 k (joinElems (v :: L)) := by
  obtain ⟨c, hget, hc⟩ := h.get
  rw [sdbArrayPush]
  by_cases hx : joinElems L = CStr.empty
  · rw [hL hx, joinElems_singleton] at hfit ⊢
    rw [sdbArrayPrepend, hget, hx]
    exact h.write hfit false hc
  · have hstr : v.text ++ (CStr.ofBytes [sdbRs] ++ joinElems L) = joinElems (v :: L) := by
      apply CStr.ext
      rw [val_joinElems, List.map_cons, joinSep_cons,
        led_eq sdbRs (map_bytes_ne_nil (ne_nil_of_join hx))]
      rfl
    rw [(h.located hx).run_prepend (.inl rfl), hstr, hget]
    exact h.write hfit true hc

/-- It is the first one that is popped. -/
theorem Cell.arrayPop {e : Elem} {L : List Elem} (h : Cell st k (joinElems (e :: L)))
    (hL : joinElems (e :: L) ≠ CStr.empty) :
    (sdbArrayPop st.1 st.2 k).1.map Prod.fst = some e.text ∧
      Cell (sdbArrayPop st.1 st.2 k).2 k (joinElems L) := by
  obtain ⟨c, hget⟩ := h.getElems hL
  have hlen := h.length_lt
  rw [sdbArrayPop, sdbArrayPopHead, hget]
  dsimp only
  rw [if_neg hL]
  cases L with
  | nil =>
      rw [joinElems_singleton] at hget ⊢
      rw [List.idxOf?_eq_none_iff.mpr e.noSep]
      exact ⟨rfl, h.write (by decide) false (.inl rfl)⟩
  | cons d L =>
      have hval : (joinElems (e :: d :: L)).val =
          e.bytes ++ led sdbRs ((d :: L).map Elem.bytes) := by
        rw [val_joinElems, List.map_cons, joinSep_cons]
      have hdrop : (joinElems (e :: d :: L)).val.drop (e.bytes.length + 1) =
          (joinElems (d :: L)).val := by
        have hnext := drop_split_next [] e L d
        rwa [List.map_nil, ended_nil, List.length_nil, Nat.zero_add] at hnext
      have hfit : (joinElems (d :: L)).length < 0xffffff := by
        rw [CStr.length, ← hdrop, List.length_drop]
        rw [CStr.length] at hlen
        omega
      have hidx := idxOf?_field e.sep_notMem (map_bytes_ne_nil (List.cons_ne_nil d L))
      rw [← hval] at hidx
      rw [hidx]
      dsimp only
      rw [hdrop, hval, List.take_left, CStr.ofBytes_val]
      exact ⟨congrArg some (CStr.ofBytes_val e.text), h.write hfit false (.inl rfl)⟩

/-- Nothing is popped from an empty string. -/
theorem Cell.arrayPop_empty (h : Cell st k CStr.empty) : sdbArrayPop st.1 st.2 k = (none, st) := by
  obtain ⟨c, hget, -⟩ := h.get
  rw [sdbArrayPop, sdbArrayPopHead, hget]
  rfl

end Cell

/-! ## Runs of a stack -/

/-- The calls on a stack. -/
inductive StackOp where
  | push (v : Elem)
  | pop
deriving DecidableEq

/-- One call on the array of a key; only `sdb_array_pop` answers with a string. -/
def StackOp.run (k : CStr) (st : Sdb × World) : StackOp → Option CStr × Sdb × World
  | .push v => (none, (sdbArrayPush st.1 st.2 k v.text 0).2)
  | .pop =>
      let r := sdbArrayPop st.1 st.2 k
      (r.1.map Prod.fst, r.2)

/-- One call on a stack. -/
def StackOp.apply (L : List Elem) : StackOp → Option CStr × List Elem
  | .push v => (none, v :: L)
  | .pop => (L.head?.map Elem.text, L.tail)

/-- The first element of a stack is not empty, and the string of the stack is not too long. -/
def StackOp.Ok (L : List Elem) : StackOp → Prop
  | .push v => (L = [] → v ≠ Elem.empty) ∧ (joinElems (v :: L)).length < 0xffffff
  | .pop => True

/-- The element at the bottom is not empty. -/
def Grounded (L : List Elem) : Prop := ∀ e, L.getLast? = some e → e ≠ Elem.empty

/-- The key has the string of a stack. -/
structure HasStack (k : CStr) (st : Sdb × World) (L : List Elem) : Prop where
  cell : Cell st k (joinElems L)
  grounded : Grounded L

theorem Grounded.ne {L : List Elem} (h : Grounded L) (hjoin : joinElems L = CStr.empty) :
    L = [] := by
  rcases joinElems_eq_empty.mp hjoin with rfl | rfl
  · rfl
  · exact absurd rfl (h Elem.empty rfl)

theorem Grounded.push {L : List Elem} (h : Grounded L) {v : Elem} (hv : L = [] → v ≠ Elem.empty) :
    Grounded (v :: L) := by
  intro e he
  cases L with
  | nil =>
      cases he
      exact hv rfl
  | cons d L =>
      rw [List.getLast?_cons_cons] at he
      exact h e he

theorem Grounded.tail {L : List Elem} (h : Grounded L) : Grounded L.tail := by
  intro e he
  cases L with
  | nil => cases he
  | cons d L =>
      cases L with
      | nil => cases he
      | cons c L => exact h e (List.getLast?_cons_cons.trans he)

/-- **One call** answers as the stack does. -/
theorem stackOp_simulates (k : CStr) :
    Simulates (HasStack k) (fun _ L op ↦ op.Ok L) (StackOp.run k) StackOp.apply := by
  rintro st L op ⟨hcell, hground⟩ hok
  cases op with
  | push v => exact ⟨rfl, hcell.arrayPush hground.ne hok.2, hground.push hok.1⟩
  | pop =>
      cases L with
      | nil =>
          rw [joinElems_nil] at hcell
          rw [StackOp.run, hcell.arrayPop_empty]
          exact ⟨rfl, hcell, hground⟩
      | cons e L =>
          have hne : joinElems (e :: L) ≠ CStr.empty :=
            fun hno ↦ absurd (hground.ne hno) (List.cons_ne_nil e L)
          obtain ⟨hret, hcell'⟩ := hcell.arrayPop hne
          exact ⟨hret, hcell', hground.tail⟩

/-- The elements of a string, as a stack. -/
def stackOf (A : CStr) : List Elem := if A = CStr.empty then [] else elements A

@[simp] theorem joinElems_stackOf (A : CStr) : joinElems (stackOf A) = A := by
  rw [stackOf]
  split
  · next h => rw [h, joinElems_nil]
  · exact joinElems_elements A

/-- The array of a key is a stack: from any stack on, each run of calls answers as the stack does
and leaves its string, and what is pushed on any string and popped again leaves the string. -/
structure IsLifo (st : Sdb × World) (k : CStr) : Prop where
  run : ∀ L, Grounded L → sdbGet st.1 st.2 k = readAs (joinElems L) → ∀ ops : List StackOp,
    (∀ (n : Nat) (op : StackOp), ops[n]? = some op → op.Ok (stateAfter StackOp.apply L ops n)) →
    (runOps (StackOp.run k) st ops).1 = (runOps StackOp.apply L ops).1 ∧
      let end' := (runOps (StackOp.run k) st ops).2
      sdbGet end'.1 end'.2 k = readAs (joinElems (runOps StackOp.apply L ops).2)
  restore : ∀ (A : CStr) (v : Elem), sdbGet st.1 st.2 k = readAs A →
    (A = CStr.empty → v ≠ Elem.empty) → (joinElems (v :: stackOf A)).length < 0xffffff →
    let pushed := (sdbArrayPush st.1 st.2 k v.text 0).2
    let popped := sdbArrayPop pushed.1 pushed.2 k
    popped.1.map Prod.fst = some v.text ∧ sdbGet popped.2.1 popped.2.2 k = sdbGet st.1 st.2 k

/-- **Arrays are stacks**, under a key in memory that can be written. -/
theorem arrays_are_stacks {st : Sdb × World} (hm : st.1.Memory) {k : CStr} (hk : k.length < 0xff)
    (hlive : ¬ TimedOut st.1 st.2 k) : IsLifo st k where
  run L hground hget ops hops := by
    have hcell : Cell st k (joinElems L) := Cell.of_read hm hk hlive hget
    obtain ⟨hres, hend⟩ := (stackOp_simulates k).run ⟨hcell, hground⟩ hops
    have hlast := hend ops.length
    rw [stateAfter, stateAfter, List.take_length] at hlast
    exact ⟨hres, hlast.cell.sdbGet⟩
  restore A v hget hv hfit := by
    have hcell : Cell st k A := Cell.of_read hm hk hlive hget
    rw [← joinElems_stackOf A] at hcell
    have hpush := hcell.arrayPush (v := v) (fun hno ↦ if_pos ((joinElems_stackOf A) ▸ hno)) hfit
    have hne : joinElems (v :: stackOf A) ≠ CStr.empty := by
      intro hno
      rcases joinElems_eq_empty.mp hno with hno | hno
      · exact absurd hno (List.cons_ne_nil _ _)
      · obtain ⟨hv', hA⟩ := List.cons.inj hno
        refine hv ?_ hv'
        rw [← joinElems_stackOf A, hA, joinElems_nil]
    obtain ⟨hret, hcell'⟩ := hpush.arrayPop hne
    refine ⟨hret, ?_⟩
    rw [hget]
    exact joinElems_stackOf A ▸ hcell'.sdbGet

/-- The array `a,,b` is a stack. -/
theorem memArray_isLifo : IsLifo memArray (CStr.ofBytes [107]) :=
  arrays_are_stacks memory_memArray (by decide) fun h ↦ absurd h.1 (by decide)

section Long

variable {s : Sdb} (h : s.Memory) (w : World) {k : CStr} (hk : 0xff ≤ k.length)
include h hk

theorem Sdb.Memory.arrayPush_long (v : CStr) : (sdbArrayPush s w k v 0).2 = (s, w) := by
  rw [sdbArrayPush, sdbArrayPrepend, h.constGetLen_long w hk]
  exact congrArg Prod.snd (sdbSet_long w hk s v 0)

theorem Sdb.Memory.arrayPop_long : sdbArrayPop s w k = (none, s, w) := by
  rw [sdbArrayPop, sdbArrayPopHead, h.constGetLen_long w hk]
  rfl

/-- Nothing is pushed under a key that is too long. -/
theorem Sdb.Memory.not_isLifo_long : ¬ IsLifo (s, w) k := by
  intro hlifo
  have hget : sdbGet s w k = none := by
    rw [sdbGet, h.constGetLen_long w hk]
    rfl
  have hno := (hlifo.restore CStr.empty ⟨CStr.ofBytes [97], by decide⟩ hget (fun _ ↦ by decide)
    (by decide)).1
  dsimp only at hno
  rw [h.arrayPush_long w hk, h.arrayPop_long w hk] at hno
  cases hno

end Long

/-- What is pushed under a key that is too long is not there, and what is pushed under one that has
run out of time is not seen. -/
theorem pushed_is_lost :
    (sdbNew0.Memory ∧ ¬ IsLifo (sdbNew0, .empty) (letters 255)) ∧
      memStale.1.Memory ∧ ¬ IsLifo memStale (CStr.ofBytes [107]) := by
  have hk : 0xff ≤ (letters 255).length := Nat.le_of_eq (length_letters 255).symm
  refine ⟨⟨Sdb.Memory.new0, Sdb.Memory.new0.not_isLifo_long .empty hk⟩, memory_memStale, fun h ↦ ?_⟩
  exact absurd (h.restore CStr.empty ⟨CStr.ofBytes [97], by decide⟩ (by decide) (fun _ ↦ by decide)
    (by decide)).1 (by decide)

end SdbStore
