import SdbStore.Ls
import SdbStore.Ls.Memory

/-!
# Linked lists

`ls.c`, function by function.  A call has no result when it reads or writes something that is not
there, and nothing is said of a loop that does not come to an end.  The addresses that `malloc`
returns are given to the calls that need them; 0 says that there is no memory left.  A counter that
is an `int` comes round.
-/

namespace SdbStore.Ls

variable {α κ : Type}

/-! ## Adding elements -/

/-- `ls_newf`, with a function that frees elements or with `NULL`, and `ls_new` in the second
case. -/
def lsNewf (m : Mem α κ) (list : Nat) (freefn : Bool) : Nat × Mem α κ :=
  if list = 0 then (0, m)
  else (list, { m with
    lists := Function.update m.lists list (some ⟨0, 0, 0, freefn, none, false⟩) })

/-- `ls_append`. -/
def lsAppend (m : Mem α κ) (list it : Nat) (data : Option α) : Option (Nat × Mem α κ) :=
  if list = 0 ∨ it = 0 then some (0, m)
  else do
    let l ← m.list list
    let m := m.newIter it { data := data, n := 0, p := l.tail }
    let m ← if l.tail ≠ 0 then m.setIter l.tail fun t ↦ { t with n := it } else some m
    let m ← m.setList list fun l ↦ { l with
      head := if l.head = 0 then it else l.head
      tail := it
      length := lengthInc l.length
      sorted := false }
    some (it, m)

/-- `ls_prepend`. -/
def lsPrepend (m : Mem α κ) (list it : Nat) (data : Option α) : Option (Nat × Mem α κ) :=
  if it = 0 then some (0, m)
  else do
    let l ← m.list list
    let m := m.newIter it { data := data, n := l.head, p := 0 }
    let m ← if l.head ≠ 0 then m.setIter l.head fun h ↦ { h with p := it } else some m
    let m ← m.setList list fun l ↦ { l with
      head := it
      tail := if l.tail = 0 then it else l.tail
      length := lengthInc l.length
      sorted := false }
    some (it, m)

/-- A turn of the loop of `ls_insert` and of the one of `ls_del_n`: the next node and its number, or
the node with the number `n`.  The loop ends at `NULL` and at an element that is `NULL`. -/
def nthTurn (m : Mem α κ) (n : BitVec 32) (v : Nat × BitVec 32) :
    Option ((Nat × BitVec 32) ⊕ Option Nat) :=
  if v.1 = 0 then some (.inr none)
  else do
    let it ← m.iter v.1
    if it.data.isNone then some (.inr none)
    else if v.2 = n then some (.inr (some v.1))
    else some (.inl (it.n, v.2 + 1))

/-- The loop of `ls_insert` and of `ls_del_n`. -/
def nth (m : Mem α κ) (n : BitVec 32) (head : Nat) : Option (Option Nat) :=
  repeatM (nthTurn m n) (head, 0)

/-- `ls_insert`. -/
def lsInsert (m : Mem α κ) (list : Nat) (n : BitVec 32) (it : Nat) (data : Option α) :
    Option (Nat × Mem α κ) :=
  if list = 0 then lsAppend m list it data
  else do
    let l ← m.list list
    if l.head = 0 ∨ n = 0 then lsPrepend m list it data
    else do
      match ← nth m n l.head with
      | none => lsAppend m list it data
      | some a =>
          if it = 0 then some (0, m)
          else do
            let b ← m.iter a
            let m := m.newIter it { data := data, n := a, p := b.p }
            let m ← if b.p ≠ 0 then m.setIter b.p fun c ↦ { c with n := it } else some m
            let m ← m.setIter a fun b ↦ { b with p := it }
            let m ← m.setList list fun l ↦ { l with length := lengthInc l.length, sorted := false }
            some (it, m)

/-- A turn of the loop of `ls_clone`; `its` are the addresses that are still to be returned. -/
def lsCloneTurn (r : Nat) (v : Mem α κ × Nat × List Nat) :
    Option ((Mem α κ × Nat × List Nat) ⊕ Mem α κ) :=
  let (m, iter, its) := v
  if iter = 0 then some (.inr m)
  else do
    let it ← m.iter iter
    if it.data.isNone then some (.inr m)
    else do
      let a ← lsAppend m r (its.headD 0) it.data
      let it ← a.2.iter iter
      some (.inl (a.2, it.n, its.tail))

/-- `ls_clone`. -/
def lsClone (m : Mem α κ) (list r : Nat) (its : List Nat) : Option (Nat × Mem α κ) :=
  if list = 0 ∨ r = 0 then some (0, m)
  else do
    let m := (lsNewf m r false).2
    let l ← m.list list
    let m ← repeatM (lsCloneTurn r) (m, l.head, its)
    some (r, m)

/-- `ls_join`. -/
def lsJoin (m : Mem α κ) (list1 list2 : Nat) : Option (Bool × Mem α κ) :=
  if list1 = 0 ∨ list2 = 0 then some (false, m)
  else do
    let l2 ← m.list list2
    if l2.length = 0 then some (false, m)
    else do
      let l1 ← m.list list1
      let m ←
        if l1.length = 0 then m.setList list1 fun l ↦ { l with head := l2.head, tail := l2.tail }
        else do
          let m ← m.setIter l1.tail fun t ↦ { t with n := l2.head }
          let m ← m.setIter l2.head fun h ↦ { h with p := l1.tail }
          let m ← m.setList list1 fun l ↦ { l with tail := l2.tail }
          m.setIter l2.tail fun t ↦ { t with n := 0 }
      let m ← m.setList list1 fun l ↦ { l with length := sizeT (l.length + l2.length) }
      let m ← m.setList list2 fun l ↦ { l with head := 0, tail := 0 }
      let m ← m.setList list1 fun l ↦ { l with sorted := false }
      some (true, m)

/-! ## Removing elements -/

/-- `ls_split_iter`. -/
def lsSplitIter (m : Mem α κ) (list iter : Nat) : Option (Mem α κ) :=
  if list = 0 ∨ iter = 0 then some m
  else do
    let l ← m.list list
    let it ← m.iter iter
    let m ← if l.head = iter then m.setList list fun l ↦ { l with head := it.n } else some m
    let m ← if l.tail = iter then m.setList list fun l ↦ { l with tail := it.p } else some m
    let m ← if it.p ≠ 0 then m.setIter it.p fun p ↦ { p with n := it.n } else some m
    let m ← if it.n ≠ 0 then m.setIter it.n fun n ↦ { n with p := it.p } else some m
    m.setList list fun l ↦ { l with length := lengthDec l.length }

/-- `ls_delete`. -/
def lsDelete (m : Mem α κ) (list iter : Nat) : Option (Mem α κ) :=
  if list = 0 ∨ iter = 0 then some m
  else do
    let m ← lsSplitIter m list iter
    let l ← m.list list
    let it ← m.iter iter
    let m ←
      match it.data with
      | none => some m
      | some x =>
          if l.free then ({ m with freed := m.freed ++ [x] } : Mem α κ).setIter iter fun it ↦
            { it with data := none }
          else some m
    m.freeIter iter

/-- A turn of the loop of `ls_destroy`. -/
def lsDestroyTurn (list : Nat) (v : Mem α κ × Nat) : Option ((Mem α κ × Nat) ⊕ Mem α κ) :=
  if v.2 = 0 then some (.inr v.1)
  else do
    let it ← v.1.iter v.2
    let m ← lsDelete v.1 list v.2
    some (.inl (m, it.n))

/-- `ls_destroy`. -/
def lsDestroy (m : Mem α κ) (list : Nat) : Option (Mem α κ) :=
  if list = 0 then some m
  else do
    let l ← m.list list
    let m ← repeatM (lsDestroyTurn list) (m, l.head)
    m.setList list fun l ↦ { l with head := 0, tail := 0, length := 0 }

/-- `ls_pop`. -/
def lsPop (m : Mem α κ) (list : Nat) : Option (Option α × Mem α κ) :=
  if list = 0 then some (none, m)
  else do
    let l ← m.list list
    if l.tail = 0 then some (none, m)
    else do
      let it ← m.iter l.tail
      let m ←
        if l.head = l.tail then m.setList list fun l ↦ { l with head := 0, tail := 0 }
        else do
          let m ← m.setList list fun l ↦ { l with tail := it.p }
          m.setIter it.p fun t ↦ { t with n := 0 }
      let m ← m.freeIter l.tail
      let m ← m.setList list fun l ↦ { l with length := lengthDec l.length }
      some (it.data, m)

/-- `ls_pop_head`. -/
def lsPopHead (m : Mem α κ) (list : Nat) : Option (Option α × Mem α κ) :=
  if list = 0 then some (none, m)
  else do
    let l ← m.list list
    if l.head = 0 then do
      let m ← m.setList list fun l ↦ { l with length := lengthDec l.length }
      some (none, m)
    else do
      let it ← m.iter l.head
      let m ←
        if l.head = l.tail then m.setList list fun l ↦ { l with head := 0, tail := 0 }
        else do
          let m ← m.setList list fun l ↦ { l with head := it.n }
          m.setIter it.n fun h ↦ { h with p := 0 }
      let m ← m.freeIter l.head
      let m ← m.setList list fun l ↦ { l with length := lengthDec l.length }
      some (it.data, m)

/-- `ls_del_n`. -/
def lsDelN (m : Mem α κ) (list : Nat) (n : BitVec 32) : Option (Bool × Mem α κ) :=
  if list = 0 then some (false, m)
  else do
    let l ← m.list list
    match ← nth m n l.head with
    | none => some (false, m)
    | some a => do
        let it ← m.iter a
        let m ←
          if it.p = 0 ∧ it.n = 0 then m.setList list fun l ↦ { l with head := 0, tail := 0 }
          else if it.p = 0 then do
            let m ← m.setIter it.n fun n ↦ { n with p := 0 }
            m.setList list fun l ↦ { l with head := it.n }
          else if it.n = 0 then do
            let m ← m.setIter it.p fun p ↦ { p with n := 0 }
            m.setList list fun l ↦ { l with tail := it.p }
          else do
            let m ← m.setIter it.p fun p ↦ { p with n := it.n }
            m.setIter it.n fun n ↦ { n with p := it.p }
        let m ← m.freeIter a
        let m ← m.setList list fun l ↦ { l with length := lengthDec l.length }
        some (true, m)

/-! ## Sorting -/

/-- A turn of the inner loop of `ls_insertion_sort_iter`. -/
def exchangeTurn (cmp : α → α → Int) (it : Nat) (v : Mem α κ × Nat) :
    Option ((Mem α κ × Nat) ⊕ Mem α κ) :=
  let (m, it2) := v
  if it2 = 0 then some (.inr m)
  else do
    let b ← m.iter it2
    match b.data with
    | none => some (.inr m)
    | some y => do
        let a ← m.iter it
        let x ← a.data
        let m ←
          if cmp x y > 0 then do
            let m ← m.setIter it fun a ↦ { a with data := some y }
            m.setIter it2 fun b ↦ { b with data := some x }
          else some m
        some (.inl (m, b.n))

/-- A turn of the loop of `ls_insertion_sort_iter`. -/
def lsInsertionSortTurn (cmp : α → α → Int) (v : Mem α κ × Nat) :
    Option ((Mem α κ × Nat) ⊕ Mem α κ) :=
  let (m, it) := v
  if it = 0 then some (.inr m)
  else do
    let a ← m.iter it
    if a.data.isNone then some (.inr m)
    else do
      let m ← repeatM (exchangeTurn cmp it) (m, a.n)
      some (.inl (m, a.n))

/-- `ls_insertion_sort_iter`. -/
def lsInsertionSortIter (cmp : α → α → Int) (m : Mem α κ) (iter : Nat) : Option (Mem α κ) :=
  repeatM (lsInsertionSortTurn cmp) (m, iter)

/-- The variables of `_merge`. -/
structure MergeVars where
  first : Nat
  second : Nat
  next : Nat
  result : Nat
  head : Nat
deriving DecidableEq

/-- The choice that `_merge` makes. -/
def mergeNext (cmp : α → α → Int) (m : Mem α κ) (v : MergeVars) : Option MergeVars := do
  let left ←
    if v.second = 0 then some true
    else if v.first = 0 then some false
    else do
      let a ← m.iter v.first
      let b ← m.iter v.second
      let x ← a.data
      let y ← b.data
      some (decide (cmp x y ≤ 0))
  if left then do
    let a ← m.iter v.first
    some { v with next := v.first, first := a.n }
  else do
    let b ← m.iter v.second
    some { v with next := v.second, second := b.n }

/-- A turn of the loop of `_merge`, and what follows the loop. -/
def mergeTurn (cmp : α → α → Int) (s : Mem α κ × MergeVars) :
    Option ((Mem α κ × MergeVars) ⊕ (Nat × Mem α κ)) :=
  let (m, v) := s
  if v.first = 0 ∧ v.second = 0 then do
    let m ← if v.head ≠ 0 then m.setIter v.head fun h ↦ { h with p := 0 } else some m
    let m ← if v.next ≠ 0 then m.setIter v.next fun a ↦ { a with n := 0 } else some m
    some (.inr (v.head, m))
  else do
    let v ← mergeNext cmp m v
    if v.head = 0 then do
      let m ← m.setIter v.next fun a ↦ { a with p := 0 }
      some (.inl (m, { v with result := v.next, head := v.next }))
    else do
      let m ← m.setIter v.result fun r ↦ { r with n := v.next }
      let m ← m.setIter v.next fun a ↦ { a with p := v.result }
      let r ← m.iter v.result
      some (.inl (m, { v with result := r.n }))

/-- `_merge`. -/
def merge (cmp : α → α → Int) (m : Mem α κ) (first second : Nat) : Option (Nat × Mem α κ) :=
  repeatM (mergeTurn cmp) (m, ⟨first, second, 0, 0, 0⟩)

/-- A turn of the loop of `_sdb_list_split`: `fast`, `slow` and `count`. -/
def splitTurn (m : Mem α κ) (v : Nat × Nat × BitVec 32) :
    Option ((Nat × Nat × BitVec 32) ⊕ (Nat × BitVec 32)) :=
  let (fast, slow, count) := v
  if fast = 0 then some (.inr (slow, count))
  else do
    let f ← m.iter fast
    if f.n = 0 then some (.inr (slow, count))
    else do
      let g ← m.iter f.n
      if g.n = 0 then some (.inr (slow, count))
      else do
        let s ← m.iter slow
        some (.inl (g.n, s.n, count + 1))

/-- `_sdb_list_split`. -/
def sdbListSplit (m : Mem α κ) (head : Nat) : Option (Nat × Mem α κ) :=
  if head = 0 then some (head, m)
  else do
    let h ← m.iter head
    if h.n = 0 then some (head, m)
    else do
      let (slow, count) ← repeatM (splitTurn m) (head, head, 0)
      if count.toInt < mergelimit then some (0, m)
      else do
        let s ← m.iter slow
        let m ← m.setIter slow fun s ↦ { s with n := 0 }
        some (s.n, m)

/-- `_merge_sort`, when its calls may be nested `depth` deep. -/
def mergeSort (cmp : α → α → Int) : Nat → Mem α κ → Nat → Option (Nat × Mem α κ)
  | 0, _, _ => none
  | depth + 1, m, head =>
      if head = 0 then some (head, m)
      else do
        let h ← m.iter head
        if h.n = 0 then some (head, m)
        else do
          let (second, m) ← sdbListSplit m head
          if second ≠ 0 then do
            let (head, m) ← mergeSort cmp depth m head
            let (second, m) ← mergeSort cmp depth m second
            merge cmp m head second
          else do
            let m ← lsInsertionSortIter cmp m head
            some (head, m)

/-- A turn of the loop of `ls_merge_sort` that looks for the tail. -/
def tailTurn (m : Mem α κ) (iter : Nat) : Option (Nat ⊕ Nat) :=
  if iter = 0 then some (.inr iter)
  else do
    let it ← m.iter iter
    if it.n = 0 then some (.inr iter) else some (.inl it.n)

/-- `ls_merge_sort`; `call` is what the comparators do.  Nothing that fits into memory needs calls
of `_merge_sort` that are nested deeper than 64. -/
def lsMergeSort (call : κ → α → α → Int) (m : Mem α κ) (list : Nat) (cmp : Option κ) :
    Option (Bool × Mem α κ) :=
  match cmp with
  | none => some (false, m)
  | some cmp =>
      if list = 0 then some (true, m)
      else do
        let l ← m.list list
        if l.head = 0 then some (true, m)
        else do
          let (head, m) ← mergeSort (call cmp) 64 m l.head
          let m ← m.setList list fun l ↦ { l with head := head }
          let tail ← repeatM (tailTurn m) head
          let m ← m.setList list fun l ↦ { l with tail := tail, sorted := true }
          some (true, m)

/-- `ls_insertion_sort`. -/
def lsInsertionSort (cmp : α → α → Int) (m : Mem α κ) (list : Nat) : Option (Mem α κ) := do
  let l ← m.list list
  lsInsertionSortIter cmp m l.head

/-- `ls_sort`. -/
def lsSort [DecidableEq κ] (call : κ → α → α → Int) (m : Mem α κ) (list : Nat) (cmp : Option κ) :
    Option (Bool × Mem α κ) :=
  match cmp with
  | none => some (false, m)
  | some cmp =>
      if list = 0 then some (false, m)
      else do
        let l ← m.list list
        if l.cmp = some cmp then some (false, m)
        else do
          let m ←
            if l.length > mergelimit then (lsMergeSort call m list (some cmp)).map Prod.snd
            else lsInsertionSort (call cmp) m list
          let m ← m.setList list fun l ↦ { l with cmp := some cmp, sorted := true }
          some (true, m)

end SdbStore.Ls
