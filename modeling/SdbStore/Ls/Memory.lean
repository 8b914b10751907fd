import Mathlib.Logic.Function.Basic
import Mathlib.Tactic.Common

/-!
# The memory of the lists

The memory that the linked lists of `ls.c` are in: nodes and lists, by their addresses.  An address
is a number, and 0 is `NULL`.  What is read or written must be there; else the call has no result.
-/

namespace SdbStore.Ls

/-- `SdbListIter`. -/
structure SdbListIter (α : Type) where
  data : Option α
  n : Nat
  p : Nat
deriving DecidableEq

/-- `SdbList`.  `free` says whether there is a function that frees an element, and `cmp` is the
pointer to a comparator. -/
structure SdbList (κ : Type) where
  length : Nat
  head : Nat
  tail : Nat
  free : Bool
  cmp : Option κ
  sorted : Bool
deriving DecidableEq

/-- A memory.  `freed` are the elements that have been freed, in order. -/
structure Mem (α κ : Type) where
  iters : Nat → Option (SdbListIter α)
  lists : Nat → Option (SdbList κ)
  freed : List α

variable {α κ : Type}

/-- A memory with nothing in it. -/
def Mem.empty : Mem α κ := ⟨fun _ ↦ none, fun _ ↦ none, []⟩

instance : Inhabited (Mem α κ) := ⟨.empty⟩

/-- The node at an address. -/
def Mem.iter (m : Mem α κ) (a : Nat) : Option (SdbListIter α) := if a = 0 then none else m.iters a

/-- The list at an address. -/
def Mem.list (m : Mem α κ) (a : Nat) : Option (SdbList κ) := if a = 0 then none else m.lists a

/-- A memory with other fields in a node. -/
def Mem.modIter (m : Mem α κ) (a : Nat) (f : SdbListIter α → SdbListIter α) : Mem α κ :=
  { m with iters := Function.update m.iters a ((m.iters a).map f) }

/-- A memory with other fields in a list. -/
def Mem.modList (m : Mem α κ) (a : Nat) (f : SdbList κ → SdbList κ) : Mem α κ :=
  { m with lists := Function.update m.lists a ((m.lists a).map f) }

/-- Fields of a node are written. -/
def Mem.setIter (m : Mem α κ) (a : Nat) (f : SdbListIter α → SdbListIter α) : Option (Mem α κ) :=
  if (m.iter a).isSome then some (m.modIter a f) else none

/-- Fields of a list are written. -/
def Mem.setList (m : Mem α κ) (a : Nat) (f : SdbList κ → SdbList κ) : Option (Mem α κ) :=
  if (m.list a).isSome then some (m.modList a f) else none

/-- A node is allocated. -/
def Mem.newIter (m : Mem α κ) (a : Nat) (it : SdbListIter α) : Mem α κ :=
  { m with iters := Function.update m.iters a (some it) }

/-- A memory without a node. -/
def Mem.dropIter (m : Mem α κ) (a : Nat) : Mem α κ :=
  { m with iters := Function.update m.iters a none }

/-- `sdb_gh_free` of a node. -/
def Mem.freeIter (m : Mem α κ) (a : Nat) : Option (Mem α κ) :=
  if (m.iter a).isSome then some (m.dropIter a) else none

/-- A length is a `size_t`. -/
def sizeT (n : Nat) : Nat := n % 18446744073709551616

/-- `length++`. -/
def lengthInc (n : Nat) : Nat := sizeT (n + 1)

/-- `length--`. -/
def lengthDec (n : Nat) : Nat := sizeT (n + 18446744073709551615)

end SdbStore.Ls
