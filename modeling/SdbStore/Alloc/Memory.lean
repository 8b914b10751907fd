import Mathlib.Logic.Function.Basic
import Mathlib.Tactic.Common

/-!
# The memory of the allocator

The memory that the allocator of `heap.c` has mapped, word by word: a word holds a header or a
footer of a block, a link of the list of free blocks, or data.  What is read must be what the code
takes it for, and must be mapped; else the call has no result.  An address is a number, and 0 is
`NULL`.
-/

namespace SdbStore.Alloc

/-- `Header`. -/
structure Header where
  size : Nat
  free : Bool
  hasPrev : Bool
  hasNext : Bool
deriving DecidableEq

/-- `Footer`. -/
structure Footer where
  size : Nat
  free : Bool
deriving DecidableEq

/-- Eight bytes of memory. -/
inductive Word where
  | header (b : Header)
  | footer (f : Footer)
  | ptr (p : Nat)
  | data (w : UInt64)
deriving DecidableEq

/-- A memory, by addresses; one that is not mapped has no word. -/
abbrev Mem := Nat → Option Word

/-- The addresses that are mapped. -/
def Mem.mapped (m : Mem) : Set Nat := { x | (m x).isSome }

/-- A memory with another word. -/
def Mem.set (m : Mem) (x : Nat) (w : Word) : Mem := Function.update m x (some w)

/-- `SdbHeap`, with the memory behind it.  `range` is kept for what is said about the heap: it
numbers the ranges that have been mapped, where a mapping that begins at `last_address` belongs to
the range that ends there. -/
structure SdbHeap where
  mem : Mem
  range : Nat → Nat
  ranges : Nat
  lastAddress : Nat
  freeListStart : Nat
  lastMappedSize : Nat

/-- A word is read. -/
def SdbHeap.load (h : SdbHeap) (x : Nat) : Option Word := if x % 8 = 0 then h.mem x else none

/-- A word is written. -/
def SdbHeap.store (h : SdbHeap) (x : Nat) (w : Word) : Option SdbHeap :=
  if x % 8 = 0 ∧ (h.mem x).isSome then some { h with mem := h.mem.set x w } else none

/-- The header at an address. -/
def SdbHeap.header (h : SdbHeap) (p : Nat) : Option Header :=
  match h.load p with
  | some (.header b) => some b
  | _ => none

/-- The footer at an address. -/
def SdbHeap.footer (h : SdbHeap) (p : Nat) : Option Footer :=
  match h.load p with
  | some (.footer f) => some f
  | _ => none

/-- The pointer at an address. -/
def SdbHeap.ptr (h : SdbHeap) (p : Nat) : Option Nat :=
  match h.load p with
  | some (.ptr q) => some q
  | _ => none

/-- Fields of the header at an address are written. -/
def SdbHeap.setHeader (h : SdbHeap) (p : Nat) (f : Header → Header) : Option SdbHeap := do
  let b ← h.header p
  h.store p (.header (f b))

/-- `memcpy` of whole words, from the first one on. -/
def copyWords (h : SdbHeap) (dst src : Nat) : Nat → Option SdbHeap
  | 0 => some h
  | n + 1 => do
      let h ← copyWords h dst src n
      let w ← h.load (src + 8 * n)
      h.store (dst + 8 * n) w

/-- `memcpy`, where the size is a multiple of a word. -/
def memcpy (h : SdbHeap) (dst src : Nat) (n : Nat) : Option SdbHeap :=
  if n % 8 = 0 then copyWords h dst src (n / 8) else none

/-- A mapping of `bytes` bytes that the system has made at `r`. -/
def SdbHeap.map (h : SdbHeap) (r bytes : Nat) : SdbHeap :=
  { h with
    mem := fun x ↦ if r ≤ x ∧ x < r + bytes then some (.data 0) else h.mem x
    range := fun x ↦
      if r ≤ x ∧ x < r + bytes then if r = h.lastAddress then h.range (r - 1) else h.ranges
      else h.range x
    ranges := h.ranges + 1 }

/-- `munmap`. -/
def SdbHeap.munmap (h : SdbHeap) (r bytes : Nat) : SdbHeap :=
  { h with mem := fun x ↦ if r ≤ x ∧ x < r + bytes then none else h.mem x }

end SdbStore.Alloc
