import Mathlib.Order.CompletePartialOrder
import SdbStore.Alloc.Calls
import SdbStore.Lib.Runs

/-!
# A program with its heap

A program calls `sdb_heap_realloc` to be given memory, to have it made larger or smaller and to give
it back, and writes to what it has been given.  It passes only pointers that are live, and the
system maps only memory that is not mapped.

`Contract` is what the program can rely on, and how the heap looks in every state that a run leads
to (`contract_of_run`).
-/

namespace SdbStore.Alloc

open Lib

/-- A program with its heap: `live` are the sizes that it has asked for, by the pointers that it
has been given. -/
structure Program where
  heap : SdbHeap
  live : Nat → Option Nat

/-- What a program does. -/
inductive Action where
  | realloc (mmap : Nat → Option Nat) (ptr size : Nat)
  | write (x : Nat) (w : Word)

/-- A program before it has asked for anything. -/
def Program.init : Program := ⟨sdbHeapInit, fun _ ↦ none⟩

/-- The live pointers after a call has returned `p`. -/
def liveAfter (live : Nat → Option Nat) (ptr size p : Nat) : Nat → Option Nat :=
  if size = 0 then Function.update live ptr none
  else if p = 0 then live
  else Function.update (Function.update live ptr none) p (some size)

/-- A step of a program. -/
def Program.step (s : Program) : Action → Option Program
  | .realloc mmap ptr size => do
      let (p, h) ← sdbHeapRealloc s.heap mmap ptr size
      some ⟨h, liveAfter s.live ptr size p⟩
  | .write x w => do
      let h ← s.heap.store x w
      some ⟨h, s.live⟩

/-- A program passes pointers that are live, or `NULL`, and writes to live payloads. -/
def Program.Allowed (s : Program) : Action → Prop
  | .realloc mmap ptr _ => (ptr = 0 ∨ (s.live ptr).isSome) ∧ Fresh s.heap mmap
  | .write x _ => x % 8 = 0 ∧ ∃ p n, s.live p = some n ∧ p ≤ x ∧ x < p + n

/-- The payload behind a pointer. -/
def payload (p : Nat) (b : Header) : Set Nat := Set.Ico p (p + (b.size - metaSize))

/-- How the heap of a program looks. -/
structure Contract (s : Program) (B : Blocks) (fl : List Nat) : Prop where
  room : ∀ {p n}, s.live p = some n → ∃ b, p = addOffset (removeOffset p) ∧
    B (removeOffset p) = some b ∧ b.free = false ∧ n ≤ b.size - metaSize ∧
    payload p b ⊆ s.heap.mem.mapped
  apart : ∀ {p q b d}, (s.live p).isSome → (s.live q).isSome → B (removeOffset p) = some b →
    B (removeOffset q) = some d → p ≠ q → Disjoint (payload p b) (payload q d)
  used : ∀ {a b}, B a = some b → b.free = false → (s.live (addOffset a)).isSome
  tiling : Tiling Header.size B s.heap.mem.mapped
  range : ∀ {a b}, B a = some b → ∀ x, a ≤ x → x < a + b.size → s.heap.range x = s.heap.range a
  header : ∀ {a b}, B a = some b → s.heap.mem a = some (.header b)
  footer : ∀ {a b}, B a = some b → s.heap.mem (getFooter a b) = some (.footer ⟨b.size, b.free⟩)
  next : ∀ {a b}, B a = some b → (b.hasNext = true ↔
    a + b.size ∈ s.heap.mem.mapped ∧ s.heap.range (a + b.size) = s.heap.range a)
  prev : ∀ {a b}, B a = some b → (b.hasPrev = true ↔
    a - 1 ∈ s.heap.mem.mapped ∧ s.heap.range (a - 1) = s.heap.range a)
  list : Linked (nextOf s.heap.mem s.heap.freeListStart) (prevOf s.heap.mem) 0 0 (fl.map addOffset)
  nodup : fl.Nodup
  free : ∀ a, a ∈ fl ↔ ∃ b, B a = some b ∧ b.free = true

/-- How much of each block the program uses. -/
def keepOf (live : Nat → Option Nat) (a : Nat) : Option Nat :=
  (live (addOffset a)).map (· + metaSize)

/-- Where the blocks of the live pointers lie. -/
def inUse (B : Blocks) (live : Nat → Option Nat) : Set Nat :=
  { x | ∃ p, (live p).isSome ∧ x ∈ blockOf B p }

/-- What every step keeps. -/
structure Inv (s : Program) (B : Blocks) (fl : List Nat) : Prop where
  settled : Settled s.heap.mem (keepOf s.live) s.heap B fl
  offset : ∀ {p}, (s.live p).isSome → ∃ a, p = addOffset a

section Live

variable {live : Nat → Option Nat} {a c p n : Nat}

theorem keepOf_eq (h : live (addOffset a) = some n) : keepOf live a = some (n + metaSize) := by
  rw [keepOf, h]
  rfl

theorem keepOf_update (live : Nat → Option Nat) (a : Nat) (o : Option Nat) :
    keepOf (Function.update live (addOffset a) o) =
      Function.update (keepOf live) a (o.map (· + metaSize)) := by
  funext c
  by_cases hc : c = a
  · subst hc
    rw [keepOf, Function.update_self, Function.update_self]
  · rw [keepOf, Function.update_of_ne fun heq ↦ hc (addOffset_injective heq),
      Function.update_of_ne hc, keepOf]

/-- The block behind the pointer that a call returns is one of those in use. -/
theorem blockOf_subset (live : Nat → Option Nat) (ptr : Nat) {size : Nat} (hsize : size ≠ 0)
    (p : Nat) {B : Blocks} : blockOf B p ⊆ inUse B (liveAfter live ptr size p) := by
  rintro x ⟨a, b, rfl, hb⟩
  refine ⟨addOffset a, ?_, a, b, rfl, hb⟩
  rw [liveAfter, if_neg hsize, if_neg (addOffset_ne_zero a), Function.update_self]
  rfl

end Live

namespace Inv

variable {s t : Program} {B : Blocks} {fl : List Nat} {ptr size : Nat}

/-- `NULL` is not live. -/
theorem live_zero (h : Inv s B fl) : s.live 0 = none := by
  rw [Option.eq_none_iff_forall_ne_some]
  intro n hn
  obtain ⟨a, ha⟩ := h.offset (Option.isSome_iff_exists.mpr ⟨n, hn⟩)
  exact addOffset_ne_zero a ha.symm

theorem init : Inv Program.init (fun _ ↦ none) [] := by
  have hnone {x : Nat} : x ∉ Program.init.heap.mem.mapped := fun hx ↦ by cases hx
  refine ⟨⟨⟨⟨⟨?_, ?_, fun x ↦ ?_⟩, ?_⟩, ⟨rfl, List.nodup_nil⟩, ?_, ?_, ?_, ?_⟩, ⟨?_, ?_, ?_⟩, ?_⟩,
    ?_⟩
  · exact fun hb ↦ by cases hb
  · exact fun hb ↦ by cases hb
  · refine iff_of_false hnone ?_
    rintro ⟨a, b, hb, -⟩
    cases hb
  · exact fun hb ↦ by cases hb
  · exact fun a ha ↦ absurd ha List.not_mem_nil
  · exact fun hb ↦ by cases hb
  · exact fun hb ↦ by cases hb
  · exact fun hn ↦ by cases hn
  · exact fun hb ↦ by cases hb
  · exact fun hb ↦ by cases hb
  · exact fun hb ↦ by cases hb
  · exact ⟨fun x hx ↦ absurd hx hnone, fun h0 ↦ absurd rfl h0⟩
  · exact fun hp ↦ by cases hp

/-- The block behind a live pointer. -/
theorem block (h : Inv s B fl) {p n : Nat} (hn : s.live p = some n) : ∃ a b, p = addOffset a ∧
    keepOf s.live a = some (n + metaSize) ∧ B a = some b ∧ b.free = false ∧
      n + metaSize ≤ b.size := by
  obtain ⟨a, rfl⟩ := h.offset (Option.isSome_iff_exists.mpr ⟨n, hn⟩)
  have hk := keepOf_eq hn
  obtain ⟨ha, ⟨b, hb, hle⟩, -⟩ := h.settled.keeps hk
  refine ⟨a, b, rfl, hk, hb, Bool.eq_false_iff.mpr fun hfree ↦ ?_, hle⟩
  exact ha ((h.settled.flag hb (Set.notMem_empty a)).mp hfree)

theorem contract (h : Inv s B fl) : Contract s B fl where
  room := fun {p n} hn ↦ by
    obtain ⟨a, b, rfl, -, hb, hfree, hle⟩ := h.block hn
    have hmin := (h.settled.tagged.block hb).min
    have hmeta : metaSize = 16 := rfl
    have hoffset : addOffset a = a + 8 := rfl
    rw [removeOffset_addOffset]
    refine ⟨b, rfl, hb, hfree, by omega, fun x hx ↦ ?_⟩
    have hlo := hx.1
    have hhi := hx.2
    exact h.settled.tagged.mapped hb (by omega) (by omega)
  apart := fun {p q b d} hp hq hb hd hpq ↦ by
    obtain ⟨a, rfl⟩ := h.offset hp
    obtain ⟨c, rfl⟩ := h.offset hq
    rw [removeOffset_addOffset] at hb hd
    have hmeta : metaSize = 16 := rfl
    have hoffset (x : Nat) : addOffset x = x + 8 := rfl
    have hdis := h.settled.tagged.disjoint hb hd fun hac ↦ hpq (hac ▸ rfl)
    rw [Set.disjoint_left]
    intro x hx hx'
    have hlo := hx.1
    have hhi := hx.2
    have hlo' := hx'.1
    have hhi' := hx'.2
    rw [hoffset] at hlo hhi hlo' hhi'
    omega
  used := fun {a b} hb hfree ↦ by
    have ha : a ∉ fl := fun hmem ↦ by
      rw [(h.settled.flag hb (Set.notMem_empty a)).mpr hmem] at hfree
      cases hfree
    have hused := h.settled.used hb ha
    rwa [keepOf, Option.isSome_map] at hused
  tiling := h.settled.tagged.tiling
  range := h.settled.joints.one
  header := fun hb ↦ (h.settled.tagged.block hb).header
  footer := fun {a b} hb ↦ (h.settled.tagged.block hb).footer (Set.notMem_empty a)
  next := h.settled.joints.next
  prev := h.settled.joints.prev
  list := h.settled.listed.links
  nodup := h.settled.listed.nodup
  free := fun a ↦ by
    constructor
    · intro ha
      obtain ⟨b, hb⟩ := h.settled.exists_block ha
      exact ⟨b, hb, (h.settled.flag hb (Set.notMem_empty a)).mpr ha⟩
    · rintro ⟨b, hb, hfree⟩
      exact (h.settled.flag hb (Set.notMem_empty a)).mp hfree

/-! ## Steps -/

/-- A program writes to a live payload. -/
theorem write (h : Inv s B fl) {x : Nat} (w : Word) (hx : x % 8 = 0) {p n : Nat}
    (hn : s.live p = some n) (hpx : p ≤ x) (hxp : x < p + n) :
    ∃ g, s.heap.store x w = some g ∧ Inv ⟨g, s.live⟩ B fl ∧
      ghosts g.mem B ⊆ ghosts s.heap.mem B ∪ inUse B s.live := by
  obtain ⟨a, b, rfl, hk, hb, -, hle⟩ := h.block hn
  have hmeta : metaSize = 16 := rfl
  have hoffset : addOffset a = a + 8 := rfl
  have hs := h.settled.rekeep hk hb (Nat.zero_le _)
  obtain ⟨hstore, hs'⟩ := hs.scribble (Function.update_self _ _ _) hb hx (by omega) (by omega) w
  have hs'' := hs'.now.rekeep (Function.update_self _ _ _) hb hle
  rw [Function.update_idem, ← hk, Function.update_eq_self] at hs''
  refine ⟨_, hstore, ⟨hs'', h.offset⟩, (ghosts_set_insert _ _ _ _).trans ?_⟩
  refine Set.insert_subset (.inr ⟨addOffset a, ?_, a, b, rfl, hb, by omega, by omega⟩)
    Set.subset_union_left
  rw [hn]
  rfl

end Inv

/-- What a call does to the payloads: those of other pointers stay, and that of the pointer is
found at the new one, as far as both sizes go, or stays where it is when nothing is returned. -/
structure Moved (s : Program) (ptr size p : Nat) (g : SdbHeap) : Prop where
  others : ∀ {q n}, s.live q = some n → q ≠ ptr → ∀ x, q ≤ x → x < q + n → g.mem x = s.heap.mem x
  stays : ∀ {n}, s.live ptr = some n → size ≠ 0 → p = 0 →
    ∀ x, ptr ≤ x → x < ptr + n → g.mem x = s.heap.mem x
  moves : ∀ {n}, s.live ptr = some n → p ≠ 0 →
    ∀ i, i % 8 = 0 → i < n → i < size → g.mem (p + i) = s.heap.mem (ptr + i)

namespace Inv

variable {s : Program} {B : Blocks} {fl : List Nat} {ptr size : Nat}

/-- What is kept of a block is kept of the payload behind the pointer. -/
theorem words (h : Inv s B fl) {keep : Nat → Option Nat} {m : Mem} (hkept : Kept keep s.heap.mem m)
    {q n : Nat} (hq : s.live q = some n)
    (hkeep : keep (removeOffset q) = keepOf s.live (removeOffset q)) :
    ∀ x, q ≤ x → x < q + n → m x = s.heap.mem x := by
  obtain ⟨c, rfl⟩ := h.offset (Option.isSome_iff_exists.mpr ⟨n, hq⟩)
  have hoffset : addOffset c = c + 8 := rfl
  have hmeta : metaSize = 16 := rfl
  rw [removeOffset_addOffset, keepOf_eq hq] at hkeep
  exact fun x hcx hxc ↦ hkept hkeep x (by omega) (by omega)

/-- The pointers that are live after one of them is given back, and after another one is
returned. -/
theorem offset_erase (h : Inv s B fl) {q : Nat} (hq : (Function.update s.live ptr none q).isSome) :
    ∃ c, q = addOffset c := by
  by_cases hqp : q = ptr
  · rw [hqp, Function.update_self] at hq
    cases hq
  · rw [Function.update_of_ne hqp] at hq
    exact h.offset hq

theorem offset_insert (h : Inv s B fl) {q c n : Nat}
    (hq : (Function.update (Function.update s.live ptr none) (addOffset c) (some n) q).isSome) :
    ∃ c, q = addOffset c := by
  by_cases hqc : q = addOffset c
  · exact ⟨c, hqc⟩
  · rw [Function.update_of_ne hqc] at hq
    exact h.offset_erase hq

theorem erase_zero (h : Inv s B fl) : Function.update s.live 0 none = s.live := by
  rw [← h.live_zero, Function.update_eq_self]

variable {mmap : Nat → Option Nat}

/-- `NULL` is passed. -/
theorem malloc (h : Inv s B fl) (hfresh : Fresh s.heap mmap) (size : Nat) :
    ∃ p g B' fl', sdbHeapRealloc s.heap mmap 0 size = some (p, g) ∧
      Inv ⟨g, liveAfter s.live 0 size p⟩ B' fl' ∧ Moved s 0 size p g ∧
      ghosts g.mem B' ⊆ ghosts s.heap.mem B := by
  have hnone {n : Nat} {P : Prop} (hn : s.live 0 = some n) : P := by
    rw [h.live_zero] at hn
    cases hn
  have hcall : sdbHeapRealloc s.heap mmap 0 size = sdbHeapMalloc s.heap mmap size := if_pos rfl
  rw [hcall]
  by_cases hsize : size = 0
  · subst hsize
    refine ⟨0, s.heap, B, fl, rfl, ?_,
      ⟨fun _ _ _ _ _ ↦ rfl, fun hn ↦ hnone hn, fun hn ↦ hnone hn⟩, le_rfl⟩
    rw [liveAfter, if_pos rfl, h.erase_zero]
    exact h
  · obtain ⟨p, g, B', fl', hmalloc, ⟨rfl, hs⟩ | ⟨a, b, rfl, ha, hs, hb, hle⟩, hghosts⟩ :=
      h.settled.malloc hfresh size
    · refine ⟨0, g, B', fl', hmalloc, ?_, ⟨fun hq _ ↦ h.words hs.kept hq rfl, fun hn ↦ hnone hn,
        fun hn ↦ hnone hn⟩, hghosts⟩
      rw [liveAfter, if_neg hsize, if_pos rfl]
      exact ⟨hs.now, h.offset⟩
    · refine ⟨addOffset a, g, B', fl', hmalloc, ⟨?_, ?_⟩, ⟨fun {q n} hq _ ↦ h.words hs.kept hq ?_,
        fun hn ↦ hnone hn, fun hn ↦ hnone hn⟩, hghosts⟩
      · have hs' := hs.now.rekeep (Function.update_self _ _ _) hb hle
        rw [Function.update_idem] at hs'
        rw [liveAfter, if_neg hsize, if_neg (addOffset_ne_zero a), h.erase_zero, keepOf_update]
        exact hs'
      · intro q hq
        rw [liveAfter, if_neg hsize, if_neg (addOffset_ne_zero a)] at hq
        exact h.offset_insert hq
      · refine Function.update_of_ne (fun hqa ↦ ?_) _ _
        obtain ⟨c, rfl⟩ := h.offset (Option.isSome_iff_exists.mpr ⟨n, hq⟩)
        rw [removeOffset_addOffset] at hqa
        rw [hqa] at hq
        cases ha.symm.trans (keepOf_eq hq)

/-- A live pointer is given back. -/
theorem free (h : Inv s B fl) {n : Nat} (hn : s.live ptr = some n) :
    ∃ g B' fl', sdbHeapRealloc s.heap mmap ptr 0 = some (0, g) ∧
      Inv ⟨g, liveAfter s.live ptr 0 0⟩ B' fl' ∧ Moved s ptr 0 0 g ∧
      ghosts g.mem B' ⊆ ghosts s.heap.mem B := by
  obtain ⟨a, b, rfl, hk, -⟩ := h.block hn
  obtain ⟨g, B', fl', hfree, hs, hghosts⟩ := h.settled.free hk
  refine ⟨g, B', fl', ?_, ⟨?_, ?_⟩, ⟨fun {q m} hq hqa ↦ h.words hs.kept hq ?_,
    fun _ hno ↦ absurd rfl hno, fun _ hno ↦ absurd rfl hno⟩, hghosts⟩
  · rw [sdbHeapRealloc, if_neg (addOffset_ne_zero a), if_pos rfl, hfree]
    rfl
  · rw [liveAfter, if_pos rfl, keepOf_update]
    exact hs.now
  · intro q hq
    rw [liveAfter, if_pos rfl] at hq
    exact h.offset_erase hq
  · refine Function.update_of_ne (fun heq ↦ hqa ?_) _ _
    obtain ⟨c, rfl⟩ := h.offset (Option.isSome_iff_exists.mpr ⟨m, hq⟩)
    rw [removeOffset_addOffset] at heq
    rw [heq]

/-- A live pointer is passed with a size. -/
theorem resize (h : Inv s B fl) (hfresh : Fresh s.heap mmap) {n : Nat} (hn : s.live ptr = some n)
    (hsize : size ≠ 0) :
    ∃ p g B' fl', sdbHeapRealloc s.heap mmap ptr size = some (p, g) ∧
      Inv ⟨g, liveAfter s.live ptr size p⟩ B' fl' ∧ Moved s ptr size p g ∧
      ghosts g.mem B' ⊆ ghosts s.heap.mem B ∪ inUse B' (liveAfter s.live ptr size p) := by
  obtain ⟨a, b, rfl, hk, hb, -, hle⟩ := h.block hn
  have hmeta : metaSize = 16 := rfl
  obtain ⟨p, g, B', fl', hcall, hp, hghosts⟩ := h.settled.realloc hfresh hk hb hsize
  replace hghosts := hghosts.trans
    (Set.union_subset_union_right _ (blockOf_subset s.live (addOffset a) hsize p))
  rcases hp with ⟨rfl, hs, hkept⟩ | ⟨c, d, rfl, hc, hd, hled, hs, hkept, hwords⟩
  · refine ⟨0, g, B', fl', hcall, ?_, ⟨fun hq _ ↦ h.words hkept hq rfl,
      fun hm _ _ ↦ h.words hkept hm rfl, fun _ hno ↦ absurd rfl hno⟩, hghosts⟩
    rw [liveAfter, if_neg hsize, if_pos rfl]
    exact ⟨hs, h.offset⟩
  · refine ⟨addOffset c, g, B', fl', hcall, ⟨?_, ?_⟩, ⟨fun {q m} hq hqa ↦ h.words hkept hq ?_,
      fun _ _ hno ↦ absurd hno (addOffset_ne_zero c),
        fun {m} hm _ i hi8 him his ↦ hwords i hi8 ?_ his⟩,
      hghosts⟩
    · have hs' := hs.rekeep (Function.update_self _ _ _) hd hled
      rw [Function.update_idem] at hs'
      rw [liveAfter, if_neg hsize, if_neg (addOffset_ne_zero c), keepOf_update, keepOf_update]
      exact hs'
    · intro q hq
      rw [liveAfter, if_neg hsize, if_neg (addOffset_ne_zero c)] at hq
      exact h.offset_insert hq
    · refine Function.update_of_ne (fun heq ↦ hqa ?_) _ _
      obtain ⟨e, rfl⟩ := h.offset (Option.isSome_iff_exists.mpr ⟨m, hq⟩)
      rw [removeOffset_addOffset] at heq
      rw [heq]
    · cases hn.symm.trans hm
      omega

/-- **A call** of a program that is allowed comes back, and the heap is in order again. -/
theorem realloc (h : Inv s B fl) (hptr : ptr = 0 ∨ (s.live ptr).isSome) (hfresh : Fresh s.heap mmap)
    (size : Nat) : ∃ p g B' fl', sdbHeapRealloc s.heap mmap ptr size = some (p, g) ∧
      Inv ⟨g, liveAfter s.live ptr size p⟩ B' fl' ∧ Moved s ptr size p g ∧
      ghosts g.mem B' ⊆ ghosts s.heap.mem B ∪ inUse B' (liveAfter s.live ptr size p) := by
  rcases hptr with rfl | hlive
  · obtain ⟨p, g, B', fl', hcall, hinv, hmoved, hghosts⟩ := h.malloc hfresh size
    exact ⟨p, g, B', fl', hcall, hinv, hmoved, hghosts.trans Set.subset_union_left⟩
  · obtain ⟨n, hn⟩ := Option.isSome_iff_exists.mp hlive
    by_cases hsize : size = 0
    · subst hsize
      obtain ⟨g, B', fl', hcall, hinv, hmoved, hghosts⟩ := h.free hn
      exact ⟨0, g, B', fl', hcall, hinv, hmoved, hghosts.trans Set.subset_union_left⟩
    · exact h.resize hfresh hn hsize

/-- **A step** that is allowed leads to a state that is in order again. -/
theorem step (h : Inv s B fl) {a : Action} (ha : s.Allowed a) :
    ∃ t B' fl', s.step a = some t ∧ Inv t B' fl' ∧
      ghosts t.heap.mem B' ⊆ ghosts s.heap.mem B ∪ inUse B' t.live := by
  cases a with
  | realloc mmap ptr size =>
      obtain ⟨p, g, B', fl', hcall, hinv, -, hghosts⟩ := h.realloc ha.1 ha.2 size
      refine ⟨_, B', fl', ?_, hinv, hghosts⟩
      rw [Program.step, hcall]
      rfl
  | write x w =>
      obtain ⟨hx, p, n, hn, hpx, hxp⟩ := ha
      obtain ⟨g, hstore, hinv, hghosts⟩ := h.write w hx hn hpx hxp
      refine ⟨_, B, fl, ?_, hinv, hghosts⟩
      rw [Program.step, hstore]
      rfl

end Inv

/-- In every state of a run the heap is in order. -/
theorem inv_of_run {s : Program} (h : Runs Program.step Program.Allowed .init s) :
    ∃ B fl, Inv s B fl := by
  refine h.keeps (P := fun s ↦ ∃ B fl, Inv s B fl) ?_ ⟨_, _, Inv.init⟩
  rintro s a t ⟨B, fl, hinv⟩ hallowed hstep
  obtain ⟨t', B', fl', hstep', hinv', -⟩ := hinv.step hallowed
  cases hstep.symm.trans hstep'
  exact ⟨B', fl', hinv'⟩

/-- What a program can rely on: the heap looks as the contract says, whatever is allowed is done,
and the payloads are kept. -/
structure Reliable (s : Program) : Prop where
  contract : ∃ B fl, Contract s B fl
  proceeds : ∀ a, s.Allowed a → (s.step a).isSome
  keeps : ∀ mmap ptr size, s.Allowed (.realloc mmap ptr size) → ∀ p g,
    sdbHeapRealloc s.heap mmap ptr size = some (p, g) → Moved s ptr size p g

/-- **The contract of the allocator.**  Whatever a program does, as long as it passes live pointers
only and the system maps memory that is not mapped, it can rely on its heap. -/
theorem contract_of_run {s : Program} (h : Runs Program.step Program.Allowed .init s) :
    Reliable s := by
  obtain ⟨B, fl, hinv⟩ := inv_of_run h
  refine ⟨⟨B, fl, hinv.contract⟩, fun a ha ↦ ?_, fun mmap ptr size ha p g hcall ↦ ?_⟩
  · obtain ⟨t, -, -, ht, -⟩ := hinv.step ha
    rw [ht]
    rfl
  · obtain ⟨p', g', -, -, hcall', -, hmoved, -⟩ := hinv.realloc ha.1 ha.2 size
    cases hcall.symm.trans hcall'
    exact hmoved

/-! ## Two mappings -/

/-- The heap with a block that takes all of a new mapping of `n` pages. -/
def SdbHeap.whole (h : SdbHeap) (r n : Nat) : SdbHeap :=
  { ({ h with lastMappedSize := growMappedPages n } : SdbHeap).region r (n * sdbPageSize) with
    lastAddress := r + n * sdbPageSize }

/-- Nothing is free, and the system makes a mapping. -/
theorem sdbHeapMalloc_mapped (h : SdbHeap) (mmap : Nat → Option Nat) (r n requested : Nat)
    {size : Nat} (hfree : h.freeListStart = 0) (hsize : sizeToBlockSize size = some requested)
    (hmax : ¬ pages requested > maxMappedPages)
    (hn : clampMappedPages (if pages requested > h.lastMappedSize then pages requested
      else h.lastMappedSize) = n)
    (hmmap : mmap (n * sdbPageSize) = some r) :
    sdbHeapMalloc h mmap size =
      mallocRegion { h with lastMappedSize := growMappedPages n } r
        (n * sdbPageSize) requested := by
  have hfind : findFreeBlock h requested h.freeListStart = some 0 := by
    rw [hfree]
    exact (findFreeBlock_end h _).result
  simp only [sdbHeapMalloc, hsize, hfind, Option.bind_eq_bind, Option.bind_some, ne_eq,
    not_true_eq_false, if_false, hmax, hn, hmmap]

/-- Nothing is free, and the system does not make the mapping at `last_address`. -/
theorem sdbHeapMalloc_whole (h : SdbHeap) (mmap : Nat → Option Nat) (r n size : Nat)
    (hfree : h.freeListStart = 0) (hsize : sizeToBlockSize size = some (n * sdbPageSize))
    (hmax : ¬ pages (n * sdbPageSize) > maxMappedPages)
    (hn : clampMappedPages
      (if pages (n * sdbPageSize) > h.lastMappedSize then pages (n * sdbPageSize)
      else h.lastMappedSize) = n)
    (hmmap : mmap (n * sdbPageSize) = some r) (hr8 : r % 8 = 0) (hlast : r ≠ h.lastAddress) :
    sdbHeapMalloc h mmap size = some (addOffset r, h.whole r n) := by
  obtain ⟨-, h8, h32, -⟩ := sizeToBlockSize_spec hsize
  rw [sdbHeapMalloc_mapped h mmap r n _ hfree hsize hmax hn hmmap]
  exact mallocRegion_whole { h with lastMappedSize := growMappedPages n } hr8 h8 h32 hlast

theorem whole_mem_self (h : SdbHeap) (r : Nat) {n : Nat} (hn : 0 < n) :
    (h.whole r n).mem r = some (.header (newHeader (n * sdbPageSize))) :=
  region_header _ (show 32 ≤ n * 131072 by omega)

theorem whole_mem_out (h : SdbHeap) {r n x : Nat} (hn : 0 < n)
    (hx : x < r ∨ r + n * sdbPageSize ≤ x) : (h.whole r n).mem x = h.mem x :=
      region_mem_out _ (show 32 ≤ n * 131072 by omega) hx

/-- A program asks for memory and is given it. -/
theorem runs_malloc {s : Program} (h : Runs Program.step Program.Allowed .init s)
    (mmap : Nat → Option Nat) (hfresh : Fresh s.heap mmap) {a size : Nat} {g : SdbHeap}
    (hsize : size ≠ 0) (hcall : sdbHeapMalloc s.heap mmap size = some (addOffset a, g)) :
    Runs Program.step Program.Allowed .init
      ⟨g, Function.update (Function.update s.live 0 none) (addOffset a) (some size)⟩ := by
  refine h.tail ⟨.realloc mmap 0 size, ⟨.inl rfl, hfresh⟩, ?_⟩
  have hrealloc : sdbHeapRealloc s.heap mmap 0 size = some (addOffset a, g) :=
    (if_pos rfl).trans hcall
  have hlive : liveAfter s.live 0 size (addOffset a) =
      Function.update (Function.update s.live 0 none) (addOffset a) (some size) := by
    rw [liveAfter, if_neg hsize, if_neg (addOffset_ne_zero a)]
  rw [← hlive, Program.step, hrealloc]
  rfl

/-- What the system returns for one size only. -/
def mmapAt (bytes r : Nat) (n : Nat) : Option Nat := if n = bytes then some r else none

theorem fresh_mmapAt {h : SdbHeap} {bytes r : Nat} (hr : 0 < r) (hr8 : r % 4096 = 0)
    (hmem : ∀ x < r + bytes, h.mem x = none) : Fresh h (mmapAt bytes r) := by
  intro n p hp
  rw [mmapAt] at hp
  split at hp
  · next hn =>
      cases hp
      exact ⟨hr, hr8, fun x _ hx ↦ hmem x (hn ▸ hx)⟩
  · cases hp

/-- A program asks for two whole mappings, and the system makes the second one right in front of
the first one. -/
theorem exists_front : ∃ s, Runs Program.step Program.Allowed .init s ∧
    s.heap.mem 262144 = some (.header ⟨262144, false, false, false⟩) ∧
    s.heap.mem 524288 = some (.header ⟨131072, false, false, false⟩) ∧
    (s.live (addOffset 262144)).isSome ∧ (s.live (addOffset 524288)).isSome := by
  have hmalloc := sdbHeapMalloc_whole sdbHeapInit (mmapAt 131072 524288) 524288 1 131056 rfl
    (by decide) (by decide) (by decide) rfl rfl (by decide)
  have hrun := runs_malloc (s := .init) .refl (mmapAt 131072 524288) ?_ (by decide) hmalloc
  · have hmalloc' := sdbHeapMalloc_whole (sdbHeapInit.whole 524288 1)
        (mmapAt 262144 262144) 262144 2
      262128 rfl (by decide) (by decide) (by decide) rfl rfl (by decide)
    have hrun' := runs_malloc hrun (mmapAt 262144 262144) ?_ (by decide) hmalloc'
    · refine ⟨_, hrun', whole_mem_self _ _ (by decide), ?_, rfl, rfl⟩
      exact (whole_mem_out _ (by decide) (.inr (by decide))).trans (whole_mem_self _ _ (by decide))
    · refine fresh_mmapAt (by decide) (by decide) fun x hx ↦ ?_
      exact whole_mem_out _ (by decide) (.inl (by omega))
  · exact fresh_mmapAt (by decide) (by decide) fun _ _ ↦ rfl

theorem contract_of_run_front : ∃ s, Runs Program.step Program.Allowed .init s ∧
    (s.live (addOffset 262144)).isSome ∧ Reliable s := by
  obtain ⟨s, hrun, -, -, hlive, -⟩ := exists_front
  exact ⟨s, hrun, hlive, contract_of_run hrun⟩

/-- A block does not know of the block behind it, which is mapped and used, when the system has made
the mappings in this order. -/
theorem not_joined_front : ∃ s, Runs Program.step Program.Allowed .init s ∧ ∃ a b d,
    s.heap.mem a = some (.header b) ∧ (s.live (addOffset a)).isSome ∧
      s.heap.mem (a + b.size) = some (.header d) ∧ (s.live (addOffset (a + b.size))).isSome ∧
      b.hasNext = false ∧ d.hasPrev = false := by
  obtain ⟨s, hrun, hfront, hbehind, hlive, hlive'⟩ := exists_front
  exact ⟨s, hrun, 262144, _, _, hfront, hlive, hbehind, hlive', rfl, rfl⟩

end SdbStore.Alloc
