import SdbStore.Alloc.Contract
import SdbStore.Alloc.Headers

/-!
# A pointer is freed twice

`sdb_heap_free` looks at the flag in the header in front of a pointer, and does nothing when the
block is free already.  The header is that of a block as long as a block begins there.  When the
block has been merged with the one in front of it, what is left of its header says that it is used,
and the second call works on a block that is no more.

So the second call leaves the heap as it is just where a block still begins (`freeTwice_iff`), which
is so after the first call when it has not merged the block with the one in front
(`begins_of_free`).
-/

namespace SdbStore.Alloc

open Lib

variable {h h' : SdbHeap} {a p m n size : Nat} {b : Header}

/-! ## Pointers that have been freed -/

/-- The block of a live pointer lies at an address. -/
def Program.InUse (s : Program) (x : Nat) : Prop :=
  ∃ p b, (s.live p).isSome ∧ s.heap.header (removeOffset p) = some b ∧ removeOffset p ≤ x ∧
    x < removeOffset p + b.size

/-- A program, and the pointers that it has freed: each was live, is not live any more, and since
then its memory has not been handed out again. -/
structure Tracked where
  program : Program
  freed : Set Nat

def Tracked.init : Tracked := ⟨Program.init, ∅⟩

/-- What has been freed when the program has made a step. -/
def Tracked.after (s : Tracked) (t : Program) : Tracked where
  program := t
  freed := { p | (p ∈ s.freed ∨ (s.program.live p).isSome) ∧ t.live p = none ∧
    ¬ t.InUse (removeOffset p) }

def Tracked.step (s : Tracked) (a : Action) : Option Tracked := (s.program.step a).map s.after

def Tracked.Allowed (s : Tracked) (a : Action) : Prop := s.program.Allowed a

/-- A block of the heap begins at an address. -/
def Program.Begins (s : Program) (a : Nat) : Prop := ∃ B fl, Contract s B fl ∧ (B a).isSome

/-- What every step keeps: a pointer that has been freed has a header in front of it that is no
ghost. -/
structure TrackedInv (s : Tracked) (B : Blocks) (fl : List Nat) : Prop where
  inv : Inv s.program B fl
  freed : ∀ p ∈ s.freed, ∃ a, p = addOffset a ∧ a % 8 = 0 ∧ s.program.live p = none ∧
    a ∉ ghosts s.program.heap.mem B

theorem Inv.inUse_subset {s : Program} {B : Blocks} {fl : List Nat} (hinv : Inv s B fl) :
    inUse B s.live ⊆ { x | s.InUse x } := by
  rintro x ⟨p, hp, a, b, rfl, hb, hax, hxa⟩
  have ht := hinv.settled.tagged.block hb
  have hheader := SdbHeap.header_eq ht.aligned.1 ht.header
  exact ⟨addOffset a, b,
    hp, by rw [removeOffset_addOffset, hheader],
      by rwa [removeOffset_addOffset], by rwa [removeOffset_addOffset]⟩

namespace TrackedInv

variable {s : Tracked} {B : Blocks} {fl : List Nat}

theorem init : TrackedInv .init (fun _ ↦ none) [] :=
  ⟨Inv.init, fun _ hp ↦ absurd hp (Set.notMem_empty _)⟩

/-- A step that is allowed. -/
theorem step (hs : TrackedInv s B fl) {i : Action} (hi : s.Allowed i) {t : Tracked}
    (hstep : s.step i = some t) : ∃ B' fl', TrackedInv t B' fl' := by
  obtain ⟨t', B', fl', hstep', hinv, hghosts⟩ := hs.inv.step hi
  rw [Tracked.step, hstep', Option.map_some] at hstep
  cases hstep
  refine ⟨B', fl', hinv, ?_⟩
  rintro p ⟨hp, hlive, huse⟩
  have hstay {a : Nat} (hpa : p = addOffset a) (ha : a ∉ ghosts s.program.heap.mem B) :
      a ∉ ghosts t'.heap.mem B' := by
    subst hpa
    rw [removeOffset_addOffset] at huse
    intro hghost
    rcases hghosts hghost with hold | hin
    · exact ha hold
    · exact huse (hinv.inUse_subset hin)
  rcases hp with hp | hp
  · obtain ⟨a, hpa, ha8, -, hghost⟩ := hs.freed p hp
    exact ⟨a, hpa, ha8, hlive, hstay hpa hghost⟩
  · -- where a block begins there is no ghost
    obtain ⟨n, hn⟩ := Option.isSome_iff_exists.mp hp
    obtain ⟨a, b, hpa, -, hb, -⟩ := hs.inv.block hn
    refine ⟨a, hpa, (hs.inv.settled.tagged.block hb).aligned.1, hlive, hstay hpa fun hghost ↦ ?_⟩
    cases hb.symm.trans hghost.1

end TrackedInv

theorem trackedInv_of_run {s : Tracked} (hrun : Runs Tracked.step Tracked.Allowed .init s) :
    ∃ B fl, TrackedInv s B fl := by
  refine hrun.keeps (P := fun s ↦ ∃ B fl, TrackedInv s B fl) ?_ ⟨_, _, TrackedInv.init⟩
  rintro s a t ⟨B, fl, hs⟩ hallowed hstep
  exact hs.step hallowed hstep

/-! ## The first call -/

/-- The block in front is free, and `coalesce` merges the two. -/
def MergesFront (h : SdbHeap) (a : Nat) : Prop :=
  ∃ b f d, h.header a = some b ∧ b.hasPrev = true ∧ h.footer (a - footerSize) = some f ∧
    f.free = true ∧ h.header (a - f.size) = some d ∧ canMerge d b

/-- `coalesce` goes on with the same block unless it merges it with the one in front. -/
theorem coalescePrev_cases (hcall : coalescePrev h a = some (m, h')) : m = a ∨ MergesFront h a := by
  obtain ⟨b, hb, hcall⟩ := Option.bind_eq_some_iff.mp hcall
  split at hcall
  · next hprev =>
      have hpf : getPrevFooter h a = some (a - footerSize) := by
        rw [getPrevFooter, hb, Option.bind_eq_bind, Option.bind_some, if_pos hprev]
      obtain ⟨prevFooter, hfooter, hcall⟩ := Option.bind_eq_some_iff.mp hcall
      cases hpf.symm.trans hfooter
      obtain ⟨prevHeader, hheader, hcall⟩ := Option.bind_eq_some_iff.mp hcall
      obtain ⟨f, hf, hcall⟩ := Option.bind_eq_some_iff.mp hcall
      split at hcall
      · next hmerge =>
          rw [getPrevHeader, hpf, Option.bind_eq_bind, Option.bind_some, if_neg hmerge.1, hf]
            at hheader
          cases hheader
          obtain ⟨d, hd, hcall⟩ := Option.bind_eq_some_iff.mp hcall
          split at hcall
          · cases hcall
            exact .inl rfl
          · next hmax => exact .inr ⟨b, f, d, hb, hprev, hf, hmerge.2.1, hd, not_not.mp hmax⟩
      · cases hcall
        exact .inl rfl
  · cases hcall
    exact .inl rfl

/-- Whether the block in front is merged does not depend on the flag of the block. -/
theorem mergesFront_of_append {m₀ : Mem} {keep keep' : Nat → Option Nat} {B : Blocks}
    {fl fl' : List Nat} (hs : Settled m₀ keep h B fl) (hb : B a = some b)
    (hs' : Shaped m₀ keep' h' (Function.update B a (some { b with free := true })) fl' ∅ ∅)
    (hmerge : MergesFront h' a) : MergesFront h a := by
  obtain ⟨b', f, d, hb', hprev, hf, hfree, hd, hmax⟩ := hmerge
  have ht' := hs'.tagged.block (Function.update_self a (some { b with free := true }) B)
  cases (SdbHeap.header_eq ht'.aligned.1 ht'.header).symm.trans hb'
  have ht := hs.tagged.block hb
  obtain ⟨q, e, he, rfl, -⟩ := hs.joints.exists_prev hs.tagged.tiling hb ht.pos hprev
  have hte := hs.tagged.block he
  have hmin := hte.min
  have he' := (Function.update_of_ne (show q ≠ q + e.size by omega)
    (some { b with free := true }) B).trans he
  have hte' := hs'.tagged.block he'
  have h8 := hte.aligned
  have hfooter : h'.footer (q + e.size - footerSize) = some ⟨e.size, e.free⟩ :=
    SdbHeap.footer_eq (show (q + e.size - 8) % 8 = 0 by omega) (hte'.footer (Set.notMem_empty q))
  cases hfooter.symm.trans hf
  have hq : q + e.size - e.size = q := Nat.add_sub_cancel q e.size
  rw [hq, SdbHeap.header_eq h8.1 hte'.header] at hd
  cases hd
  refine ⟨b, ⟨d.size, d.free⟩, d, SdbHeap.header_eq ht.aligned.1 ht.header, hprev, ?_, hfree, ?_,
    hmax⟩
  · exact SdbHeap.footer_eq (show (q + d.size - 8) % 8 = 0 by omega)
      (hte.footer (Set.notMem_empty q))
  · exact hq.symm ▸ SdbHeap.header_eq h8.1 hte.header

/-- A block that is freed and not merged with the one in front of it is a free block, or its memory
is no longer mapped. -/
theorem Settled.free_stays {m₀ : Mem} {keep : Nat → Option Nat} {B : Blocks} {fl : List Nat}
    (hs : Settled m₀ keep h B fl) (hn : keep a = some n) (hno : ¬ MergesFront h a)
    (hcall : sdbHeapFree h (addOffset a) = some h') :
    h'.mem a = none ∨ ∃ d, h'.mem a = some (.header d) ∧ d.free = true := by
  obtain ⟨ha, ⟨b, hb, -⟩, -⟩ := hs.keeps hn
  have htb := hs.tagged.block hb
  have hheader := SdbHeap.header_eq htb.aligned.1 htb.header
  have hused : b.free = false :=
    Bool.eq_false_iff.mpr fun hfree ↦ ha ((hs.flag hb (Set.notMem_empty a)).mp hfree)
  obtain ⟨h₁, happend, -, hs₁, -⟩ := hs.append ha hb
  rw [sdbHeapFree, if_neg (addOffset_ne_zero a)] at hcall
  simp only [removeOffset_addOffset, hheader, Option.bind_eq_bind, Option.bind_some, hused,
    Bool.false_eq_true, if_false, happend] at hcall
  obtain ⟨⟨m, h₂⟩, hcoalesce, hpages⟩ := Option.bind_eq_some_iff.mp hcall
  obtain ⟨⟨m', h₃⟩, hprev, hcoalesce⟩ := Option.bind_eq_some_iff.mp hcoalesce
  obtain ⟨h₄, -, hcoalesce⟩ := Option.bind_eq_some_iff.mp hcoalesce
  obtain ⟨h₅, hset, hcoalesce⟩ := Option.bind_eq_some_iff.mp hcoalesce
  cases hcoalesce
  rcases coalescePrev_cases hprev with rfl | hmerge
  · obtain ⟨d, hd, rfl | hnone⟩ := freePages_cases hpages
    · exact .inr ⟨d, (header_eq_some_iff.mp hd).2, free_of_setFree hset hd⟩
    · exact .inl hnone
  · have hs₁' := hs₁.mono (fun x hx ↦ hx.1) fun x hx ↦ hx.1
    exact absurd (mergesFront_of_append hs hb hs₁' hmerge) hno

/-- **The first call.**  A block that is not merged with the one in front of it begins where it did
before, whatever happens to the one behind it. -/
theorem begins_of_free {s t : Program} (hrun : Runs Program.step Program.Allowed .init s)
    {mmap : Nat → Option Nat} {p : Nat} (hp : (s.live p).isSome)
    (hno : ¬ MergesFront s.heap (removeOffset p)) (hfree : s.step (.realloc mmap p 0) = some t)
    (hmapped : removeOffset p ∈ t.heap.mem.mapped) : t.Begins (removeOffset p) := by
  obtain ⟨B, fl, hinv⟩ := inv_of_run hrun
  obtain ⟨n, hn⟩ := Option.isSome_iff_exists.mp hp
  obtain ⟨a, b, rfl, hk, hb, -⟩ := hinv.block hn
  rw [removeOffset_addOffset] at hno hmapped ⊢
  obtain ⟨g, B', fl', hcall, hinv', hghosts⟩ : ∃ g B' fl',
      sdbHeapRealloc s.heap mmap (addOffset a) 0 = some (0, g) ∧
        Inv ⟨g, liveAfter s.live (addOffset a) 0 0⟩ B' fl' ∧
        ghosts g.mem B' ⊆ ghosts s.heap.mem B := by
    obtain ⟨g, B', fl', hcall, hinv', -, hghosts⟩ := hinv.free hn
    exact ⟨g, B', fl', hcall, hinv', hghosts⟩
  rw [Program.step, hcall] at hfree
  cases hfree
  have hcall' : sdbHeapFree s.heap (addOffset a) = some g := by
    rw [sdbHeapRealloc, if_neg (addOffset_ne_zero a), if_pos rfl] at hcall
    obtain ⟨g', hg', heq⟩ := Option.bind_eq_some_iff.mp hcall
    cases heq
    exact hg'
  rcases hinv.settled.free_stays hk hno hcall' with hnone | ⟨d, hd, hdfree⟩
  · rw [Mem.mapped, Set.mem_ofPred_eq, hnone] at hmapped
    cases hmapped
  · refine ⟨B', fl', hinv'.contract, Option.isSome_iff_ne_none.mpr fun hB ↦ ?_⟩
    cases hb.symm.trans (hghosts ⟨hB, d, hd, .inl hdfree⟩).1

/-! ## Both calls -/

/-- **A pointer is freed twice.**  The second call leaves the heap as it is if and only if a block
still begins in front of the pointer; it does after a free that has not merged the block with the
one in front of it, as long as the memory is mapped. -/
theorem freeTwice_iff {s : Tracked} (hrun : Runs Tracked.step Tracked.Allowed .init s) {p : Nat}
    (hp : p ∈ s.freed) :
    (sdbHeapFree s.program.heap p = some s.program.heap ↔ s.program.Begins (removeOffset p)) ∧
      ∀ r t : Program, Runs Program.step Program.Allowed .init r → ∀ mmap q, (r.live q).isSome →
        ¬ MergesFront r.heap (removeOffset q) → r.step (.realloc mmap q 0) = some t →
        removeOffset q ∈ t.heap.mem.mapped → t.Begins (removeOffset q) := by
  refine ⟨?_, fun r t hr mmap q hq hno hfree hmapped ↦ begins_of_free hr hq hno hfree hmapped⟩
  obtain ⟨B, fl, hs⟩ := trackedInv_of_run hrun
  obtain ⟨a, rfl, ha8, hlive, hghost⟩ := hs.freed p hp
  rw [removeOffset_addOffset]
  constructor
  · intro hcall
    by_contra hno
    have hB : B a = none := Option.not_isSome_iff_eq_none.mp fun hsome ↦
      hno ⟨B, fl, hs.inv.contract, hsome⟩
    cases hheader : s.program.heap.header a with
    | none =>
        simp only [sdbHeapFree, addOffset_ne_zero, if_false, removeOffset_addOffset, hheader,
          Option.bind_eq_bind, Option.bind_none] at hcall
        cases hcall
    | some b =>
        have hspent : ¬ (b.free = true ∨ b.size = 0) := fun hb ↦
          hghost ⟨hB, b, (header_eq_some_iff.mp hheader).2, hb⟩
        obtain ⟨hused, hsize⟩ := not_or.mp hspent
        refine sdbHeapFree_ne (addOffset_ne_zero a) ?_ (Bool.eq_false_iff.mpr hused) hsize hcall
        rw [removeOffset_addOffset, hheader]
  · rintro ⟨B', fl', hcontract, hsome⟩
    obtain ⟨b, hb⟩ := Option.isSome_iff_exists.mp hsome
    have hfree : b.free = true := by
      by_contra hused
      have hno := hcontract.used hb (Bool.eq_false_iff.mpr hused)
      rw [hlive] at hno
      cases hno
    have hheader := SdbHeap.header_eq ha8 (hcontract.header hb)
    simp only [sdbHeapFree, addOffset_ne_zero, if_false, removeOffset_addOffset, hheader,
      Option.bind_eq_bind, Option.bind_some, hfree, if_true]

/-! ## A pointer whose block has been merged with the one in front of it -/

/-- The first block of the list is large enough. -/
theorem sdbHeapMalloc_first (h : SdbHeap) (mmap : Nat → Option Nat) (a requested : Nat)
    (hsize : sizeToBlockSize size = some requested) (hstart : h.freeListStart = addOffset a)
    (hb : h.header a = some b) (hge : b.size ≥ requested) :
    sdbHeapMalloc h mmap size = (do
      let h ← setFree h a false
      let b ← h.header a
      let h ← Alloc.split h a b.size requested
      let h ← removeFromFreeList h a
      some (addOffset a, h)) := by
  have hturn : findFreeBlockTurn h requested (addOffset a) = some (.inr (addOffset a)) := by
    simp only [findFreeBlockTurn, addOffset_ne_zero, if_false, removeOffset_addOffset, hb,
      Option.bind_eq_bind, Option.bind_some, hge, if_true]
  have hfind : findFreeBlock h requested (addOffset a) = some (addOffset a) :=
    (LoopEnds.stop hturn).result
  simp only [sdbHeapMalloc, hsize, hstart, hfind, Option.bind_eq_bind, Option.bind_some, ne_eq,
    addOffset_ne_zero, not_false_eq_true, if_true, removeOffset_addOffset]

theorem sdbHeapRealloc_zero {mmap : Nat → Option Nat} (hp : p ≠ 0)
    (hcall : sdbHeapFree h p = some h') :
    sdbHeapRealloc h mmap p 0 = some (0, h') := by
  rw [sdbHeapRealloc, if_neg hp, if_pos rfl, hcall]
  rfl

/-- A run goes on with a call. -/
theorem runs_realloc {s : Tracked} (hrun : Runs Tracked.step Tracked.Allowed .init s)
    (mmap : Nat → Option Nat) (ptr : Nat) (hptr : ptr = 0 ∨ (s.program.live ptr).isSome)
    (hfresh : Fresh s.program.heap mmap)
    (hcall : sdbHeapRealloc s.program.heap mmap ptr size = some (p, h')) :
    Runs Tracked.step Tracked.Allowed .init
      (s.after ⟨h', liveAfter s.program.live ptr size p⟩) := by
  refine hrun.tail ⟨.realloc mmap ptr size, ⟨hptr, hfresh⟩, ?_⟩
  rw [Tracked.step, Program.step, hcall]
  rfl

/-- A program asks for 48 bytes and for all that is left of the page, and gives both back. -/
theorem exists_merged : ∃ s, Runs Tracked.step Tracked.Allowed .init s ∧ 4168 ∈ s.freed ∧
    s.program.heap.header 4160 = some ⟨131008, false, true, false⟩ := by
  have hrun : (do
      let r₁ ← mallocRegion { sdbHeapInit with lastMappedSize := 2 } 4096 131072 64
      let b ← r₁.2.header 4160
      let r₂ ← (setFree r₁.2 4160 false).bind fun h ↦ do
        let b ← h.header 4160
        let h ← Alloc.split h 4160 b.size 131008
        let h ← removeFromFreeList h 4160
        some (addOffset 4160, h)
      let h₃ ← sdbHeapFree r₂.2 4104
      let h₄ ← sdbHeapFree h₃ 4168
      let d ← h₄.header 4160
      some (r₁.1, r₁.2.freeListStart, b, r₂.1, d)) =
      some (4104, 4168, ⟨131008, true, true, false⟩, 4168, ⟨131008, false, true, false⟩) := by
    decide +kernel
  obtain ⟨⟨p, h₁⟩, hregion, hrun⟩ := Option.bind_eq_some_iff.mp hrun
  obtain ⟨b, hb, hrun⟩ := Option.bind_eq_some_iff.mp hrun
  obtain ⟨⟨q, h₂⟩, hfirst, hrun⟩ := Option.bind_eq_some_iff.mp hrun
  obtain ⟨h₃, hfree, hrun⟩ := Option.bind_eq_some_iff.mp hrun
  obtain ⟨h₄, hfree', hrun⟩ := Option.bind_eq_some_iff.mp hrun
  obtain ⟨d, hd, hrun⟩ := Option.bind_eq_some_iff.mp hrun
  simp only [Option.some.injEq, Prod.mk.injEq] at hrun
  obtain ⟨rfl, hstart, rfl, rfl, rfl⟩ := hrun
  have hmalloc : sdbHeapMalloc sdbHeapInit (mmapAt 131072 4096) 48 = some (4104, h₁) := by
    rw [sdbHeapMalloc_mapped sdbHeapInit _ 4096 1 64 rfl (by decide) (by decide) (by decide) rfl]
    exact hregion
  have hmalloc' : sdbHeapMalloc h₁ (fun _ ↦ none) 130992 = some (4168, h₂) := by
    rw [sdbHeapMalloc_first h₁ _ 4160 131008 (by decide) hstart hb (by decide)]
    exact hfirst
  have hrun₁ := runs_realloc .refl (mmapAt 131072 4096) 0 (.inl rfl)
    (fresh_mmapAt (by decide) (by decide) fun _ _ ↦ rfl) ((if_pos rfl).trans hmalloc)
  have hrun₂ := runs_realloc hrun₁ (fun _ ↦ none) 0 (.inl rfl) (fun _ _ hno ↦ by cases hno)
    ((if_pos rfl).trans hmalloc')
  have hrun₃ := runs_realloc hrun₂ (fun _ ↦ none) 4104 (.inr rfl) (fun _ _ hno ↦ by cases hno)
    (sdbHeapRealloc_zero (by decide) hfree)
  have hrun₄ := runs_realloc hrun₃ (fun _ ↦ none) 4168 (.inr rfl) (fun _ _ hno ↦ by cases hno)
    (sdbHeapRealloc_zero (by decide) hfree')
  refine ⟨_, hrun₄, ⟨.inr rfl, rfl, ?_⟩, hd⟩
  -- nothing is live any more
  rintro ⟨q, e, hq, -⟩
  simp only [Tracked.after, liveAfter, Tracked.init, Program.init, Function.update_apply,
    Nat.reduceEqDiff, if_true, if_false] at hq
  by_cases hq₁ : q = 4168
  · rw [if_pos hq₁] at hq
    cases hq
  · by_cases hq₂ : q = 4104
    · rw [if_neg hq₁, if_pos hq₂] at hq
      cases hq
    · rw [if_neg hq₁, if_neg hq₂, if_neg hq₁, ite_self, if_neg hq₂, ite_self] at hq
      cases hq

/-- The pointer of the second block is freed twice, and the second call does not leave the heap as
it is. -/
theorem not_freeTwice : ¬ ∀ s, Runs Tracked.step Tracked.Allowed .init s → ∀ p ∈ s.freed,
    removeOffset p ∈ s.program.heap.mem.mapped →
      sdbHeapFree s.program.heap p = some s.program.heap := by
  intro hall
  obtain ⟨s, hrun, hp, hheader⟩ := exists_merged
  refine sdbHeapFree_ne (by decide) hheader rfl (by decide) (hall s hrun 4168 hp ?_)
  rw [Mem.mapped, Set.mem_ofPred_eq, show removeOffset 4168 = 4160 from rfl,
    (header_eq_some_iff.mp hheader).2]
  rfl

/-- No block begins there any more. -/
theorem freeTwice_iff_merged : ∃ s, Runs Tracked.step Tracked.Allowed .init s ∧ 4168 ∈ s.freed ∧
    (sdbHeapFree s.program.heap 4168 = some s.program.heap ↔
      s.program.Begins (removeOffset 4168)) := by
  obtain ⟨s, hrun, hp, -⟩ := exists_merged
  exact ⟨s, hrun, hp, (freeTwice_iff hrun hp).1⟩

end SdbStore.Alloc
