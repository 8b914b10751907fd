import SdbStore.Alloc.Ranges

/-!
# Headers of a call that comes back

Nothing is assumed of the heap here.  What `sdb_heap_free` writes on its way are links, footers and
headers that were headers before, so a header that is found at the end has been there at the
beginning, and with a size that was not larger (`Grown`).

At the end there is a free block, which was not there before if the header in front of the pointer
said that the block was used.
-/

namespace SdbStore.Alloc

open Lib

variable {h h' h₁ h₂ : SdbHeap} {a x y p m n size : Nat} {w : Word} {b : Header} {val : Bool}

theorem header_eq_some_iff : h.header x = some b ↔ x % 8 = 0 ∧ h.mem x = some (.header b) := by
  constructor
  · intro hb
    rw [SdbHeap.header, SdbHeap.load] at hb
    by_cases hx : x % 8 = 0
    · rw [if_pos hx] at hb
      refine ⟨hx, ?_⟩
      split at hb
      · next hload =>
          cases hb
          exact hload
      · cases hb
    · rw [if_neg hx] at hb
      cases hb
  · rintro ⟨hx, hb⟩
    exact SdbHeap.header_eq hx hb

/-- A header that is there after a word has been written is this word or was there before. -/
theorem header_of_store (hstore : h.store x w = some h') (hb : h'.header y = some b) :
    (y = x → w = .header b) ∧ (y ≠ x → h.header y = some b) := by
  rw [SdbHeap.store] at hstore
  split at hstore
  · cases hstore
    obtain ⟨hy, hb⟩ := header_eq_some_iff.mp hb
    refine ⟨?_, fun hyx ↦ header_eq_some_iff.mpr ⟨hy, (Mem.set_of_ne _ _ hyx).symm.trans hb⟩⟩
    rintro rfl
    exact Option.some.inj ((Mem.set_self _ _ _).symm.trans hb)
  · cases hstore

theorem header_of_setHeader {f : Header → Header} (hset : h.setHeader x f = some h')
    (hb : h'.header y = some b) : ∃ d, h.header y = some d ∧ b = if y = x then f d else d := by
  rw [SdbHeap.setHeader] at hset
  obtain ⟨d, hd, hstore⟩ := Option.bind_eq_some_iff.mp hset
  obtain ⟨hself, hother⟩ := header_of_store hstore hb
  by_cases hyx : y = x
  · cases hself hyx
    exact ⟨d, hyx ▸ hd, (if_pos hyx).symm⟩
  · exact ⟨b, hother hyx, (if_neg hyx).symm⟩

/-- The headers of a heap have been there before, and not with a larger size. -/
structure Grown (h h' : SdbHeap) : Prop where
  before : ∀ {y b}, h'.header y = some b → ∃ d, h.header y = some d ∧ d.size ≤ b.size

theorem Grown.refl (h : SdbHeap) : Grown h h := ⟨fun hb ↦ ⟨_, hb, le_rfl⟩⟩

theorem Grown.trans (hgrown : Grown h h₁) (hgrown' : Grown h₁ h₂) : Grown h h₂ := by
  refine ⟨fun hb ↦ ?_⟩
  obtain ⟨d, hd, hle⟩ := hgrown'.before hb
  obtain ⟨e, he, hle'⟩ := hgrown.before hd
  exact ⟨e, he, hle'.trans hle⟩

theorem grown_start (h : SdbHeap) (start : Nat) : Grown h { h with freeListStart := start } :=
  ⟨fun hb ↦ ⟨_, hb, le_rfl⟩⟩

theorem grown_store (hstore : h.store x w = some h') (hw : ∀ d, w ≠ .header d) : Grown h h' := by
  refine ⟨fun {y b} hb ↦ ?_⟩
  obtain ⟨hself, hother⟩ := header_of_store hstore hb
  exact ⟨b, hother fun hyx ↦ hw b (hself hyx), le_rfl⟩

theorem grown_setHeader {f : Header → Header} (hset : h.setHeader x f = some h')
    (hf : ∀ d, d.size ≤ (f d).size) : Grown h h' := by
  refine ⟨fun hb ↦ ?_⟩
  obtain ⟨d, hd, rfl⟩ := header_of_setHeader hset hb
  refine ⟨d, hd, ?_⟩
  split
  · exact hf d
  · exact le_rfl

theorem grown_writeFooter (hcall : writeFooter h x = some h') : Grown h h' := by
  obtain ⟨b, -, hstore⟩ := Option.bind_eq_some_iff.mp hcall
  exact grown_store hstore fun d hd ↦ by cases hd

theorem grown_setFree (hcall : setFree h x val = some h') : Grown h h' := by
  obtain ⟨h₁, hset, hfooter⟩ := Option.bind_eq_some_iff.mp hcall
  exact (grown_setHeader hset fun _ ↦ le_rfl).trans (grown_writeFooter hfooter)

/-- A header that is there after `setFree` of the block has the flag. -/
theorem free_of_setFree (hcall : setFree h x val = some h') (hb : h'.header x = some b) :
    b.free = val := by
  obtain ⟨h₁, hset, hfooter⟩ := Option.bind_eq_some_iff.mp hcall
  obtain ⟨d, -, hstore⟩ := Option.bind_eq_some_iff.mp hfooter
  have hold : h₁.header x = some b := by
    obtain ⟨hself, hother⟩ := header_of_store hstore hb
    exact hother fun hxx ↦ by cases hself hxx
  obtain ⟨e, -, rfl⟩ := header_of_setHeader hset hold
  rw [if_pos rfl]

theorem grown_setHasPrev (hcall : setHasPrev h x val = some h') : Grown h h' := by
  rw [setHasPrev] at hcall
  split at hcall
  · cases hcall
    exact .refl h
  · exact grown_setHeader hcall fun _ ↦ le_rfl

theorem grown_setHasNext (hcall : setHasNext h x val = some h') : Grown h h' := by
  rw [setHasNext] at hcall
  split at hcall
  · cases hcall
    exact .refl h
  · exact grown_setHeader hcall fun _ ↦ le_rfl

theorem grown_removeFromFreeList (hcall : removeFromFreeList h x = some h') : Grown h h' := by
  obtain ⟨h₁, hfree, hcall⟩ := Option.bind_eq_some_iff.mp hcall
  obtain ⟨next, -, hcall⟩ := Option.bind_eq_some_iff.mp hcall
  obtain ⟨prev, -, hcall⟩ := Option.bind_eq_some_iff.mp hcall
  refine (grown_setFree hfree).trans ?_
  split at hcall
  · split at hcall
    · cases hcall
      exact grown_start h₁ 0
    · exact (grown_start h₁ next).trans (grown_store hcall fun d hd ↦ by cases hd)
  · split at hcall
    · exact grown_store hcall fun d hd ↦ by cases hd
    · obtain ⟨h₂, hprev, hnext⟩ := Option.bind_eq_some_iff.mp hcall
      exact (grown_store hprev fun d hd ↦ by cases hd).trans
        (grown_store hnext fun d hd ↦ by cases hd)

theorem grown_appendToFreeList (hcall : appendToFreeList h x = some h') : Grown h h' := by
  have hword {g g' : SdbHeap} {z q : Nat} (hstore : g.store z (.ptr q) = some g') : Grown g g' :=
    grown_store hstore fun d hd ↦ by cases hd
  obtain ⟨h₁, hfree, hcall⟩ := Option.bind_eq_some_iff.mp hcall
  obtain ⟨h₂, hnext, hcall⟩ := Option.bind_eq_some_iff.mp hcall
  obtain ⟨h₃, hprev, hcall⟩ := Option.bind_eq_some_iff.mp hcall
  refine ((grown_setFree hfree).trans (hword hnext)).trans ((hword hprev).trans ?_)
  split at hcall
  · obtain ⟨h₄, hnext', hcall⟩ := Option.bind_eq_some_iff.mp hcall
    obtain ⟨h₅, hprev', hcall⟩ := Option.bind_eq_some_iff.mp hcall
    obtain ⟨h₆, hstart, hcall⟩ := Option.bind_eq_some_iff.mp hcall
    cases hcall
    exact ((hword hnext').trans (hword hprev')).trans ((hword hstart).trans (grown_start h₆ _))
  · obtain ⟨h₄, hprev', hcall⟩ := Option.bind_eq_some_iff.mp hcall
    exact ((grown_start h₃ _).trans (hword hprev')).trans (hword hcall)

theorem grown_mergeNext (hcall : mergeNext h m n = some h') : Grown h h' := by
  obtain ⟨h₁, hremove, hcall⟩ := Option.bind_eq_some_iff.mp hcall
  obtain ⟨d, -, hcall⟩ := Option.bind_eq_some_iff.mp hcall
  obtain ⟨h₂, hset, hcall⟩ := Option.bind_eq_some_iff.mp hcall
  obtain ⟨h₃, hnext, hcall⟩ := Option.bind_eq_some_iff.mp hcall
  obtain ⟨after, -, hprev⟩ := Option.bind_eq_some_iff.mp hcall
  exact ((grown_removeFromFreeList hremove).trans
    (grown_setHeader hset fun _ ↦ Nat.le_add_right _ _)).trans
      ((grown_setHasNext hnext).trans (grown_setHasPrev hprev))

theorem grown_coalesceNext (hcall : coalesceNext h m = some h') : Grown h h' := by
  obtain ⟨b, -, hcall⟩ := Option.bind_eq_some_iff.mp hcall
  split at hcall
  · obtain ⟨n, -, hcall⟩ := Option.bind_eq_some_iff.mp hcall
    obtain ⟨d, -, hcall⟩ := Option.bind_eq_some_iff.mp hcall
    split at hcall
    · split at hcall
      · cases hcall
        exact .refl h
      · exact grown_mergeNext hcall
    · cases hcall
      exact .refl h
  · cases hcall
    exact .refl h

/-- The first half of `coalesce` leaves the block that it goes on with as it is, or makes it
larger. -/
theorem grown_coalescePrev (hcall : coalescePrev h a = some (m, h')) (hb : h.header a = some b)
    (hsize : b.size ≠ 0) : Grown h h' ∧ (m = a ∨ ∀ {d}, h'.header m = some d →
      ∃ e, h.header m = some e ∧ e.size < d.size) := by
  rw [coalescePrev, hb, Option.bind_eq_bind, Option.bind_some] at hcall
  split at hcall
  · obtain ⟨prevFooter, -, hcall⟩ := Option.bind_eq_some_iff.mp hcall
    obtain ⟨prevHeader, -, hcall⟩ := Option.bind_eq_some_iff.mp hcall
    obtain ⟨f, -, hcall⟩ := Option.bind_eq_some_iff.mp hcall
    split at hcall
    · obtain ⟨e, -, hcall⟩ := Option.bind_eq_some_iff.mp hcall
      split at hcall
      · cases hcall
        exact ⟨.refl h, .inl rfl⟩
      · obtain ⟨h₁, hremove, hcall⟩ := Option.bind_eq_some_iff.mp hcall
        obtain ⟨b₁, hb₁, hcall⟩ := Option.bind_eq_some_iff.mp hcall
        obtain ⟨h₂, hset, hcall⟩ := Option.bind_eq_some_iff.mp hcall
        obtain ⟨h₃, hnext, hcall⟩ := Option.bind_eq_some_iff.mp hcall
        cases hcall
        have hgrown := grown_removeFromFreeList hremove
        have hgrown' := grown_setHasNext hnext
        have hsize₁ : b₁.size ≠ 0 := by
          obtain ⟨b₀, hb₀, hle⟩ := hgrown.before hb₁
          cases hb.symm.trans hb₀
          omega
        refine ⟨(hgrown.trans (grown_setHeader hset fun _ ↦ Nat.le_add_right _ _)).trans hgrown',
          .inr fun {d} hd ↦ ?_⟩
        obtain ⟨d₂, hd₂, hle₂⟩ := hgrown'.before hd
        obtain ⟨d₁, hd₁, rfl⟩ := header_of_setHeader hset hd₂
        obtain ⟨d₀, hd₀, hle₀⟩ := hgrown.before hd₁
        rw [if_pos rfl] at hle₂
        have hle₂ : d₁.size + b₁.size ≤ d.size := hle₂
        exact ⟨d₀, hd₀, by omega⟩
    · cases hcall
      exact ⟨.refl h, .inl rfl⟩
  · cases hcall
    exact ⟨.refl h, .inl rfl⟩

theorem unmap_mem (hcall : unmap h x size = some h') (hsize : 0 < size) : h'.mem x = none := by
  obtain ⟨h₁, -, hcall⟩ := Option.bind_eq_some_iff.mp hcall
  obtain ⟨prev, -, hcall⟩ := Option.bind_eq_some_iff.mp hcall
  obtain ⟨h₂, -, hcall⟩ := Option.bind_eq_some_iff.mp hcall
  obtain ⟨next, -, hcall⟩ := Option.bind_eq_some_iff.mp hcall
  obtain ⟨h₃, -, hcall⟩ := Option.bind_eq_some_iff.mp hcall
  cases hcall
  exact if_pos ⟨le_rfl, by omega⟩

/-- The pages at the beginning of a block are given back, or the block is left alone. -/
theorem freePages_cases (hcall : freePages h m = some h') :
    ∃ b, h.header m = some b ∧ (h' = h ∨ h'.mem m = none) := by
  obtain ⟨b, hb, hcall⟩ := Option.bind_eq_some_iff.mp hcall
  refine ⟨b, hb, ?_⟩
  dsimp only at hcall
  split at hcall
  · next hpage =>
      have hwhole := wholePages hpage.1
      split at hcall
      · split at hcall
        · obtain ⟨h₁, -, hunmap⟩ := Option.bind_eq_some_iff.mp hcall
          exact .inr (unmap_mem hunmap (by omega))
        · exact .inr (unmap_mem hcall (by omega))
      · cases hcall
        exact .inl rfl
  · cases hcall
    exact .inl rfl

/-- `sdb_heap_free` changes the heap when the header says that the block is used, whether or not
a block begins there. -/
theorem sdbHeapFree_ne (hp : p ≠ 0) (hb : h.header (removeOffset p) = some b)
    (hfree : b.free = false) (hsize : b.size ≠ 0) : sdbHeapFree h p ≠ some h := by
  intro hcall
  rw [sdbHeapFree, if_neg hp] at hcall
  simp only [hb, hfree, Option.bind_eq_bind, Option.bind_some, Bool.false_eq_true, if_false]
    at hcall
  obtain ⟨h₁, happend, hcall⟩ := Option.bind_eq_some_iff.mp hcall
  obtain ⟨⟨m, h₂⟩, hcoalesce, hpages⟩ := Option.bind_eq_some_iff.mp hcall
  obtain ⟨⟨m', h₃⟩, hprev, hcoalesce⟩ := Option.bind_eq_some_iff.mp hcoalesce
  obtain ⟨h₄, hnext, hcoalesce⟩ := Option.bind_eq_some_iff.mp hcoalesce
  obtain ⟨h₅, hset, hcoalesce⟩ := Option.bind_eq_some_iff.mp hcoalesce
  cases hcoalesce
  have hgrown₁ := grown_appendToFreeList happend
  obtain ⟨b₁, hb₁, -⟩ := Option.bind_eq_some_iff.mp hprev
  have hsize₁ : b₁.size ≠ 0 := by
    obtain ⟨b₀, hb₀, hle⟩ := hgrown₁.before hb₁
    cases hb.symm.trans hb₀
    omega
  obtain ⟨hgrown₃, hm⟩ := grown_coalescePrev hprev hb₁ hsize₁
  have hgrown₅ := (grown_coalesceNext hnext).trans (grown_setFree hset)
  obtain ⟨b₂, hb₂, rfl | hnone⟩ := freePages_cases hpages
  · -- the block that is left says that it is free, and is larger than before when it is another one
    have hfree₂ := free_of_setFree hset hb₂
    rcases hm with rfl | hlarger
    · cases hb.symm.trans hb₂
      rw [hfree] at hfree₂
      cases hfree₂
    · obtain ⟨d₃, hd₃, hle₃⟩ := hgrown₅.before hb₂
      obtain ⟨d₁, hd₁, hlt⟩ := hlarger hd₃
      obtain ⟨d₀, hd₀, hle₀⟩ := hgrown₁.before hd₁
      cases hb₂.symm.trans hd₀
      omega
  · obtain ⟨d, hd, -⟩ := ((hgrown₁.trans hgrown₃).trans hgrown₅).before hb₂
    rw [(header_eq_some_iff.mp hd).2] at hnone
    cases hnone

end SdbStore.Alloc
