import SdbStore.Alloc.Ranges

/-!
# The calls

What `sdb_heap_malloc`, `sdb_heap_free` and `sdb_heap_realloc` do with a heap that is in order.
-/

namespace SdbStore.Alloc

open Lib

variable {m₀ m₁ : Mem} {keep keep' : Nat → Option Nat} {h : SdbHeap} {B : Blocks} {fl : List Nat}
  {stale odd : Set Nat} {a c n requested size : Nat} {b b' d : Header}

/-- The words that have to stay have stayed. -/
def Kept (keep : Nat → Option Nat) (m m' : Mem) : Prop :=
  ∀ {c n}, keep c = some n → ∀ x, c + 8 ≤ x → x < c + n - 8 → m' x = m x

theorem Settled.kept (hs : Settled m₀ keep h B fl) : Kept keep m₀ h.mem :=
  fun hn ↦ (hs.keeps hn).2.2

/-- From here on the words have to stay as they are now. -/
theorem Settled.now (hs : Settled m₀ keep h B fl) : Settled h.mem keep h B fl :=
  { hs with keeps := fun hn ↦ ⟨(hs.keeps hn).1, (hs.keeps hn).2.1, fun _ _ _ ↦ rfl⟩ }

/-- Another part of a block has to stay as it is. -/
theorem Settled.rekeep (hs : Settled h.mem keep h B fl) (hn : keep c = some n) (hd : B c = some d)
    {k : Nat} (hk : k ≤ d.size) : Settled h.mem (Function.update keep c (some k)) h B fl := by
  refine { hs with used := fun {a b} hb ha ↦ ?_, keeps := fun {a l} hl ↦ ?_ }
  · by_cases hac : a = c
    · subst hac
      rw [Function.update_self]
      rfl
    · rw [Function.update_of_ne hac]
      exact hs.used hb ha
  · rcases update_some_iff.mp hl with ⟨rfl, rfl⟩ | ⟨hac, hl⟩
    · exact ⟨(hs.keeps hn).1, ⟨d, hd, hk⟩, fun _ _ _ ↦ rfl⟩
    · exact hs.keeps hl

/-! ## `free` -/

/-- `sdb_heap_free` of a block that the program uses. -/
theorem Settled.free (hs : Settled m₀ keep h B fl) (hn : keep a = some n) :
    ∃ h' B' fl', sdbHeapFree h (addOffset a) = some h' ∧
      Settled m₀ (Function.update keep a none) h' B' fl' ∧ ghosts h'.mem B' ⊆ ghosts h.mem B := by
  obtain ⟨ha, ⟨b, hb, -⟩, -⟩ := hs.keeps hn
  have htb := hs.tagged.block hb
  have hheader := SdbHeap.header_eq htb.aligned.1 htb.header
  have hused : b.free = false :=
    Bool.eq_false_iff.mpr fun hfree ↦ ha ((hs.flag hb (Set.notMem_empty a)).mp hfree)
  obtain ⟨h₁, happend, hsame₁, hs₁, hghosts₁⟩ := hs.append ha hb
  have hj₁ : Joints h₁.mem.mapped h₁.range
      (Function.update B a (some { b with free := true })) := by
    rw [hsame₁.mapped, hsame₁.range]
    exact hs.joints.replace hb rfl rfl rfl
  obtain ⟨c, h₂, B₂, fl₂, hcoalesce, hsame₂, hs₂, hj₂, hc, hghosts₂⟩ :=
    (hs₁.mono (fun x hx ↦ hx.1) fun x hx ↦ hx.1).coalesce hj₁ List.mem_cons_self
  have hs₂' : Settled m₀ (Function.update keep a none) h₂ B₂ fl₂ :=
    ⟨hs₂, hj₂, hs.tail.same (hsame₁.trans hsame₂)⟩
  obtain ⟨h₃, B₃, fl₃, hpages, hs₃, hghosts₃⟩ := hs₂'.freePages hc
  refine ⟨h₃, B₃, fl₃, ?_, hs₃, (hghosts₃.trans hghosts₂).trans hghosts₁⟩
  rw [sdbHeapFree, if_neg (addOffset_ne_zero a)]
  simp only [removeOffset_addOffset, hheader, Option.bind_eq_bind, Option.bind_some, hused,
    Bool.false_eq_true, if_false, happend, hcoalesce, hpages]

/-! ## `malloc` -/

/-- What `size_to_block_size` finds is enough. -/
theorem sizeToBlockSize_spec (hsize : sizeToBlockSize size = some requested) :
    size ≠ 0 ∧ requested % 8 = 0 ∧ 32 ≤ requested ∧ size + 16 ≤ requested ∧ requested ≤ intMax := by
  rw [sizeToBlockSize] at hsize
  split at hsize
  · cases hsize
  · next hzero =>
      have halign : align (size + metaSize) % 8 = 0 ∧ size + 16 ≤ align (size + metaSize) := by
        rw [align, metaSize]
        omega
      have hmin : minSize = 32 := rfl
      dsimp only at hsize
      split at hsize
      · split at hsize
        · cases hsize
        · cases hsize
          omega
      · split at hsize
        · cases hsize
        · cases hsize
          omega

/-- The pages that are mapped are enough, and not too many for one block. -/
theorem mappedPages_spec (last : Nat) (hpages : ¬ pages requested > maxMappedPages) :
    let bytes := clampMappedPages
      (if pages requested > last then pages requested else last) * sdbPageSize
    bytes % 8 = 0 ∧ requested ≤ bytes ∧ bytes ≤ intMax := by
  have hmax : maxMappedPages = 16383 := rfl
  have hint : intMax = 2147483647 := rfl
  rw [pages, sdbPageSize, hmax] at hpages
  intro bytes
  dsimp only [bytes, clampMappedPages]
  rw [pages, sdbPageSize, hmax, hint]
  split_ifs
  · omega
  · omega
  · omega

/-- What the system may return for the sizes that it is asked for: memory that is not mapped. -/
def Fresh (h : SdbHeap) (mmap : Nat → Option Nat) : Prop :=
  ∀ bytes r, mmap bytes = some r → 0 < r ∧ r % 4096 = 0 ∧ ∀ x, r ≤ x → x < r + bytes →
    h.mem x = none

/-- A block of the list is used. -/
theorem Settled.mallocFree (hs : Settled m₀ keep h B fl) (ha : a ∈ fl) (hb : B a = some b)
    (h8 : requested % 8 = 0) (hreq : 32 ≤ requested) (hle : requested ≤ b.size) :
    ∃ h' B' fl' b', (do
      let h ← setFree h a false
      let b ← h.header a
      let h ← Alloc.split h a b.size requested
      removeFromFreeList h a) = some h' ∧
      Settled m₀ (Function.update keep a (some 0)) h' B' fl' ∧ B' a = some b' ∧
      requested ≤ b'.size ∧ ghosts h'.mem B' ⊆ ghosts h.mem B := by
  obtain ⟨h₁, hfree, hsame₁, hs₁, hghosts₁⟩ := hs.setFree hb false {a} (fun hno ↦ absurd rfl hno)
    fun _ _ hc ↦ absurd hc (Set.notMem_empty _)
  have hb₁ := Function.update_self a (some { b with free := false }) B
  have hj₁ : Joints h₁.mem.mapped h₁.range
      (Function.update B a (some { b with free := false })) := by
    rw [hsame₁.mapped, hsame₁.range]
    exact hs.joints.replace hb rfl rfl rfl
  obtain ⟨h₂, B₂, fl₂, b₂, hsplit, hsame₂, hs₂, hj₂, hb₂, hmem, hle₂, -, -, hghosts₂⟩ :=
    hs₁.split hj₁ hb₁ h8 hreq hle fun n hn ↦ by
      cases (hs.keep_eq_none ha).symm.trans hn
  obtain ⟨h₃, hremove, hsame₃, hs₃, hghosts₃⟩ := hs₂.remove (hmem.mpr ha) hb₂
  have hsame := (hsame₁.trans hsame₂).trans hsame₃
  refine ⟨h₃, _, _, { b₂ with free := false }, ?_, ⟨hs₃.mono ?_ ?_, ?_, hs.tail.same hsame⟩,
    Function.update_self _ _ _, hle₂, (hghosts₃.trans hghosts₂).trans hghosts₁⟩
  · rw [hfree, Option.bind_eq_bind, Option.bind_some,
      SdbHeap.header_eq (hs₁.tagged.block hb₁).aligned.1 (hs₁.tagged.block hb₁).header,
      Option.bind_eq_bind, Option.bind_some, hsplit, Option.bind_some, hremove]
  · exact fun x hx ↦ hx.1.1
  · exact fun x hx ↦ hx.2 hx.1
  · rw [hsame₃.mapped, hsame₃.range]
    exact hj₂.replace hb₂ rfl rfl rfl

/-- `sdb_heap_malloc`. -/
theorem Settled.malloc {mmap : Nat → Option Nat} (hs : Settled m₀ keep h B fl)
    (hfresh : Fresh h mmap) (size : Nat) :
    ∃ p h' B' fl', sdbHeapMalloc h mmap size = some (p, h') ∧
      (p = 0 ∧ Settled m₀ keep h' B' fl' ∨ ∃ a b, p = addOffset a ∧ keep a = none ∧
        Settled m₀ (Function.update keep a (some 0)) h' B' fl' ∧ B' a = some b ∧
        size + 16 ≤ b.size) ∧
      ghosts h'.mem B' ⊆ ghosts h.mem B := by
  cases hsize : sizeToBlockSize size with
  | none => exact ⟨0, h, B, fl, by simp only [sdbHeapMalloc, hsize], .inl ⟨rfl, hs⟩, le_rfl⟩
  | some requested =>
      obtain ⟨-, h8, h32, hle, -⟩ := sizeToBlockSize_spec hsize
      obtain ⟨p, hfind, hp⟩ := hs.find requested
      rcases hp with rfl | ⟨a, b, ha, rfl, hb, hge⟩
      · by_cases hpages : pages requested > maxMappedPages
        · refine ⟨0, h, B, fl, ?_, .inl ⟨rfl, hs⟩, le_rfl⟩
          simp only [sdbHeapMalloc, hsize, hfind, Option.bind_eq_bind, Option.bind_some, ne_eq,
            not_true_eq_false, if_false, hpages, if_true]
        · obtain ⟨mappedPages, hmapped⟩ : ∃ n, clampMappedPages
              (if pages requested > h.lastMappedSize then pages requested else h.lastMappedSize) =
                n :=
            ⟨_, rfl⟩
          obtain ⟨hb8, hlb, hbmax⟩ := mappedPages_spec h.lastMappedSize hpages
          rw [hmapped] at hb8 hlb hbmax
          let h₀ : SdbHeap := { h with lastMappedSize := growMappedPages mappedPages }
          have hs₀ : Settled m₀ keep h₀ B fl := ⟨hs.toShaped.congr rfl rfl, hs.joints, hs.tail⟩
          cases hmmap : mmap (mappedPages * sdbPageSize) with
          | none =>
              refine ⟨0, h₀, B, fl, ?_, .inl ⟨rfl, hs₀⟩, le_rfl⟩
              simp only [sdbHeapMalloc, hsize, hfind, Option.bind_eq_bind, Option.bind_some, ne_eq,
                not_true_eq_false, if_false, hpages, hmapped, hmmap, h₀]
          | some r =>
              obtain ⟨hr, hr8, hout⟩ := hfresh _ _ hmmap
              obtain ⟨h', B', fl', b', hregion, hs', hb', hle', hghosts⟩ :=
                hs₀.mallocRegion hr (by omega) hb8 hbmax hout h8 h32 hlb
              refine ⟨addOffset r, h', B', fl', ?_,
                .inr ⟨r, b', rfl, ?_, hs', hb', hle.trans hle'⟩, hghosts⟩
              · simp only [sdbHeapMalloc, hsize, hfind, Option.bind_eq_bind, Option.bind_some,
                  ne_eq, not_true_eq_false, if_false, hpages, hmapped, hmmap]
                exact hregion
              · rw [Option.eq_none_iff_forall_ne_some]
                intro n hn
                obtain ⟨-, ⟨d, hd, -⟩, -⟩ := hs.keeps hn
                have hmin := (hs.tagged.block hd).min
                have hmem : r ∈ h.mem.mapped := hs.tagged.mapped hd le_rfl (by omega)
                rw [Mem.mapped, Set.mem_ofPred_eq, hout r le_rfl (by omega)] at hmem
                cases hmem
      · obtain ⟨h', B', fl', b', hmalloc, hs', hb', hle', hghosts⟩ := hs.mallocFree ha hb h8 h32 hge
        refine ⟨addOffset a, h', B', fl', ?_,
          .inr ⟨a, b', rfl, hs.keep_eq_none ha, hs', hb', hle.trans hle'⟩, hghosts⟩
        rw [← Option.bind_some (a := h') (f := fun h ↦ some (addOffset a, h)), ← hmalloc]
        simp only [sdbHeapMalloc, hsize, hfind, Option.bind_eq_bind, Option.bind_some, ne_eq,
          addOffset_ne_zero, not_false_eq_true, if_true, removeOffset_addOffset, Option.bind_assoc]

/-! ## `realloc` -/

/-- The footer of a block is brought up to date. -/
theorem Shaped.storeFooter (hs : Shaped m₀ keep h B fl stale odd) (hb : B a = some b) :
    ∃ h', h.store (a + b.size - 8) (.footer ⟨b.size, b.free⟩) = some h' ∧ Same h h' ∧
      Shaped m₀ keep h' B fl (stale \ {a}) odd ∧ ghosts h'.mem B ⊆ ghosts h.mem B := by
  have hta := hs.tagged.block hb
  have hmin := hta.min
  have h8 := hta.aligned
  have hend : a + b.size - 8 ∈ h.mem.mapped := hs.tagged.mapped hb (by omega) (by omega)
  have hsame : Function.update B a (some b) = B := by rw [← hb, Function.update_eq_self]
  have htag := hs.tagged.tag hb rfl
  rw [Mem.set_eq_self hta.header] at htag
  have hs' := hs.rewrite hb rfl htag (fun x _ hx ↦ Mem.set_of_ne _ _ hx) (fun ha ↦ hs.flag hb ha)
    fun _ _ hc ↦ hc
  rw [hsame] at hs'
  exact ⟨_, SdbHeap.store_eq (by omega) hend _, ⟨Mem.mapped_set hend _, rfl, rfl, rfl⟩, hs',
    ghosts_set _ _ _ fun _ hw ↦ by cases hw⟩

/-- A block is made larger where it is, or not. -/
theorem Settled.grow (hs : Settled m₀ keep h B fl) (ha : a ∉ fl) (hb : B a = some b)
    (h8 : requested % 8 = 0) (h32 : 32 ≤ requested) (hkeep : ∀ n, keep a = some n → n ≤ requested) :
    ∃ o, growBlock h a requested = some o ∧ ∀ h', o = some h' → ∃ B' fl' b',
      Settled m₀ keep h' B' fl' ∧ B' a = some b' ∧ requested ≤ b'.size ∧
      ghosts h'.mem B' ⊆ ghosts h.mem B := by
  have hta := hs.tagged.block hb
  have hmin := hta.min
  have hheader := SdbHeap.header_eq hta.aligned.1 hta.header
  have hnh := getNextHeader_eq hs.tagged hb
  have hused : b.free = false :=
    Bool.eq_false_iff.mpr fun hfree ↦ ha ((hs.flag hb (Set.notMem_empty a)).mp hfree)
  have hstay (hno : growBlock h a requested = some none) : ∃ o, growBlock h a requested = some o ∧
      ∀ h', o = some h' → ∃ B' fl' b', Settled m₀ keep h' B' fl' ∧ B' a = some b' ∧
        requested ≤ b'.size ∧ ghosts h'.mem B' ⊆ ghosts h.mem B :=
    ⟨none, hno, fun h' hh' ↦ by cases hh'⟩
  by_cases hnext : b.hasNext = true
  · obtain ⟨d, hd, -⟩ := hs.joints.exists_next hs.tagged.tiling hb hnext
    have htd := hs.tagged.block hd
    have hdheader := SdbHeap.header_eq htd.aligned.1 htd.header
    have hd0 : a + b.size ≠ 0 := htd.pos.ne'
    rw [if_pos hnext] at hnh
    by_cases henough : d.free = true ∧ canMerge b d ∧ b.size + d.size ≥ requested
    · have hmem := (hs.flag hd (Set.notMem_empty _)).mp henough.1
      obtain ⟨h₁, hmerge, hsame₁, hs₁, hj₁, hghosts₁⟩ :=
        hs.mergeNext hs.joints hb hnext hd hmem henough.2.1
      have hb₁ := Function.update_self a (some (merged b d))
        (Function.update B (a + b.size) none)
      have hta₁ := hs₁.tagged.block hb₁
      obtain ⟨h₂, hstore, hsame₂, hs₂, hghosts₂⟩ := hs₁.storeFooter hb₁
      rw [← hsame₂.mapped, ← hsame₂.range] at hj₁
      obtain ⟨h₃, B₃, fl₃, b₃, hsplit, hsame₃, hs₃, hj₃, hb₃, hmem₃, hle₃, hfree₃, -, hghosts₃⟩ :=
        hs₂.split hj₁ hb₁ h8 h32 henough.2.2 hkeep
      have ha₃ : a ∉ fl₃ := fun hno ↦ ha (List.mem_of_mem_erase (hmem₃.mp hno))
      obtain ⟨h₄, hset, hsame₄, hs₄, hghosts₄⟩ := hs₃.setFree hb₃ false ∅
        (fun _ ↦ iff_of_false Bool.false_ne_true ha₃) fun _ _ hc ↦ hc
      have hsame := ((hsame₁.trans hsame₂).trans hsame₃).trans hsame₄
      have hused₁ : (merged b d).free = false := hused
      have hstore' : h₁.store (getFooter a (merged b d)) (.footer ⟨(merged b d).size, false⟩) =
          some h₂ := by
        rw [← hused₁]
        exact hstore
      have hsplit' : Alloc.split h₂ a (b.size + d.size) requested = some h₃ := hsplit
      refine ⟨some h₄, ?_, fun h' hh' ↦ ?_⟩
      · simp only [growBlock, hheader, hnh, Option.bind_eq_bind, Option.bind_some, hd0, if_false,
          hdheader, henough, and_self, if_true, hmerge,
          SdbHeap.header_eq hta₁.aligned.1 hta₁.header, hstore', hsplit', hset]
      · cases hh'
        refine ⟨_, fl₃, _, ⟨hs₄.mono (fun x hx ↦ ?_) le_rfl, ?_, hs.tail.same hsame⟩,
          Function.update_self _ _ _, hle₃,
          ((hghosts₄.trans hghosts₃).trans hghosts₂).trans hghosts₁⟩
        · exact hx.1.1.resolve_right hx.2
        · rw [hsame₄.mapped, hsame₄.range]
          exact hj₃.replace hb₃ rfl rfl rfl
    · refine hstay ?_
      simp only [growBlock, hheader, hnh, Option.bind_eq_bind, Option.bind_some, hd0, if_false,
        hdheader, henough]
  · refine hstay ?_
    rw [if_neg hnext] at hnh
    simp only [growBlock, hheader, hnh, Option.bind_eq_bind, Option.bind_some, if_true]

/-- A word of a block whose payload need not stay is written. -/
theorem Settled.scribble (hs : Settled m₀ keep h B fl) (hn : keep c = some 0) (hd : B c = some d)
    {x : Nat} (hx : x % 8 = 0) (hcx : c + 8 ≤ x) (hxc : x < c + d.size - 8) (w : Word) :
    h.store x w = some { h with mem := h.mem.set x w } ∧
      Settled m₀ keep { h with mem := h.mem.set x w } B fl := by
  have hmapped := hs.tagged.mapped hd (x := x) (by omega) (by omega)
  have hset := Mem.mapped_set hmapped w
  have hout {a : Nat} {b : Header} (hb : B a = some b) (hac : a ≠ c) {y : Nat} (hay : a ≤ y)
      (hya : y < a + b.size) : h.mem.set x w y = h.mem y := by
    have hdis := hs.tagged.disjoint hb hd hac
    exact Mem.set_of_ne _ _ (by omega)
  refine ⟨SdbHeap.store_eq hx hmapped w,
    ⟨⟨hs.tagged.payload hd hcx hxc w, hs.listed.congr fun a ha ↦ ?_, hs.block, hs.flag, hs.used,
    fun {a k} hk ↦ ?_⟩, ?_, ?_⟩⟩
  · obtain ⟨b, hb⟩ := hs.exists_block ha
    have hmin := (hs.tagged.block hb).min
    have hac : a ≠ c := fun hac ↦ (hs.keeps hn).1 (hac ▸ ha)
    exact ⟨hout hb hac (by omega) (by omega), hout hb hac (by omega) (by omega)⟩
  · obtain ⟨ha, ⟨b, hb, hkb⟩, hwords⟩ := hs.keeps hk
    refine ⟨ha, ⟨b, hb, hkb⟩, fun y hay hya ↦ ?_⟩
    by_cases hac : a = c
    · subst hac
      cases hn.symm.trans hk
      omega
    · exact (hout hb hac (by omega) (by omega)).trans (hwords y hay hya)
  · show Joints (h.mem.set x w).mapped h.range B
    rw [hset]
    exact hs.joints
  · show Tail (h.mem.set x w).mapped h.range h.ranges h.lastAddress
    rw [hset]
    exact hs.tail

/-- Words are copied to a block whose payload need not stay. -/
theorem Settled.copy (hs : Settled m₀ keep h B fl) (src k : Nat) (hn : keep c = some 0)
    (hd : B c = some d) (hk : 8 * k + 16 ≤ d.size) (hsrc8 : src % 8 = 0)
    (hsrc : ∀ i < k, src + 8 * i ∈ h.mem.mapped)
    (hapart : src + 8 * k ≤ c + 8 ∨ c + 8 + 8 * k ≤ src) :
    ∃ h', copyWords h (addOffset c) src k = some h' ∧ Settled m₀ keep h' B fl ∧
      (∀ i < k, h'.mem (addOffset c + 8 * i) = h.mem (src + 8 * i)) ∧
      (∀ x, x < c + 8 ∨ c + 8 + 8 * k ≤ x → h'.mem x = h.mem x) ∧
      ghosts h'.mem B ⊆ ghosts h.mem B ∪ Set.Ico c (c + d.size) := by
  induction k with
  | zero => exact ⟨h, rfl, hs, fun i hi ↦ absurd hi (Nat.not_lt_zero i), fun _ _ ↦ rfl,
      Set.subset_union_left⟩
  | succ k ih =>
      obtain ⟨h', hcopy, hs', hwords, hout, hghosts⟩ :=
        ih (by omega) (fun i hi ↦ hsrc i (by omega)) (by omega)
      have hoffset : addOffset c = c + 8 := rfl
      have hc8 := (hs.tagged.block hd).aligned.1
      obtain ⟨w, hw⟩ := Option.isSome_iff_exists.mp (hsrc k (Nat.lt_succ_self k))
      have hw' : h'.mem (src + 8 * k) = some w := (hout _ (by omega)).trans hw
      have hload : h'.load (src + 8 * k) = some w := by rw [SdbHeap.load, if_pos (by omega), hw']
      obtain ⟨hstore, hs''⟩ := hs'.scribble hn hd (x := addOffset c + 8 * k) (by omega) (by omega)
        (by omega) w
      refine ⟨_, ?_, hs'', fun i hi ↦ ?_, fun x hx ↦ ?_, ?_⟩
      · rw [copyWords, hcopy, Option.bind_eq_bind, Option.bind_some, hload, Option.bind_eq_bind,
          Option.bind_some, hstore]
      · by_cases hik : i = k
        · subst hik
          exact (Mem.set_self _ _ _).trans hw.symm
        · exact (Mem.set_of_ne _ _ (by omega)).trans (hwords i (by omega))
      · exact (Mem.set_of_ne _ _ (by omega)).trans (hout x (by omega))
      · refine (ghosts_set_insert _ _ _ _).trans (Set.insert_subset (.inr ?_) hghosts)
        exact ⟨by omega, by omega⟩

/-- The payload of a block is copied to a new block, and the old block is freed. -/
theorem Settled.move {old : Nat} (hs : Settled m₀ (Function.update keep c (some 0)) h B fl)
    (hc : keep c = none) (hn : keep a = some old) (h8 : old % 8 = 0) (h16 : 16 ≤ old)
    (hd : B c = some d) (hle : old ≤ d.size) :
    ∃ h₁ h' B' fl' d', memcpy h (addOffset c) (addOffset a) (old - 16) = some h₁ ∧
      sdbHeapFree h₁ (addOffset a) = some h' ∧ B' c = some d' ∧ d.size ≤ d'.size ∧
      Settled h'.mem (Function.update (Function.update keep a none) c (some 0)) h' B' fl' ∧
      Kept (Function.update keep a none) m₀ h'.mem ∧
      (∀ i, i % 8 = 0 → i < old - 16 → h'.mem (addOffset c + i) = m₀ (addOffset a + i)) ∧
      ghosts h'.mem B' ⊆ ghosts h.mem B ∪ Set.Ico c (c + d'.size) := by
  have hac : a ≠ c := by
    rintro rfl
    cases hc.symm.trans hn
  have hself {k : Nat} : Function.update keep c (some k) c = some k := Function.update_self _ _ _
  have hother {k : Nat} : Function.update keep c (some k) a = some old :=
    (Function.update_of_ne hac _ _).trans hn
  obtain ⟨-, ⟨b, hb, hleb⟩, hwords⟩ := hs.keeps hother
  have hb8 := (hs.tagged.block hb).aligned.1
  have hoffset (x : Nat) : addOffset x = x + 8 := rfl
  have hdis := hs.tagged.disjoint hb hd hac
  obtain ⟨h₁, hcopy, hs₁, hcopied, hout, hghosts₁⟩ :=
    hs.copy (addOffset a) ((old - 16) / 8) hself hd
    (by omega) (by rw [hoffset]; omega)
    (fun i hi ↦ hs.tagged.mapped hb (by rw [hoffset]; omega) (by rw [hoffset]; omega))
    (by rw [hoffset]; omega)
  have hs₂ := hs₁.now.rekeep hself hd le_rfl
  rw [Function.update_idem] at hs₂
  obtain ⟨h', B', fl', hfree, hs₃, hghosts₃⟩ := hs₂.free hother
  rw [Function.update_comm hac.symm] at hs₃
  obtain ⟨-, ⟨d', hd', hle'⟩, hwords'⟩ := hs₃.keeps (Function.update_self c _ _)
  have hs₄ := hs₃.now.rekeep (Function.update_self c _ _) hd' (Nat.zero_le _)
  rw [Function.update_idem] at hs₄
  refine ⟨h₁, h', B', fl', d', ?_, hfree, hd', hle', hs₄, fun {e k} hk x hex hxe ↦ ?_,
    fun i hi8 hi ↦ ?_, ?_⟩
  · rw [memcpy, if_pos (by omega), hcopy]
  · obtain ⟨hea, hke⟩ := update_none_iff.mp hk
    have hec : e ≠ c := by
      rintro rfl
      cases hc.symm.trans hke
    exact (hs₃.kept ((Function.update_of_ne hec _ _).trans hk) x hex hxe).trans
      (hs₁.kept ((Function.update_of_ne hec _ _).trans hke) x hex hxe)
  · obtain ⟨j, rfl⟩ : ∃ j, i = 8 * j := ⟨i / 8, by omega⟩
    rw [hwords' _ (by rw [hoffset]; omega) (by rw [hoffset]; omega), hcopied j (by omega)]
    exact hwords _ (by rw [hoffset]; omega) (by rw [hoffset]; omega)
  · have hsub : Set.Ico c (c + d.size) ⊆ Set.Ico c (c + d'.size) :=
      Set.Ico_subset_Ico_right (Nat.add_le_add_left hle' c)
    exact (hghosts₃.trans hghosts₁).trans (Set.union_subset_union_right _ hsub)

/-- What `sdb_heap_realloc` of the block at `a` gives: nothing, or a block that is large enough and
begins with the words of the old one. -/
def Realloced (keep : Nat → Option Nat) (h : SdbHeap) (a : Nat) (b : Header) (size p : Nat)
    (h' : SdbHeap) (B' : Blocks) (fl' : List Nat) : Prop :=
  p = 0 ∧ Settled h'.mem keep h' B' fl' ∧ Kept keep h.mem h'.mem ∨
    ∃ c d, p = addOffset c ∧ (c = a ∨ keep c = none) ∧ B' c = some d ∧ size + 16 ≤ d.size ∧
      Settled h'.mem (Function.update (Function.update keep a none) c (some 0)) h' B' fl' ∧
      Kept (Function.update keep a none) h.mem h'.mem ∧
      ∀ i, i % 8 = 0 → i < b.size - 16 → i < size →
        h'.mem (addOffset c + i) = h.mem (addOffset a + i)

/-- Where the block behind a pointer lies. -/
def blockOf (B : Blocks) (p : Nat) : Set Nat :=
  { x | ∃ a b, p = addOffset a ∧ B a = some b ∧ a ≤ x ∧ x < a + b.size }

section Realloc

variable {h' : SdbHeap} {B' : Blocks} {fl' : List Nat} {b' : Header}
  (hs : Settled h.mem keep h B fl) (hn : keep a = some n) (hb : B a = some b)
include hs hn hb

/-- The block is large enough as it is. -/
theorem Settled.realloced_short (hshort : size ≤ b.size - headerSize - footerSize)
    (hsize : size ≠ 0) :
    Realloced keep h a b size (addOffset a) h B fl := by
  have hmeta : headerSize = 8 ∧ footerSize = 8 := ⟨rfl, rfl⟩
  have hs₀ := hs.rekeep hn hb (Nat.zero_le _)
  refine .inr ⟨a, b, rfl, .inl rfl, hb, by omega, ?_, fun _ _ _ _ ↦ rfl, fun _ _ _ _ ↦ rfl⟩
  rw [Function.update_idem]
  exact hs₀

omit hs hn hb in
/-- The block has been made larger where it is. -/
theorem Settled.realloced_grown
    (hs' : Settled h.mem (Function.update keep a (some b.size)) h' B' fl') (hb' : B' a = some b')
    (hle : size + 16 ≤ b'.size) :
    Realloced keep h a b size (addOffset a) h' B' fl' := by
  have hself : Function.update keep a (some b.size) a = some b.size := Function.update_self _ _ _
  have hs'' := hs'.now.rekeep hself hb' (Nat.zero_le _)
  rw [Function.update_idem] at hs''
  refine .inr ⟨a, b', rfl, .inl rfl, hb', hle, ?_, fun {c k} hk ↦ ?_, fun i _ hib _ ↦ ?_⟩
  · rw [Function.update_idem]
    exact hs''
  · obtain ⟨hca, hk⟩ := update_none_iff.mp hk
    exact hs'.kept ((Function.update_of_ne hca _ _).trans hk)
  · exact hs'.kept hself _ (Nat.le_add_right _ _) (by rw [addOffset, headerSize]; omega)

/-- No other block could be had. -/
theorem Settled.realloced_refused
    (hs' : Settled h.mem (Function.update keep a (some b.size)) h' B' fl') :
    Realloced keep h a b size 0 h' B' fl' := by
  have hself : Function.update keep a (some b.size) a = some b.size := Function.update_self _ _ _
  obtain ⟨-, ⟨b₁, hb₁, hle₁⟩, hwords₁⟩ := hs'.keeps hself
  obtain ⟨-, ⟨b₀, hb₀, hle₀⟩, -⟩ := hs.keeps hn
  cases hb.symm.trans hb₀
  have hs'' := hs'.now.rekeep hself hb₁ (hle₀.trans hle₁)
  rw [Function.update_idem, hn.symm, Function.update_eq_self] at hs''
  refine .inl ⟨rfl, hs'', fun {c k} hk ↦ ?_⟩
  by_cases hca : c = a
  · subst hca
    cases hn.symm.trans hk
    exact fun x hcx hxc ↦ hwords₁ x hcx (by omega)
  · exact hs'.kept ((Function.update_of_ne hca _ _).trans hk)

end Realloc

/-- `sdb_heap_realloc` of a block that the program uses, to a size that is not 0. -/
theorem Settled.realloc {mmap : Nat → Option Nat} (hs : Settled h.mem keep h B fl)
    (hfresh : Fresh h mmap) (hn : keep a = some n) (hb : B a = some b) (hsize : size ≠ 0) :
    ∃ p h' B' fl', sdbHeapRealloc h mmap (addOffset a) size = some (p, h') ∧
      Realloced keep h a b size p h' B' fl' ∧ ghosts h'.mem B' ⊆ ghosts h.mem B ∪ blockOf B' p := by
  have htb := hs.tagged.block hb
  have hheader := SdbHeap.header_eq htb.aligned.1 htb.header
  have hmeta : headerSize = 8 ∧ footerSize = 8 := ⟨rfl, rfl⟩
  obtain ⟨ha, -, -⟩ := hs.keeps hn
  cases hreq : sizeToBlockSize size with
  | none =>
      refine ⟨0, h, B, fl, ?_, .inl ⟨rfl, hs, fun _ _ _ _ ↦ rfl⟩, Set.subset_union_left⟩
      simp only [sdbHeapRealloc, addOffset_ne_zero, if_false, hsize, hreq]
  | some requested =>
      obtain ⟨-, h8, h32, hle, -⟩ := sizeToBlockSize_spec hreq
      have hs₁ := hs.rekeep hn hb le_rfl
      have hself : Function.update keep a (some b.size) a = some b.size :=
        Function.update_self _ _ _
      by_cases hshort : size ≤ b.size - headerSize - footerSize
      · refine ⟨addOffset a, h, B, fl, ?_, hs.realloced_short hn hb hshort hsize,
          Set.subset_union_left⟩
        simp only [sdbHeapRealloc, addOffset_ne_zero, if_false, hsize, hreq, removeOffset_addOffset,
          hheader, Option.bind_eq_bind, Option.bind_some, hshort, if_true]
      · obtain ⟨o, hgrow, ho⟩ := hs₁.grow ha hb h8 h32 fun k hk ↦ by
          cases hself.symm.trans hk
          omega
        cases o with
        | some h' =>
            obtain ⟨B', fl', b', hs', hb', hle', hghosts⟩ := ho h' rfl
            refine ⟨addOffset a, h', B', fl', ?_, Settled.realloced_grown hs' hb' (hle.trans hle'),
              hghosts.trans Set.subset_union_left⟩
            simp only [sdbHeapRealloc, addOffset_ne_zero, if_false, hsize, hreq,
              removeOffset_addOffset, hheader, Option.bind_eq_bind, Option.bind_some, hshort, hgrow]
        | none =>
            obtain ⟨p, h₁, B₁, fl₁, hmalloc, hp, hghosts₁⟩ := hs₁.malloc hfresh size
            rcases hp with ⟨rfl, hs₂⟩ | ⟨c, d, rfl, hc, hs₂, hd, hled⟩
            · refine ⟨0, h₁, B₁, fl₁, ?_, hs.realloced_refused hn hb hs₂,
                hghosts₁.trans Set.subset_union_left⟩
              simp only [sdbHeapRealloc, addOffset_ne_zero, if_false, hsize, hreq,
                removeOffset_addOffset, hheader, Option.bind_eq_bind, Option.bind_some, hshort,
                hgrow, hmalloc, if_true]
            · -- the payload is copied to the new block
              have hac : c ≠ a := by
                rintro rfl
                cases hc.symm.trans hself
              have hc' : keep c = none := (Function.update_of_ne hac _ _).symm.trans hc
              have hmin := htb.min
              have hold := htb.aligned.2
              obtain ⟨h₂, h₃, B₃, fl₃, d₃, hcopy, hfree, hd₃, hle₃, hs₃, hkept, hwords, hghosts₃⟩ :=
                hs₂.move hc hself hold (by omega) hd (by omega)
              rw [Function.update_idem] at hs₃ hkept
              have hpayload : b.size - headerSize - footerSize = b.size - 16 := by omega
              rw [hpayload] at hshort
              have hlt : b.size - 16 < size := by omega
              refine ⟨addOffset c, h₃, B₃, fl₃, ?_,
                .inr ⟨c, d₃, rfl, .inr hc', hd₃, hled.trans hle₃, hs₃, hkept,
                fun i hi8 hi _ ↦ hwords i hi8 hi⟩, ?_⟩
              · simp only [sdbHeapRealloc, addOffset_ne_zero, if_false, hsize, hreq,
                  removeOffset_addOffset, hheader, Option.bind_eq_bind, Option.bind_some, hshort,
                  hgrow, hmalloc, hpayload, hlt, if_true, hcopy, hfree]
              · refine hghosts₃.trans (Set.union_subset_union hghosts₁ ?_)
                exact fun x hx ↦ ⟨c, d₃, rfl, hd₃, hx.1, hx.2⟩

end SdbStore.Alloc
