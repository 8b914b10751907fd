import SdbStore.Alloc.Coalesce

/-!
# Ranges come and go

`unmap` gives a free block back to the system: its neighbours are told so, and it is no longer
mapped.  `mallocRegion` puts a new block into a mapping that has just been made, and the block in
front of it is told so when the mapping begins at `last_address`.

`Settled` is what holds between the calls, and in a call where nothing is in the middle of being
changed.
-/

namespace SdbStore.Alloc

open Lib

/-- The heap when all blocks are in order. -/
structure Settled (m₀ : Mem) (keep : Nat → Option Nat) (h : SdbHeap) (B : Blocks) (fl : List Nat) :
    Prop extends Shaped m₀ keep h B fl ∅ ∅ where
  joints : Joints h.mem.mapped h.range B
  tail : Tail h.mem.mapped h.range h.ranges h.lastAddress

variable {m₀ : Mem} {keep : Nat → Option Nat} {h : SdbHeap} {B : Blocks} {fl : List Nat}
  {stale odd : Set Nat} {a c : Nat} {b b' d : Header}

/-- Only words and the list have changed. -/
theorem Tail.same {h' : SdbHeap} (ht : Tail h.mem.mapped h.range h.ranges h.lastAddress)
    (hsame : Same h h') : Tail h'.mem.mapped h'.range h'.ranges h'.lastAddress := by
  rw [hsame.mapped, hsame.range, hsame.ranges, hsame.last]
  exact ht

namespace Shaped

/-- A flag in the header of a block is written. -/
theorem setFlag (hs : Shaped m₀ keep h B fl stale odd) (b' : Header) (hb : B a = some b)
    (hsize : b'.size = b.size) (hfree : b'.free = b.free) :
    Same h { h with mem := h.mem.set a (.header b') } ∧
      Shaped m₀ keep { h with mem := h.mem.set a (.header b') } (Function.update B a (some b')) fl
        stale odd := by
  have hmin := (hs.tagged.block hb).min
  refine ⟨⟨Mem.mapped_set (hs.tagged.mapped hb le_rfl (by omega)) _, rfl, rfl, rfl⟩,
    hs.rewrite hb hsize (hs.tagged.flags hb hsize hfree) (fun x hx _ ↦ Mem.set_of_ne _ _ hx)
      (fun ha ↦ ?_) fun _ _ hc ↦ hc⟩
  rw [hfree]
  exact hs.flag hb ha

/-- The block in front of a block is told that there is nothing behind it. -/
theorem detachPrev (hs : Shaped m₀ keep h B fl ∅ odd) (hj : Joints h.mem.mapped h.range B)
    (hb : B a = some b) :
    ∃ p h' B', getPrevHeader h a = some p ∧ (p ≠ 0 ↔ b.hasPrev = true) ∧
      setHasNext h p false = some h' ∧ Same h h' ∧ Shaped m₀ keep h' B' fl ∅ odd ∧ B' a = some b ∧
      (∀ {c d}, B' c = some d → ∃ e, B c = some e ∧ d.size = e.size ∧
        d.hasPrev = e.hasPrev ∧ (d.hasNext = true ↔ e.hasNext = true ∧ c + e.size ≠ a)) ∧
      ghosts h'.mem B' ⊆ ghosts h.mem B := by
  by_cases hprev : b.hasPrev = true
  · obtain ⟨p, e, he, rfl, -⟩ := hj.exists_prev hs.tagged.tiling hb (hs.tagged.block hb).pos hprev
    have hte := hs.tagged.block he
    have hmin := hte.min
    have hphead := (getPrevHeader_eq hs.tagged he (Set.notMem_empty p) hb hprev).2.2
    obtain ⟨hsame, hs'⟩ := hs.setFlag { e with hasNext := false } he rfl rfl
    refine ⟨p, _, _, hphead, iff_of_true hte.pos.ne' hprev,
      setHasNext_eq hte.aligned.1 hte.pos.ne' hte.header false, hsame, hs', ?_, fun {c d} hd ↦ ?_,
      ghosts_set_header _ _ _ _ _⟩
    · rw [Function.update_of_ne (by omega), hb]
    · rcases update_some_iff.mp hd with ⟨rfl, rfl⟩ | ⟨hc, hd⟩
      · exact ⟨e, he, rfl, rfl, iff_of_false Bool.false_ne_true fun hno ↦ hno.2 rfl⟩
      · refine ⟨d, hd, rfl, rfl, (and_iff_left fun hend ↦ hc ?_).symm⟩
        have hmind := (hs.tagged.block hd).min
        exact hs.tagged.tiling.unique hd he (x := p + e.size - 1) (by omega) (by omega) (by omega)
          (by omega)
  · have hprev' : b.hasPrev = false := Bool.eq_false_iff.mpr hprev
    refine ⟨0, h, B, getPrevHeader_none hs.tagged hb hprev', iff_of_false (fun hno ↦ hno rfl) hprev,
      rfl, ⟨rfl, rfl, rfl, rfl⟩, hs, hb, fun {c d} hd ↦
        ⟨d, hd, rfl, rfl, (and_iff_left_of_imp fun hn hend ↦ ?_).symm⟩, le_rfl⟩
    subst hend
    exact hprev (hj.agree hs.tagged.tiling hd hb ▸ hn)

/-- The block behind a block is told that there is nothing in front of it. -/
theorem detachNext (hs : Shaped m₀ keep h B fl stale odd) (hb : B a = some b)
    (hnext : b.hasNext = true → a + b.size ∈ h.mem.mapped)
    (hagree : ∀ {d}, B (a + b.size) = some d → b.hasNext = d.hasPrev) :
    ∃ n h' B', getNextHeader h a = some n ∧ setHasPrev h n false = some h' ∧ Same h h' ∧
      Shaped m₀ keep h' B' fl stale odd ∧ B' a = some b ∧
      (∀ {c d}, B' c = some d → ∃ e, B c = some e ∧ d.size = e.size ∧ d.hasNext = e.hasNext ∧
        (d.hasPrev = true ↔ e.hasPrev = true ∧ c ≠ a + b.size)) ∧
      ghosts h'.mem B' ⊆ ghosts h.mem B := by
  have hmin := (hs.tagged.block hb).min
  have hnh := getNextHeader_eq hs.tagged hb
  by_cases hn : b.hasNext = true
  · obtain ⟨d, hd⟩ := Option.isSome_iff_exists.mp ((hs.tagged.tiling.isSome_end hb).mpr (hnext hn))
    have htd := hs.tagged.block hd
    obtain ⟨hsame, hs'⟩ := hs.setFlag { d with hasPrev := false } hd rfl rfl
    rw [if_pos hn] at hnh
    refine ⟨_, _, _, hnh, setHasPrev_eq htd.aligned.1 htd.pos.ne' htd.header false, hsame, hs', ?_,
      fun {c e} he ↦ ?_, ghosts_set_header _ _ _ _ _⟩
    · rw [Function.update_of_ne (by omega), hb]
    · rcases update_some_iff.mp he with ⟨rfl, rfl⟩ | ⟨hc, he⟩
      · exact ⟨d, hd, rfl, rfl, iff_of_false Bool.false_ne_true fun hno ↦ hno.2 rfl⟩
      · exact ⟨e, he, rfl, rfl, (and_iff_left hc).symm⟩
  · rw [if_neg hn] at hnh
    refine ⟨0, h, B, hnh, rfl, ⟨rfl, rfl, rfl, rfl⟩, hs, hb, fun {c d} hd ↦
      ⟨d, hd, rfl, rfl, (and_iff_left_of_imp fun hp hend ↦ ?_).symm⟩, le_rfl⟩
    subst hend
    exact hn (hagree hd ▸ hp)

/-- A block that the program does not use is no longer mapped. -/
theorem munmap (hs : Shaped m₀ keep h B fl stale odd) (hb : B a = some b) (ha : a ∉ fl) :
    Shaped m₀ (Function.update keep a none) (h.munmap a b.size) (Function.update B a none) fl stale
      odd := by
  have hout : ∀ x, x < a ∨ a + b.size ≤ x → (h.munmap a b.size).mem x = h.mem x := fun x hx ↦
    if_neg (by omega)
  have htag := hs.tagged.erase (h.munmap a b.size).mem hb hout fun x hax hxa ↦
    if_pos ⟨hax, hxa⟩
  refine hs.retag htag (fun {c d} hd hc ↦ ?_) (fun {c d} hd ↦ hs.flag (update_none_iff.mp hd).2)
    (fun {c d} hd hc ↦ ?_) fun {c n} hn ↦ ?_
  · have hca : c ≠ a := by
      rintro rfl
      rcases hc with hmem | hsome
      · exact ha hmem
      · rw [Function.update_self] at hsome
        cases hsome
    rw [Function.update_of_ne hca, Function.update_of_ne hca]
    refine ⟨d, hd, fun n hn ↦ ?_, fun x hcx hxc _ ↦ hout x ?_⟩
    · obtain ⟨-, ⟨e, he, hne⟩, -⟩ := hs.keeps hn
      cases hd.symm.trans he
      exact hne
    · have hdis := hs.tagged.disjoint hb hd (Ne.symm hca)
      omega
  · obtain ⟨hca, hd⟩ := update_none_iff.mp hd
    rw [Function.update_of_ne hca]
    exact hs.used hd hc
  · exact .inl (update_none_iff.mp hn).2

end Shaped

/-- The heap after a block at the end of the last range, with the header `p` in front of it, is
gone. -/
def SdbHeap.cutLast (h : SdbHeap) (a size p : Nat) : SdbHeap :=
  if h.lastAddress = a + size then
    if p ≠ 0 then { h with lastAddress := a }
    else { h with lastAddress := 0, lastMappedSize := 1 }
  else h

theorem cutLast_eq (h : SdbHeap) (a size p : Nat) :
    (h.cutLast a size p).mem = h.mem ∧ (h.cutLast a size p).freeListStart = h.freeListStart ∧
      (h.cutLast a size p).range = h.range ∧ (h.cutLast a size p).ranges = h.ranges := by
  rw [SdbHeap.cutLast]
  split_ifs
  · exact ⟨rfl, rfl, rfl, rfl⟩
  · exact ⟨rfl, rfl, rfl, rfl⟩
  · exact ⟨rfl, rfl, rfl, rfl⟩

theorem cutLast_lastAddress (h : SdbHeap) (a size p : Nat) : (h.cutLast a size p).lastAddress =
    if h.lastAddress = a + size then if p ≠ 0 then a else 0 else h.lastAddress := by
  rw [SdbHeap.cutLast]
  split_ifs
  · rfl
  · rfl
  · rfl

/-- `unmap`. -/
theorem Settled.unmap (hs : Settled m₀ keep h B fl) (ha : a ∈ fl) (hb : B a = some b) :
    ∃ h' B' fl', unmap h a b.size = some h' ∧ Settled m₀ keep h' B' fl' ∧
      ghosts h'.mem B' ⊆ ghosts h.mem B := by
  have hpos := (hs.tagged.block hb).pos
  have hmin := (hs.tagged.block hb).min
  obtain ⟨h₁, hremove, hsame₁, hs₁, hghosts₁⟩ := hs.remove ha hb
  replace hs₁ : Shaped m₀ (Function.update keep a (some 0)) h₁
      (Function.update B a (some { b with free := false })) (fl.erase a) ∅ ∅ :=
    hs₁.mono (fun x hx ↦ hx.1) fun x hx ↦ hx.1
  have hb₁ := Function.update_self a (some { b with free := false }) B
  have hj₁ : Joints h₁.mem.mapped h₁.range
      (Function.update B a (some { b with free := false })) := by
    rw [hsame₁.mapped, hsame₁.range]
    exact hs.joints.replace hb rfl rfl rfl
  have ht₁ := hs.tail.same hsame₁
  have htiling := hs₁.tagged.tiling
  obtain ⟨p, h₂, B₂, hph, hp, hsetNext, hsame₂, hs₂, hb₂, hB₂, hghosts₂⟩ := hs₁.detachPrev hj₁ hb₁
  obtain ⟨n, h₃, B₃, hnh, hsetPrev, hsame₃, hs₃, hb₃, hB₃, hghosts₃⟩ := hs₂.detachNext hb₂
    (fun hn ↦ hsame₂.mapped ▸ ((hj₁.next hb₁).mp hn).1) fun {d} hd ↦ by
      obtain ⟨e, he, -, hep, -⟩ := hB₂ hd
      rw [hep]
      exact hj₁.agree htiling hb₁ he
  have hsame := hsame₂.trans hsame₃
  have hs₄ := hs₃.munmap hb₃ hs.listed.nodup.not_mem_erase
  rw [Function.update_idem, (hs.keep_eq_none ha).symm, Function.update_eq_self] at hs₄
  have hmapped := (hs₃.tagged.tiling.erase hb₃).set_eq hs₄.tagged.tiling
  rw [hsame.mapped] at hmapped
  have hj₄ := hj₁.unmap (Function.update B₃ a none) htiling hb₁
    (fun hd ↦ (hs₁.tagged.block hd).pos) fun {c d} hd ↦ by
      obtain ⟨hca, hd⟩ := update_none_iff.mp hd
      obtain ⟨e, he, hsize, hn, hp⟩ := hB₃ hd
      obtain ⟨e', he', hsize', hp', hn'⟩ := hB₂ he
      exact ⟨hca, e', he', hsize.trans hsize', hn ▸ hn', hp' ▸ hp⟩
  have ht₄ := ht₁.unmap hj₁ htiling hb₁ hpos
  obtain ⟨hmem₄, hstart₄, hrange₄, hranges₄⟩ := cutLast_eq h₃ a b.size p
  have hmem : ((h₃.cutLast a b.size p).munmap a b.size).mem = (h₃.munmap a b.size).mem := by
    rw [SdbHeap.munmap, SdbHeap.munmap, hmem₄]
  have hghosts : ghosts (h₃.munmap a b.size).mem (Function.update B₃ a none) ⊆ ghosts h.mem B := by
    refine (ghosts_erase (fun c ↦ ?_) fun d hd ↦ ?_).trans
      ((hghosts₃.trans hghosts₂).trans hghosts₁)
    · by_cases hin : a ≤ c ∧ c < a + b.size
      · exact .inr (if_pos hin)
      · exact .inl (if_neg hin)
    · have hnone : (h₃.munmap a b.size).mem a = none := if_pos ⟨le_rfl, by omega⟩
      rw [hnone] at hd
      cases hd
  have hlast : (h₃.cutLast a b.size p).lastAddress =
      if h₁.lastAddress = a + b.size then if b.hasPrev then a else 0 else h₁.lastAddress := by
    rw [cutLast_lastAddress, hsame.last]
    by_cases hprev : b.hasPrev = true
    · rw [if_pos (hp.mpr hprev), if_pos hprev]
    · rw [if_neg (mt hp.mp hprev), if_neg hprev]
  refine ⟨(h₃.cutLast a b.size p).munmap a b.size, Function.update B₃ a none, fl.erase a, ?_,
    ⟨hs₄.congr hmem hstart₄, ?_, ?_⟩, hmem ▸ hghosts⟩
  · simp only [Alloc.unmap, hremove, hph, hsetNext, hnh, hsetPrev, Option.bind_eq_bind,
      Option.bind_some]
    rfl
  · rw [hmem, hmapped]
    exact (hrange₄.trans hsame.range).symm ▸ hj₄
  · rw [hmem, hmapped]
    show Tail _ (h₃.cutLast a b.size p).range (h₃.cutLast a b.size p).ranges
      (h₃.cutLast a b.size p).lastAddress
    rw [hrange₄, hsame.range, hranges₄, hsame.ranges, hlast]
    exact ht₄

/-- Whole pages of a block of at least one page. -/
theorem wholePages {size : Nat} (h : size ≥ sdbPageSize) :
    size / sdbPageSize * sdbPageSize % 8 = 0 ∧ 32 ≤ size / sdbPageSize * sdbPageSize ∧
      size / sdbPageSize * sdbPageSize ≤ size := by
  rw [sdbPageSize] at h ⊢
  omega

/-- Whole pages at the beginning of a free block are given back. -/
theorem Settled.freePages (hs : Settled m₀ keep h B fl) (ha : a ∈ fl) :
    ∃ h' B' fl', freePages h a = some h' ∧ Settled m₀ keep h' B' fl' ∧
      ghosts h'.mem B' ⊆ ghosts h.mem B := by
  obtain ⟨b, hb⟩ := hs.exists_block ha
  have htb := hs.tagged.block hb
  have hheader := SdbHeap.header_eq htb.aligned.1 htb.header
  have hmin : minSize = 32 := rfl
  by_cases hwhole : b.size ≥ sdbPageSize ∧ a % sdbPageSize = 0
  · obtain ⟨h8, h32, hle⟩ := wholePages hwhole.1
    by_cases hrest : b.size / sdbPageSize * sdbPageSize = b.size ∨
        b.size - b.size / sdbPageSize * sdbPageSize ≥ minSize
    · by_cases hall : b.size / sdbPageSize * sdbPageSize = b.size
      · obtain ⟨h', B', fl', hunmap, hs'⟩ := hs.unmap ha hb
        refine ⟨h', B', fl', ?_, hs'⟩
        simp only [Alloc.freePages, hheader, Option.bind_eq_bind, Option.bind_some, hwhole,
          and_self, if_true, hall, true_or, ne_eq, not_true_eq_false, if_false, hunmap]
      · have hrest' := hrest.resolve_left hall
        obtain ⟨h₁, B₁, fl₁, b₁, hsplit, hsame, hs₁, hj₁, hb₁, hmem, -, -, hsize, hghosts₁⟩ :=
          hs.split hs.joints hb h8 h32 hle fun n hn ↦ by
            cases (hs.keep_eq_none ha).symm.trans hn
        have hs₁' : Settled m₀ keep h₁ B₁ fl₁ := ⟨hs₁, hj₁, hs.tail.same hsame⟩
        obtain ⟨h', B', fl', hunmap, hs', hghosts⟩ := hs₁'.unmap (hmem.mpr ha) hb₁
        rw [hsize (hmin ▸ hrest')] at hunmap
        refine ⟨h', B', fl', ?_, hs', hghosts.trans hghosts₁⟩
        simp only [Alloc.freePages, hheader, Option.bind_eq_bind, Option.bind_some, hwhole,
          and_self, if_true, hrest', or_true, ne_eq, hall, not_false_eq_true, hsplit, hunmap]
    · refine ⟨h, B, fl, ?_, hs, le_rfl⟩
      simp only [Alloc.freePages, hheader, Option.bind_eq_bind, Option.bind_some, hwhole, and_self,
        if_true, hrest, if_false]
  · refine ⟨h, B, fl, ?_, hs, le_rfl⟩
    simp only [Alloc.freePages, hheader, Option.bind_eq_bind, Option.bind_some, hwhole, if_false]

/-! ## A new range -/

/-- The header of a new region before it is joined to the range in front of it. -/
def newHeader (bytes : Nat) : Header := ⟨bytes, false, false, false⟩

/-- The heap with the tags of a new region. -/
def SdbHeap.region (h : SdbHeap) (r bytes : Nat) : SdbHeap :=
  { h.map r bytes with
    mem := ((h.map r bytes).mem.set r (.header (newHeader bytes))).set (r + bytes - 8)
      (.footer ⟨bytes, false⟩) }

section Region

variable {r bytes requested : Nat}

theorem map_mem (h : SdbHeap) {x : Nat} (hx : x < r ∨ r + bytes ≤ x) :
    (h.map r bytes).mem x = h.mem x := if_neg (by omega)

theorem map_mem_in (h : SdbHeap) {x : Nat} (hrx : r ≤ x) (hxr : x < r + bytes) :
    (h.map r bytes).mem x = some (.data 0) := if_pos ⟨hrx, hxr⟩

theorem region_mem (h : SdbHeap) : (h.region r bytes).mem =
    ((h.map r bytes).mem.set r (.header (newHeader bytes))).set (r + bytes - 8)
      (.footer ⟨bytes, false⟩) := rfl

theorem region_mem_out (h : SdbHeap) (h32 : 32 ≤ bytes) {x : Nat} (hx : x < r ∨ r + bytes ≤ x) :
    (h.region r bytes).mem x = h.mem x := by
  rw [region_mem, Mem.set_of_ne _ _ (by omega), Mem.set_of_ne _ _ (by omega), map_mem h hx]

theorem region_mem_in (h : SdbHeap) {x : Nat} (hrx : r ≤ x) (hxr : x < r + bytes) :
    ((h.region r bytes).mem x).isSome := by
  refine (Mem.isSome_set _ _ _ _).mpr (.inr ((Mem.isSome_set _ _ _ _).mpr (.inr ?_)))
  rw [map_mem_in h hrx hxr]
  rfl

theorem region_header (h : SdbHeap) (h32 : 32 ≤ bytes) :
    (h.region r bytes).mem r = some (.header (newHeader bytes)) := by
  rw [region_mem, Mem.set_of_ne _ _ (by omega), Mem.set_self]

/-- The tags of a new region are written. -/
theorem region_eq (h : SdbHeap) (hr : r % 8 = 0) (h8 : bytes % 8 = 0) (h32 : 32 ≤ bytes) : (do
    let h ← (h.map r bytes).store r (.header (newHeader bytes))
    writeFooter h r) = some (h.region r bytes) := by
  have hin {x : Nat} (hrx : r ≤ x) (hxr : x < r + bytes) : x ∈ (h.map r bytes).mem.mapped := by
    rw [Mem.mapped, Set.mem_ofPred_eq, map_mem_in h hrx hxr]
    rfl
  rw [SdbHeap.store_eq hr (hin le_rfl (by omega)), Option.bind_eq_bind, Option.bind_some]
  exact writeFooter_eq (b := newHeader bytes) hr (Mem.set_self _ _ _)
    (show (r + bytes - 8) % 8 = 0 by omega)
    (Mem.mem_mapped_set (hin (x := r + bytes - 8) (by omega) (by omega)) _ _)

/-- A new region is a block that the program uses. -/
theorem Shaped.region (hs : Shaped m₀ keep h B fl stale odd) (hr : 0 < r) (hr8 : r % 8 = 0)
    (h8 : bytes % 8 = 0) (h32 : 32 ≤ bytes) (hmax : bytes ≤ intMax)
    (hfresh : ∀ x, r ≤ x → x < r + bytes → h.mem x = none) :
    Shaped m₀ (Function.update keep r (some 0)) (h.region r bytes)
      (Function.update B r (some (newHeader bytes))) fl stale odd := by
  have hout {x : Nat} (hx : x < r ∨ r + bytes ≤ x) := region_mem_out h h32 hx
  have htag := hs.tagged.insert (b := newHeader bytes) hr ⟨hr8, h8⟩ h32 hmax hfresh
    (fun x hx ↦ hout hx) (fun x hrx hxr ↦ region_mem_in h hrx hxr) (region_header h h32)
    (Mem.set_self _ _ _)
  have hside {c : Nat} {d : Header} (hd : B c = some d) : c + d.size ≤ r ∨ r + bytes ≤ c := by
    have hmin := (hs.tagged.block hd).min
    by_contra hno
    have hmem : max c r ∈ h.mem.mapped := hs.tagged.mapped hd (by omega) (by omega)
    rw [Mem.mapped, Set.mem_ofPred_eq, hfresh _ (by omega) (by omega)] at hmem
    cases hmem
  have hne {c : Nat} {d : Header} (hd : B c = some d) : c ≠ r := by
    have hc := hside hd
    have hmin := (hs.tagged.block hd).min
    omega
  have hnotin : r ∉ fl := fun hmem ↦ by
    obtain ⟨d, hd⟩ := hs.exists_block hmem
    exact hne hd rfl
  refine (hs.retag htag (fun {c d} hd _ ↦ ?_) (fun {c d} hd hc ↦ ?_) (fun {c d} hd hc ↦ ?_)
    fun {c n} hn ↦ ?_).congr rfl rfl
  · have hc := hne hd
    rw [Function.update_of_ne hc, Function.update_of_ne hc]
    have hcd := hside hd
    refine ⟨d, hd, fun n hn ↦ ?_, fun x hcx hxc _ ↦ hout (by omega)⟩
    obtain ⟨-, ⟨e, he, hne⟩, -⟩ := hs.keeps hn
    cases hd.symm.trans he
    exact hne
  · rcases update_some_iff.mp hd with ⟨rfl, rfl⟩ | ⟨-, hd⟩
    · exact iff_of_false Bool.false_ne_true hnotin
    · exact hs.flag hd hc
  · rcases update_some_iff.mp hd with ⟨rfl, rfl⟩ | ⟨hcr, hd⟩
    · rw [Function.update_self]
      rfl
    · rw [Function.update_of_ne hcr]
      exact hs.used hd hc
  · rcases update_some_iff.mp hn with ⟨rfl, rfl⟩ | ⟨hcr, hn⟩
    · exact .inr ⟨rfl, hnotin, by rw [Function.update_self]; rfl⟩
    · exact .inl hn

theorem ghosts_region (h : SdbHeap) (B : Blocks) (r bytes : Nat) :
    ghosts (h.region r bytes).mem
      (Function.update B r (some (newHeader bytes))) ⊆ ghosts h.mem B := by
  have hmap : ghosts (h.map r bytes).mem B ⊆ ghosts h.mem B := by
    refine ghosts_subset (fun c hc ↦ hc) fun c _ ↦ ?_
    by_cases hin : r ≤ c ∧ c < r + bytes
    · refine .inr fun d hd ↦ ?_
      rw [map_mem_in h hin.1 hin.2] at hd
      cases hd
    · exact .inl (map_mem h (by omega))
  exact (ghosts_set _ _ _ fun _ hd ↦ by cases hd).trans ((ghosts_set_header _ _ _ _ _).trans hmap)

/-- A block is joined to the one in front of it. -/
theorem Shaped.join (hs : Shaped m₀ keep h B fl ∅ odd) (hb : B a = some b)
    (hd : B (a + b.size) = some d) :
    ∃ h', (do
      let h ← setHasPrev h (a + b.size) true
      let prevFooter ← getPrevFooter h (a + b.size)
      let prevHeader ← getPrevHeader h (a + b.size)
      if prevFooter ≠ 0 ∧ prevHeader ≠ 0 then setHasNext h prevHeader true else some h) = some h' ∧
      Same h h' ∧ Shaped m₀ keep h'
        (Function.update (Function.update B (a + b.size) (some { d with hasPrev := true })) a
          (some { b with hasNext := true })) fl ∅ odd ∧
      ghosts h'.mem (Function.update
        (Function.update B (a + b.size) (some { d with hasPrev := true })) a
        (some { b with hasNext := true })) ⊆ ghosts h.mem B := by
  have htd := hs.tagged.block hd
  have hmin := (hs.tagged.block hb).min
  have hne : a ≠ a + b.size := by omega
  obtain ⟨hsame₁, hs₁⟩ := hs.setFlag { d with hasPrev := true } hd rfl rfl
  have hb₁ := (Function.update_of_ne hne (some { d with hasPrev := true }) B).trans hb
  have hd₁ := Function.update_self (a + b.size) (some { d with hasPrev := true }) B
  have htb := hs₁.tagged.block hb₁
  obtain ⟨hpf, -, hph⟩ := getPrevHeader_eq hs₁.tagged hb₁ (Set.notMem_empty a) hd₁ rfl
  obtain ⟨hsame₂, hs₂⟩ := hs₁.setFlag { b with hasNext := true } hb₁ rfl rfl
  refine ⟨_, ?_, hsame₁.trans hsame₂, hs₂,
    (ghosts_set_header _ _ _ _ _).trans (ghosts_set_header _ _ _ _ _)⟩
  rw [setHasPrev_eq htd.aligned.1 htd.pos.ne' htd.header, Option.bind_eq_bind, Option.bind_some,
    hpf, Option.bind_eq_bind, Option.bind_some, hph, Option.bind_some,
    if_pos ⟨by omega, htb.pos.ne'⟩, setHasNext_eq htb.aligned.1 htb.pos.ne' htb.header]

/-- The number of the range that a new region belongs to. -/
def rangeOf (h : SdbHeap) (r : Nat) : Nat := if r = h.lastAddress then h.range (r - 1) else h.ranges

theorem region_range (h : SdbHeap) {x : Nat} (hrx : r ≤ x) (hxr : x < r + bytes) :
    (h.region r bytes).range x = rangeOf h r := if_pos ⟨hrx, hxr⟩

theorem region_range_out (h : SdbHeap) {x : Nat} (hx : x < r ∨ r + bytes ≤ x) :
    (h.region r bytes).range x = h.range x := if_neg (by omega)

/-- The range that a new region belongs to lies below it. -/
theorem Settled.below (hs : Settled m₀ keep h B fl) (hr : 0 < r) :
    ∀ x ∈ h.mem.mapped, h.range x = rangeOf h r → x < r := by
  intro x hx hxr
  rw [rangeOf] at hxr
  split at hxr
  · next hlast =>
      rw [hlast] at hxr
      exact hlast ▸ (hs.tail.last (by omega)).2 x hx hxr
  · have hlt := hs.tail.known x hx
    omega

theorem Settled.rangeOf_lt (hs : Settled m₀ keep h B fl) (hr : 0 < r) :
    rangeOf h r < h.ranges + 1 := by
  rw [rangeOf]
  split
  · next hlast =>
      rw [hlast]
      exact Nat.lt_succ_of_lt (hs.tail.known _ (hs.tail.last (by omega)).1)
  · exact Nat.lt_succ_self _

/-- The block that ends at `last_address`. -/
theorem Settled.exists_last (hs : Settled m₀ keep h B fl) (hr : 0 < r) (hlast : r = h.lastAddress) :
    ∃ p e, B p = some e ∧ p + e.size = r := by
  have hlast0 : h.lastAddress ≠ 0 := by omega
  obtain ⟨p, e, he, hpx, hxp⟩ := (hs.tagged.tiling.cover _).mp (hs.tail.last hlast0).1
  have hend := hs.tail.not_inside hs.joints hs.tagged.tiling hlast0 he hpx hxp
  exact ⟨p, e, he, hend.trans hlast.symm⟩

section Fresh

variable (hs : Settled m₀ keep h B fl) (hr : 0 < r) (hr8 : r % 8 = 0) (h8 : bytes % 8 = 0)
  (h32 : 32 ≤ bytes) (hmax : bytes ≤ intMax)
  (hfresh : ∀ x, r ≤ x → x < r + bytes → h.mem x = none)

theorem not_mapped (hfresh : ∀ x, r ≤ x → x < r + bytes → h.mem x = none) :
    ∀ x, r ≤ x → x < r + bytes → x ∉ h.mem.mapped := by
  intro x hrx hxr hx
  rw [Mem.mapped, Set.mem_ofPred_eq, hfresh x hrx hxr] at hx
  cases hx

include hs hr hfresh

/-- The addresses of a new region, and its range. -/
theorem Settled.mappedRange :
    Mapped h.mem.mapped h.range (h.region r bytes).range r bytes (rangeOf h r) where
  fresh := not_mapped hfresh
  inside _ hrx hxr := region_range h hrx hxr
  outside _ hx := region_range_out h hx
  behind hmem heq := by
    have hlt := hs.below hr _ hmem heq
    omega

include hr8 h8 h32 hmax

/-- What is mapped with a new region. -/
theorem Settled.mapped_region :
    (h.region r bytes).mem.mapped = h.mem.mapped ∪ Set.Ico r (r + bytes) :=
  (hs.tagged.tiling.insert (a := r) (b := newHeader bytes) (by show 0 < bytes; omega)
    (not_mapped hfresh)).set_eq (hs.toShaped.region hr hr8 h8 h32 hmax hfresh).tagged.tiling

/-- The flags of the blocks with a new region, when the block in front of it knows about it. -/
theorem Settled.joints_region {B' : Blocks} (b' : Header) (hsize : b'.size = bytes)
    (hnext : b'.hasNext = false)
    (hprev : b'.hasPrev = true ↔ r - 1 ∈ h.mem.mapped ∧ h.range (r - 1) = rangeOf h r)
    (hB' : ∀ {c d}, B' c = some d → (c = r ∧ d = b') ∨ ∃ e, B c = some e ∧ d.size = e.size ∧
      (d.hasNext = true ↔ e.hasNext = true ∨ c + e.size = r ∧ h.range c = rangeOf h r) ∧
      d.hasPrev = e.hasPrev) :
    Joints (h.region r bytes).mem.mapped (h.region r bytes).range B' := by
  have hm := hs.mappedRange hr hfresh
  rw [hs.mapped_region hr hr8 h8 h32 hmax hfresh]
  subst hsize
  exact hs.joints.map hs.tagged.tiling (fun hd ↦ (hs.tagged.block hd).pos) hr
    (by omega) hm hnext hprev hB'

/-- A new region that does not begin at `last_address` is a range of its own. -/
theorem Settled.joints_apart (hlast : r ≠ h.lastAddress) :
    Joints (h.region r bytes).mem.mapped (h.region r bytes).range
      (Function.update B r (some (newHeader bytes))) := by
  have hrange : rangeOf h r = h.ranges := if_neg hlast
  refine hs.joints_region hr hr8 h8 h32 hmax hfresh (newHeader bytes) rfl rfl
    (iff_of_false Bool.false_ne_true ?_) fun {c d} hd ↦ ?_
  · rintro ⟨hmem, heq⟩
    have hlt := hs.tail.known _ hmem
    omega
  · rcases update_some_iff.mp hd with ⟨rfl, rfl⟩ | ⟨hc, hd⟩
    · exact .inl ⟨rfl, rfl⟩
    · refine .inr ⟨d, hd, rfl, (or_iff_left ?_).symm, rfl⟩
      rintro ⟨-, heq⟩
      have hmin := (hs.tagged.block hd).min
      have hlt := hs.tail.known _ (hs.tagged.mapped hd le_rfl (by omega))
      omega

/-- A new region behind a block of the range that ends there. -/
theorem Settled.joints_last (hlast : r = h.lastAddress) {p : Nat} {e : Header} (he : B p = some e)
    (hend : p + e.size = r) : Joints (h.region r bytes).mem.mapped (h.region r bytes).range
      (Function.update (Function.update B r (some { newHeader bytes with hasPrev := true })) p
        (some { e with hasNext := true })) := by
  subst hend
  have hmin := (hs.tagged.block he).min
  have hrange : rangeOf h (p + e.size) = h.range (p + e.size - 1) := if_pos hlast
  have hrp : h.range p = rangeOf h (p + e.size) := by
    rw [hrange]
    exact (hs.joints.one he _ (by omega) (by omega)).symm
  have hS : p + e.size - 1 ∈ h.mem.mapped := hs.tagged.mapped he (by omega) (by omega)
  refine hs.joints_region hr hr8 h8 h32 hmax hfresh { newHeader bytes with hasPrev := true } rfl rfl
    (iff_of_true rfl ⟨hS, hrange.symm⟩) fun {c d} hd ↦ ?_
  rcases update_some_iff.mp hd with ⟨rfl, rfl⟩ | ⟨hc, hd⟩
  · exact .inr ⟨e, he, rfl, iff_of_true rfl (.inr ⟨rfl, hrp⟩), rfl⟩
  · rcases update_some_iff.mp hd with ⟨rfl, rfl⟩ | ⟨hcr, hd⟩
    · exact .inl ⟨rfl, rfl⟩
    · refine .inr ⟨d, hd, rfl, (or_iff_left ?_).symm, rfl⟩
      rintro ⟨hcd, -⟩
      have hmin' := (hs.tagged.block hd).min
      exact hc (hs.tagged.tiling.unique hd he (x := p + e.size - 1) (by omega) (by omega)
        (by omega) (by omega))

/-- A new region is joined to the range in front of it when it begins at `last_address`. -/
theorem Settled.join :
    ∃ h' B' b', (do
      let h := h.region r bytes
      if r = h.lastAddress ∧ h.lastAddress ≠ 0 then do
        let h ← setHasPrev h r true
        let prevFooter ← getPrevFooter h r
        let prevHeader ← getPrevHeader h r
        if prevFooter ≠ 0 ∧ prevHeader ≠ 0 then setHasNext h prevHeader true else some h
      else some h) = some h' ∧ Same (h.region r bytes) h' ∧
      Shaped m₀ (Function.update keep r (some 0)) h' B' fl ∅ ∅ ∧
      Joints h'.mem.mapped h'.range B' ∧ B' r = some b' ∧ b'.size = bytes ∧
      ghosts h'.mem B' ⊆ ghosts h.mem B := by
  have hs₁ := hs.toShaped.region hr hr8 h8 h32 hmax hfresh
  by_cases hlast : r = h.lastAddress
  · obtain ⟨p, e, he, hend⟩ := hs.exists_last hr hlast
    have hjoints := hs.joints_last hr hr8 h8 h32 hmax hfresh hlast he hend
    have hmin := (hs.tagged.block he).min
    have hne : p ≠ r := by omega
    have hp₁ := (Function.update_of_ne hne (some (newHeader bytes)) B).trans he
    subst hend
    obtain ⟨h', hjoin, hsame, hs', hghosts⟩ := hs₁.join hp₁ (Function.update_self _ _ _)
    rw [Function.update_idem] at hs' hghosts
    have hcond : p + e.size = (h.region (p + e.size) bytes).lastAddress ∧
        (h.region (p + e.size) bytes).lastAddress ≠ 0 := ⟨hlast, hlast ▸ hr.ne'⟩
    refine ⟨h', _, { newHeader bytes with hasPrev := true }, (if_pos hcond).trans hjoin, hsame, hs',
      ?_, ?_, rfl, hghosts.trans (ghosts_region h B _ _)⟩
    · rw [hsame.mapped, hsame.range]
      exact hjoints
    · rw [Function.update_of_ne hne.symm, Function.update_self]
  · have hnot : ¬ (r = (h.region r bytes).lastAddress ∧ (h.region r bytes).lastAddress ≠ 0) :=
      fun hand ↦ hlast hand.1
    exact ⟨_, _, newHeader bytes, if_neg hnot, ⟨rfl, rfl, rfl, rfl⟩, hs₁,
      hs.joints_apart hr hr8 h8 h32 hmax hfresh hlast, Function.update_self _ _ _, rfl,
      ghosts_region h B _ _⟩

end Fresh

theorem ite_bind {α β : Type} (p : Prop) [Decidable p] (x y : Option α) (f : α → Option β) :
    (if p then x else y).bind f = if p then x.bind f else y.bind f := by
  split
  · rfl
  · rfl

/-- The end of `sdb_heap_malloc`. -/
theorem Settled.mallocRegion (hs : Settled m₀ keep h B fl) (hr : 0 < r) (hr8 : r % 8 = 0)
    (h8 : bytes % 8 = 0) (hmax : bytes ≤ intMax)
    (hfresh : ∀ x, r ≤ x → x < r + bytes → h.mem x = none) (hreq8 : requested % 8 = 0)
    (hreq : 32 ≤ requested) (hle : requested ≤ bytes) :
    ∃ h' B' fl' b', mallocRegion h r bytes requested = some (addOffset r, h') ∧
      Settled m₀ (Function.update keep r (some 0)) h' B' fl' ∧ B' r = some b' ∧
      requested ≤ b'.size ∧ ghosts h'.mem B' ⊆ ghosts h.mem B := by
  have h32 : 32 ≤ bytes := hreq.trans hle
  obtain ⟨h₁, B₁, b₁, hjoin, hsame₁, hs₁, hj₁, hb₁, hsize, hghosts₁⟩ :=
    hs.join hr hr8 h8 h32 hmax hfresh
  obtain ⟨h₂, B₂, fl₂, b₂, hsplit, hsame₂, hs₂, hj₂, hb₂, -, hle₂, -, -, hghosts₂⟩ :=
    hs₁.split hj₁ hb₁ hreq8 hreq (hsize ▸ hle) fun n hn ↦ by
      rw [Function.update_self] at hn
      cases hn
      exact Nat.zero_le _
  have hsame := hsame₁.trans hsame₂
  have htail := hs.tail.map (by omega) (hs.mappedRange hr hfresh) (hs.rangeOf_lt hr) (hs.below hr)
  rw [hsize] at hsplit
  refine ⟨{ h₂ with lastAddress := r + bytes }, B₂, fl₂, b₂, ?_, ⟨hs₂.congr rfl rfl, hj₂, ?_⟩, hb₂,
    hle₂, hghosts₂.trans hghosts₁⟩
  · have hregion := region_eq h hr8 h8 h32
    have hend : (some h₁).bind (fun h ↦ (Alloc.split h r bytes requested).bind fun h ↦
        some (addOffset r, { h with lastAddress := r + bytes })) =
        some (addOffset r, { h₂ with lastAddress := r + bytes }) := by
      rw [Option.bind_some, hsplit, Option.bind_some]
    simp only [newHeader, Option.bind_eq_bind] at hregion
    simp only [Alloc.mallocRegion, Option.bind_eq_bind]
    rw [← hend, ← hjoin, ← Option.bind_assoc, hregion, Option.bind_some]
    -- what comes behind the `if` is the end of each of its branches
    simp only [Option.bind_eq_bind, ite_bind, Option.bind_assoc]
  · show Tail h₂.mem.mapped h₂.range h₂.ranges (r + bytes)
    rw [hsame.mapped, hsame.range, hsame.ranges, hs.mapped_region hr hr8 h8 h32 hmax hfresh]
    exact htail

/-- The end of `sdb_heap_malloc` where nothing is joined and nothing is left over. -/
theorem mallocRegion_whole (h : SdbHeap) (hr8 : r % 8 = 0) (h8 : bytes % 8 = 0) (h32 : 32 ≤ bytes)
    (hlast : r ≠ h.lastAddress) :
    mallocRegion h r bytes bytes =
      some (addOffset r, { h.region r bytes with lastAddress := r + bytes }) := by
  have hregion := region_eq h hr8 h8 h32
  have hnot : ¬ (r = (h.region r bytes).lastAddress ∧ (h.region r bytes).lastAddress ≠ 0) :=
    fun hand ↦ hlast hand.1
  have hsmall : bytes - bytes < minSize := by
    rw [Nat.sub_self, minSize]
    omega
  simp only [newHeader, Option.bind_eq_bind] at hregion
  simp only [Alloc.mallocRegion, Option.bind_eq_bind]
  rw [← Option.bind_assoc, hregion, Option.bind_some, if_neg hnot, Option.bind_some]
  simp only [Alloc.split, if_pos hsmall, Option.bind_some]

end Region

end SdbStore.Alloc
