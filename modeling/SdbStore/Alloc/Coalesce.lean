import SdbStore.Alloc.Split

/-!
# Free blocks are merged with their neighbours

A block takes in the free block behind it, in `coalesce` and where `sdb_heap_realloc` makes a block
larger.  Until `coalesce` is done the footer of the block that it works on is stale.
-/

namespace SdbStore.Alloc

open Lib

variable {m₀ : Mem} {keep : Nat → Option Nat} {h : SdbHeap} {B : Blocks} {fl : List Nat}
  {stale odd : Set Nat} {a c : Nat} {b b' d : Header}

/-- The header of a block that has taken in the one behind it. -/
def merged (b d : Header) : Header := { b with size := b.size + d.size, hasNext := d.hasNext }

/-- The block in front of a block. -/
theorem getPrevHeader_eq (ht : Tagged h.mem B stale) (hb : B a = some b) (ha : a ∉ stale)
    (hd : B (a + b.size) = some d) (hprev : d.hasPrev = true) :
    getPrevFooter h (a + b.size) = some (a + b.size - 8) ∧
      h.footer (a + b.size - 8) = some ⟨b.size, b.free⟩ ∧
        getPrevHeader h (a + b.size) = some a := by
  have hta := ht.block hb
  have htd := ht.block hd
  have hmin := hta.min
  have h8 := hta.aligned
  have hfooter : h.footer (a + b.size - 8) = some ⟨b.size, b.free⟩ :=
    SdbHeap.footer_eq (by omega) (hta.footer ha)
  have hprevFooter : getPrevFooter h (a + b.size) = some (a + b.size - 8) := by
    rw [getPrevFooter, SdbHeap.header_eq htd.aligned.1 htd.header, Option.bind_eq_bind,
      Option.bind_some, if_pos hprev]
    rfl
  refine ⟨hprevFooter, hfooter, ?_⟩
  rw [getPrevHeader, hprevFooter, Option.bind_eq_bind, Option.bind_some, if_neg (by omega), hfooter]
  show some (a + b.size - b.size) = some a
  rw [Nat.add_sub_cancel]

theorem getPrevHeader_none (ht : Tagged h.mem B stale) (hb : B a = some b)
    (hprev : b.hasPrev = false) : getPrevHeader h a = some 0 := by
  have hta := ht.block hb
  have hfooter : getPrevFooter h a = some 0 := by
    rw [getPrevFooter, SdbHeap.header_eq hta.aligned.1 hta.header, Option.bind_eq_bind,
      Option.bind_some, hprev]
    rfl
  rw [getPrevHeader, hfooter]
  rfl

namespace Shaped

/-- The header of a block is written for it and the one behind it. -/
theorem merge (hs : Shaped m₀ keep h B fl stale odd) (hb : B a = some b)
    (hd : B (a + b.size) = some d) (hnotin : a + b.size ∉ fl) (hmax : b.size + d.size ≤ intMax) :
    Shaped m₀ (Function.update keep (a + b.size) none)
      { h with mem := h.mem.set a (.header (merged b d)) }
      (Function.update (Function.update B (a + b.size) none) a (some (merged b d))) fl (stale ∪ {a})
      odd := by
  have hmin := (hs.tagged.block hb).min
  have htag := hs.tagged.merge (merged b d) hb hd rfl hmax
  have hne : a ≠ a + b.size := by omega
  have hcases {c : Nat} {e : Header} (he : Function.update (Function.update B (a + b.size) none) a
      (some (merged b d)) c = some e) :
      c = a ∧ e = merged b d ∨ c ≠ a + b.size ∧ B c = some e := by
    rcases update_some_iff.mp he with ⟨rfl, rfl⟩ | ⟨hc, he⟩
    · exact .inl ⟨rfl, rfl⟩
    · exact .inr (update_none_iff.mp he)
  refine hs.retag htag (fun {c e} he hc ↦ ?_) (fun {c e} he hc ↦ ?_) (fun {c e} he hc ↦ ?_)
    fun {c n} hn ↦ ?_
  · have hc' : c ≠ a + b.size := by
      rintro rfl
      rcases hc with hmem | hsome
      · exact hnotin hmem
      · rw [Function.update_self] at hsome
        cases hsome
    rw [Function.update_of_ne hc']
    have hwords : ∀ x, c + 8 ≤ x → x < c + e.size - 8 →
        h.mem.set a (.header (merged b d)) x = h.mem x := by
      intro x hcx hxc
      refine Mem.set_of_ne _ _ ?_
      by_cases hca : c = a
      · omega
      · have hdis := hs.tagged.disjoint hb he (Ne.symm hca)
        omega
    have hsize {n : Nat} (hn : keep c = some n) : n ≤ e.size := by
      obtain ⟨-, ⟨e', he', hne⟩, -⟩ := hs.keeps hn
      cases he.symm.trans he'
      exact hne
    by_cases hca : c = a
    · subst hca
      cases hb.symm.trans he
      refine ⟨_, Function.update_self _ _ _, fun n hn ↦ ?_, fun x hcx hxc _ ↦ hwords x hcx hxc⟩
      exact (hsize hn).trans (Nat.le_add_right _ _)
    · rw [Function.update_of_ne hca, Function.update_of_ne hc']
      exact ⟨e, he, fun n hn ↦ hsize hn, fun x hcx hxc _ ↦ hwords x hcx hxc⟩
  · rcases hcases he with ⟨rfl, rfl⟩ | ⟨-, he⟩
    · show b.free = true ↔ c ∈ fl
      exact hs.flag hb hc
    · exact hs.flag he hc
  · rcases hcases he with ⟨rfl, rfl⟩ | ⟨hc', he⟩
    · rw [Function.update_of_ne hne]
      exact hs.used hb hc
    · rw [Function.update_of_ne hc']
      exact hs.used he hc
  · exact .inl (update_none_iff.mp hn).2

/-- A block takes in the free block behind it. -/
theorem absorb (hs : Shaped m₀ keep h B fl stale odd) (hj : Joints h.mem.mapped h.range B)
    (hb : B a = some b) (hnext : b.hasNext = true) (hd : B (a + b.size) = some d)
    (hfree : a + b.size ∈ fl) (hmax : b.size + d.size ≤ intMax) :
    ∃ h', (do
      let h ← removeFromFreeList h (a + b.size)
      let n ← h.header (a + b.size)
      let h ← h.setHeader a fun b ↦ { b with size := b.size + n.size }
      setHasNext h a n.hasNext) = some h' ∧ Same h h' ∧
      Shaped m₀ keep h'
        (Function.update (Function.update B (a + b.size) none) a (some (merged b d)))
        (fl.erase (a + b.size)) (stale ∪ {a}) odd ∧
      Joints h'.mem.mapped h'.range
        (Function.update (Function.update B (a + b.size) none) a (some (merged b d))) ∧
      ghosts h'.mem (Function.update (Function.update B (a + b.size) none) a (some (merged b d))) ⊆
        ghosts h.mem B := by
  have hmin := (hs.tagged.block hb).min
  have hne : a ≠ a + b.size := by omega
  obtain ⟨h₁, hremove, hsame, hs₁, hghosts⟩ := hs.remove hfree hd
  have hb₁ := (Function.update_of_ne hne (some { d with free := false }) B).trans hb
  have hd₁ := Function.update_self (a + b.size) (some { d with free := false }) B
  have hta := hs₁.tagged.block hb₁
  have htd := hs₁.tagged.block hd₁
  have hnotin : a + b.size ∉ fl.erase (a + b.size) := hs.listed.nodup.not_mem_erase
  have hs₂ := hs₁.merge hb₁ hd₁ hnotin hmax
  have hghosts₂ := hs₁.tagged.ghosts_merge (a := a) (merged b d) hd₁ rfl
  rw [Function.update_idem, Function.update_idem, (hs.keep_eq_none hfree).symm,
    Function.update_eq_self] at hs₂
  rw [Function.update_idem] at hghosts₂
  have htiling := hs.tagged.tiling.merge (merged b d) hb hd rfl
  have hmapped := htiling.set_eq hs₂.tagged.tiling
  have hjoints := hj.merge (merged b d) hb hd hnext rfl rfl rfl
  refine ⟨_, ?_, ⟨hmapped, hsame.range, hsame.ranges, hsame.last⟩,
    hs₂.mono (fun c hc ↦ hc.imp_left fun h ↦ h.1) fun c hc ↦ hc.1, ?_, hghosts₂.trans hghosts⟩
  · rw [hremove, Option.bind_eq_bind, Option.bind_some, SdbHeap.header_eq htd.aligned.1 htd.header,
      Option.bind_eq_bind, Option.bind_some, SdbHeap.setHeader_eq hta.aligned.1 hta.header,
      Option.bind_some,
      setHasNext_eq (b := { b with size := b.size + d.size }) hta.aligned.1 hta.pos.ne'
        (Mem.set_self _ _ _)]
    exact congrArg (fun m ↦ some { h₁ with mem := m }) (Mem.set_set _ _ _ _)
  · rw [hmapped, hsame.range]
    exact hjoints

/-- What `coalesce` and `sdb_heap_realloc` do with the block behind. -/
theorem mergeNext (hs : Shaped m₀ keep h B fl stale odd) (hj : Joints h.mem.mapped h.range B)
    (hb : B a = some b) (hnext : b.hasNext = true) (hd : B (a + b.size) = some d)
    (hfree : a + b.size ∈ fl) (hmax : b.size + d.size ≤ intMax) :
    ∃ h', mergeNext h a (a + b.size) = some h' ∧ Same h h' ∧
      Shaped m₀ keep h'
        (Function.update (Function.update B (a + b.size) none) a (some (merged b d)))
        (fl.erase (a + b.size)) (stale ∪ {a}) odd ∧
      Joints h'.mem.mapped h'.range
        (Function.update (Function.update B (a + b.size) none) a (some (merged b d))) ∧
      ghosts h'.mem (Function.update (Function.update B (a + b.size) none) a (some (merged b d))) ⊆
        ghosts h.mem B := by
  obtain ⟨h', habsorb, hsame, hs', hj', hghosts⟩ := hs.absorb hj hb hnext hd hfree hmax
  have htouch := touch_next hs'.tagged hj' (Function.update_self _ _ _)
  refine ⟨h', ?_, hsame, hs', hj', hghosts⟩
  rw [← htouch, ← Option.bind_some (a := h') (f := fun h ↦ do
    let afterNext ← getNextHeader h a
    setHasPrev h afterNext true), ← habsorb]
  simp only [Alloc.mergeNext, Option.bind_eq_bind, Option.bind_assoc]

/-- The first half of `coalesce`. -/
theorem coalescePrev (hs : Shaped m₀ keep h B fl ∅ ∅) (hj : Joints h.mem.mapped h.range B)
    (ha : a ∈ fl) :
    ∃ c h' B' fl', coalescePrev h a = some (c, h') ∧ Same h h' ∧ Shaped m₀ keep h' B' fl' {c} ∅ ∧
      Joints h'.mem.mapped h'.range B' ∧ c ∈ fl' ∧ ghosts h'.mem B' ⊆ ghosts h.mem B := by
  obtain ⟨d, hd⟩ := hs.exists_block ha
  have htd := hs.tagged.block hd
  have hheader := SdbHeap.header_eq htd.aligned.1 htd.header
  have hstay (hno : Alloc.coalescePrev h a = some (a, h)) : ∃ c h' B' fl',
      Alloc.coalescePrev h a = some (c, h') ∧ Same h h' ∧ Shaped m₀ keep h' B' fl' {c} ∅ ∧
      Joints h'.mem.mapped h'.range B' ∧ c ∈ fl' ∧ ghosts h'.mem B' ⊆ ghosts h.mem B :=
    ⟨a, h, B, fl, hno, ⟨rfl, rfl, rfl, rfl⟩, hs.mono (Set.empty_subset _) le_rfl, hj, ha, le_rfl⟩
  by_cases hprev : d.hasPrev = true
  · obtain ⟨p, b, hb, rfl, hnext⟩ := hj.exists_prev hs.tagged.tiling hd htd.pos hprev
    obtain ⟨hpf, hf, hph⟩ := getPrevHeader_eq hs.tagged hb (Set.notMem_empty p) hd hprev
    have htb := hs.tagged.block hb
    have hmin := htb.min
    have hp0 : p ≠ 0 := htb.pos.ne'
    have hpf0 : p + b.size - 8 ≠ 0 := by omega
    have hpheader := SdbHeap.header_eq htb.aligned.1 htb.header
    by_cases hfree : b.free = true
    · by_cases hmax : canMerge b d
      · obtain ⟨h', habsorb, hsame, hs', hj', hghosts⟩ := hs.absorb hj hb hnext hd ha hmax
        have hp : p ∈ fl.erase (p + b.size) :=
          (List.mem_erase_of_ne (by omega)).mpr ((hs.flag hb (Set.notMem_empty p)).mp hfree)
        refine ⟨p, h', _, _, ?_, hsame,
          hs'.mono (fun c hc ↦ hc.resolve_left (Set.notMem_empty c)) le_rfl, hj', hp, hghosts⟩
        rw [← Option.bind_some (a := h') (f := fun h ↦ some (p, h)), ← habsorb]
        simp only [Alloc.coalescePrev, hheader, Option.bind_eq_bind, Option.bind_some, hprev,
          if_true, hpf, hph, hf, hpf0, ne_eq, not_false_eq_true, hfree, hp0, and_self, hpheader,
          hmax, not_true_eq_false, if_false, Option.bind_assoc]
      · refine hstay ?_
        simp only [Alloc.coalescePrev, hheader, Option.bind_eq_bind, Option.bind_some, hprev,
          if_true, hpf, hph, hf, hpf0, ne_eq, not_false_eq_true, hfree, hp0, and_self, hpheader,
          hmax]
    · refine hstay ?_
      simp only [Alloc.coalescePrev, hheader, Option.bind_eq_bind, Option.bind_some, hprev, if_true,
        hpf, hph, hf, hfree, Bool.false_eq_true, false_and, and_false, if_false]
  · refine hstay ?_
    simp only [Alloc.coalescePrev, hheader, Option.bind_eq_bind, Option.bind_some, hprev,
      Bool.false_eq_true, if_false]

/-- The second half of `coalesce`. -/
theorem coalesceNext (hs : Shaped m₀ keep h B fl {a} ∅) (hj : Joints h.mem.mapped h.range B)
    (ha : a ∈ fl) :
    ∃ h' B' fl', coalesceNext h a = some h' ∧ Same h h' ∧ Shaped m₀ keep h' B' fl' {a} ∅ ∧
      Joints h'.mem.mapped h'.range B' ∧ a ∈ fl' ∧ ghosts h'.mem B' ⊆ ghosts h.mem B := by
  obtain ⟨b, hb⟩ := hs.exists_block ha
  have hta := hs.tagged.block hb
  have hmin := hta.min
  have hheader := SdbHeap.header_eq hta.aligned.1 hta.header
  have hnh := getNextHeader_eq hs.tagged hb
  have hstay (hno : Alloc.coalesceNext h a = some h) : ∃ h' B' fl',
      Alloc.coalesceNext h a = some h' ∧ Same h h' ∧ Shaped m₀ keep h' B' fl' {a} ∅ ∧
      Joints h'.mem.mapped h'.range B' ∧ a ∈ fl' ∧ ghosts h'.mem B' ⊆ ghosts h.mem B :=
    ⟨h, B, fl, hno, ⟨rfl, rfl, rfl, rfl⟩, hs, hj, ha, le_rfl⟩
  by_cases hnext : b.hasNext = true
  · obtain ⟨d, hd, -⟩ := hj.exists_next hs.tagged.tiling hb hnext
    have htd := hs.tagged.block hd
    have hdheader := SdbHeap.header_eq htd.aligned.1 htd.header
    have hd0 : a + b.size ≠ 0 := htd.pos.ne'
    rw [if_pos hnext] at hnh
    by_cases hfree : d.free = true
    · by_cases hmax : canMerge b d
      · have hmem := (hs.flag hd (Set.notMem_empty _)).mp hfree
        obtain ⟨h', hmerge, hsame, hs', hj', hghosts⟩ := hs.mergeNext hj hb hnext hd hmem hmax
        have ha' : a ∈ fl.erase (a + b.size) := (List.mem_erase_of_ne (by omega)).mpr ha
        refine ⟨h', _, _, ?_, hsame, hs'.mono (fun c hc ↦ hc.elim id id) le_rfl, hj', ha',
          hghosts⟩
        simp only [Alloc.coalesceNext, hheader, Option.bind_eq_bind, Option.bind_some, hnext,
          if_true, hnh, hdheader, ne_eq, hd0, not_false_eq_true, hfree, and_self, hmax,
          not_true_eq_false, if_false, hmerge]
      · refine hstay ?_
        simp only [Alloc.coalesceNext, hheader, Option.bind_eq_bind, Option.bind_some, hnext,
          if_true, hnh, hdheader, ne_eq, hd0, not_false_eq_true, hfree, and_self, hmax]
    · refine hstay ?_
      simp only [Alloc.coalesceNext, hheader, Option.bind_eq_bind, Option.bind_some, hnext, if_true,
        hnh, hdheader, hfree, Bool.false_eq_true, and_false, if_false]
  · refine hstay ?_
    simp only [Alloc.coalesceNext, hheader, Option.bind_eq_bind, Option.bind_some, hnext,
      Bool.false_eq_true, if_false]

/-- `coalesce`. -/
theorem coalesce (hs : Shaped m₀ keep h B fl ∅ ∅) (hj : Joints h.mem.mapped h.range B)
    (ha : a ∈ fl) :
    ∃ c h' B' fl', coalesce h a = some (c, h') ∧ Same h h' ∧ Shaped m₀ keep h' B' fl' ∅ ∅ ∧
      Joints h'.mem.mapped h'.range B' ∧ c ∈ fl' ∧ ghosts h'.mem B' ⊆ ghosts h.mem B := by
  obtain ⟨c, h₁, B₁, fl₁, hprev, hsame₁, hs₁, hj₁, hc₁, hghosts₁⟩ := hs.coalescePrev hj ha
  obtain ⟨h₂, B₂, fl₂, hnext, hsame₂, hs₂, hj₂, hc₂, hghosts₂⟩ := hs₁.coalesceNext hj₁ hc₁
  obtain ⟨b, hb⟩ := hs₂.exists_block hc₂
  obtain ⟨h₃, hfree, hsame₃, hs₃, hghosts₃⟩ := hs₂.setFree hb true ∅ (fun _ ↦ iff_of_true rfl hc₂)
    fun _ _ hno ↦ hno
  refine ⟨c, h₃, _, fl₂, ?_, (hsame₁.trans hsame₂).trans hsame₃,
    hs₃.mono (fun x hx ↦ absurd hx.1 hx.2)
    le_rfl, ?_, hc₂, (hghosts₃.trans hghosts₂).trans hghosts₁⟩
  · rw [Alloc.coalesce, hprev, Option.bind_eq_bind, Option.bind_some]
    show (Alloc.coalesceNext h₁ c).bind _ = _
    rw [hnext, Option.bind_some, hfree]
    rfl
  · rw [hsame₃.mapped, hsame₃.range]
    exact hj₂.replace hb rfl rfl rfl

end Shaped

end SdbStore.Alloc
