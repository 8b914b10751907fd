import SdbStore.Alloc.Shape

/-!
# A block is split in two

`split` leaves a block with the size that was asked for and puts the rest into the list as a free
block of its own, unless the rest is too small for one.
-/

namespace SdbStore.Alloc

open Lib

variable {m₀ : Mem} {keep : Nat → Option Nat} {h : SdbHeap} {B : Blocks} {fl : List Nat}
  {stale odd : Set Nat} {a requested x : Nat} {b d : Header}

/-- A flag that is set already is set again. -/
theorem setHasPrev_self (h8 : x % 8 = 0) (hm : h.mem x = some (.header d)) (hd : d.hasPrev = true) :
    setHasPrev h x true = some h := by
  have hsame : { d with hasPrev := true } = d := by
    rw [← hd]
  rw [setHasPrev]
  split
  · rfl
  · rw [SdbHeap.setHeader_eq h8 hm, hsame, Mem.set_eq_self hm]

theorem getNextHeader_eq (ht : Tagged h.mem B stale) (hb : B a = some b) :
    getNextHeader h a = some (if b.hasNext then a + b.size else 0) := by
  have hta := ht.block hb
  rw [getNextHeader, SdbHeap.header_eq hta.aligned.1 hta.header]
  rfl

/-- The block behind a block knows of it. -/
theorem touch_next (ht : Tagged h.mem B stale) (hj : Joints h.mem.mapped h.range B)
    (hb : B a = some b) : (do
      let nextHeader ← getNextHeader h a
      setHasPrev h nextHeader true) = some h := by
  rw [getNextHeader_eq ht hb, Option.bind_eq_bind, Option.bind_some]
  split
  · next hnext =>
      obtain ⟨d, hd, hprev⟩ := hj.exists_next ht.tiling hb hnext
      exact setHasPrev_self (ht.block hd).aligned.1 (ht.block hd).header hprev
  · rfl

/-- The header of the first half. -/
def firstHalf (b : Header) (requested : Nat) : Header :=
  { b with size := requested, hasNext := true }

/-- The header of the second half. -/
def secondHalf (b : Header) (requested : Nat) : Header :=
  ⟨b.size - requested, true, true, b.hasNext⟩

/-- Only tags are written. -/
theorem cut_of_ne {m : Mem} (hxa : x ≠ a) (hx₁ : x ≠ a + requested - 8) (hx₂ : x ≠ a + requested)
    (hx₃ : x ≠ a + requested + (b.size - requested) - 8) :
    Tagged.cut m a (firstHalf b requested) (secondHalf b requested) x = m x := by
  exact (Mem.set_of_ne _ _ hx₃).trans ((Mem.set_of_ne _ _ hx₂).trans
    ((Mem.set_of_ne _ _ hx₁).trans (Mem.set_of_ne _ _ hxa)))

/-- What `split` has written before it looks at the block behind. -/
theorem split_eq (ht : Tagged h.mem B stale) (hb : B a = some b) (h8 : requested % 8 = 0)
    (hreq : 32 ≤ requested) (hrest : 32 ≤ b.size - requested) :
    split h a b.size requested = (do
      let h := { h with
        mem := Tagged.cut h.mem a (firstHalf b requested) (secondHalf b requested) }
      let nextHeader ← getNextHeader h (a + requested)
      let h ← setHasPrev h nextHeader true
      appendToFreeList h (a + requested)) := by
  have hta := ht.block hb
  have hmin := hta.min
  have ha8 := hta.aligned.1
  have hb8 := hta.aligned.2
  have ha0 : a ≠ 0 := hta.pos.ne'
  have hin {x : Nat} (hax : a ≤ x) (hxa : x < a + b.size) := ht.mapped hb hax hxa
  have hno : ¬ b.size - requested < minSize := by
    rw [minSize]
    omega
  let m₁ := h.mem.set a (.header (firstHalf b requested))
  let m₂ := m₁.set (a + requested - 8) (.footer ⟨requested, b.free⟩)
  let m₃ := m₂.set (a + requested) (.header (secondHalf b requested))
  have hsize : (do
      let h ← h.setHeader a fun b ↦ { b with size := requested }
      setHasNext h a true) = some { h with mem := m₁ } := by
    rw [SdbHeap.setHeader_eq ha8 hta.header, Option.bind_eq_bind, Option.bind_some,
      setHasNext_eq (b := { b with size := requested }) ha8 ha0 (Mem.set_self _ _ _)]
    exact congrArg (fun m ↦ some { h with mem := m }) (Mem.set_set _ _ _ _)
  have hfooter : writeFooter { h with mem := m₁ } a = some { h with mem := m₂ } :=
    writeFooter_eq (b := firstHalf b requested) ha8 (Mem.set_self _ _ _)
      (show (a + requested - 8) % 8 = 0 by omega)
      (Mem.mem_mapped_set (hin (x := a + requested - 8) (by omega) (by omega)) _ _)
  have hheader : ({ h with mem := m₂ } : SdbHeap).store (a + requested)
      (.header (secondHalf b requested)) = some { h with mem := m₃ } :=
    SdbHeap.store_eq (by omega)
      (Mem.mem_mapped_set (Mem.mem_mapped_set (hin (by omega) (by omega)) _ _) _ _) _
  have hfooter' : writeFooter { h with mem := m₃ } (a + requested) = some { h with
      mem := Tagged.cut h.mem a (firstHalf b requested) (secondHalf b requested) } :=
    writeFooter_eq (b := secondHalf b requested) (by omega) (Mem.set_self _ _ _)
      (show (a + requested + (b.size - requested) - 8) % 8 = 0 by omega)
      (Mem.mem_mapped_set (Mem.mem_mapped_set (Mem.mem_mapped_set
        (hin (x := a + requested + (b.size - requested) - 8) (by omega) (by omega)) _ _) _ _) _ _)
  rw [Option.bind_eq_bind] at hsize
  simp only [Alloc.split, if_neg hno, SdbHeap.header_eq ha8 hta.header, Option.bind_eq_bind,
    Option.bind_some]
  rw [← Option.bind_assoc, hsize, Option.bind_some, hfooter, Option.bind_some]
  exact congrArg₂ Option.bind hheader rfl |>.trans (by
    rw [Option.bind_some, hfooter', Option.bind_some])

namespace Shaped

/-- There is no block inside of a block. -/
theorem eq_none (hs : Shaped m₀ keep h B fl stale odd) (hb : B a = some b) (hax : a < x)
    (hxa : x < a + b.size) : B x = none := by
  rw [Option.eq_none_iff_forall_ne_some]
  intro d hd
  have hmin := (hs.tagged.block hd).min
  have hdis := hs.tagged.disjoint hb hd hax.ne
  omega

/-- The two halves of a block are written, and the second one is not in the list yet. -/
theorem cut (hs : Shaped m₀ keep h B fl stale odd) (hb : B a = some b) (h8 : requested % 8 = 0)
    (hreq : 32 ≤ requested) (hrest : 32 ≤ b.size - requested)
    (hkeep : ∀ n, keep a = some n → n ≤ requested) :
    Shaped m₀ (Function.update keep (a + requested) (some 0))
      { h with mem := Tagged.cut h.mem a (firstHalf b requested) (secondHalf b requested) }
      (Function.update (Function.update B a (some (firstHalf b requested))) (a + requested)
        (some (secondHalf b requested))) fl stale (odd ∪ {a + requested}) := by
  have hsize : (firstHalf b requested).size + (secondHalf b requested).size = b.size := by
    show requested + (b.size - requested) = b.size
    omega
  have htag := hs.tagged.split (firstHalf b requested) (secondHalf b requested) hb hsize
    hreq hrest h8
  have hnone := hs.eq_none hb (x := a + requested) (by omega) (by omega)
  have hne : a + requested ≠ a := by omega
  have hnotin : a + requested ∉ fl := fun hmem ↦ by
    obtain ⟨d, hd⟩ := hs.exists_block hmem
    cases hnone.symm.trans hd
  have hcases {c : Nat} {d : Header} (hd : Function.update (Function.update B a
      (some (firstHalf b requested))) (a + requested) (some (secondHalf b requested)) c = some d) :
      c = a + requested ∨ (c ≠ a + requested ∧ c = a ∧ d = firstHalf b requested) ∨
        (c ≠ a + requested ∧ c ≠ a ∧ B c = some d) := by
    by_cases hc : c = a + requested
    · exact .inl hc
    · rw [Function.update_of_ne hc] at hd
      rcases update_some_iff.mp hd with ⟨rfl, rfl⟩ | ⟨hca, hd⟩
      · exact .inr (.inl ⟨hc, rfl, rfl⟩)
      · exact .inr (.inr ⟨hc, hca, hd⟩)
  refine hs.retag (htag.mono fun c hc ↦ hc.1) (fun {c d} hd _ ↦ ?_) (fun {c d} hd hc ↦ ?_)
    (fun {c d} hd hc ↦ ?_) fun {c n} hn ↦ ?_
  · have hc : c ≠ a + requested := by
      rintro rfl
      cases hnone.symm.trans hd
    rw [Function.update_of_ne hc, Function.update_of_ne hc]
    by_cases hca : c = a
    · subst hca
      cases hb.symm.trans hd
      refine ⟨_, Function.update_self _ _ _, hkeep, fun x hcx _ hxc ↦ ?_⟩
      have hxc : x < c + requested - 8 := hxc
      exact cut_of_ne (by omega) (by omega) (by omega) (by omega)
    · refine ⟨d, Function.update_of_ne hca _ _ ▸ hd, fun n hn ↦ ?_, fun x hcx hxc _ ↦ ?_⟩
      · obtain ⟨-, ⟨e, he, hne⟩, -⟩ := hs.keeps hn
        cases hd.symm.trans he
        exact hne
      · have hdis := hs.tagged.disjoint hb hd (Ne.symm hca)
        exact cut_of_ne (by omega) (by omega) (by omega) (by omega)
  · rcases hcases hd with rfl | ⟨-, rfl, rfl⟩ | ⟨-, -, hd⟩
    · exact absurd (.inr rfl) hc
    · show b.free = true ↔ c ∈ fl
      exact hs.flag hb fun hao ↦ hc (.inl hao)
    · exact hs.flag hd fun hco ↦ hc (.inl hco)
  · by_cases hca : c = a + requested
    · subst hca
      rw [Function.update_self]
      rfl
    · rw [Function.update_of_ne hca]
      rcases hcases hd with hc' | ⟨-, rfl, rfl⟩ | ⟨-, -, hd⟩
      · exact absurd hc' hca
      · exact hs.used hb hc
      · exact hs.used hd hc
  · rcases update_some_iff.mp hn with ⟨rfl, rfl⟩ | ⟨hca, hn⟩
    · exact .inr ⟨rfl, hnotin, by rw [Function.update_self]; rfl⟩
    · exact .inl hn

/-- `split`. -/
theorem split (hs : Shaped m₀ keep h B fl stale odd) (hj : Joints h.mem.mapped h.range B)
    (hb : B a = some b) (h8 : requested % 8 = 0) (hreq : 32 ≤ requested) (hle : requested ≤ b.size)
    (hkeep : ∀ n, keep a = some n → n ≤ requested) :
    ∃ h' B' fl' b', split h a b.size requested = some h' ∧ Same h h' ∧
      Shaped m₀ keep h' B' fl' stale odd ∧ Joints h'.mem.mapped h'.range B' ∧ B' a = some b' ∧
      (a ∈ fl' ↔ a ∈ fl) ∧ requested ≤ b'.size ∧ b'.free = b.free ∧
      (32 ≤ b.size - requested → b'.size = requested) ∧ ghosts h'.mem B' ⊆ ghosts h.mem B := by
  by_cases hrest : 32 ≤ b.size - requested
  · have hne : a + requested ≠ a := by omega
    have hnone := hs.eq_none hb (x := a + requested) (by omega) (by omega)
    have hnotin : a + requested ∉ fl := fun hmem ↦ by
      obtain ⟨d, hd⟩ := hs.exists_block hmem
      cases hnone.symm.trans hd
    have hunused : keep (a + requested) = none := by
      rw [Option.eq_none_iff_forall_ne_some]
      intro n hn
      obtain ⟨-, ⟨d, hd, -⟩, -⟩ := hs.keeps hn
      cases hnone.symm.trans hd
    have hsize : (firstHalf b requested).size + (secondHalf b requested).size = b.size := by
      show requested + (b.size - requested) = b.size
      omega
    have hcut := hs.cut hb h8 hreq hrest hkeep
    have hmapped := (hs.tagged.tiling.split (firstHalf b requested)
      (secondHalf b requested) hb (by show 0 < requested; omega)
      (by show 0 < b.size - requested; omega) hsize).set_eq hcut.tagged.tiling
    have hj' := hj.split hs.tagged.tiling (firstHalf b requested)
      (secondHalf b requested) hb hsize (by show 0 < requested; omega)
      (by show 0 < b.size - requested; omega) rfl rfl rfl rfl
    have hb' := Function.update_self (a + requested) (some (secondHalf b requested))
      (Function.update B a (some (firstHalf b requested)))
    have htouch := touch_next hcut.tagged (hmapped ▸ hj') hb'
    obtain ⟨h', happend, hsame, hs', hghosts⟩ := hcut.append hnotin hb'
    rw [Function.update_idem, Function.update_idem, hunused.symm, Function.update_eq_self] at hs'
    rw [Function.update_idem] at hghosts
    refine ⟨h', _, _, firstHalf b requested, ?_, Same.trans ⟨hmapped, rfl, rfl, rfl⟩ hsame,
      hs'.mono (fun c hc ↦ hc.1) (fun c hc ↦ hc.1.resolve_right hc.2), ?_, ?_, ?_, le_rfl, rfl,
      fun _ ↦ rfl, hghosts.trans (Tagged.ghosts_cut _ _ _ _ _)⟩
    · rw [split_eq hs.tagged hb h8 hreq hrest]
      simp only [Option.bind_eq_bind] at htouch ⊢
      rw [← Option.bind_assoc, htouch, Option.bind_some, happend]
    · rw [hsame.mapped, hsame.range]
      exact hmapped ▸ hj'
    · rw [Function.update_of_ne hne.symm, Function.update_self]
    · rw [List.mem_cons, or_iff_right hne.symm]
  · have hno : b.size - requested < minSize := by
      rw [minSize]
      omega
    have hsplit : Alloc.split h a b.size requested = some h := by
      simp only [Alloc.split, if_pos hno]
    exact ⟨h, B, fl, b, hsplit, ⟨rfl, rfl, rfl, rfl⟩, hs, hj, hb, Iff.rfl, hle, rfl,
      fun h32 ↦ absurd h32 hrest, le_rfl⟩

end Shaped

end SdbStore.Alloc
