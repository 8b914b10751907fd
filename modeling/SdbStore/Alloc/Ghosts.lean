import SdbStore.Alloc.Blocks

/-!
# Headers that are left over

A block that is merged with the one in front of it leaves its header behind, which says that the
block is used.  What is written later leaves no other headers where no block begins: each call takes
the `ghosts` of the heap to some of them.
-/

namespace SdbStore.Alloc

open Lib

/-- Where no block begins, and there is a header all the same, that of a free block or of one
without any size. -/
def ghosts (m : Mem) (B : Blocks) : Set Nat :=
  { c | B c = none ∧ ∃ b, m c = some (.header b) ∧ (b.free = true ∨ b.size = 0) }

variable {m m' : Mem} {B B' : Blocks} {stale : Set Nat} {a x : Nat} {b b' d : Header} {w : Word}

/-- What has been written besides blocks and what they leave behind is no header. -/
theorem ghosts_subset (hB : ∀ c, B' c = none → B c = none)
    (hm : ∀ c, B' c = none → m' c = m c ∨ ∀ d, m' c ≠ some (.header d)) :
    ghosts m' B' ⊆ ghosts m B := by
  rintro c ⟨hc, d, hd, hghost⟩
  rcases hm c hc with hsame | hno
  · exact ⟨hB c hc, d, hsame ▸ hd, hghost⟩
  · exact absurd hd (hno d)

/-- A word is written that is no header. -/
theorem ghosts_set (m : Mem) (B : Blocks) (x : Nat) (hw : ∀ d, w ≠ .header d) :
    ghosts (m.set x w) B ⊆ ghosts m B := by
  refine ghosts_subset (fun c hc ↦ hc) fun c _ ↦ ?_
  by_cases hcx : c = x
  · refine .inr fun d hd ↦ ?_
    rw [hcx, Mem.set_self] at hd
    exact hw d (Option.some.inj hd)
  · exact .inl (Mem.set_of_ne m w hcx)

/-- Any word is written. -/
theorem ghosts_set_insert (m : Mem) (B : Blocks) (x : Nat) (w : Word) :
    ghosts (m.set x w) B ⊆ insert x (ghosts m B) := by
  rintro c ⟨hc, d, hd, hghost⟩
  by_cases hcx : c = x
  · exact .inl hcx
  · exact .inr ⟨hc, d, (Mem.set_of_ne m w hcx).symm.trans hd, hghost⟩

/-- The header of a block is written. -/
theorem ghosts_set_header (m : Mem) (B : Blocks) (a : Nat) (b : Header) (w : Word) :
    ghosts (m.set a w) (Function.update B a (some b)) ⊆ ghosts m B := by
  have hne : ∀ c, Function.update B a (some b) c = none → c ≠ a := by
    rintro c hc rfl
    rw [Function.update_self] at hc
    cases hc
  refine ghosts_subset (fun c hc ↦ ?_) fun c hc ↦ .inl (Mem.set_of_ne m w (hne c hc))
  rwa [Function.update_of_ne (hne c hc)] at hc

/-- A block is no more, and has left behind a header as it should be, or none. -/
theorem ghosts_erase (hm : ∀ c, m' c = m c ∨ m' c = none)
    (ha : ∀ d, m' a = some (.header d) → d.free = false ∧ d.size ≠ 0) :
    ghosts m' (Function.update B a none) ⊆ ghosts m B := by
  rintro c ⟨hc, d, hd, hghost⟩
  have hca : c ≠ a := by
    rintro rfl
    obtain ⟨hfree, hsize⟩ := ha d hd
    rcases hghost with htrue | hzero
    · rw [hfree] at htrue
      cases htrue
    · exact hsize hzero
  rw [Function.update_of_ne hca] at hc
  rcases hm c with hsame | hnone
  · exact ⟨hc, d, hsame ▸ hd, hghost⟩
  · rw [hnone] at hd
    cases hd

namespace Tagged

/-- The two halves of a block are written. -/
theorem ghosts_cut (m : Mem) (B : Blocks) (a : Nat) (b₁ b₂ : Header) :
    ghosts (cut m a b₁ b₂)
      (Function.update (Function.update B a (some b₁)) (a + b₁.size) (some b₂)) ⊆
      ghosts m B :=
  calc
    _ ⊆ ghosts (((m.set a (.header b₁)).set (a + b₁.size - 8) (.footer ⟨b₁.size, b₁.free⟩)).set
          (a + b₁.size) (.header b₂)) _ := ghosts_set _ _ _ fun _ hd ↦ by cases hd
    _ ⊆ ghosts ((m.set a (.header b₁)).set (a + b₁.size - 8) (.footer ⟨b₁.size, b₁.free⟩)) _ :=
        ghosts_set_header _ _ _ _ _
    _ ⊆ ghosts (m.set a (.header b₁)) _ := ghosts_set _ _ _ fun _ hd ↦ by cases hd
    _ ⊆ ghosts m B := ghosts_set_header _ _ _ _ _

/-- The header of a block is written for it and the block behind it, which was used. -/
theorem ghosts_merge (h : Tagged m B stale) (b' : Header) (hd : B x = some d)
    (hfree : d.free = false) :
    ghosts (m.set a (.header b')) (Function.update (Function.update B x none) a (some b')) ⊆
      ghosts m B := by
  have ht := h.block hd
  have hmin := ht.min
  refine (ghosts_set_header _ _ _ _ _).trans (ghosts_erase (fun _ ↦ .inl rfl) fun e he ↦ ?_)
  cases ht.header.symm.trans he
  exact ⟨hfree, by omega⟩

end Tagged

end SdbStore.Alloc
