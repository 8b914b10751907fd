import Mathlib.Data.Set.Lattice
import Mathlib.Logic.Function.Basic
import Mathlib.Order.Interval.Set.LinearOrder
import Mathlib.Tactic.Common

/-!
# Tilings of a set of numbers

Pieces that lie next to each other: each piece has a first number and a size, no two of them share
a number, and together they make up a set.  A piece can be replaced, split in two, merged with the
piece behind it, taken away, and a new one can be put where there is none.
-/

namespace SdbStore.Lib

universe u

section Update

variable {α β : Type*} [DecidableEq α] {f : α → Option β} {a c : α} {b d : β}

theorem update_some_iff :
    Function.update f a (some b) c = some d ↔ c = a ∧ d = b ∨ c ≠ a ∧ f c = some d := by
  by_cases hc : c = a
  · subst hc
    rw [Function.update_self, Option.some.injEq]
    simp [eq_comm]
  · rw [Function.update_of_ne hc]
    simp [hc]

theorem update_none_iff : Function.update f a none c = some d ↔ c ≠ a ∧ f c = some d := by
  by_cases hc : c = a
  · subst hc
    rw [Function.update_self]
    simp
  · rw [Function.update_of_ne hc]
    simp [hc]

end Update

variable {β : Type u}

/-- The pieces, by their first numbers, tile a set. -/
structure Tiling (size : β → ℕ) (B : ℕ → Option β) (S : Set ℕ) : Prop where
  pos : ∀ {a b}, B a = some b → 0 < size b
  apart : ∀ {a b c d}, B a = some b → B c = some d → a < c → a + size b ≤ c
  cover : ∀ x, x ∈ S ↔ ∃ a b, B a = some b ∧ a ≤ x ∧ x < a + size b

namespace Tiling

variable {size : β → ℕ} {B : ℕ → Option β} {S : Set ℕ} {a c x : ℕ} {b b₁ b₂ d : β}

theorem disjoint (h : Tiling size B S) (hb : B a = some b) (hd : B c = some d) (hac : a ≠ c) :
    a + size b ≤ c ∨ c + size d ≤ a := by
  rcases Nat.lt_or_gt_of_ne hac with hlt | hlt
  · exact .inl (h.apart hb hd hlt)
  · exact .inr (h.apart hd hb hlt)

/-- A number is in one piece only. -/
theorem unique (h : Tiling size B S) (hb : B a = some b) (hd : B c = some d)
    (hax : a ≤ x) (hxa : x < a + size b) (hcx : c ≤ x) (hxc : x < c + size d) : a = c := by
  by_contra hac
  rcases h.disjoint hb hd hac with hle | hle
  · omega
  · omega

theorem mem (h : Tiling size B S) (hb : B a = some b) (hax : a ≤ x) (hxa : x < a + size b) :
    x ∈ S :=
  (h.cover x).mpr ⟨a, b, hb, hax, hxa⟩

/-- The set is known from the pieces. -/
theorem set_eq {S' : Set ℕ} (h : Tiling size B S) (h' : Tiling size B S') : S' = S :=
  Set.ext fun x ↦ (h'.cover x).trans (h.cover x).symm

/-- Behind a piece there is another one or a number that is not in the set. -/
theorem isSome_end (h : Tiling size B S) (hb : B a = some b) :
    (B (a + size b)).isSome ↔ a + size b ∈ S := by
  constructor
  · intro hsome
    obtain ⟨d, hd⟩ := Option.isSome_iff_exists.mp hsome
    have hpos := h.pos hd
    exact h.mem hd le_rfl (by omega)
  · intro hmem
    obtain ⟨c, d, hd, hcx, hxc⟩ := (h.cover _).mp hmem
    have hpos := h.pos hb
    by_cases hac : a = c
    · subst hac
      cases hb.symm.trans hd
      omega
    · have hdis := h.disjoint hb hd hac
      have hc : c = a + size b := by omega
      rw [← hc, hd]
      rfl

/-- A piece is taken away. -/
theorem erase (h : Tiling size B S) (hb : B a = some b) :
    Tiling size (Function.update B a none) (S \ Set.Ico a (a + size b)) := by
  constructor
  · intro c d hd
    exact h.pos (update_none_iff.mp hd).2
  · intro c d c' d' hd hd' hlt
    exact h.apart (update_none_iff.mp hd).2 (update_none_iff.mp hd').2 hlt
  · intro x
    rw [Set.mem_sdiff, h.cover, Set.mem_Ico]
    constructor
    · rintro ⟨⟨c, d, hd, hcx, hxc⟩, hout⟩
      have hc : c ≠ a := by
        rintro rfl
        cases hb.symm.trans hd
        exact hout ⟨hcx, hxc⟩
      exact ⟨c, d, by rwa [Function.update_of_ne hc], hcx, hxc⟩
    · rintro ⟨c, d, hd, hcx, hxc⟩
      obtain ⟨hc, hd⟩ := update_none_iff.mp hd
      refine ⟨⟨c, d, hd, hcx, hxc⟩, fun hin ↦ ?_⟩
      exact hc (h.unique hd hb hcx hxc hin.1 hin.2)

/-- A piece is put where there is none. -/
theorem insert (h : Tiling size B S) (hpos : 0 < size b)
    (hfree : ∀ x, a ≤ x → x < a + size b → x ∉ S) :
    Tiling size (Function.update B a (some b)) (S ∪ Set.Ico a (a + size b)) := by
  have hnone : B a = none := by
    rw [Option.eq_none_iff_forall_ne_some]
    intro d hd
    exact hfree a le_rfl (by omega) (h.mem hd le_rfl (by have := h.pos hd; omega))
  have hout {c : ℕ} {d : β} (hd : B c = some d) : c + size d ≤ a ∨ a + size b ≤ c := by
    have hpos' := h.pos hd
    have hin : c ∈ S := h.mem hd le_rfl (by omega)
    by_contra hno
    by_cases hac : a ≤ c
    · exact hfree c hac (by omega) hin
    · exact hfree a le_rfl (by omega) (h.mem hd (by omega) (by omega))
  constructor
  · intro c d hd
    rcases update_some_iff.mp hd with ⟨rfl, rfl⟩ | ⟨-, hd⟩
    · exact hpos
    · exact h.pos hd
  · intro c d c' d' hd hd' hlt
    rcases update_some_iff.mp hd with ⟨hc, rfl⟩ | ⟨-, hd₀⟩
    · rcases update_some_iff.mp hd' with ⟨hc', -⟩ | ⟨-, hd₀'⟩
      · omega
      · have hpos' := h.pos hd₀'
        rcases hout hd₀' with hle | hle
        · omega
        · omega
    · rcases update_some_iff.mp hd' with ⟨hc', -⟩ | ⟨-, hd₀'⟩
      · rcases hout hd₀ with hle | hle
        · omega
        · omega
      · exact h.apart hd₀ hd₀' hlt
  · intro x
    rw [Set.mem_union, h.cover, Set.mem_Ico]
    constructor
    · rintro (⟨c, d, hd, hcx, hxc⟩ | hin)
      · have hc : c ≠ a := by
          rintro rfl
          rw [hnone] at hd
          cases hd
        exact ⟨c, d, by rwa [Function.update_of_ne hc], hcx, hxc⟩
      · exact ⟨a, b, Function.update_self _ _ _, hin⟩
    · rintro ⟨c, d, hd, hcx, hxc⟩
      rcases update_some_iff.mp hd with ⟨rfl, rfl⟩ | ⟨-, hd⟩
      · exact .inr ⟨hcx, hxc⟩
      · exact .inl ⟨c, d, hd, hcx, hxc⟩

theorem ico_subset (h : Tiling size B S) (hb : B a = some b) : Set.Ico a (a + size b) ⊆ S :=
  fun _ hx ↦ h.mem hb hx.1 hx.2

/-- A piece of the same size takes the place of a piece. -/
theorem replace (h : Tiling size B S) (hb : B a = some b) (hsize : size b₁ = size b) :
    Tiling size (Function.update B a (some b₁)) S := by
  have hpos := h.pos hb
  have hins := (h.erase hb).insert (a := a) (b := b₁) (by omega) fun x hax hxa hx ↦
    hx.2 ⟨hax, by omega⟩
  rw [Function.update_idem] at hins
  rwa [hsize, Set.sdiff_union_of_subset (h.ico_subset hb)] at hins

/-- A piece is split in two. -/
theorem split (h : Tiling size B S) (b₁ b₂ : β) (hb : B a = some b) (hpos₁ : 0 < size b₁)
    (hpos₂ : 0 < size b₂) (hsize : size b₁ + size b₂ = size b) :
    Tiling size (Function.update (Function.update B a (some b₁)) (a + size b₁) (some b₂)) S := by
  have hsub := h.ico_subset hb
  have hfirst := (h.erase hb).insert (a := a) (b := b₁) hpos₁ fun x hax hxa hx ↦
    hx.2 ⟨hax, by omega⟩
  rw [Function.update_idem] at hfirst
  have hboth := hfirst.insert (a := a + size b₁) (b := b₂) hpos₂ fun x hax hxa hx ↦ by
    rcases hx with hx | hx
    · exact hx.2 ⟨by omega, by omega⟩
    · exact absurd hx.2 (by omega)
  have hS : S \ Set.Ico a (a + size b) ∪ Set.Ico a (a + size b₁) ∪
      Set.Ico (a + size b₁) (a + size b₁ + size b₂) = S := by
    rw [Set.union_assoc, Set.Ico_union_Ico_eq_Ico (by omega) (by omega),
      show a + size b₁ + size b₂ = a + size b by omega, Set.sdiff_union_of_subset hsub]
  rwa [hS] at hboth

/-- A piece is merged with the one behind it. -/
theorem merge (h : Tiling size B S) (b₁ : β) (hb : B a = some b) (hd : B (a + size b) = some d)
    (hsize : size b₁ = size b + size d) :
    Tiling size (Function.update (Function.update B (a + size b) none) a (some b₁)) S := by
  have hpos := h.pos hb
  have hpos' := h.pos hd
  have hne : a + size b ≠ a := by omega
  have hd' : Function.update B a none (a + size b) = some d := by
    rwa [Function.update_of_ne hne]
  have hgone := (h.erase hb).erase hd'
  have hins := hgone.insert (a := a) (b := b₁) (by omega) fun x hax hxa hx ↦ by
    by_cases hxb : x < a + size b
    · exact hx.1.2 ⟨hax, hxb⟩
    · exact hx.2 ⟨by omega, by omega⟩
  have hS : (S \ Set.Ico a (a + size b)) \ Set.Ico (a + size b) (a + size b + size d) ∪
      Set.Ico a (a + size b₁) = S := by
    rw [Set.sdiff_sdiff, Set.Ico_union_Ico_eq_Ico (by omega) (by omega),
      show a + size b + size d = a + size b₁ by omega]
    refine Set.sdiff_union_of_subset fun x hx ↦ ?_
    by_cases hxb : x < a + size b
    · exact h.ico_subset hb ⟨hx.1, hxb⟩
    · exact h.ico_subset hd ⟨by omega, by have := hx.2; omega⟩
  rw [Function.update_comm hne.symm, Function.update_idem] at hins
  rwa [hS] at hins

end Tiling

end SdbStore.Lib
