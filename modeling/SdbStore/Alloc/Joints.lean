import SdbStore.Alloc.Blocks

/-!
# The ranges of the blocks

A block is in one range, and the two flags of a block say whether the address behind it and the one
in front of it are mapped and in the same range (`Joints`).  `Tail` is what holds of `last_address`:
the range that ends there goes no further.

Both are about the set `S` of the addresses that are mapped and the numbers of their ranges, so
nothing changes in them when a block is split or merged.
-/

namespace SdbStore.Alloc

open Lib

/-- The flags of the blocks are right. -/
structure Joints (S : Set Nat) (range : Nat → Nat) (B : Blocks) : Prop where
  one : ∀ {a b}, B a = some b → ∀ x, a ≤ x → x < a + b.size → range x = range a
  next : ∀ {a b}, B a = some b →
    (b.hasNext = true ↔ a + b.size ∈ S ∧ range (a + b.size) = range a)
  prev : ∀ {a b}, B a = some b → (b.hasPrev = true ↔ a - 1 ∈ S ∧ range (a - 1) = range a)

/-- The range that ends at `last_address`, if it is set, and the ranges so far. -/
structure Tail (S : Set Nat) (range : Nat → Nat) (ranges last : Nat) : Prop where
  known : ∀ x ∈ S, range x < ranges
  last : last ≠ 0 → last - 1 ∈ S ∧ ∀ x ∈ S, range x = range (last - 1) → x < last

/-- The `n` addresses from `a` on are new, and are in the range `r`, which does not go on behind
them. -/
structure Mapped (S : Set Nat) (range range' : Nat → Nat) (a n r : Nat) : Prop where
  fresh : ∀ x, a ≤ x → x < a + n → x ∉ S
  inside : ∀ x, a ≤ x → x < a + n → range' x = r
  outside : ∀ x, x < a ∨ a + n ≤ x → range' x = range x
  behind : a + n ∈ S → range (a + n) ≠ r

namespace Mapped

variable {S : Set Nat} {range range' : Nat → Nat} {B : Blocks} {a n r c : Nat} {e : Header}
  (hm : Mapped S range range' a n r) (hn : 0 < n)
include hm hn

theorem range_start : range' a = r := hm.inside a le_rfl (by omega)

/-- The new range ends behind the new addresses. -/
theorem not_next : ¬ (a + n ∈ S ∪ Set.Ico a (a + n) ∧ range' (a + n) = range' a) := by
  rw [hm.range_start hn, hm.outside (a + n) (by omega)]
  rintro ⟨hS | hI, hr⟩
  · exact hm.behind hS hr
  · have hlt := hI.2
    omega

theorem prev_iff (ha : 0 < a) : a - 1 ∈ S ∪ Set.Ico a (a + n) ∧ range' (a - 1) = range' a ↔
    a - 1 ∈ S ∧ range (a - 1) = r := by
  rw [hm.range_start hn, hm.outside (a - 1) (by omega), Set.mem_union, Set.mem_Ico,
    or_iff_left (by omega)]

section Old

variable (ht : Tiling Header.size B S) (he : B c = some e)
include ht he

/-- A block lies in front of the new addresses or behind them. -/
theorem side : c + e.size ≤ a ∨ a + n ≤ c := by
  have hpose := ht.pos he
  by_contra hno
  by_cases hac : a ≤ c
  · exact hm.fresh c hac (by omega) (ht.mem he le_rfl (by omega))
  · exact hm.fresh a le_rfl (by omega) (ht.mem he (by omega) (by omega))

/-- A block stays in its range. -/
theorem range_block {x : Nat} (hcx : c ≤ x) (hxc : x < c + e.size) : range' x = range x := by
  have hs := hm.side hn ht he
  exact hm.outside x (by omega)

/-- A block goes on behind its end as before, or has the new addresses there. -/
theorem next_block_iff : c + e.size ∈ S ∪ Set.Ico a (a + n) ∧ range' (c + e.size) = range' c ↔
    (c + e.size ∈ S ∧ range (c + e.size) = range c) ∨ (c + e.size = a ∧ range c = r) := by
  have hpose := ht.pos he
  have hse := hm.side hn ht he
  rw [hm.range_block hn ht he le_rfl (by omega), Set.mem_union, Set.mem_Ico]
  by_cases hend : c + e.size = a
  · rw [hend, hm.range_start hn]
    have hnot := hm.fresh a le_rfl (by omega)
    constructor
    · rintro ⟨-, hr⟩
      exact .inr ⟨rfl, hr.symm⟩
    · rintro (hS | hr)
      · exact absurd hS.1 hnot
      · exact ⟨.inr ⟨le_rfl, by omega⟩, hr.2.symm⟩
  · have hnotin : ¬ (a ≤ c + e.size ∧ c + e.size < a + n) := by omega
    rw [hm.outside (c + e.size) (by omega), or_iff_left hnotin, or_iff_left fun hr ↦ hend hr.1]

/-- In front of a block everything is as before. -/
theorem prev_block_iff (hc : 0 < c) : c - 1 ∈ S ∪ Set.Ico a (a + n) ∧ range' (c - 1) = range' c ↔
    c - 1 ∈ S ∧ range (c - 1) = range c := by
  have hpose := ht.pos he
  have hse := hm.side hn ht he
  rw [hm.range_block hn ht he le_rfl (by omega), Set.mem_union, Set.mem_Ico]
  by_cases hend : c = a + n
  · subst hend
    have hnot := hm.fresh (a + n - 1) (by omega) (by omega)
    rw [hm.inside (a + n - 1) (by omega) (by omega)]
    refine iff_of_false ?_ fun hS ↦ hnot hS.1
    rintro ⟨-, hr⟩
    exact hm.behind (ht.mem he le_rfl (by omega)) hr.symm
  · rw [hm.outside (c - 1) (by omega), or_iff_left (by omega)]

end Old

end Mapped

namespace Joints

variable {S : Set Nat} {range : Nat → Nat} {B B' : Blocks} {a c : Nat} {b b' b₁ b₂ d : Header}

/-- A header with other tags than these flags. -/
theorem replace (h : Joints S range B) (hb : B a = some b) (hsize : b'.size = b.size)
    (hprev : b'.hasPrev = b.hasPrev) (hnext : b'.hasNext = b.hasNext) :
    Joints S range (Function.update B a (some b')) := by
  have hold {c : Nat} {d : Header} (hd : Function.update B a (some b') c = some d) :
      ∃ e, B c = some e ∧ d.size = e.size ∧ d.hasPrev = e.hasPrev ∧ d.hasNext = e.hasNext := by
    rcases update_some_iff.mp hd with ⟨rfl, rfl⟩ | ⟨hc, hd⟩
    · exact ⟨b, hb, hsize, hprev, hnext⟩
    · exact ⟨d, hd, rfl, rfl, rfl⟩
  constructor
  · intro c d hd
    obtain ⟨e, he, hs, -, -⟩ := hold hd
    rw [hs]
    exact h.one he
  · intro c d hd
    obtain ⟨e, he, hs, -, hn⟩ := hold hd
    rw [hs, hn]
    exact h.next he
  · intro c d hd
    obtain ⟨e, he, -, hp, -⟩ := hold hd
    rw [hp]
    exact h.prev he

/-- Neighbours agree. -/
theorem agree (h : Joints S range B) (ht : Tiling Header.size B S) (hb : B a = some b)
    (hd : B (a + b.size) = some d) : b.hasNext = d.hasPrev := by
  have hpos := ht.pos hb
  have hpos' := ht.pos hd
  have hone := h.one hb (a + b.size - 1) (by omega) (by omega)
  have hin := ht.mem hb (x := a + b.size - 1) (by omega) (by omega)
  have hin' := ht.mem hd (x := a + b.size) le_rfl (by omega)
  have hiff : b.hasNext = true ↔ d.hasPrev = true := by
    rw [h.next hb, h.prev hd, hone]
    exact ⟨fun hn ↦ ⟨hin, hn.2.symm⟩, fun hp ↦ ⟨hin', hp.2.symm⟩⟩
  exact Bool.eq_iff_iff.mpr hiff

/-- The block behind a block that has one. -/
theorem exists_next (h : Joints S range B) (ht : Tiling Header.size B S) (hb : B a = some b)
    (hnext : b.hasNext = true) : ∃ d, B (a + b.size) = some d ∧ d.hasPrev = true := by
  have hmem := ((h.next hb).mp hnext).1
  obtain ⟨d, hd⟩ := Option.isSome_iff_exists.mp ((ht.isSome_end hb).mpr hmem)
  exact ⟨d, hd, h.agree ht hb hd ▸ hnext⟩

/-- The block in front of a block that has one. -/
theorem exists_prev (h : Joints S range B) (ht : Tiling Header.size B S) (hd : B c = some d)
    (hpos : 0 < c) (hprev : d.hasPrev = true) :
    ∃ a b, B a = some b ∧ a + b.size = c ∧ b.hasNext = true := by
  obtain ⟨hmem, hrange⟩ := (h.prev hd).mp hprev
  obtain ⟨a, b, hb, hax, hxa⟩ := (ht.cover _).mp hmem
  have hac : a ≠ c := by omega
  have hdis := ht.disjoint hb hd hac
  have hpos' := ht.pos hd
  have hend : a + b.size = c := by omega
  subst hend
  exact ⟨a, b, hb, rfl, (h.agree ht hb hd).trans hprev⟩

/-- A block is split in two. -/
theorem split (h : Joints S range B) (ht : Tiling Header.size B S) (b₁ b₂ : Header)
    (hb : B a = some b) (hsize : b₁.size + b₂.size = b.size) (hpos₁ : 0 < b₁.size)
    (hpos₂ : 0 < b₂.size) (hprev₁ : b₁.hasPrev = b.hasPrev) (hnext₁ : b₁.hasNext = true)
    (hprev₂ : b₂.hasPrev = true) (hnext₂ : b₂.hasNext = b.hasNext) :
    Joints S range (Function.update (Function.update B a (some b₁)) (a + b₁.size) (some b₂)) := by
  have hone := h.one hb
  have hin {x : Nat} (hax : a ≤ x) (hxa : x < a + b.size) : x ∈ S := ht.mem hb hax hxa
  have hmid : range (a + b₁.size) = range a := hone _ (by omega) (by omega)
  have hend : a + b₁.size + b₂.size = a + b.size := by omega
  have hcases {c : Nat} {d : Header}
      (hd : Function.update (Function.update B a (some b₁)) (a + b₁.size) (some b₂) c = some d) :
      (c = a + b₁.size ∧ d = b₂) ∨ (c = a ∧ d = b₁) ∨ B c = some d := by
    rcases update_some_iff.mp hd with ⟨rfl, rfl⟩ | ⟨hc, hd⟩
    · exact .inl ⟨rfl, rfl⟩
    · rcases update_some_iff.mp hd with ⟨rfl, rfl⟩ | ⟨hc', hd⟩
      · exact .inr (.inl ⟨rfl, rfl⟩)
      · exact .inr (.inr hd)
  constructor
  · intro c d hd x hcx hxc
    rcases hcases hd with ⟨rfl, rfl⟩ | ⟨rfl, rfl⟩ | hd
    · rw [hmid]
      exact hone x (by omega) (by omega)
    · exact hone x hcx (by omega)
    · exact h.one hd x hcx hxc
  · intro c d hd
    rcases hcases hd with ⟨rfl, rfl⟩ | ⟨rfl, rfl⟩ | hd
    · rw [hnext₂, hend, hmid]
      exact h.next hb
    · exact iff_of_true hnext₁ ⟨hin (by omega) (by omega), hmid⟩
    · exact h.next hd
  · intro c d hd
    rcases hcases hd with ⟨rfl, rfl⟩ | ⟨rfl, rfl⟩ | hd
    · refine iff_of_true hprev₂ ⟨hin (by omega) (by omega), ?_⟩
      rw [hmid]
      exact hone _ (by omega) (by omega)
    · rw [hprev₁]
      exact h.prev hb
    · exact h.prev hd

/-- A block is merged with the one behind it. -/
theorem merge (h : Joints S range B) (b' : Header) (hb : B a = some b)
    (hd : B (a + b.size) = some d) (hnext : b.hasNext = true) (hsize : b'.size = b.size + d.size)
    (hprev' : b'.hasPrev = b.hasPrev) (hnext' : b'.hasNext = d.hasNext) :
    Joints S range (Function.update (Function.update B (a + b.size) none) a (some b')) := by
  have hrange : range (a + b.size) = range a := ((h.next hb).mp hnext).2
  have hend : a + b'.size = a + b.size + d.size := by omega
  have hcases {c : Nat} {e : Header}
      (he : Function.update (Function.update B (a + b.size) none) a (some b') c = some e) :
      (c = a ∧ e = b') ∨ B c = some e := by
    rcases update_some_iff.mp he with ⟨rfl, rfl⟩ | ⟨hc, he⟩
    · exact .inl ⟨rfl, rfl⟩
    · exact .inr (update_none_iff.mp he).2
  constructor
  · intro c e he x hcx hxc
    rcases hcases he with ⟨rfl, rfl⟩ | he
    · by_cases hx : x < c + b.size
      · exact h.one hb x hcx hx
      · rw [h.one hd x (by omega) (by omega), hrange]
    · exact h.one he x hcx hxc
  · intro c e he
    rcases hcases he with ⟨rfl, rfl⟩ | he
    · rw [hnext', hend, ← hrange]
      exact h.next hd
    · exact h.next he
  · intro c e he
    rcases hcases he with ⟨rfl, rfl⟩ | he
    · rw [hprev']
      exact h.prev hb
    · exact h.prev he

/-- A block is taken out of the memory, and its neighbours are told so. -/
theorem unmap (h : Joints S range B) (B' : Blocks) (ht : Tiling Header.size B S) (hb : B a = some b)
    (hpos : ∀ {c d}, B c = some d → 0 < c)
    (hB' : ∀ {c d}, B' c = some d → c ≠ a ∧ ∃ e, B c = some e ∧ d.size = e.size ∧
      (d.hasNext = true ↔ e.hasNext = true ∧ c + e.size ≠ a) ∧
      (d.hasPrev = true ↔ e.hasPrev = true ∧ c ≠ a + b.size)) :
    Joints (S \ Set.Ico a (a + b.size)) range B' := by
  have hposb := ht.pos hb
  constructor
  · intro c d hd
    obtain ⟨-, e, he, hs, -, -⟩ := hB' hd
    rw [hs]
    exact h.one he
  · intro c d hd
    obtain ⟨hc, e, he, hs, hn, -⟩ := hB' hd
    have hdis := ht.disjoint he hb hc
    have hpose := ht.pos he
    rw [hs, hn, h.next he, Set.mem_sdiff, Set.mem_Ico]
    have hend : ¬ (a ≤ c + e.size ∧ c + e.size < a + b.size) ↔ c + e.size ≠ a := by omega
    rw [hend]
    tauto
  · intro c d hd
    obtain ⟨hc, e, he, -, -, hp⟩ := hB' hd
    have hdis := ht.disjoint he hb hc
    have hpose := ht.pos he
    have hposc := hpos he
    rw [hp, h.prev he, Set.mem_sdiff, Set.mem_Ico]
    have hend : ¬ (a ≤ c - 1 ∧ c - 1 < a + b.size) ↔ c ≠ a + b.size := by omega
    rw [hend]
    tauto

/-- A block is put into memory of a range `r`, and the block in front of it is told so. -/
theorem map {range' : Nat → Nat} {r : Nat} (h : Joints S range B) (ht : Tiling Header.size B S)
    (hpos : ∀ {c d}, B c = some d → 0 < c) (ha : 0 < a) (hposb : 0 < b.size)
    (hm : Mapped S range range' a b.size r) (hnext : b.hasNext = false)
    (hprev : b.hasPrev = true ↔ a - 1 ∈ S ∧ range (a - 1) = r)
    (hB' : ∀ {c d}, B' c = some d → (c = a ∧ d = b) ∨ ∃ e, B c = some e ∧ d.size = e.size ∧
      (d.hasNext = true ↔ e.hasNext = true ∨ c + e.size = a ∧ range c = r) ∧
      d.hasPrev = e.hasPrev) :
    Joints (S ∪ Set.Ico a (a + b.size)) range' B' := by
  constructor
  · intro c d hd x hcx hxc
    rcases hB' hd with ⟨rfl, rfl⟩ | ⟨e, he, hs, -, -⟩
    · rw [hm.range_start hposb]
      exact hm.inside x hcx hxc
    · have hpose := ht.pos he
      rw [hm.range_block hposb ht he hcx (by omega), hm.range_block hposb ht he le_rfl (by omega)]
      exact h.one he x hcx (by omega)
  · intro c d hd
    rcases hB' hd with ⟨rfl, rfl⟩ | ⟨e, he, hs, hn, -⟩
    · rw [hnext]
      exact iff_of_false Bool.false_ne_true (hm.not_next hposb)
    · rw [hs, hn, h.next he, hm.next_block_iff hposb ht he]
  · intro c d hd
    rcases hB' hd with ⟨rfl, rfl⟩ | ⟨e, he, -, -, hp⟩
    · rw [hprev, hm.prev_iff hposb ha]
    · rw [hp, h.prev he, hm.prev_block_iff hposb ht he (hpos he)]

end Joints

namespace Tail

variable {S : Set Nat} {range : Nat → Nat} {ranges last : Nat} {B : Blocks} {a : Nat} {b : Header}

/-- No block goes beyond `last_address`. -/
theorem not_inside (h : Tail S range ranges last) (hj : Joints S range B)
    (ht : Tiling Header.size B S) (hlast : last ≠ 0) (hb : B a = some b) (hal : a ≤ last - 1)
    (hla : last - 1 < a + b.size) : a + b.size = last := by
  by_contra hne
  have hin : last < a + b.size := by omega
  have hrange := (hj.one hb last (by omega) hin).trans (hj.one hb (last - 1) hal hla).symm
  exact lt_irrefl _ ((h.last hlast).2 last (ht.mem hb (by omega) hin) hrange)

/-- A block is taken out of the memory. -/
theorem unmap (h : Tail S range ranges last) (hj : Joints S range B)
    (ht : Tiling Header.size B S) (hb : B a = some b) (ha : 0 < a) :
    Tail (S \ Set.Ico a (a + b.size)) range ranges
      (if last = a + b.size then if b.hasPrev then a else 0 else last) := by
  have hpos := ht.pos hb
  refine ⟨fun x hx ↦ h.known x hx.1, fun hlast ↦ ?_⟩
  by_cases hend : last = a + b.size
  · subst hend
    rw [if_pos rfl] at hlast ⊢
    by_cases hprev : b.hasPrev = true
    · rw [if_pos hprev]
      obtain ⟨hS, hr⟩ := (hj.prev hb).mp hprev
      have hrange := hj.one hb (a + b.size - 1) (by omega) (by omega)
      refine ⟨⟨hS, fun hI ↦ ?_⟩, fun x hx hxr ↦ ?_⟩
      · have hle := hI.1
        omega
      · have hlt := (h.last (by omega)).2 x hx.1 (by rw [hrange, hxr, hr])
        have hnot : ¬ (a ≤ x ∧ x < a + b.size) := hx.2
        omega
    · rw [if_neg hprev] at hlast
      exact absurd rfl hlast
  · rw [if_neg hend] at hlast ⊢
    obtain ⟨hS, hbelow⟩ := h.last hlast
    refine ⟨⟨hS, fun hI ↦ ?_⟩, fun x hx ↦ hbelow x hx.1⟩
    exact hend (h.not_inside hj ht hlast hb hI.1 hI.2).symm

/-- A mapping is made, and `last_address` is its end. -/
theorem map {range' : Nat → Nat} {r n : Nat} (h : Tail S range ranges last) (hn : 0 < n)
    (hm : Mapped S range range' a n r) (hr : r < ranges + 1)
    (hbelow : ∀ x ∈ S, range x = r → x < a) :
    Tail (S ∪ Set.Ico a (a + n)) range' (ranges + 1) (a + n) := by
  have hold {x : Nat} (hx : x ∈ S) : range' x = range x := by
    refine hm.outside x ?_
    by_contra hno
    exact hm.fresh x (by omega) (by omega) hx
  constructor
  · rintro x (hx | hx)
    · rw [hold hx]
      have hlt := h.known x hx
      omega
    · rw [hm.inside x hx.1 hx.2]
      exact hr
  · intro _
    rw [hm.inside (a + n - 1) (by omega) (by omega)]
    refine ⟨.inr ⟨by omega, by omega⟩, ?_⟩
    rintro x (hx | hx) hxr
    · have hlt := hbelow x hx (hold hx ▸ hxr)
      omega
    · exact hx.2

end Tail

end SdbStore.Alloc
