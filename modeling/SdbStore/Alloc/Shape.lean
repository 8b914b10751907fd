import SdbStore.Alloc.FreeList
import SdbStore.Alloc.Ghosts
import SdbStore.Lib.Runs

/-!
# What holds in the middle of a call

`Shaped` holds between any two steps of a call.  The memory consists of blocks, and each block is
in the list of free blocks or is one that the program uses: `keep` says of these how much of each
has to stay as it was in `m₀`.  The footers of the blocks in `stale` may be out of date, and the
flags of those in `odd` may not agree with the list.

What a call does to a block is a step from one such state to another: both tags or the header
alone are written, or the block is put into the list or taken out of it.
-/

namespace SdbStore.Alloc

open Lib

/-- The heap in the middle of a call. -/
structure Shaped (m₀ : Mem) (keep : Nat → Option Nat) (h : SdbHeap) (B : Blocks) (fl : List Nat)
    (stale odd : Set Nat) : Prop where
  tagged : Tagged h.mem B stale
  listed : Listed h.mem h.freeListStart fl
  block : ∀ a ∈ fl, (B a).isSome
  flag : ∀ {a b}, B a = some b → a ∉ odd → (b.free = true ↔ a ∈ fl)
  used : ∀ {a b}, B a = some b → a ∉ fl → (keep a).isSome
  keeps : ∀ {a n}, keep a = some n → a ∉ fl ∧ (∃ b, B a = some b ∧ n ≤ b.size) ∧
    ∀ x, a + 8 ≤ x → x < a + n - 8 → h.mem x = m₀ x

/-- Nothing else than words and the list has changed. -/
structure Same (h h' : SdbHeap) : Prop where
  mapped : h'.mem.mapped = h.mem.mapped
  range : h'.range = h.range
  ranges : h'.ranges = h.ranges
  last : h'.lastAddress = h.lastAddress

theorem Same.trans {h₁ h₂ h₃ : SdbHeap} (h : Same h₁ h₂) (h' : Same h₂ h₃) : Same h₁ h₃ :=
  ⟨h'.mapped.trans h.mapped, h'.range.trans h.range, h'.ranges.trans h.ranges, h'.last.trans h.last⟩

theorem Tagged.mono {m : Mem} {B : Blocks} {stale stale' : Set Nat} (h : Tagged m B stale)
    (hsub : stale ⊆ stale') : Tagged m B stale' :=
  ⟨h.tiling, fun hb ↦ (h.block hb).congr rfl rfl fun ha ↦ hsub ha⟩

namespace Tagged

variable {m m' : Mem} {B : Blocks} {stale stale' : Set Nat} {a p n start : Nat} {b : Header}

/-- What is mapped is known from the blocks. -/
theorem mapped_eq (h : Tagged m B stale) (h' : Tagged m' B stale') : m'.mapped = m.mapped :=
  h.tiling.set_eq h'.tiling

/-- A node of a block, or `NULL`. -/
def IsNode (B : Blocks) (x : Nat) : Prop := x = 0 ∨ ∃ c d, B c = some d ∧ x = c + 8

theorem node (h : Tagged m B stale) (hx : IsNode B a) (h0 : a ≠ 0) :
    a % 8 = 0 ∧ (m a).isSome ∧ (m (a + 8)).isSome := by
  obtain ⟨c, d, hd, rfl⟩ := hx.resolve_left h0
  have ht := h.block hd
  have hmin := ht.min
  have h8 := ht.aligned
  exact ⟨by omega, h.mapped hd (by omega) (by omega), h.mapped hd (by omega) (by omega)⟩

theorem set_node (h : Tagged m B stale) (hx : IsNode B a) (h0 : a ≠ 0) (w : Word) :
    Tagged (m.set a w) B stale ∧ Tagged (m.set (a + 8) w) B stale := by
  obtain ⟨c, d, hd, rfl⟩ := hx.resolve_left h0
  have hmin := (h.block hd).min
  exact ⟨h.payload hd (by omega) (by omega) w, h.payload hd (by omega) (by omega) w⟩

theorem push (h : Tagged m B stale) (hb : B a = some b) (hstart : IsNode B start) :
    Tagged (m.push (addOffset a) start) B stale := by
  have hnode : IsNode B (addOffset a) := .inr ⟨a, b, hb, rfl⟩
  have hset := ((h.set_node hnode (addOffset_ne_zero a) (.ptr start)).1.set_node hnode
    (addOffset_ne_zero a) (.ptr 0)).2
  rw [Mem.push]
  split
  · exact hset
  · next h0 => exact (hset.set_node hstart h0 _).2

theorem link (h : Tagged m B stale) (hp : IsNode B p) (hn : IsNode B n) :
    Tagged (m.link p n) B stale := by
  have hset : Tagged (if p = 0 then m else m.set p (.ptr n)) B stale := by
    split
    · exact h
    · next h0 => exact (h.set_node hp h0 _).1
  rw [Mem.link]
  split
  · exact hset
  · next h0 => exact (hset.set_node hn h0 _).2

end Tagged

theorem findFreeBlock_end (h : SdbHeap) (size : Nat) : LoopEnds (findFreeBlockTurn h size) 0 0 :=
  .stop rfl

theorem findFreeBlockTurn_node {h : SdbHeap} {current : Nat} (size : Nat) {b : Header} {next : Nat}
    (hne : current ≠ 0) (hb : h.header (removeOffset current) = some b)
    (hnext : h.ptr current = some next) :
    findFreeBlockTurn h size current =
      some (if b.size ≥ size then .inr current else .inl next) := by
  rw [findFreeBlockTurn, if_neg hne, hb, hnext]
  exact (apply_ite some (b.size ≥ size) (Sum.inr current) (Sum.inl next)).symm

namespace Shaped

variable {m₀ m' : Mem} {keep keep' : Nat → Option Nat} {h : SdbHeap} {B B' : Blocks} {fl : List Nat}
  {stale stale' odd odd' : Set Nat} {a c : Nat} {b b' d : Header}

theorem mono (hs : Shaped m₀ keep h B fl stale odd) (hstale : stale ⊆ stale') (hodd : odd ⊆ odd') :
    Shaped m₀ keep h B fl stale' odd' :=
  { hs with
    tagged := hs.tagged.mono hstale
    flag := fun hb ha ↦ hs.flag hb fun hao ↦ ha (hodd hao) }

/-- Only the words and the beginning of the list matter. -/
theorem congr {h' : SdbHeap} (hs : Shaped m₀ keep h B fl stale odd) (hmem : h'.mem = h.mem)
    (hstart : h'.freeListStart = h.freeListStart) : Shaped m₀ keep h' B fl stale odd :=
  ⟨hmem ▸ hs.tagged, by rw [hmem, hstart]; exact hs.listed, hs.block, hs.flag, hs.used,
    fun hn ↦ hmem ▸ hs.keeps hn⟩

theorem exists_block (hs : Shaped m₀ keep h B fl stale odd) (ha : a ∈ fl) : ∃ b, B a = some b :=
  Option.isSome_iff_exists.mp (hs.block a ha)

/-- A block in the list is not one that the program uses. -/
theorem keep_eq_none (hs : Shaped m₀ keep h B fl stale odd) (ha : a ∈ fl) : keep a = none := by
  rw [Option.eq_none_iff_forall_ne_some]
  intro n hn
  exact (hs.keeps hn).1 ha

theorem apart (hs : Shaped m₀ keep h B fl stale odd) (hb : B a = some b) (hd : B c = some d)
    (hac : a ≠ c) : a + 32 ≤ c ∨ c + 32 ≤ a := by
  have hmin := (hs.tagged.block hb).min
  have hmin' := (hs.tagged.block hd).min
  have hdis := hs.tagged.disjoint hb hd hac
  omega

theorem apart_list (hs : Shaped m₀ keep h B fl stale odd) :
    ∀ c ∈ fl, ∀ d ∈ fl, c ≠ d → c + 32 ≤ d ∨ d + 32 ≤ c := by
  intro c hc d hd hcd
  obtain ⟨b, hb⟩ := hs.exists_block hc
  obtain ⟨b', hb'⟩ := hs.exists_block hd
  exact hs.apart hb hb' hcd

/-- The blocks change, and the payloads of the blocks that are in the list or used do not. -/
theorem retag (hs : Shaped m₀ keep h B fl stale odd) (htag : Tagged m' B' stale')
    (hold : ∀ {c d}, B c = some d → c ∈ fl ∨ (keep' c).isSome → ∃ d', B' c = some d' ∧
      (∀ n, keep' c = some n → n ≤ d'.size) ∧
      ∀ x, c + 8 ≤ x → x < c + d.size - 8 → x < c + d'.size - 8 → m' x = h.mem x)
    (hflag : ∀ {c d}, B' c = some d → c ∉ odd' → (d.free = true ↔ c ∈ fl))
    (hused : ∀ {c d}, B' c = some d → c ∉ fl → (keep' c).isSome)
    (hkeep : ∀ {c n}, keep' c = some n → keep c = some n ∨ n = 0 ∧ c ∉ fl ∧ (B' c).isSome) :
    Shaped m₀ keep' { h with mem := m' } B' fl stale' odd' := by
  refine ⟨htag, hs.listed.congr fun c hc ↦ ?_, fun c hc ↦ ?_, hflag, hused, fun {c n} hn ↦ ?_⟩
  · obtain ⟨d, hd⟩ := hs.exists_block hc
    obtain ⟨d', hd', -, hwords⟩ := hold hd (.inl hc)
    have hmin := (hs.tagged.block hd).min
    have hmin' := (htag.block hd').min
    exact ⟨hwords _ (by omega) (by omega) (by omega), hwords _ (by omega) (by omega) (by omega)⟩
  · obtain ⟨d, hd⟩ := hs.exists_block hc
    obtain ⟨d', hd', -⟩ := hold hd (.inl hc)
    rw [hd']
    rfl
  · rcases hkeep hn with hn' | ⟨rfl, hc, hsome⟩
    · obtain ⟨hc, ⟨d, hd, hnd⟩, hwords⟩ := hs.keeps hn'
      obtain ⟨d', hd', hnd', hwords'⟩ := hold hd (.inr (hn ▸ rfl))
      have hle := hnd' n hn
      refine ⟨hc, ⟨d', hd', hle⟩, fun x hcx hxc ↦ ?_⟩
      exact (hwords' x hcx (by omega) (by omega)).trans (hwords x hcx hxc)
    · obtain ⟨d', hd'⟩ := Option.isSome_iff_exists.mp hsome
      exact ⟨hc, ⟨d', hd', Nat.zero_le _⟩, fun x hcx hxc ↦ by omega⟩

/-- Tags of a block are written. -/
theorem rewrite (hs : Shaped m₀ keep h B fl stale odd) (hb : B a = some b)
    (hsize : b'.size = b.size) (htag : Tagged m' (Function.update B a (some b')) stale')
    (hwords : ∀ x, x ≠ a → x ≠ a + b.size - 8 → m' x = h.mem x)
    (hflag : a ∉ odd' → (b'.free = true ↔ a ∈ fl)) (hodd : ∀ c, c ≠ a → c ∈ odd → c ∈ odd') :
    Shaped m₀ keep { h with mem := m' } (Function.update B a (some b')) fl stale' odd' := by
  have hmin := (hs.tagged.block hb).min
  refine hs.retag htag (fun {c d} hd _ ↦ ?_) (fun {c d} hd hc ↦ ?_) (fun {c d} hd hc ↦ ?_) .inl
  · by_cases hc : c = a
    · subst hc
      cases hb.symm.trans hd
      refine ⟨b', Function.update_self _ _ _, fun n hn ↦ ?_, fun x hcx hxc _ ↦ ?_⟩
      · obtain ⟨-, ⟨e, he, hne⟩, -⟩ := hs.keeps hn
        cases hb.symm.trans he
        omega
      · exact hwords x (by omega) (by omega)
    · refine ⟨d, by rwa [Function.update_of_ne hc], fun n hn ↦ ?_, fun x hcx hxc _ ↦ ?_⟩
      · obtain ⟨-, ⟨e, he, hne⟩, -⟩ := hs.keeps hn
        cases hd.symm.trans he
        exact hne
      · have hdis := hs.tagged.disjoint hb hd (Ne.symm hc)
        exact hwords x (by omega) (by omega)
  · rcases update_some_iff.mp hd with ⟨rfl, rfl⟩ | ⟨hca, hd⟩
    · exact hflag hc
    · exact hs.flag hd fun hco ↦ hc (hodd c hca hco)
  · rcases update_some_iff.mp hd with ⟨rfl, rfl⟩ | ⟨-, hd⟩
    · exact hs.used hb hc
    · exact hs.used hd hc

/-! ## Tags -/

/-- `setFree`. -/
theorem setFree (hs : Shaped m₀ keep h B fl stale odd) (hb : B a = some b) (val : Bool)
    (odd' : Set Nat) (hflag : a ∉ odd' → (val = true ↔ a ∈ fl))
    (hodd : ∀ c, c ≠ a → c ∈ odd → c ∈ odd') :
    ∃ h', setFree h a val = some h' ∧ Same h h' ∧
      Shaped m₀ keep h' (Function.update B a (some { b with free := val })) fl (stale \ {a}) odd' ∧
      ghosts h'.mem (Function.update B a (some { b with free := val })) ⊆ ghosts h.mem B := by
  have ht := hs.tagged.block hb
  have hmin := ht.min
  have h8 := ht.aligned
  have hmapped := Mem.mapped_set (hs.tagged.mapped hb le_rfl (by omega))
    (.header { b with free := val })
  have hend : a + b.size - 8 ∈ (h.mem.set a (.header { b with free := val })).mapped :=
    hmapped ▸ hs.tagged.mapped hb (by omega) (by omega)
  have hend8 : (a + b.size - 8) % 8 = 0 := by omega
  refine ⟨_, ?_, ?_, hs.rewrite hb rfl (hs.tagged.tag hb rfl) (fun x hx hx' ↦ ?_) hflag hodd, ?_⟩
  · rw [Alloc.setFree, SdbHeap.setHeader_eq h8.1 ht.header, Option.bind_eq_bind, Option.bind_some]
    exact writeFooter_eq h8.1 (b := { b with free := val }) (Mem.set_self _ _ _) hend8 hend
  · exact ⟨(Mem.mapped_set hend _).trans hmapped, rfl, rfl, rfl⟩
  · rw [Mem.set_of_ne _ _ hx', Mem.set_of_ne _ _ hx]
  · exact (ghosts_set _ _ _ fun _ hd ↦ by cases hd).trans (ghosts_set_header _ _ _ _ _)

/-! ## The list -/

theorem ghosts_push (m : Mem) (B : Blocks) (y start : Nat) :
    ghosts (m.push y start) B ⊆ ghosts m B := by
  have hset : ghosts ((m.set y (.ptr start)).set (y + 8) (.ptr 0)) B ⊆ ghosts m B :=
    (ghosts_set _ _ _ fun _ hd ↦ by cases hd).trans (ghosts_set _ _ _ fun _ hd ↦ by cases hd)
  rw [Mem.push]
  split
  · exact hset
  · exact (ghosts_set _ _ _ fun _ hd ↦ by cases hd).trans hset

theorem ghosts_link (m : Mem) (B : Blocks) (p n : Nat) : ghosts (m.link p n) B ⊆ ghosts m B := by
  have hset : ghosts (if p = 0 then m else m.set p (.ptr n)) B ⊆ ghosts m B := by
    split
    · exact le_rfl
    · exact ghosts_set _ _ _ fun _ hd ↦ by cases hd
  rw [Mem.link]
  split
  · exact hset
  · exact (ghosts_set _ _ _ fun _ hd ↦ by cases hd).trans hset

/-- The links change, and a block comes into the list or leaves it. -/
theorem relist {start' : Nat} {fl' : List Nat} (hs : Shaped m₀ keep h B fl stale odd)
    (htag : Tagged m' B stale) (hlist : Listed m' start' fl')
    (hwords : ∀ {c d}, B c = some d → (c = a ∨ c ∉ fl) → ∀ x, c + 8 ≤ x → x < c + d.size - 8 →
      (keep' c).isSome → m' x = h.mem x)
    (hb : B a = some b) (hmem : ∀ c, c ≠ a → (c ∈ fl' ↔ c ∈ fl))
    (hkeep : ∀ c, c ≠ a → keep' c = keep c) (hflag : b.free = true ↔ a ∈ fl')
    (hused : a ∉ fl' → keep' a = some 0) (hunused : a ∈ fl' → keep' a = none) :
    Shaped m₀ keep' { h with mem := m', freeListStart := start' } B fl' stale (odd \ {a}) := by
  refine ⟨htag, hlist, fun c hc ↦ ?_, fun {c d} hd hc ↦ ?_, fun {c d} hd hc ↦ ?_, fun {c n} hn ↦ ?_⟩
  · by_cases hca : c = a
    · subst hca
      rw [hb]
      rfl
    · exact hs.block c ((hmem c hca).mp hc)
  · by_cases hca : c = a
    · subst hca
      cases hb.symm.trans hd
      exact hflag
    · rw [hmem c hca]
      exact hs.flag hd fun hco ↦ hc ⟨hco, hca⟩
  · by_cases hca : c = a
    · subst hca
      rw [hused hc]
      rfl
    · rw [hkeep c hca]
      exact hs.used hd (mt (hmem c hca).mpr hc)
  · by_cases hca : c = a
    · subst hca
      by_cases hc : c ∈ fl'
      · rw [hunused hc] at hn
        cases hn
      · cases (hused hc).symm.trans hn
        exact ⟨hc, ⟨b, hb, Nat.zero_le _⟩, fun x hcx hxc ↦ by omega⟩
    · have hn' := hkeep c hca ▸ hn
      obtain ⟨hc, ⟨d, hd, hnd⟩, hsame⟩ := hs.keeps hn'
      refine ⟨mt (hmem c hca).mp hc, ⟨d, hd, hnd⟩, fun x hcx hxc ↦ ?_⟩
      exact (hwords hd (.inr hc) x hcx (by omega) (hn ▸ rfl)).trans (hsame x hcx hxc)

/-- The nodes of the blocks in the list. -/
theorem isNode (hs : Shaped m₀ keep h B fl stale odd) {x : Nat}
    (hx : x = 0 ∨ ∃ c ∈ fl, x = c + 8) : Tagged.IsNode B x := by
  rcases hx with h0 | ⟨c, hc, rfl⟩
  · exact .inl h0
  · obtain ⟨d, hd⟩ := hs.exists_block hc
    exact .inr ⟨c, d, hd, rfl⟩

/-- `append_to_free_list`. -/
theorem append (hs : Shaped m₀ keep h B fl stale odd) (ha : a ∉ fl) (hb : B a = some b) :
    ∃ h', appendToFreeList h a = some h' ∧ Same h h' ∧
      Shaped m₀ (Function.update keep a none) h'
        (Function.update B a (some { b with free := true })) (a :: fl) (stale \ {a}) (odd \ {a}) ∧
      ghosts h'.mem (Function.update B a (some { b with free := true })) ⊆ ghosts h.mem B := by
  obtain ⟨h₁, hfree, hsame, hs₁, hghosts⟩ := hs.setFree hb true (odd ∪ {a})
    (fun hno ↦ absurd (.inr rfl) hno) fun c _ hc ↦ .inl hc
  have hb₁ := Function.update_self a (some { b with free := true }) B
  have hnode : Tagged.IsNode _ (addOffset a) := .inr ⟨a, _, hb₁, rfl⟩
  have hstart := hs₁.isNode hs₁.listed.start_cases
  obtain ⟨-, hm, hm'⟩ := hs₁.tagged.node hnode (addOffset_ne_zero a)
  have htag := hs₁.tagged.push hb₁ hstart
  have hapart : ∀ c ∈ fl, c + 32 ≤ a ∨ a + 32 ≤ c := by
    intro c hc
    obtain ⟨d, hd⟩ := hs₁.exists_block hc
    exact hs₁.apart hd hb₁ fun hca ↦ ha (hca ▸ hc)
  refine ⟨_, appendToFreeList_eq hfree (hs.tagged.block hb).aligned.1 hm hm' fun h0 ↦ ?_, ?_,
    (hs₁.relist htag (hs₁.listed.push ha hapart hs₁.apart_list) ?_ hb₁ ?_ ?_ ?_ ?_ ?_).mono
      le_rfl ?_,
    (ghosts_push _ _ _ _).trans hghosts⟩
  · obtain ⟨h8, -, hm⟩ := hs₁.tagged.node hstart h0
    exact ⟨h8, hm⟩
  · exact hsame.trans ⟨hs₁.tagged.mapped_eq htag, rfl, rfl, rfl⟩
  · intro c d hd hc x hcx hxc hkeep
    have hca : c ≠ a := by
      rintro rfl
      rw [Function.update_self] at hkeep
      cases hkeep
    have hac := hs₁.tagged.disjoint hd hb₁ hca
    have hmin := (hs₁.tagged.block hb₁).min
    refine Mem.push_of_ne (by rw [addOffset, headerSize]; omega)
      (by rw [addOffset, headerSize]; omega) ?_
    rcases hs₁.listed.start_cases with h0 | ⟨e, he, hstart⟩
    · exact .inl h0
    · obtain ⟨e', he'⟩ := hs₁.exists_block he
      have hce := hs₁.tagged.disjoint hd he' fun hce ↦ hc.resolve_left hca (hce ▸ he)
      have hmin' := (hs₁.tagged.block he').min
      omega
  · exact fun c hca ↦ List.mem_cons.trans (or_iff_right hca)
  · exact fun c hca ↦ Function.update_of_ne hca _ _
  · exact iff_of_true rfl List.mem_cons_self
  · exact fun hno ↦ absurd List.mem_cons_self hno
  · exact fun _ ↦ Function.update_self _ _ _
  · exact fun c hc ↦ ⟨hc.1.resolve_right hc.2, hc.2⟩

/-- `remove_from_free_list`. -/
theorem remove (hs : Shaped m₀ keep h B fl stale odd) (ha : a ∈ fl) (hb : B a = some b) :
    ∃ h', removeFromFreeList h a = some h' ∧ Same h h' ∧
      Shaped m₀ (Function.update keep a (some 0)) h'
        (Function.update B a (some { b with free := false })) (fl.erase a) (stale \ {a})
        (odd \ {a}) ∧
      ghosts h'.mem (Function.update B a (some { b with free := false })) ⊆ ghosts h.mem B := by
  obtain ⟨h₁, hfree, hsame, hs₁, hghosts⟩ := hs.setFree hb false (odd ∪ {a})
    (fun hno ↦ absurd (.inr rfl) hno) fun c _ hc ↦ .inl hc
  have hb₁ := Function.update_self a (some { b with free := false }) B
  obtain ⟨l₁, l₂, rfl⟩ := List.append_of_mem ha
  have hnodup := hs₁.listed.nodup
  have ha' : a ∉ l₁ ++ l₂ := (List.nodup_cons.mp (List.nodup_middle.mp hnodup)).1
  have herase : (l₁ ++ a :: l₂).erase a = l₁ ++ l₂ := by
    rw [List.erase_append_right _ fun hmem ↦ ha' (List.mem_append_left l₂ hmem),
      List.erase_cons_head]
  have hlinks := hs₁.listed.links
  rw [List.map_append, List.map_cons] at hlinks
  obtain ⟨hnext, hprev⟩ := hlinks.at_node
  obtain ⟨hp, hn⟩ := Listed.neighbours hnodup
  have hpnode := hs₁.isNode (hp.imp_right fun ⟨c, hc, hs⟩ ↦ ⟨c, List.mem_append_left _ hc, hs⟩)
  have hnnode := hs₁.isNode (hn.imp_right fun ⟨c, hc, hs⟩ ↦
    ⟨c, List.mem_append_right _ (List.mem_cons_of_mem a hc), hs⟩)
  have htag := hs₁.tagged.link hpnode hnnode
  rw [herase]
  refine ⟨_, removeFromFreeList_eq hfree (hs.tagged.block hb).aligned.1 hnext hprev (fun h0 ↦ ?_)
    (fun h0 ↦ ?_), ?_, (hs₁.relist htag
      (hs₁.listed.remove hs₁.apart_list rfl rfl) ?_ hb₁ ?_ ?_ ?_ ?_
      ?_).mono le_rfl ?_, (ghosts_link _ _ _ _).trans hghosts⟩
  · obtain ⟨h8, hm, -⟩ := hs₁.tagged.node hpnode h0
    exact ⟨h8, hm⟩
  · obtain ⟨h8, -, hm⟩ := hs₁.tagged.node hnnode h0
    exact ⟨h8, hm⟩
  · exact hsame.trans ⟨hs₁.tagged.mapped_eq htag, rfl, rfl, rfl⟩
  · intro c d hd hc x hcx hxc _
    have hout : ∀ e ∈ l₁ ++ l₂, x < e + 8 ∨ e + 24 ≤ x := by
      intro e he
      have hel : e ∈ l₁ ++ a :: l₂ := List.perm_middle.mem_iff.mpr (List.mem_cons_of_mem a he)
      obtain ⟨e', he'⟩ := hs₁.exists_block hel
      have hmin := (hs₁.tagged.block he').min
      have hce := hs₁.tagged.disjoint hd he' fun hce ↦
        hc.elim (fun hca ↦ ha' (hca ▸ hce ▸ he)) fun hcl ↦ hcl (hce ▸ hel)
      omega
    refine Mem.link_of_ne ?_ ?_
    · rcases hp with h0 | ⟨e, he, hpe⟩
      · exact .inl h0
      · have hxe := hout e (List.mem_append_left l₂ he)
        omega
    · rcases hn with h0 | ⟨e, he, hne⟩
      · exact .inl h0
      · have hxe := hout e (List.mem_append_right l₁ he)
        omega
  · intro c hca
    rw [List.mem_append, List.mem_append, List.mem_cons, or_iff_right hca]
  · exact fun c hca ↦ Function.update_of_ne hca _ _
  · exact iff_of_false Bool.false_ne_true ha'
  · exact fun _ ↦ Function.update_self _ _ _
  · exact fun hmem ↦ absurd hmem ha'
  · exact fun c hc ↦ ⟨hc.1.resolve_right hc.2, hc.2⟩

/-- The loop of `find_free_block` comes to an end, from any node of the list on. -/
theorem find_from (hs : Shaped m₀ keep h B fl stale odd) (size : Nat) {l : List Nat} {x : Nat}
    (hl : Linked (nextOf h.mem h.freeListStart) (prevOf h.mem) 0 x (l.map addOffset))
    (hsub : ∀ c ∈ l, c ∈ fl) :
    ∃ p, LoopEnds (findFreeBlockTurn h size) ((l.map addOffset).headD 0) p ∧
      (p = 0 ∨ ∃ c d, c ∈ fl ∧ p = addOffset c ∧ B c = some d ∧ size ≤ d.size) := by
  induction l generalizing x with
  | nil => exact ⟨0, findFreeBlock_end h size, .inl rfl⟩
  | cons c l ih =>
      obtain ⟨d, hd⟩ := hs.exists_block (hsub c List.mem_cons_self)
      have ht := hs.tagged.block hd
      have h8 := ht.aligned.1
      have hnext := hl.2.2.head
      rw [nextOf_addOffset, ← SdbHeap.ptr_eq (by omega)] at hnext
      have hheader : h.header (removeOffset (addOffset c)) = some d := by
        rw [removeOffset_addOffset, SdbHeap.header_eq h8 ht.header]
      have hturn := findFreeBlockTurn_node size (addOffset_ne_zero c) hheader hnext
      rw [List.map_cons, List.headD_cons]
      by_cases hge : d.size ≥ size
      · rw [if_pos hge] at hturn
        exact ⟨_, .stop hturn, .inr ⟨c, d, hsub c List.mem_cons_self, rfl, hd, hge⟩⟩
      · rw [if_neg hge] at hturn
        obtain ⟨p, hends, hp⟩ := ih hl.2.2 fun e he ↦ hsub e (List.mem_cons_of_mem c he)
        exact ⟨p, .turn hturn hends, hp⟩

/-- `find_free_block`. -/
theorem find (hs : Shaped m₀ keep h B fl stale odd) (size : Nat) :
    ∃ p, findFreeBlock h size h.freeListStart = some p ∧
      (p = 0 ∨ ∃ c d, c ∈ fl ∧ p = addOffset c ∧ B c = some d ∧ size ≤ d.size) := by
  rw [hs.listed.start_eq]
  obtain ⟨p, hends, hp⟩ := hs.find_from size hs.listed.links fun _ hc ↦ hc
  exact ⟨p, hends.result, hp⟩

end Shaped

end SdbStore.Alloc
