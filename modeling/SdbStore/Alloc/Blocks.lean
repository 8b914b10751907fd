import SdbStore.Alloc.Malloc
import SdbStore.Lib.Linked
import SdbStore.Lib.Tiling

/-!
# The blocks in the memory

The blocks of the allocator tile the memory that is mapped (`Tagged`): each begins with its header
and ends with its footer.  In the middle of a call some footers are stale.  The free blocks are
nodes of a doubly linked list (`Listed`), and two neighbours know of each other when they lie in the
same range (`Joints`).
-/

namespace SdbStore.Alloc

open Lib

/-- The blocks, by the addresses of their headers. -/
abbrev Blocks := Nat → Option Header

/-- A block with its header and, if it is not stale, its footer. -/
structure TaggedAt (m : Mem) (stale : Set Nat) (a : Nat) (b : Header) : Prop where
  pos : 0 < a
  aligned : a % 8 = 0 ∧ b.size % 8 = 0
  min : 32 ≤ b.size
  max : b.size ≤ intMax
  header : m a = some (.header b)
  footer : a ∉ stale → m (a + b.size - 8) = some (.footer ⟨b.size, b.free⟩)

/-- The memory that is mapped consists of blocks. -/
structure Tagged (m : Mem) (B : Blocks) (stale : Set Nat) : Prop where
  tiling : Tiling Header.size B m.mapped
  block : ∀ {a b}, B a = some b → TaggedAt m stale a b

/-! ## Single words -/

theorem Mem.set_self (m : Mem) (x : Nat) (w : Word) : m.set x w x = some w :=
  Function.update_self _ _ _

theorem Mem.set_of_ne (m : Mem) {x y : Nat} (w : Word) (h : y ≠ x) : m.set x w y = m y :=
  Function.update_of_ne h _ _

theorem Mem.mapped_set {m : Mem} {x : Nat} (h : x ∈ m.mapped) (w : Word) :
    (m.set x w).mapped = m.mapped := by
  ext y
  by_cases hy : y = x
  · subst hy
    exact iff_of_true (by rw [Mem.mapped, Set.mem_ofPred_eq, Mem.set_self]; rfl) h
  · rw [Mem.mapped, Set.mem_ofPred_eq, Mem.set_of_ne m w hy]
    rfl

theorem Mem.isSome_set (m : Mem) (x y : Nat) (w : Word) :
    (m.set y w x).isSome = true ↔ x = y ∨ (m x).isSome = true := by
  by_cases hx : x = y
  · rw [hx, Mem.set_self]
    exact iff_of_true rfl (.inl rfl)
  · rw [Mem.set_of_ne m w hx]
    exact (or_iff_right hx).symm

theorem Mem.set_set (m : Mem) (x : Nat) (w w' : Word) : (m.set x w).set x w' = m.set x w' :=
  Function.update_idem _ _ _

theorem Mem.set_comm (m : Mem) {x y : Nat} (h : x ≠ y) (w w' : Word) :
    (m.set x w).set y w' = (m.set y w').set x w := Function.update_comm h _ _ _

theorem Mem.set_eq_self {m : Mem} {x : Nat} {w : Word} (h : m x = some w) : m.set x w = m := by
  rw [Mem.set, ← h, Function.update_eq_self]

theorem Mem.mem_mapped_set {m : Mem} {x : Nat} (h : x ∈ m.mapped) (y : Nat) (w : Word) :
    x ∈ (m.set y w).mapped := (m.isSome_set x y w).mpr (.inr h)

theorem SdbHeap.store_eq {h : SdbHeap} {x : Nat} (hx : x % 8 = 0) (hm : x ∈ h.mem.mapped)
    (w : Word) : h.store x w = some { h with mem := h.mem.set x w } := if_pos ⟨hx, hm⟩

theorem SdbHeap.header_eq {h : SdbHeap} {x : Nat} {b : Header} (hx : x % 8 = 0)
    (hm : h.mem x = some (.header b)) : h.header x = some b := by
  rw [SdbHeap.header, SdbHeap.load, if_pos hx, hm]

theorem SdbHeap.footer_eq {h : SdbHeap} {x : Nat} {f : Footer} (hx : x % 8 = 0)
    (hm : h.mem x = some (.footer f)) : h.footer x = some f := by
  rw [SdbHeap.footer, SdbHeap.load, if_pos hx, hm]

theorem SdbHeap.setHeader_eq {h : SdbHeap} {x : Nat} {b : Header} (hx : x % 8 = 0)
    (hm : h.mem x = some (.header b)) (f : Header → Header) :
    h.setHeader x f = some { h with mem := h.mem.set x (.header (f b)) } := by
  have hmapped : x ∈ h.mem.mapped := by
    rw [Mem.mapped, Set.mem_ofPred_eq, hm]
    rfl
  rw [SdbHeap.setHeader, SdbHeap.header_eq hx hm, Option.bind_eq_bind, Option.bind_some,
    SdbHeap.store_eq hx hmapped]

theorem writeFooter_eq {h : SdbHeap} {x : Nat} {b : Header} (hx : x % 8 = 0)
    (hm : h.mem x = some (.header b)) (h8 : (x + b.size - 8) % 8 = 0)
    (hend : x + b.size - 8 ∈ h.mem.mapped) :
    writeFooter h x = some { h with
      mem := h.mem.set (x + b.size - 8) (.footer ⟨b.size, b.free⟩) } := by
  rw [writeFooter, SdbHeap.header_eq hx hm, Option.bind_eq_bind, Option.bind_some]
  exact SdbHeap.store_eq h8 hend _

theorem setHasNext_eq {h : SdbHeap} {x : Nat} {b : Header} (hx : x % 8 = 0) (h0 : x ≠ 0)
    (hm : h.mem x = some (.header b)) (val : Bool) :
    setHasNext h x val = some { h with
      mem := h.mem.set x (.header { b with hasNext := val }) } := by
  rw [setHasNext, if_neg h0, SdbHeap.setHeader_eq hx hm]

theorem setHasPrev_eq {h : SdbHeap} {x : Nat} {b : Header} (hx : x % 8 = 0) (h0 : x ≠ 0)
    (hm : h.mem x = some (.header b)) (val : Bool) :
    setHasPrev h x val = some { h with
      mem := h.mem.set x (.header { b with hasPrev := val }) } := by
  rw [setHasPrev, if_neg h0, SdbHeap.setHeader_eq hx hm]

/-! ## Tags -/

/-- Only the tags of a block matter. -/
theorem TaggedAt.congr {m m' : Mem} {stale stale' : Set Nat} {a : Nat} {b : Header}
    (h : TaggedAt m stale a b) (hheader : m' a = m a)
    (hfooter : m' (a + b.size - 8) = m (a + b.size - 8)) (hstale : a ∈ stale → a ∈ stale') :
    TaggedAt m' stale' a b :=
  { h with
    header := hheader.trans h.header
    footer := fun ha ↦ hfooter.trans (h.footer fun has ↦ ha (hstale has)) }

namespace Tagged

variable {m m' : Mem} {B B' : Blocks} {stale stale' : Set Nat} {a c : Nat}
  {b b' b₁ b₂ d : Header}

/-- Blocks do not overlap. -/
theorem disjoint (h : Tagged m B stale) (hb : B a = some b) (hd : B c = some d) (hac : a ≠ c) :
    a + b.size ≤ c ∨ c + d.size ≤ a := h.tiling.disjoint hb hd hac

theorem mapped (h : Tagged m B stale) (hb : B a = some b) {x : Nat} (hax : a ≤ x)
    (hxa : x < a + b.size) : x ∈ m.mapped := h.tiling.mem hb hax hxa

/-- Nothing changes outside of a region, in which there are blocks of their own before and after. -/
theorem region (h : Tagged m B stale) (lo hi : Nat) (htiling : Tiling Header.size B' m'.mapped)
    (hout : ∀ x, x < lo ∨ hi ≤ x → m' x = m x)
    (hstale : ∀ c, c < lo ∨ hi ≤ c → c ∈ stale → c ∈ stale') (hblock : ∀ {c d}, B' c = some d →
      TaggedAt m' stale' c d ∨ (B c = some d ∧ (c + d.size ≤ lo ∨ hi ≤ c))) :
    Tagged m' B' stale' := by
  refine ⟨htiling, fun {c d} hd ↦ ?_⟩
  rcases hblock hd with hnew | ⟨hold, hc⟩
  · exact hnew
  · have ht := h.block hold
    have hmin := ht.min
    exact ht.congr (hout c (by omega)) (hout _ (by omega)) (hstale c (by omega))

/-- Words between the header and the footer of a block may change. -/
theorem payload (h : Tagged m B stale) (hb : B a = some b) {x : Nat} (hax : a + 8 ≤ x)
    (hxa : x < a + b.size - 8) (w : Word) : Tagged (m.set x w) B stale := by
  have hmapped : (m.set x w).mapped = m.mapped :=
    Mem.mapped_set (h.mapped hb (by omega) (by omega)) w
  refine ⟨hmapped ▸ h.tiling, fun {c d} hd ↦ ?_⟩
  have ht := h.block hd
  have hmin := ht.min
  have hout : x < c ∨ c + d.size ≤ x ∨ c = a := by
    by_cases hac : a = c
    · exact .inr (.inr hac.symm)
    · rcases h.disjoint hb hd hac with hdis | hdis
      · omega
      · omega
  have hsame : c = a → d = b := by
    rintro rfl
    exact Option.some.inj (hd.symm.trans hb)
  refine ht.congr (Mem.set_of_ne m w ?_) (Mem.set_of_ne m w ?_) id
  · omega
  · rcases hout with hout | hout | hout
    · omega
    · omega
    · rw [hsame hout]
      omega

/-- The blocks other than one. -/
theorem other (h : Tagged m B stale) (hb : B a = some b) {o : Option Header}
    (hd : Function.update B a o c = some d) :
    (c = a ∧ o = some d) ∨ (B c = some d ∧ (c + d.size ≤ a ∨ a + b.size ≤ c)) := by
  by_cases hc : c = a
  · subst hc
    rw [Function.update_self] at hd
    exact .inl ⟨rfl, hd⟩
  · rw [Function.update_of_ne hc] at hd
    exact .inr ⟨hd, (h.disjoint hb hd (Ne.symm hc)).symm⟩

/-- Both tags of a block are written. -/
theorem tag (h : Tagged m B stale) (hb : B a = some b) (hsize : b'.size = b.size) :
    Tagged ((m.set a (.header b')).set (a + b.size - 8) (.footer ⟨b'.size, b'.free⟩))
      (Function.update B a (some b')) (stale \ {a}) := by
  have ht := h.block hb
  have hmin := ht.min
  have hmapped : ((m.set a (.header b')).set (a + b.size - 8)
      (.footer ⟨b'.size, b'.free⟩)).mapped = m.mapped := by
    have hfirst := Mem.mapped_set (h.mapped hb le_rfl (by omega)) (.header b')
    rw [Mem.mapped_set (hfirst ▸ h.mapped hb (by omega) (by omega)), hfirst]
  refine h.region a (a + b.size) (hmapped ▸ h.tiling.replace hb hsize) (fun x hx ↦ ?_)
    (fun c hc hcs ↦ ⟨hcs, ?_⟩) fun {c d} hd ↦ ?_
  · rw [Mem.set_of_ne _ _ (by omega), Mem.set_of_ne _ _ (by omega)]
  · rintro rfl
    omega
  · rcases h.other hb hd with ⟨rfl, heq⟩ | hd
    · cases heq
      refine .inl ⟨ht.pos, hsize ▸ ht.aligned, hsize ▸ ht.min, hsize ▸ ht.max, ?_, fun _ ↦ ?_⟩
      · rw [Mem.set_of_ne _ _ (by omega), Mem.set_self]
      · rw [hsize, Mem.set_self]
    · exact .inr hd

/-- The header of a block is written, and its footer still agrees. -/
theorem flags (h : Tagged m B stale) (hb : B a = some b) (hsize : b'.size = b.size)
    (hfree : b'.free = b.free) :
    Tagged (m.set a (.header b')) (Function.update B a (some b')) stale := by
  have ht := h.block hb
  have hmin := ht.min
  have hmapped := Mem.mapped_set (h.mapped hb le_rfl (by omega)) (.header b')
  refine h.region a (a + b.size) (hmapped ▸ h.tiling.replace hb hsize) (fun x hx ↦ ?_)
    (fun c _ hcs ↦ hcs) fun {c d} hd ↦ ?_
  · rw [Mem.set_of_ne _ _ (by omega)]
  · rcases h.other hb hd with ⟨rfl, heq⟩ | hd
    · cases heq
      refine .inl ⟨ht.pos, hsize ▸ ht.aligned, hsize ▸ ht.min, hsize ▸ ht.max, Mem.set_self _ _ _,
        fun hc ↦ ?_⟩
      rw [hsize, hfree, Mem.set_of_ne _ _ (by omega), ht.footer hc]
    · exact .inr hd

/-- The memory after a block has been split in two with the headers `b₁` and `b₂`. -/
def cut (m : Mem) (a : Nat) (b₁ b₂ : Header) : Mem :=
  (((m.set a (.header b₁)).set (a + b₁.size - 8) (.footer ⟨b₁.size, b₁.free⟩)).set (a + b₁.size)
    (.header b₂)).set (a + b₁.size + b₂.size - 8) (.footer ⟨b₂.size, b₂.free⟩)

/-- A block is split in two. -/
theorem split (h : Tagged m B stale) (b₁ b₂ : Header) (hb : B a = some b)
    (hsize : b₁.size + b₂.size = b.size) (hmin₁ : 32 ≤ b₁.size) (hmin₂ : 32 ≤ b₂.size)
    (h8 : b₁.size % 8 = 0) :
    Tagged (cut m a b₁ b₂)
      (Function.update (Function.update B a (some b₁)) (a + b₁.size) (some b₂))
      (stale \ {a, a + b₁.size}) := by
  have ht := h.block hb
  have hmax := ht.max
  have haligned := ht.aligned
  have hin {x : Nat} (hax : a ≤ x) (hxa : x < a + b.size) := h.mapped hb hax hxa
  have hmapped : (cut m a b₁ b₂).mapped = m.mapped := by
    have h₁ := Mem.mapped_set (hin (x := a) le_rfl (by omega)) (.header b₁)
    have h₂ := (Mem.mapped_set (h₁ ▸ hin (x := a + b₁.size - 8) (by omega) (by omega))
      (.footer ⟨b₁.size, b₁.free⟩)).trans h₁
    have h₃ := (Mem.mapped_set (h₂ ▸ hin (x := a + b₁.size) (by omega) (by omega))
      (.header b₂)).trans h₂
    exact (Mem.mapped_set (h₃ ▸ hin (by omega) (by omega)) _).trans h₃
  have htiling := h.tiling.split b₁ b₂ hb (by omega) (by omega) hsize
  refine h.region a (a + b.size) (hmapped ▸ htiling) (fun x hx ↦ ?_)
    (fun c hc hcs ↦ ⟨hcs, ?_⟩) fun {c d} hd ↦ ?_
  · rw [cut, Mem.set_of_ne _ _ (by omega), Mem.set_of_ne _ _ (by omega),
      Mem.set_of_ne _ _ (by omega), Mem.set_of_ne _ _ (by omega)]
  · rintro (rfl | hc')
    · omega
    · rw [Set.mem_singleton_iff] at hc'
      omega
  · rcases update_some_iff.mp hd with ⟨rfl, rfl⟩ | ⟨hc, hd⟩
    · refine .inl ⟨by omega, by omega, hmin₂, by omega, ?_, fun _ ↦ ?_⟩
      · rw [cut, Mem.set_of_ne _ _ (by omega), Mem.set_self]
      · rw [cut, Mem.set_self]
    · rcases h.other hb hd with ⟨rfl, heq⟩ | hd
      · cases heq
        refine .inl ⟨ht.pos, by omega, hmin₁, by omega, ?_, fun _ ↦ ?_⟩
        · rw [cut, Mem.set_of_ne _ _ (by omega), Mem.set_of_ne _ _ (by omega),
            Mem.set_of_ne _ _ (by omega), Mem.set_self]
        · rw [cut, Mem.set_of_ne _ _ (by omega), Mem.set_of_ne _ _ (by omega), Mem.set_self]
      · exact .inr hd

/-- A block is merged with the one behind it, and the footer is not written yet. -/
theorem merge (h : Tagged m B stale) (b' : Header) (hb : B a = some b)
    (hd : B (a + b.size) = some d) (hsize : b'.size = b.size + d.size) (hmax : b'.size ≤ intMax) :
    Tagged (m.set a (.header b'))
      (Function.update (Function.update B (a + b.size) none) a (some b')) (stale ∪ {a}) := by
  have ht := h.block hb
  have ht' := h.block hd
  have hmin := ht.min
  have haligned := ht.aligned
  have haligned' := ht'.aligned
  have hmapped := Mem.mapped_set (h.mapped hb le_rfl (by omega)) (.header b')
  refine h.region a (a + b'.size) (hmapped ▸ h.tiling.merge b' hb hd hsize)
    (fun x hx ↦ ?_) (fun c _ hcs ↦ .inl hcs) fun {c e} he ↦ ?_
  · rw [Mem.set_of_ne _ _ (by omega)]
  · rcases update_some_iff.mp he with ⟨rfl, rfl⟩ | ⟨hc, he⟩
    · exact .inl ⟨ht.pos, by omega, by omega, hmax, Mem.set_self _ _ _,
        fun hc ↦ absurd (.inr rfl) hc⟩
    · obtain ⟨hc', he⟩ := update_none_iff.mp he
      have hdis := h.disjoint hb he (Ne.symm hc)
      have hdis' := h.disjoint hd he (Ne.symm hc')
      exact .inr ⟨he, by omega⟩

/-- A block is taken out of the memory. -/
theorem erase (h : Tagged m B stale) (m' : Mem) (hb : B a = some b)
    (hout : ∀ x, x < a ∨ a + b.size ≤ x → m' x = m x)
    (hin : ∀ x, a ≤ x → x < a + b.size → m' x = none) :
    Tagged m' (Function.update B a none) stale := by
  have hmapped : m'.mapped = m.mapped \ Set.Ico a (a + b.size) := by
    ext x
    rw [Set.mem_sdiff, Set.mem_Ico, Mem.mapped, Mem.mapped, Set.mem_ofPred_eq, Set.mem_ofPred_eq]
    by_cases hx : a ≤ x ∧ x < a + b.size
    · rw [hin x hx.1 hx.2]
      exact iff_of_false (by simp) fun h ↦ h.2 hx
    · rw [hout x (by omega)]
      exact ⟨fun h ↦ ⟨h, hx⟩, fun h ↦ h.1⟩
  refine h.region a (a + b.size) (hmapped ▸ h.tiling.erase hb) hout
    (fun c _ hcs ↦ hcs) fun {c d} hd ↦ ?_
  rcases h.other hb hd with ⟨rfl, heq⟩ | hd
  · cases heq
  · exact .inr hd

/-- A block is put into memory that was not mapped. -/
theorem insert (h : Tagged m B stale) (hpos : 0 < a) (haligned : a % 8 = 0 ∧ b.size % 8 = 0)
    (hmin : 32 ≤ b.size) (hmax : b.size ≤ intMax) (hfree : ∀ x, a ≤ x → x < a + b.size → m x = none)
    (hout : ∀ x, x < a ∨ a + b.size ≤ x → m' x = m x)
    (hin : ∀ x, a ≤ x → x < a + b.size → (m' x).isSome) (hheader : m' a = some (.header b))
    (hfooter : m' (a + b.size - 8) = some (.footer ⟨b.size, b.free⟩)) :
    Tagged m' (Function.update B a (some b)) stale := by
  have hnone {x : Nat} (hax : a ≤ x) (hxa : x < a + b.size) : x ∉ m.mapped := by
    rw [Mem.mapped, Set.mem_ofPred_eq, hfree x hax hxa]
    simp
  have hmapped : m'.mapped = m.mapped ∪ Set.Ico a (a + b.size) := by
    ext x
    rw [Set.mem_union, Set.mem_Ico, Mem.mapped, Mem.mapped, Set.mem_ofPred_eq, Set.mem_ofPred_eq]
    by_cases hx : a ≤ x ∧ x < a + b.size
    · exact iff_of_true (hin x hx.1 hx.2) (.inr hx)
    · rw [hout x (by omega)]
      exact ⟨fun h ↦ .inl h, fun h ↦ h.resolve_right hx⟩
  refine h.region a (a + b.size)
    (hmapped ▸ h.tiling.insert (by omega) fun x hax hxa ↦ hnone hax hxa) hout (fun c _ hcs ↦ hcs)
    fun {c d} hd ↦ ?_
  rcases update_some_iff.mp hd with ⟨rfl, rfl⟩ | ⟨hc, hd⟩
  · exact .inl ⟨hpos, haligned, hmin, hmax, hheader, fun _ ↦ hfooter⟩
  · have ht := h.block hd
    have hmin' := ht.min
    refine .inr ⟨hd, ?_⟩
    by_contra hno
    by_cases hac : a ≤ c
    · exact hnone hac (by omega) (h.mapped hd le_rfl (by omega))
    · exact hnone le_rfl (by omega) (h.mapped hd (by omega) (by omega))

end Tagged

end SdbStore.Alloc
