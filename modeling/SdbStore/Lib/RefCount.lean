import Mathlib.Algebra.BigOperators.Group.Finset.Basic
import Mathlib.Algebra.Order.BigOperators.Group.Finset
import Mathlib.Logic.Relation
import Mathlib.Tactic.Common

/-!
# Reference counting

Objects refer to each other, and are referred to from outside.  An object is freed when its last
reference is dropped, and its own references are dropped then.  The order is not fixed: the
references that are still to be dropped are kept in a bag, and any of them may be taken next.

Whatever the order, the same objects are left in the end: those are freed which have no owner but
ones that are freed as well, on the ground that they are freed before.  A cycle is not freed.
-/

namespace SdbStore.Lib.RefCount

open Relation

variable {α : Type*} [DecidableEq α]

/-- The objects that live, and the references that have to be dropped. -/
structure Sweep (α : Type*) where
  live : Finset α
  pend : Multiset α

variable (out : α → Multiset α) (ext : α → ℕ)

/-- The number of owners: from outside, to be dropped, and the references of the objects. -/
def owners (st : Sweep α) (x : α) : ℕ :=
  ext x + st.pend.count x + ∑ y ∈ st.live, (out y).count x

/-- One reference is dropped. -/
inductive Step : Sweep α → Sweep α → Prop
  | drop {live : Finset α} {pend : Multiset α} {x : α}
      (h : 1 < owners out ext ⟨live, x ::ₘ pend⟩ x) : Step ⟨live, x ::ₘ pend⟩ ⟨live, pend⟩
  | free {live : Finset α} {pend : Multiset α} {x : α}
      (h : owners out ext ⟨live, x ::ₘ pend⟩ x = 1) :
      Step ⟨live, x ::ₘ pend⟩ ⟨live.erase x, out x + pend⟩

/-- References lead to objects that live, and these have an owner. -/
structure Valid (st : Sweep α) : Prop where
  closed : ∀ y ∈ st.live, ∀ x ∈ out y, x ∈ st.live
  pend : ∀ x ∈ st.pend, x ∈ st.live
  owned : ∀ x ∈ st.live, 0 < owners out ext st x

/-- The objects that are left with no owner. -/
inductive Dead (live : Finset α) : α → Prop
  | intro {x : α} (hx : x ∈ live) (hext : ext x = 0)
      (h : ∀ y ∈ live, x ∈ out y → Dead live y) : Dead live x

variable {out ext} {live : Finset α} {pend : Multiset α} {x : α} {st st' : Sweep α}

/-! ## One step -/

variable (out ext live pend x) in
theorem owners_mk : owners out ext ⟨live, pend⟩ x =
    ext x + pend.count x + ∑ y ∈ live, (out y).count x := rfl

/-- The last owner is the reference that is dropped. -/
theorem eq_zero_of_owners (h : owners out ext ⟨live, x ::ₘ pend⟩ x = 1) :
    ext x = 0 ∧ x ∉ pend ∧ ∀ y ∈ live, x ∉ out y := by
  rw [owners_mk, Multiset.count_cons_self] at h
  have hsum : ∑ y ∈ live, (out y).count x = 0 := by omega
  refine ⟨by omega, Multiset.count_eq_zero.mp (by omega), fun y hy ↦ ?_⟩
  exact Multiset.count_eq_zero.mp (Finset.sum_eq_zero_iff.mp hsum y hy)

theorem owners_cons (x y : α) : owners out ext ⟨live, x ::ₘ pend⟩ y =
    owners out ext ⟨live, pend⟩ y + if y = x then 1 else 0 := by
  rw [owners_mk, owners_mk, Multiset.count_cons]
  omega

/-- When an object is freed, its references become ones that have to be dropped. -/
theorem owners_erase (hx : x ∈ live) (y : α) :
    owners out ext ⟨live.erase x, out x + pend⟩ y = owners out ext ⟨live, pend⟩ y := by
  have hsum := Finset.add_sum_erase live (fun z ↦ (out z).count y) hx
  rw [owners_mk, owners_mk, Multiset.count_add, ← hsum]
  omega

theorem Valid.step (hv : Valid out ext st) (h : Step out ext st st') : Valid out ext st' := by
  cases h with
  | @drop live pend x hx =>
      refine ⟨hv.closed, fun y hy ↦ hv.pend y (Multiset.mem_cons_of_mem hy), fun y hy ↦ ?_⟩
      have hy' := hv.owned y hy
      rw [owners_cons] at hx hy'
      split at hy'
      · next heq =>
          rw [if_pos rfl] at hx
          rw [heq]
          omega
      · exact hy'
  | @free live pend x hx =>
      obtain ⟨-, hpend, hout⟩ := eq_zero_of_owners hx
      have hlive : x ∈ live := hv.pend x (Multiset.mem_cons_self ..)
      have hne : ∀ y, (y ∈ pend ∨ ∃ z ∈ live, y ∈ out z) → y ≠ x := by
        rintro y (hy | ⟨z, hz, hy⟩) rfl
        · exact hpend hy
        · exact hout z hz hy
      refine ⟨fun y hy z hz ↦ ?_, fun y hy ↦ ?_, fun y hy ↦ ?_⟩
      · have hy := Finset.mem_of_mem_erase hy
        exact Finset.mem_erase.mpr ⟨hne z (.inr ⟨y, hy, hz⟩), hv.closed y hy z hz⟩
      · rcases Multiset.mem_add.mp hy with hy | hy
        · exact Finset.mem_erase.mpr ⟨hne y (.inr ⟨x, hlive, hy⟩), hv.closed x hlive y hy⟩
        · exact Finset.mem_erase.mpr ⟨hne y (.inl hy), hv.pend y (Multiset.mem_cons_of_mem hy)⟩
      · obtain ⟨hyx, hy⟩ := Finset.mem_erase.mp hy
        have hy' := hv.owned y hy
        rw [owners_cons, if_neg hyx] at hy'
        rw [owners_erase hlive]
        exact hy'

/-- What is freed is left with no owner, from the beginning on. -/
structure Freed (out : α → Multiset α) (ext : α → ℕ) (live₀ : Finset α) (st : Sweep α) : Prop where
  subset : st.live ⊆ live₀
  dead : ∀ x ∈ live₀, x ∉ st.live → Dead out ext live₀ x

theorem Freed.step {live₀ : Finset α} (hf : Freed out ext live₀ st)
    (h : Step out ext st st') : Freed out ext live₀ st' := by
  cases h with
  | drop _ => exact ⟨hf.subset, hf.dead⟩
  | @free live pend x hx =>
      obtain ⟨hext, -, hout⟩ := eq_zero_of_owners hx
      refine ⟨(Finset.erase_subset _ _).trans hf.subset, fun y hy hne ↦ ?_⟩
      by_cases hyl : y ∈ live
      · obtain rfl : y = x := by
          by_contra hyx
          exact hne (Finset.mem_erase.mpr ⟨hyx, hyl⟩)
        refine .intro hy hext fun z hz hyz ↦ hf.dead z hz fun hzl ↦ ?_
        exact hout z hzl hyz
      · exact hf.dead y hy hyl

/-! ## Taking a reference away -/

section Take

variable {out' : α → Multiset α} {s a : α} (hs : s ∈ live) (ha : out s = a ::ₘ out' s)
  (hne : ∀ y, y ≠ s → out y = out' y)
include hs ha hne

/-- A reference that is taken away from an object has to be dropped. -/
theorem owners_take (y : α) :
    owners out' ext ⟨live, a ::ₘ pend⟩ y = owners out ext ⟨live, pend⟩ y := by
  have hsum : ∑ z ∈ live.erase s, (out z).count y = ∑ z ∈ live.erase s, (out' z).count y :=
    Finset.sum_congr rfl fun z hz ↦ by rw [hne z (Finset.ne_of_mem_erase hz)]
  rw [owners_cons, owners_mk, owners_mk, ← Finset.add_sum_erase live _ hs,
    ← Finset.add_sum_erase live _ hs, hsum, ha, Multiset.count_cons]
  omega

theorem Valid.take (hv : Valid out ext ⟨live, pend⟩) : Valid out' ext ⟨live, a ::ₘ pend⟩ := by
  refine ⟨fun y hy x hx ↦ hv.closed y hy x ?_, fun x hx ↦ ?_, fun x hx ↦ ?_⟩
  · by_cases hys : y = s
    · subst hys
      rw [ha]
      exact Multiset.mem_cons_of_mem hx
    · rwa [hne y hys]
  · rcases Multiset.mem_cons.mp hx with rfl | hx
    · exact hv.closed s hs x (ha ▸ Multiset.mem_cons_self ..)
    · exact hv.pend x hx
  · rw [owners_take hs ha hne]
    exact hv.owned x hx

end Take

/-- An object without references. -/
theorem owners_insert (hx : x ∉ live) (hout : out x = 0) (y : α) :
    owners out ext ⟨insert x live, pend⟩ y = owners out ext ⟨live, pend⟩ y := by
  rw [owners_mk, owners_mk, Finset.sum_insert hx, hout, Multiset.count_zero, Nat.zero_add]

/-! ## Owners from outside -/

/-- One more owner from outside. -/
def hold (ext : α → ℕ) (r : α) : α → ℕ := fun x ↦ ext x + if x = r then 1 else 0

/-- An owner from outside may as well let go of the object later. -/
theorem owners_hold (r y : α) :
    owners out (hold ext r) ⟨live, pend⟩ y = owners out ext ⟨live, r ::ₘ pend⟩ y := by
  rw [owners_cons, owners_mk, owners_mk, hold]
  omega

theorem Valid.retain (hv : Valid out ext ⟨live, pend⟩) (r : α) :
    Valid out (hold ext r) ⟨live, pend⟩ := by
  refine ⟨hv.closed, hv.pend, fun x hx ↦ ?_⟩
  rw [owners_hold, owners_cons]
  exact Nat.add_pos_left (hv.owned x hx) _

theorem Valid.release {r : α} (hv : Valid out (hold ext r) ⟨live, pend⟩) (hr : r ∈ live) :
    Valid out ext ⟨live, r ::ₘ pend⟩ := by
  refine ⟨hv.closed, fun x hx ↦ ?_, fun x hx ↦ ?_⟩
  · rcases Multiset.mem_cons.mp hx with rfl | hx
    · exact hr
    · exact hv.pend x hx
  · rw [← owners_hold]
    exact hv.owned x hx

/-! ## Whole runs -/

theorem Valid.steps (hv : Valid out ext st) (h : ReflTransGen (Step out ext) st st') :
    Valid out ext st' := by
  induction h with
  | refl => exact hv
  | tail _ hstep ih => exact ih.step hstep

/-- Only the references of what lives matter. -/
theorem owners_congr {out' : α → Multiset α} (h : ∀ y ∈ live, out y = out' y) (x : α) :
    owners out ext ⟨live, pend⟩ x = owners out' ext ⟨live, pend⟩ x := by
  rw [owners_mk, owners_mk, Finset.sum_congr rfl fun y hy ↦ by rw [h y hy]]

theorem Valid.congr {out' : α → Multiset α} (hv : Valid out ext ⟨live, pend⟩)
    (h : ∀ y ∈ live, out y = out' y) : Valid out' ext ⟨live, pend⟩ := by
  refine ⟨fun y hy x hx ↦ hv.closed y hy x ?_, hv.pend, fun x hx ↦ ?_⟩
  · rwa [h y hy]
  · rw [← owners_congr h]
    exact hv.owned x hx

theorem freed_steps (h : ReflTransGen (Step out ext) st st') :
    Freed out ext st.live st' := by
  induction h with
  | refl => exact ⟨Finset.Subset.refl _, fun x hx hne ↦ absurd hx hne⟩
  | tail _ hstep ih => exact ih.step hstep

/-- What has an owner that is not freed is not freed. -/
theorem Dead.notMem {live₀ : Finset α} (hd : Dead out ext live₀ x) (hsub : live ⊆ live₀)
    (hv : Valid out ext ⟨live, 0⟩) : x ∉ live := by
  induction hd with
  | @intro x hx hext h ih =>
      intro hlive
      have hpos := hv.owned x hlive
      rw [owners_mk, hext, Multiset.count_zero, Nat.zero_add] at hpos
      obtain ⟨y, hy, hcount⟩ := Finset.exists_ne_zero_of_sum_ne_zero hpos.ne'
      have hmem : x ∈ out y := Multiset.count_ne_zero.mp hcount
      exact ih y (hsub hy) hmem hy

/-- **The objects that are left** when all references have been dropped. -/
theorem mem_live_iff (hv : Valid out ext st)
    (h : ReflTransGen (Step out ext) st ⟨live, 0⟩) (x : α) :
    x ∈ live ↔ x ∈ st.live ∧ ¬ Dead out ext st.live x := by
  have hf := freed_steps h
  constructor
  · intro hx
    exact ⟨hf.subset hx, fun hd ↦ hd.notMem hf.subset (hv.steps h) hx⟩
  · rintro ⟨hx, hd⟩
    by_contra hne
    exact hd (hf.dead x hx hne)

/-- Several references to an object are dropped, but the last. -/
theorem steps_drop (n : ℕ) :
    ReflTransGen (Step out ext) ⟨live, Multiset.replicate n x + (x ::ₘ pend)⟩
      ⟨live, x ::ₘ pend⟩ := by
  induction n with
  | zero => rw [Multiset.replicate_zero, Multiset.zero_add]
  | succ n ih =>
      refine .head ?_ ih
      rw [Multiset.replicate_succ, Multiset.cons_add]
      refine .drop ?_
      rw [owners_cons, if_pos rfl, owners_mk, Multiset.count_add, Multiset.count_cons_self]
      omega

/-! ## Paths -/

/-- A reference from one object to another. -/
def Edge (out : α → Multiset α) (a b : α) : Prop := b ∈ out a

theorem Valid.mem_of_path (hv : Valid out ext ⟨live, pend⟩) {a b : α} (ha : a ∈ live)
    (h : ReflTransGen (Edge out) a b) : b ∈ live := by
  induction h with
  | refl => exact ha
  | tail _ hedge ih => exact hv.closed _ ih _ hedge

/-- A cycle is not freed. -/
theorem Dead.irrefl (hv : Valid out ext ⟨live, pend⟩) (hd : Dead out ext live x) :
    ¬ TransGen (Edge out) x x := by
  induction hd with
  | @intro x hx _ _ ih =>
      intro hcycle
      obtain ⟨y, hpath, hedge⟩ := TransGen.tail'_iff.mp hcycle
      exact ih y (hv.mem_of_path hx hpath) hedge (TransGen.head' hedge hpath)

/-- What is freed hangs on the reference that is dropped. -/
theorem Dead.path {c : α} (hv : Valid out ext ⟨live, {c}⟩) (hd : Dead out ext live x) :
    ReflTransGen (Edge out) c x := by
  induction hd with
  | @intro x hx hext _ ih =>
      have hpos := hv.owned x hx
      rw [owners_mk, hext, Multiset.count_singleton] at hpos
      by_cases hxc : x = c
      · rw [hxc]
      · rw [if_neg hxc, Nat.zero_add] at hpos
        obtain ⟨y, hy, hcount⟩ := Finset.exists_ne_zero_of_sum_ne_zero hpos.ne'
        have hmem : x ∈ out y := Multiset.count_ne_zero.mp hcount
        exact (ih y hy hmem).tail hmem

/-- What is below `c` has no owner from outside, and is found in one object only. -/
def Sole (out : α → Multiset α) (ext : α → ℕ) (live : Finset α) (c : α) : Prop :=
  ∀ x, TransGen (Edge out) c x →
    ext x = 0 ∧ ∀ y ∈ live, ∀ y' ∈ live, x ∈ out y → x ∈ out y' → y = y'

omit [DecidableEq α] in
theorem Sole.mono {out' : α → Multiset α} {c : α} (h : Sole out ext live c)
    (hle : ∀ y, ∀ x ∈ out' y, x ∈ out y) : Sole out' ext live c := by
  intro x hx
  obtain ⟨hext, hsole⟩ := h x (TransGen.mono (fun a b hab ↦ hle a b hab) _ _ hx)
  exact ⟨hext, fun y hy y' hy' hxy hxy' ↦ hsole y hy y' hy' (hle y x hxy) (hle y' x hxy')⟩

section Sole

variable {c : α} (hv : Valid out ext ⟨live, {c}⟩) (hone : owners out ext ⟨live, {c}⟩ c = 1)
  (hsole : Sole out ext live c)
include hv hone hsole

/-- It is freed with the last reference to `c`. -/
theorem Sole.dead (hx : ReflTransGen (Edge out) c x) : Dead out ext live x := by
  have hc : c ∈ live := hv.pend c (Multiset.mem_singleton_self c)
  induction hx with
  | refl =>
      obtain ⟨hext, -, hout⟩ := @eq_zero_of_owners _ _ out ext live 0 c hone
      exact .intro hc hext fun y hy hcy ↦ absurd hcy (hout y hy)
  | @tail a x hpath hedge ih =>
      obtain ⟨hext, hunique⟩ := hsole x (.tail' hpath hedge)
      have ha : a ∈ live := hv.mem_of_path hc hpath
      refine .intro (hv.closed a ha x hedge) hext fun y hy hxy ↦ ?_
      rwa [hunique y hy a ha hxy hedge]

theorem Sole.irrefl (hx : ReflTransGen (Edge out) c x) : ¬ TransGen (Edge out) x x :=
  Dead.irrefl hv (Sole.dead hv hone hsole hx)

end Sole

end SdbStore.Lib.RefCount
