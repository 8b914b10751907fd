import SdbStore.Ls.Changes
import SdbStore.Lib.Runs

/-!
# All lists of a memory

The lists of a memory share no nodes, so what happens to one of them leaves the others as they are.
Nothing is said here of the lengths that the lists keep: what the functions do to the nodes of the
lists does not depend on them, but for `ls_join`.
-/

namespace SdbStore.Ls

open Lib

variable {α κ : Type}

/-- The lists of a memory, each with its nodes and their elements. -/
abbrev Contents (α : Type) := Nat → Option (List (Nat × α))

/-- An address that `malloc` can return for a node. -/
def Address (a : Nat) : Prop := 0 < a ∧ a < 18446744073709551616 ∧ a % 8 = 0

instance (a : Nat) : Decidable (Address a) := inferInstanceAs (Decidable (_ ∧ _ ∧ _))

/-- The lists of a memory have these nodes and elements. -/
structure Holds (m : Mem α κ) (c : Contents α) : Prop where
  lists : ∀ list, (m.lists list).isSome → (c list).isSome
  listed : ∀ list ns, c list = some ns → Listed m list ns
  apart : ∀ list list' ns ns', list ≠ list' → c list = some ns → c list' = some ns' →
    List.Disjoint (addrs ns) (addrs ns')
  address : ∀ a, (m.iters a).isSome → Address a

theorem Holds.empty : Holds (Mem.empty : Mem α κ) fun _ ↦ none where
  lists _ h := nomatch h
  listed _ _ h := nomatch h
  apart _ _ _ _ _ h := nomatch h
  address _ h := nomatch h

/-- The contents with another list. -/
def Contents.put (c : Contents α) (list : Nat) (ns : List (Nat × α)) : Contents α :=
  Function.update c list (some ns)

theorem Contents.put_self (c : Contents α) (list : Nat) (ns : List (Nat × α)) :
    c.put list ns list = some ns := Function.update_self _ _ _

theorem Contents.put_of_ne (c : Contents α) {list list' : Nat} (ns : List (Nat × α))
    (h : list' ≠ list) : c.put list ns list' = c list' := Function.update_of_ne h _ _

/-- Only the nodes and the lists matter. -/
theorem Holds.congr {m m' : Mem α κ} {c : Contents α} (h : Holds m c) (hiters : m'.iters = m.iters)
    (hlists : m'.lists = m.lists) : Holds m' c := by
  refine ⟨fun list hlist ↦ ?_, fun list ns hc ↦ ?_, h.apart, fun a ha ↦ ?_⟩
  · rw [hlists] at hlist
    exact h.lists list hlist
  · exact (h.listed list ns hc).congr (congrFun hlists list) fun a _ ↦ congrFun hiters a
  · rw [hiters] at ha
    exact h.address a ha

/-- A node is in no other list. -/
def Own (c : Contents α) (list a : Nat) : Prop :=
  ∀ list' ns, list' ≠ list → c list' = some ns → a ∉ addrs ns

section Own

variable {m : Mem α κ} {c : Contents α} {list a : Nat} {ns : List (Nat × α)} (h : Holds m c)
include h

theorem own_of_mem (hc : c list = some ns) (ha : a ∈ addrs ns) : Own c list a :=
  fun list' ns' hne hc' ha' ↦ h.apart list' list ns' ns hne hc' hc ha' ha

theorem own_of_none (ha : m.iters a = none) : Own c list a := by
  intro list' ns' _ hc' ha'
  have hsome := (h.listed list' ns' hc').isSome_iter ha'
  rw [ha] at hsome
  cases hsome

theorem own_zero : Own c list 0 := fun list' ns' _ hc' ↦ (h.listed list' ns' hc').notMem_zero

/-- A list is changed, with nodes that are in no other list, and the other lists keep theirs. -/
theorem Holds.change {m' : Mem α κ} {A : List Nat} (hl : Listed m' list ns) (hf : Frame m m' list A)
    (hA : ∀ a ∈ A, Own c list a) (hns : ∀ a ∈ addrs ns, Own c list a)
    (haddr : ∀ a, (m'.iters a).isSome → (m.iters a).isSome ∨ Address a) :
    Holds m' (c.put list ns) := by
  refine ⟨fun list' hlist' ↦ ?_, fun list' ns' hc' ↦ ?_,
    fun l₁ l₂ ns₁ ns₂ hne hc₁ hc₂ a ha₁ ha₂ ↦ ?_, fun a ha ↦ ?_⟩
  · by_cases hne : list' = list
    · rw [hne, c.put_self]
      rfl
    · rw [c.put_of_ne ns hne]
      rw [hf.lists list' hne] at hlist'
      exact h.lists list' hlist'
  · by_cases hne : list' = list
    · subst hne
      rw [c.put_self] at hc'
      obtain rfl := Option.some.inj hc'
      exact hl
    · rw [c.put_of_ne ns hne] at hc'
      exact (h.listed list' ns' hc').frame hf hne fun a ha haA ↦ hA a haA list' ns' hne hc' ha
  · by_cases h₁ : l₁ = list
    · subst h₁
      rw [c.put_self] at hc₁
      rw [c.put_of_ne ns hne.symm] at hc₂
      obtain rfl := Option.some.inj hc₁
      exact hns a ha₁ l₂ ns₂ hne.symm hc₂ ha₂
    · rw [c.put_of_ne ns h₁] at hc₁
      by_cases h₂ : l₂ = list
      · subst h₂
        rw [c.put_self] at hc₂
        obtain rfl := Option.some.inj hc₂
        exact hns a ha₂ l₁ ns₁ h₁ hc₁ ha₁
      · rw [c.put_of_ne ns h₂] at hc₂
        exact h.apart l₁ l₂ ns₁ ns₂ hne hc₁ hc₂ ha₁ ha₂
  · exact (haddr a ha).elim (h.address a) id

end Own

/-- The length that a list keeps. -/
def lengthOf (m : Mem α κ) (list : Nat) : Option Nat := (m.lists list).map SdbList.length

/-- What a function does to one list: it has these nodes and elements now, and its length is right
if it was right before. -/
structure Effect (m m' : Mem α κ) (c : Contents α) (list : Nat) (ns : List (Nat × α)) : Prop where
  holds : Holds m' (c.put list ns)
  length : ∀ old, c list = some old → lengthOf m list = some old.length →
    lengthOf m' list = some ns.length
  others : ∀ list', list' ≠ list → m'.lists list' = m.lists list'

/-- Different addresses of nodes are not too many for a length. -/
theorem length_lt_of_address {l : List Nat} (hnodup : l.Nodup) (h : ∀ a ∈ l, Address a) :
    l.length < 2305843009213693952 := by
  have hinj : (l.map (· / 8)).Nodup := by
    refine (List.nodup_map_iff_inj_on hnodup).mpr fun a ha b hb hab ↦ ?_
    have ha8 := (h a ha).2.2
    have hb8 := (h b hb).2.2
    omega
  have hsub : l.map (· / 8) ⊆ List.range' 1 2305843009213693951 := by
    intro b hb
    obtain ⟨a, ha, rfl⟩ := List.mem_map.mp hb
    have haddr := h a ha
    rw [Address] at haddr
    rw [List.mem_range'_1]
    omega
  have hle := (List.subperm_of_subset hinj hsub).length_le
  rw [List.length_map, List.length_range'] at hle
  omega

theorem Holds.length_lt {m : Mem α κ} {c : Contents α} {list : Nat} {ns : List (Nat × α)}
    (h : Holds m c) (hc : c list = some ns) : ns.length < 2305843009213693952 := by
  have hl := h.listed list ns hc
  have hlt := length_lt_of_address (List.nodup_cons.mp hl.nodup).2 fun a ha ↦
    h.address a (hl.isSome_iter ha)
  rwa [List.length_map] at hlt

/-- `malloc` returns `NULL` or a new address. -/
def Mallocs (m : Mem α κ) (it : Nat) : Prop := it = 0 ∨ Address it ∧ m.iters it = none

section Lengths

variable {m : Mem α κ} {list p n it : Nat}

theorem lengthOf_modList {f : SdbList κ → SdbList κ} (g : Nat → Nat)
    (hf : ∀ l, (f l).length = g l.length) :
    lengthOf (m.modList list f) list = (lengthOf m list).map g := by
  rw [lengthOf, lengthOf, lists_modList_self, Option.map_map, Option.map_map]
  exact congrFun (congrArg Option.map (funext hf)) _

theorem lengthOf_setNext (a b : Nat) : lengthOf (m.setNext list a b) list = lengthOf m list := by
  rw [Mem.setNext]
  split
  · refine (lengthOf_modList id ?_).trans (congrFun Option.map_id_fun _)
    exact fun _ ↦ rfl
  · rfl

theorem lengthOf_setPrev (a b : Nat) : lengthOf (m.setPrev list a b) list = lengthOf m list := by
  rw [Mem.setPrev]
  split
  · refine (lengthOf_modList id ?_).trans (congrFun Option.map_id_fun _)
    exact fun _ ↦ rfl
  · rfl

theorem lengthOf_unlink : lengthOf (m.unlink list p n) list = (lengthOf m list).map lengthDec := by
  refine (lengthOf_modList lengthDec ?_).trans ?_
  · exact fun _ ↦ rfl
  · rw [lengthOf_setPrev, lengthOf_setNext]

theorem lengthOf_insert {x : α} :
    lengthOf (m.insert list it x p n) list = (lengthOf m list).map lengthInc := by
  refine (lengthOf_modList lengthInc ?_).trans ?_
  · exact fun _ ↦ rfl
  · rw [lengthOf_setPrev, lengthOf_setNext]
    rfl

theorem lengthDec_succ {n : Nat} (h : n < 2305843009213693952) : lengthDec (n + 1) = n := by
  rw [lengthDec, sizeT]
  omega

theorem lengthInc_eq {n : Nat} (h : n < 2305843009213693952) : lengthInc n = n + 1 := by
  rw [lengthInc, sizeT]
  omega

end Lengths

section Frames

variable {m : Mem α κ} {list p n it y : Nat} {x : α}

theorem frame_unlink : Frame m (m.unlink list p n) list [p, n] :=
  ((Frame.setNext (.inr (by simp))).trans (Frame.setPrev (.inr (by simp)))).trans (Frame.modList _)

theorem frame_insert : Frame m (m.insert list it x p n) list [it, p, n] :=
  (((Frame.newIter (by simp) _).trans (Frame.setNext (.inr (by simp)))).trans
    (Frame.setPrev (.inr (by simp)))).trans (Frame.modList _)

end Frames

section Alloc

variable {m : Mem α κ} {list a b it y p n : Nat} {x : α}

@[simp] theorem isSome_iters_setNext (c : Nat) :
    ((m.setNext list a b).iters c).isSome = (m.iters c).isSome := by
  rw [Mem.setNext]
  split
  · rfl
  · exact isSome_iters_modIter _

@[simp] theorem isSome_iters_setPrev (c : Nat) :
    ((m.setPrev list a b).iters c).isSome = (m.iters c).isSome := by
  rw [Mem.setPrev]
  split
  · rfl
  · exact isSome_iters_modIter _

theorem isSome_iters_unlink (c : Nat) :
    ((m.unlink list p n).iters c).isSome = (m.iters c).isSome := by
  rw [Mem.unlink, Mem.shorten, iters_modList, isSome_iters_setPrev, isSome_iters_setNext]

theorem isSome_iters_insert {c : Nat} (h : ((m.insert list it x p n).iters c).isSome) :
    c = it ∨ (m.iters c).isSome := by
  rw [Mem.insert, Mem.lengthen, iters_modList, isSome_iters_setPrev, isSome_iters_setNext] at h
  by_cases hc : c = it
  · exact .inl hc
  · rw [iters_newIter_of_ne _ hc] at h
    exact .inr h

theorem isSome_iters_dropIter {c : Nat} (h : ((m.dropIter y).iters c).isSome) :
    (m.iters c).isSome := by
  by_cases hc : c = y
  · subst hc
    rw [iters_dropIter_self] at h
    cases h
  · rw [iters_dropIter_of_ne hc] at h
    exact h

end Alloc

/-! ## One node -/

section Node

variable {m : Mem α κ} {c : Contents α} {list y it : Nat} {x : α} {ns l₁ l₂ : List (Nat × α)}
  (h : Holds m c)
include h

theorem own_last (hc : c list = some (l₁ ++ l₂)) : Own c list (lastOf 0 (addrs l₁)) := by
  rcases List.mem_cons.mp (lastOf_mem 0 (addrs l₁)) with h0 | hmem
  · rw [h0]
    exact own_zero h
  · refine own_of_mem h hc ?_
    rw [addrs_append]
    exact List.mem_append_left _ hmem

theorem own_head (hc : c list = some (l₁ ++ l₂)) : Own c list ((addrs l₂).headD 0) := by
  cases l₂ with
  | nil => exact own_zero h
  | cons b l₂ => exact own_of_mem h hc (mem_addrs (List.mem_append_right l₁ List.mem_cons_self))

/-- A node is taken out of a list. -/
theorem effect_unlink (hc : c list = some (l₁ ++ (y, x) :: l₂)) :
    Effect m (m.unlink list (lastOf 0 (addrs l₁)) ((addrs l₂).headD 0)) c list (l₁ ++ l₂) := by
  have hc' : c list = some ((l₁ ++ [(y, x)]) ++ l₂) := by
    rw [List.append_assoc]
    exact hc
  refine ⟨h.change (h.listed list _ hc).unlink frame_unlink (fun a ha ↦ ?_) (fun a ha ↦ ?_)
    fun a ha ↦ ?_, fun old hold hlen ↦ ?_, (frame_unlink (m := m)).lists⟩
  · rcases List.mem_cons.mp ha with rfl | ha
    · exact own_last h hc
    · obtain rfl := List.mem_singleton.mp ha
      exact own_head h hc'
  · refine own_of_mem h hc ?_
    rw [addrs_append] at ha ⊢
    rcases List.mem_append.mp ha with ha | ha
    · exact List.mem_append_left _ ha
    · exact List.mem_append_right _ (List.mem_cons_of_mem _ ha)
  · rw [isSome_iters_unlink] at ha
    exact .inl ha
  · obtain rfl := Option.some.inj (hc.symm.trans hold)
    have hlt := h.length_lt hc
    rw [List.length_append, List.length_cons] at hlt hlen
    rw [lengthOf_unlink, hlen, Option.map_some, List.length_append, ← Nat.add_assoc,
      lengthDec_succ (by omega)]

/-- A new node is put into a list. -/
theorem effect_insert (hc : c list = some (l₁ ++ l₂)) (haddr : Address it)
    (hit : m.iters it = none) :
    Effect m (m.insert list it x (lastOf 0 (addrs l₁)) ((addrs l₂).headD 0)) c list
      (l₁ ++ (it, x) :: l₂) := by
  have hl := h.listed list _ hc
  have hnew : it ∉ addrs (l₁ ++ l₂) := fun hmem ↦ by
    have hsome := hl.isSome_iter hmem
    rw [hit] at hsome
    cases hsome
  refine ⟨h.change (hl.insert (Nat.ne_of_gt haddr.1) hnew) frame_insert (fun a ha ↦ ?_)
    (fun a ha ↦ ?_)
    fun a ha ↦ ?_, fun old hold hlen ↦ ?_, (frame_insert (m := m)).lists⟩
  · rcases List.mem_cons.mp ha with rfl | ha
    · exact own_of_none h hit
    · rcases List.mem_cons.mp ha with rfl | ha
      · exact own_last h hc
      · obtain rfl := List.mem_singleton.mp ha
        exact own_head h hc
  · rw [addrs_append, addrs_cons] at ha
    rcases List.mem_append.mp ha with ha | ha
    · refine own_of_mem h hc ?_
      rw [addrs_append]
      exact List.mem_append_left _ ha
    · rcases List.mem_cons.mp ha with rfl | ha
      · exact own_of_none h hit
      · refine own_of_mem h hc ?_
        rw [addrs_append]
        exact List.mem_append_right _ ha
  · rcases isSome_iters_insert ha with rfl | ha
    · exact .inr haddr
    · exact .inl ha
  · obtain rfl := Option.some.inj (hc.symm.trans hold)
    rw [lengthOf_insert, hlen, Option.map_some, lengthInc_eq (h.length_lt hc), List.length_append,
      List.length_append, List.length_cons, Nat.add_assoc]

end Node

/-- A node that is in no list is freed. -/
theorem Effect.dropIter {m m' : Mem α κ} {c : Contents α} {list y : Nat} {ns : List (Nat × α)}
    (h : Effect m m' c list ns) (hown : Own c list y) (hy : y ∉ addrs ns) :
    Effect m (m'.dropIter y) c list ns := by
  have hno : ∀ list' ns', c.put list ns list' = some ns' → y ∉ addrs ns' := by
    intro list' ns' hc'
    by_cases hne : list' = list
    · rw [hne, c.put_self] at hc'
      obtain rfl := Option.some.inj hc'
      exact hy
    · rw [c.put_of_ne ns hne] at hc'
      exact hown list' ns' hne hc'
  refine ⟨⟨h.holds.lists, fun list' ns' hc' ↦ ?_, h.holds.apart, fun a ha ↦ ?_⟩, h.length, h.others⟩
  · refine (h.holds.listed list' ns' hc').congr rfl fun a ha ↦ iters_dropIter_of_ne ?_
    rintro rfl
    exact hno list' ns' hc' ha
  · exact h.holds.address a (isSome_iters_dropIter ha)

end SdbStore.Ls
