import SdbStore.Alloc.Joints

/-!
# The list of the free blocks

A node of the list is the beginning of the payload of a block: the pointer to the node behind it,
and behind that the pointer to the node in front of it.  The list begins behind `NULL`.

`Shaped` is what holds between any two steps of a call: the memory consists of blocks, and each
block is in the list or is one whose payload has to stay as it is.
-/

namespace SdbStore.Alloc

open Lib

/-- The pointer that a word holds. -/
def ptrOf : Option Word → Option Nat
  | some (.ptr p) => some p
  | _ => none

/-- The node behind a node. -/
def nextOf (m : Mem) (start x : Nat) : Option Nat := if x = 0 then some start else ptrOf (m x)

/-- The node in front of a node. -/
def prevOf (m : Mem) (x : Nat) : Option Nat := ptrOf (m (x + 8))

/-- The nodes of some blocks make up a list that begins with `start`. -/
structure Listed (m : Mem) (start : Nat) (fl : List Nat) : Prop where
  links : Linked (nextOf m start) (prevOf m) 0 0 (fl.map addOffset)
  nodup : fl.Nodup

@[simp] theorem nextOf_zero (m : Mem) (start : Nat) : nextOf m start 0 = some start := rfl

@[simp] theorem nextOf_addOffset (m : Mem) (start a : Nat) :
    nextOf m start (addOffset a) = ptrOf (m (a + 8)) := rfl

@[simp] theorem prevOf_addOffset (m : Mem) (a : Nat) :
    prevOf m (addOffset a) = ptrOf (m (a + 16)) := rfl

theorem SdbHeap.ptr_eq {h : SdbHeap} {x : Nat} (hx : x % 8 = 0) : h.ptr x = ptrOf (h.mem x) := by
  rw [SdbHeap.ptr, SdbHeap.load, if_pos hx]
  rfl

theorem addOffset_ne_zero (a : Nat) : addOffset a ≠ 0 := Nat.succ_ne_zero _

@[simp] theorem removeOffset_addOffset (a : Nat) : removeOffset (addOffset a) = a :=
  Nat.add_sub_cancel a 8

theorem addOffset_injective : Function.Injective addOffset := fun _ _ h ↦ Nat.add_right_cancel h

/-- The memory after a node has been put in front of the list. -/
def Mem.push (m : Mem) (y start : Nat) : Mem :=
  let m := (m.set y (.ptr start)).set (y + 8) (.ptr 0)
  if start = 0 then m else m.set (start + 8) (.ptr y)

/-- The memory after two nodes, or `NULL`, have been made neighbours. -/
def Mem.link (m : Mem) (prev next : Nat) : Mem :=
  let m := if prev = 0 then m else m.set prev (.ptr next)
  if next = 0 then m else m.set (next + 8) (.ptr prev)

namespace Mem

variable {m : Mem} {start x y prev next : Nat}

theorem push_next (h : start = 0 ∨ start + 8 ≠ y) : m.push y start y = some (.ptr start) := by
  have hset : (m.set y (.ptr start)).set (y + 8) (.ptr 0) y = some (.ptr start) := by
    rw [Mem.set_of_ne _ _ (by omega), Mem.set_self]
  rw [Mem.push]
  split
  · exact hset
  · rw [Mem.set_of_ne _ _ (by omega), hset]

theorem push_prev (h : start ≠ y) : m.push y start (y + 8) = some (.ptr 0) := by
  rw [Mem.push]
  split
  · exact Mem.set_self _ _ _
  · rw [Mem.set_of_ne _ _ (by omega), Mem.set_self]

theorem push_head (h : start ≠ 0) : m.push y start (start + 8) = some (.ptr y) := by
  rw [Mem.push, if_neg h, Mem.set_self]

theorem push_of_ne (hx : x ≠ y) (hx' : x ≠ y + 8) (h : start = 0 ∨ x ≠ start + 8) :
    m.push y start x = m x := by
  have hset : (m.set y (.ptr start)).set (y + 8) (.ptr 0) x = m x := by
    rw [Mem.set_of_ne _ _ hx', Mem.set_of_ne _ _ hx]
  rw [Mem.push]
  split
  · exact hset
  · rw [Mem.set_of_ne _ _ (by omega), hset]

theorem link_prev (hp : prev ≠ 0) (h : next = 0 ∨ prev ≠ next + 8) :
    m.link prev next prev = some (.ptr next) := by
  rw [Mem.link, if_neg hp]
  split
  · exact Mem.set_self _ _ _
  · rw [Mem.set_of_ne _ _ (by omega), Mem.set_self]

theorem link_next (hn : next ≠ 0) : m.link prev next (next + 8) = some (.ptr prev) := by
  rw [Mem.link, if_neg hn, Mem.set_self]

theorem link_of_ne (h : prev = 0 ∨ x ≠ prev) (h' : next = 0 ∨ x ≠ next + 8) :
    m.link prev next x = m x := by
  have hset : (if prev = 0 then m else m.set prev (.ptr next)) x = m x := by
    split
    · rfl
    · exact Mem.set_of_ne _ _ (by omega)
  rw [Mem.link]
  split
  · exact hset
  · rw [Mem.set_of_ne _ _ (by omega), hset]

end Mem

namespace Listed

variable {m m' : Mem} {start a : Nat} {fl l₁ l₂ : List Nat}

theorem zero_notMem (fl : List Nat) : 0 ∉ fl.map addOffset := by
  rw [List.mem_map]
  rintro ⟨c, -, hc⟩
  cases hc

theorem nodup_nodes (h : fl.Nodup) : (0 :: fl.map addOffset).Nodup :=
  List.nodup_cons.mpr ⟨zero_notMem fl, h.map addOffset_injective⟩

/-- Only the links matter. -/
theorem congr (h : Listed m start fl)
    (hsame : ∀ c ∈ fl, m' (c + 8) = m (c + 8) ∧ m' (c + 16) = m (c + 16)) : Listed m' start fl := by
  refine ⟨h.links.congr ?_ ?_, h.nodup⟩
  · intro y hy
    rcases List.mem_cons.mp hy with rfl | hy
    · rfl
    · obtain ⟨c, hc, rfl⟩ := List.mem_map.mp hy
      rw [nextOf_addOffset, nextOf_addOffset, (hsame c hc).1]
  · intro y hy
    obtain ⟨c, hc, rfl⟩ := List.mem_map.mp hy
    rw [prevOf_addOffset, prevOf_addOffset, (hsame c hc).2]

/-- The first node. -/
theorem start_eq (h : Listed m start fl) : start = (fl.map addOffset).headD 0 :=
  Option.some.inj h.links.head

theorem start_cases (h : Listed m start fl) : start = 0 ∨ ∃ c ∈ fl, start = c + 8 := by
  rw [h.start_eq]
  cases fl with
  | nil => exact .inl rfl
  | cons c fl => exact .inr ⟨c, List.mem_cons_self, rfl⟩

theorem start_notMem_tail (h : Listed m start fl) : start ∉ (fl.map addOffset).tail := by
  rw [h.start_eq]
  cases fl with
  | nil => exact List.not_mem_nil
  | cons c fl => exact (List.nodup_cons.mp (h.nodup.map addOffset_injective)).1

/-- A block is put in front of the list. -/
theorem push (h : Listed m start fl) (ha : a ∉ fl) (hapart : ∀ c ∈ fl, c + 32 ≤ a ∨ a + 32 ≤ c)
    (hfl : ∀ c ∈ fl, ∀ d ∈ fl, c ≠ d → c + 32 ≤ d ∨ d + 32 ≤ c) :
    Listed (m.push (addOffset a) start) (addOffset a) (a :: fl) := by
  have hstart : start = 0 ∨ ∃ c ∈ fl, start = c + 8 ∧ (c + 32 ≤ a ∨ a + 32 ≤ c) := by
    rcases h.start_cases with h0 | ⟨c, hc, hs⟩
    · exact .inl h0
    · exact .inr ⟨c, hc, hs, hapart c hc⟩
  have hnext : m.push (a + 8) start (a + 8) = some (.ptr start) := Mem.push_next (by omega)
  have hprev : m.push (a + 8) start (a + 16) = some (.ptr 0) := Mem.push_prev (by omega)
  have hother : ∀ d ∈ fl, ∀ x, x = d + 8 ∨ x = d + 16 ∧ start ≠ d + 8 →
      m.push (a + 8) start x = m x := by
    intro d hd x hx
    have had := hapart d hd
    refine Mem.push_of_ne (by omega) (by omega) ?_
    rcases h.start_cases with h0 | ⟨c, hc, hs⟩
    · exact .inl h0
    · have hcd := hfl c hc d hd
      omega
  refine ⟨h.links.push rfl (congrArg ptrOf hprev) ?_ (fun w hw ↦ ?_) (fun w hw ↦ ?_) fun w hw ↦ ?_,
    List.nodup_cons.mpr ⟨ha, h.nodup⟩⟩
  · rw [← h.start_eq]
    exact congrArg ptrOf hnext
  · have hs : start = w := by rw [h.start_eq, List.headD_eq_head?_getD, hw, Option.getD_some]
    subst hs
    have hne : start ≠ 0 := by
      rintro rfl
      exact zero_notMem fl (List.mem_of_mem_head? hw)
    exact congrArg ptrOf (Mem.push_head hne)
  · obtain ⟨c, hc, rfl⟩ := List.mem_map.mp hw
    rw [nextOf_addOffset, nextOf_addOffset]
    exact congrArg ptrOf (hother c hc _ (.inl rfl))
  · obtain ⟨c, hc, rfl⟩ := List.mem_map.mp (List.mem_of_mem_tail hw)
    rw [prevOf_addOffset, prevOf_addOffset]
    refine congrArg ptrOf (hother c hc _ (.inr ⟨rfl, fun hs ↦ ?_⟩))
    exact h.start_notMem_tail (hs ▸ hw)

/-- The nodes next to a block in the list are `NULL` or those of other blocks. -/
theorem neighbours (h : (l₁ ++ a :: l₂).Nodup) :
    (lastOf 0 (l₁.map addOffset) = 0 ∨ ∃ c ∈ l₁, lastOf 0 (l₁.map addOffset) = c + 8) ∧
      ((l₂.map addOffset).headD 0 = 0 ∨ ∃ c ∈ l₂, (l₂.map addOffset).headD 0 = c + 8) := by
  constructor
  · rcases List.mem_cons.mp (lastOf_mem 0 (l₁.map addOffset)) with h0 | hmem
    · exact .inl h0
    · obtain ⟨c, hc, hs⟩ := List.mem_map.mp hmem
      exact .inr ⟨c, hc, hs.symm⟩
  · cases l₂ with
    | nil => exact .inl rfl
    | cons c l₂ => exact .inr ⟨c, List.mem_cons_self, rfl⟩

/-- A block is taken out of the list. -/
theorem remove (h : Listed m start (l₁ ++ a :: l₂))
    (hapart : ∀ c ∈ l₁ ++ a :: l₂, ∀ d ∈ l₁ ++ a :: l₂, c ≠ d → c + 32 ≤ d ∨ d + 32 ≤ c) {p n : Nat}
    (hp : p = lastOf 0 (l₁.map addOffset)) (hn : n = (l₂.map addOffset).headD 0) :
    Listed (m.link p n) (if p = 0 then n else start) (l₁ ++ l₂) := by
  have hlinks := h.links
  rw [List.map_append, List.map_cons] at hlinks
  have hsub : (l₁ ++ l₂).Sublist (l₁ ++ a :: l₂) :=
    List.Sublist.append_left (List.sublist_cons_self a l₂) l₁
  have hnodup := h.nodup.sublist hsub
  have hnodes := nodup_nodes hnodup
  rw [List.map_append] at hnodes
  obtain ⟨hp', hn'⟩ := neighbours h.nodup
  rw [← hp] at hp'
  rw [← hn] at hn'
  have hmem : ∀ {c}, c ∈ l₁ ++ l₂ → c ∈ l₁ ++ a :: l₂ := fun hc ↦ hsub.mem hc
  have hl₁ : ∀ {c}, c ∈ l₁ → c ∈ l₁ ++ a :: l₂ := fun hc ↦ hmem (List.mem_append_left l₂ hc)
  have hl₂ : ∀ {c}, c ∈ l₂ → c ∈ l₁ ++ a :: l₂ := fun hc ↦ hmem (List.mem_append_right l₁ hc)
  -- the two links that are written are not links of other nodes
  have hprev : ∀ c ∈ l₁ ++ l₂, p = 0 ∨ c + 16 ≠ p := by
    intro c hc
    rcases hp' with h0 | ⟨d, hd, hs⟩
    · exact .inl h0
    · have hcd := hapart c (hmem hc) d (hl₁ hd)
      omega
  have hnext : ∀ c ∈ l₁ ++ l₂, n = 0 ∨ c + 8 ≠ n + 8 := by
    intro c hc
    rcases hn' with h0 | ⟨d, hd, hs⟩
    · exact .inl h0
    · have hcd := hapart c (hmem hc) d (hl₂ hd)
      omega
  refine ⟨?_, hnodup⟩
  rw [List.map_append]
  refine hlinks.remove ?_ (fun w hw ↦ ?_) (fun w hw hwp ↦ ?_) (fun w hw hwn ↦ ?_) hnodes
  · rw [← hp, ← hn, nextOf]
    split
    · rfl
    · next h0 =>
        obtain ⟨c, hc, hs⟩ := hp'.resolve_left h0
        have hlink : n = 0 ∨ p ≠ n + 8 := by
          have hcn := hnext c (List.mem_append_left l₂ hc)
          omega
        rw [Mem.link_prev h0 hlink]
        rfl
  · have hnw : n = w := by rw [hn, List.headD_eq_head?_getD, hw, Option.getD_some]
    subst hnw
    have h0 : n ≠ 0 := by
      rintro rfl
      exact zero_notMem l₂ (List.mem_of_mem_head? hw)
    rw [prevOf, Mem.link_next h0, hp]
    rfl
  · rw [← hp] at hwp
    rcases List.mem_cons.mp hw with rfl | hw
    · rw [nextOf_zero, nextOf_zero, if_neg (Ne.symm hwp)]
    · have hw : w ∈ (l₁ ++ l₂).map addOffset := List.map_append ▸ hw
      obtain ⟨c, hc, rfl⟩ := List.mem_map.mp hw
      rw [nextOf_addOffset, nextOf_addOffset, Mem.link_of_ne (x := c + 8) (.inr hwp) (hnext c hc)]
  · rw [← List.map_append] at hw
    obtain ⟨c, hc, rfl⟩ := List.mem_map.mp hw
    have hcn : n = 0 ∨ c + 16 ≠ n + 8 := by
      by_contra hno
      have hn0 : n = addOffset c := by
        show n = c + 8
        omega
      refine hwn ?_
      rw [← hn0, hn]
      cases l₂ with
      | nil => exact absurd (hn.symm ▸ rfl) (not_or.mp hno).1
      | cons d l₂ => rfl
    rw [prevOf_addOffset, prevOf_addOffset, Mem.link_of_ne (hprev c hc) hcn]

end Listed

/-! ## What the functions leave behind -/

/-- What `append_to_free_list` leaves behind. -/
theorem appendToFreeList_eq {h h₁ : SdbHeap} {a : Nat} (hfree : setFree h a true = some h₁)
    (h8 : a % 8 = 0) (hnext : (h₁.mem (a + 8)).isSome) (hprev : (h₁.mem (a + 8 + 8)).isSome)
    (hstart : h₁.freeListStart ≠ 0 → h₁.freeListStart % 8 = 0 ∧
      (h₁.mem (h₁.freeListStart + 8)).isSome) :
    appendToFreeList h a = some { h₁ with
      mem := h₁.mem.push (addOffset a) h₁.freeListStart, freeListStart := addOffset a } := by
  have h8' : (a + 8) % 8 = 0 := by omega
  have h8'' : (a + 8 + 8) % 8 = 0 := by omega
  have hne : a + 8 ≠ a + 8 + 8 := by omega
  by_cases hs : h₁.freeListStart = 0
  · simp only [appendToFreeList, hfree, Option.bind_eq_bind, Option.bind_some, SdbHeap.store,
      addOffset, headerSize, h8', h8'', hs, hnext, hprev, Mem.isSome_set, or_true, ne_eq,
      not_true_eq_false, and_self, if_true, if_false, Mem.push]
    rw [Mem.set_set, Mem.set_comm _ hne.symm, Mem.set_set]
  · obtain ⟨hs8, hsm⟩ := hstart hs
    have hs8' : (h₁.freeListStart + 8) % 8 = 0 := by omega
    simp only [appendToFreeList, hfree, Option.bind_eq_bind, Option.bind_some, SdbHeap.store,
      addOffset, headerSize, h8', h8'', hs8', hs, hnext, hprev, hsm, Mem.isSome_set, or_true, ne_eq,
      not_false_eq_true, and_self, if_true, if_false, Mem.push]
    rw [Mem.set_comm _ hne.symm, Mem.set_set, Mem.set_set]

/-- What `remove_from_free_list` leaves behind. -/
theorem removeFromFreeList_eq {h h₁ : SdbHeap} {a prev next : Nat}
    (hfree : setFree h a false = some h₁) (h8 : a % 8 = 0)
    (hnext : ptrOf (h₁.mem (a + 8)) = some next) (hprev : ptrOf (h₁.mem (a + 16)) = some prev)
    (hp : prev ≠ 0 → prev % 8 = 0 ∧ (h₁.mem prev).isSome)
    (hn : next ≠ 0 → next % 8 = 0 ∧ (h₁.mem (next + 8)).isSome) :
    removeFromFreeList h a = some { h₁ with
      mem := h₁.mem.link prev next
      freeListStart := if prev = 0 then next else h₁.freeListStart } := by
  have hnext' : h₁.ptr (a + 8) = some next := by rw [SdbHeap.ptr_eq (by omega), hnext]
  have hprev' : h₁.ptr (a + 8 + 8) = some prev := by rw [SdbHeap.ptr_eq (by omega), ← hprev]
  by_cases hp0 : prev = 0
  · by_cases hn0 : next = 0
    · simp only [removeFromFreeList, hfree, Option.bind_eq_bind, Option.bind_some, addOffset,
        headerSize, hnext', hprev', hp0, hn0, if_true, Mem.link]
    · obtain ⟨hn8, hnm⟩ := hn hn0
      have hn8' : (next + 8) % 8 = 0 := by omega
      simp only [removeFromFreeList, hfree, Option.bind_eq_bind, Option.bind_some, addOffset,
        headerSize, hnext', hprev', hp0, hn0, if_true, if_false, Mem.link, SdbHeap.store, hn8', hnm,
        and_self]
  · obtain ⟨hp8, hpm⟩ := hp hp0
    by_cases hn0 : next = 0
    · simp only [removeFromFreeList, hfree, Option.bind_eq_bind, Option.bind_some, addOffset,
        headerSize, hnext', hprev', hp0, hn0, if_true, if_false, Mem.link, SdbHeap.store, hp8, hpm,
        and_self]
    · obtain ⟨hn8, hnm⟩ := hn hn0
      have hn8' : (next + 8) % 8 = 0 := by omega
      simp only [removeFromFreeList, hfree, Option.bind_eq_bind, Option.bind_some, addOffset,
        headerSize, hnext', hprev', hp0, hn0, if_true, if_false, Mem.link, SdbHeap.store, hp8, hpm,
        hn8', hnm, Mem.isSome_set, or_true, and_self]

end SdbStore.Alloc
