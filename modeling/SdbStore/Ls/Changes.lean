import SdbStore.Ls.Shape

/-!
# What the functions do to a list

Whether a node is the first, the last, the only or another one, `ls_split_iter`, `ls_pop`,
`ls_pop_head` and `ls_del_n` all do what `Mem.unlink` says; and `ls_append`, `ls_prepend` and
`ls_insert` do what `Mem.insert` says.
-/

namespace SdbStore.Ls

open Lib

variable {α κ : Type}

section Written

variable {m : Mem α κ} {list a b : Nat}

@[simp] theorem isSome_iters_modIter (f : SdbListIter α → SdbListIter α) :
    ((m.modIter a f).iters b).isSome = (m.iters b).isSome := by
  by_cases h : b = a
  · subst h
    rw [iters_modIter_self, Option.isSome_map]
  · rw [iters_modIter_of_ne f h]

@[simp] theorem isSome_lists_modList (f : SdbList κ → SdbList κ) :
    ((m.modList a f).lists b).isSome = (m.lists b).isSome := by
  by_cases h : b = a
  · subst h
    rw [lists_modList_self, Option.isSome_map]
  · rw [lists_modList_of_ne f h]

theorem isSome_iters_newIter (i : SdbListIter α) (h : (m.iters b).isSome) :
    ((m.newIter a i).iters b).isSome := by
  by_cases hb : b = a
  · subst hb
    rw [iters_newIter_self]
    rfl
  · rw [iters_newIter_of_ne i hb]
    exact h

@[simp] theorem lists_newIter (i : SdbListIter α) : (m.newIter a i).lists = m.lists := rfl

@[simp] theorem lists_dropIter : (m.dropIter a).lists = m.lists := rfl

theorem setIter_of_isSome (ha : a ≠ 0) (h : (m.iters a).isSome)
    (f : SdbListIter α → SdbListIter α) :
    m.setIter a f = some (m.modIter a f) := by
  rw [Mem.setIter, iter_eq ha, if_pos h]

theorem setList_of_isSome (ha : list ≠ 0) (h : (m.lists list).isSome) (f : SdbList κ → SdbList κ) :
    m.setList list f = some (m.modList list f) := by
  rw [Mem.setList, list_eq ha, if_pos h]

theorem freeIter_of_isSome (ha : a ≠ 0) (h : (m.iters a).isSome) :
    m.freeIter a = some (m.dropIter a) := by
  rw [Mem.freeIter, iter_eq ha, if_pos h]

end Written

/-- A node of a list, with the node or `NULL` in front of it and the one behind it. -/
structure Node (m : Mem α κ) (list y : Nat) (x : α) (p n : Nat) : Prop where
  list_ne : list ≠ 0
  ne : y ≠ 0
  iter : m.iters y = some ⟨some x, n, p⟩
  record : ∃ l, m.lists list = some l ∧ (l.head = y ↔ p = 0) ∧ (l.tail = y ↔ n = 0)
  prev : p ≠ 0 → (m.iters p).isSome
  next : n ≠ 0 → (m.iters n).isSome

/-- A place in a list where a node can be put, between two nodes or `NULL`. -/
structure Gap (m : Mem α κ) (list p n : Nat) : Prop where
  list_ne : list ≠ 0
  record : ∃ l, m.lists list = some l ∧ (p = 0 → l.head = n) ∧ (n = 0 → l.tail = p) ∧
    (p = 0 → (l.tail = 0 ↔ n = 0)) ∧ (n = 0 → (l.head = 0 ↔ p = 0))
  prev : p ≠ 0 → (m.iters p).isSome
  next : n ≠ 0 → (m.iters n).isSome

namespace Listed

variable {m : Mem α κ} {list y : Nat} {x : α} {ns l₁ l₂ : List (Nat × α)}

theorem last_eq_zero (h : Listed m list (l₁ ++ l₂)) : lastOf 0 (addrs l₁) = 0 ↔ l₁ = [] := by
  cases l₁ with
  | nil => exact iff_of_true rfl rfl
  | cons b l₁ =>
      refine iff_of_false (fun h0 ↦ ?_) (List.cons_ne_nil b l₁)
      rw [addrs_cons, lastOf_cons] at h0
      have hmem := lastOf_mem b.1 (addrs l₁)
      rw [h0, ← addrs_cons] at hmem
      refine h.notMem_zero ?_
      rw [addrs_append]
      exact List.mem_append_left _ hmem

theorem head_eq_zero (h : Listed m list (l₁ ++ l₂)) : (addrs l₂).headD 0 = 0 ↔ l₂ = [] := by
  cases l₂ with
  | nil => exact iff_of_true rfl rfl
  | cons b l₂ =>
      refine iff_of_false (fun h0 ↦ ?_) (List.cons_ne_nil b l₂)
      have hmem : b.1 ∈ addrs (l₁ ++ b :: l₂) :=
        mem_addrs (List.mem_append_right l₁ List.mem_cons_self)
      exact h.notMem_zero ((show b.1 = 0 from h0) ▸ hmem)

theorem isSome_last (h : Listed m list (l₁ ++ l₂)) (h0 : lastOf 0 (addrs l₁) ≠ 0) :
    (m.iters (lastOf 0 (addrs l₁))).isSome := by
  refine h.isSome_iter ?_
  rw [addrs_append]
  exact List.mem_append_left _ ((List.mem_cons.mp (lastOf_mem 0 (addrs l₁))).resolve_left h0)

theorem isSome_head (h : Listed m list (l₁ ++ l₂)) (h0 : (addrs l₂).headD 0 ≠ 0) :
    (m.iters ((addrs l₂).headD 0)).isSome := by
  cases l₂ with
  | nil => exact absurd rfl h0
  | cons b l₂ => exact h.isSome_iter (mem_addrs (List.mem_append_right l₁ List.mem_cons_self))

/-- What the parts of a list say about a node. -/
theorem node (h : Listed m list (l₁ ++ (y, x) :: l₂)) :
    Node m list y x (lastOf 0 (addrs l₁)) ((addrs l₂).headD 0) := by
  have h' : Listed m list ((l₁ ++ [(y, x)]) ++ l₂) := by
    rw [List.append_assoc]
    exact h
  obtain ⟨l, hl, hhead, htail⟩ := h.exists_list
  have hy : y ≠ 0 := by
    rintro rfl
    exact h.notMem_zero (mem_addrs (List.mem_append_right l₁ List.mem_cons_self))
  have hnodup := h.nodup
  rw [addrs_append, addrs_cons] at hnodup hhead htail
  refine ⟨h.ne_zero, hy, h.exists_iter, ⟨l, hl, ?_, ?_⟩, h.isSome_last, h'.isSome_head⟩
  · rw [h.last_eq_zero, hhead]
    cases l₁ with
    | nil => exact iff_of_true rfl rfl
    | cons b l₁ =>
        refine iff_of_false (fun hb ↦ ?_) (List.cons_ne_nil b l₁)
        have hby : b.1 = y := hb
        refine (List.nodup_cons.mp (List.nodup_cons.mp hnodup).2).1 ?_
        rw [hby]
        exact List.mem_append_right _ List.mem_cons_self
  · rw [h'.head_eq_zero, htail]
    cases l₂ with
    | nil => exact iff_of_true (lastOf_concat 0 y (addrs l₁)) rfl
    | cons b l₂ =>
        refine iff_of_false (fun hb ↦ ?_) (List.cons_ne_nil b l₂)
        rw [lastOf_append_cons, addrs_cons, lastOf_cons] at hb
        have hmem := lastOf_mem b.1 (addrs l₂)
        rw [hb] at hmem
        have hnod := (List.nodup_append.mp (List.nodup_cons.mp hnodup).2).2.1
        exact (List.nodup_cons.mp hnod).1 hmem

/-- What the parts of a list say about the place between them. -/
theorem gap (h : Listed m list (l₁ ++ l₂)) :
    Gap m list (lastOf 0 (addrs l₁)) ((addrs l₂).headD 0) := by
  obtain ⟨l, hl, hhead, htail⟩ := h.exists_list
  refine ⟨h.ne_zero, ⟨l, hl, fun hp ↦ ?_, fun hn ↦ ?_, fun hp ↦ ?_, fun hn ↦ ?_⟩, h.isSome_last,
    h.isSome_head⟩
  · obtain rfl := h.last_eq_zero.mp hp
    exact hhead
  · obtain rfl := h.head_eq_zero.mp hn
    rw [htail, List.append_nil]
  · obtain rfl := h.last_eq_zero.mp hp
    have h' : Listed m list (l₂ ++ []) := by
      rw [List.append_nil]
      exact h
    rw [h.head_eq_zero, htail]
    exact h'.last_eq_zero
  · obtain rfl := h.head_eq_zero.mp hn
    have h' : Listed m list ([] ++ l₁) := by
      rw [List.append_nil] at h
      exact h
    rw [h.last_eq_zero, hhead, List.append_nil]
    exact h'.head_eq_zero

end Listed

/-! ## Taking a node out -/

section Remove

variable {m : Mem α κ} {list y p n : Nat} {x : α}

/-- `ls_split_iter`. -/
theorem lsSplitIter_eq (h : Node m list y x p n) :
    lsSplitIter m list y = some (m.unlink list p n) := by
  obtain ⟨l, hl, hhead, htail⟩ := h.record
  by_cases hp : p = 0
  · by_cases hn : n = 0
    · simp only [lsSplitIter, h.list_ne, h.ne, or_self, if_false, list_eq h.list_ne, iter_eq h.ne,
        hl, h.iter, Option.bind_eq_bind, Option.bind_some, hhead.mpr hp, htail.mpr hn, if_true,
        setList_of_isSome h.list_ne, isSome_lists_modList, Option.isSome_some, hp, hn, ne_eq,
        not_true_eq_false, Mem.unlink, Mem.setNext, Mem.setPrev, Mem.shorten]
    · simp only [lsSplitIter, h.list_ne, h.ne, or_self, if_false, list_eq h.list_ne, iter_eq h.ne,
        hl, h.iter, Option.bind_eq_bind, Option.bind_some, hhead.mpr hp, htail, if_true,
        iters_modList, h.next hn, setList_of_isSome h.list_ne, setIter_of_isSome hn, lists_modIter,
        isSome_lists_modList, Option.isSome_some, hp, hn, ne_eq, not_true_eq_false,
        not_false_eq_true, Mem.unlink, Mem.setNext, Mem.setPrev, Mem.shorten]
  · by_cases hn : n = 0
    · simp only [lsSplitIter, h.list_ne, h.ne, or_self, if_false, list_eq h.list_ne, iter_eq h.ne,
        hl, h.iter, Option.bind_eq_bind, Option.bind_some, hhead, htail.mpr hn, if_true,
        iters_modList, h.prev hp, setList_of_isSome h.list_ne, setIter_of_isSome hp, lists_modIter,
        isSome_lists_modList, Option.isSome_some, hp, hn, ne_eq, not_true_eq_false,
        not_false_eq_true, Mem.unlink, Mem.setNext, Mem.setPrev, Mem.shorten]
      rfl
    · simp only [lsSplitIter, h.list_ne, h.ne, or_self, if_false, list_eq h.list_ne, iter_eq h.ne,
        hl, h.iter, Option.bind_eq_bind, Option.bind_some, hhead, htail, if_true, h.prev hp,
        h.next hn, setList_of_isSome h.list_ne, setIter_of_isSome hp, setIter_of_isSome hn,
        lists_modIter, isSome_iters_modIter, Option.isSome_some, hp, hn, ne_eq, not_false_eq_true,
        Mem.unlink, Mem.setNext, Mem.setPrev, Mem.shorten]

theorem dropIter_modIter (f : SdbListIter α → SdbListIter α) :
    (m.modIter y f).dropIter y = m.dropIter y := by
  simp only [Mem.dropIter, Mem.modIter, Function.update_idem]

theorem modList_dropIter (f : SdbList κ → SdbList κ) :
    (m.dropIter y).modList list f = (m.modList list f).dropIter y := rfl

theorem dataOf_unlink (a : Nat) : dataOf (m.unlink list p n) a = dataOf m a := by
  rw [Mem.unlink, dataOf_shorten, dataOf_setPrev, dataOf_setNext]

@[simp] theorem isSome_lists_setNext {a b : Nat} (list' : Nat) :
    ((m.setNext list a b).lists list').isSome = (m.lists list').isSome := by
  rw [Mem.setNext]
  split
  · exact isSome_lists_modList _
  · rfl

@[simp] theorem isSome_lists_setPrev {a b : Nat} (list' : Nat) :
    ((m.setPrev list a b).lists list').isSome = (m.lists list').isSome := by
  rw [Mem.setPrev]
  split
  · exact isSome_lists_modList _
  · rfl

theorem isSome_lists_unlink (list' : Nat) :
    ((m.unlink list p n).lists list').isSome = (m.lists list').isSome := by
  rw [Mem.unlink, Mem.shorten, isSome_lists_modList, isSome_lists_setPrev, isSome_lists_setNext]

/-- `ls_delete`; the element is freed if the list has a function for that. -/
theorem lsDelete_eq (h : Node m list y x p n) : ∃ freed,
    lsDelete m list y = some { (m.unlink list p n).dropIter y with freed := freed } := by
  obtain ⟨l, hl, -, -⟩ := h.record
  have hsome : ((m.unlink list p n).lists list).isSome = (m.lists list).isSome :=
    isSome_lists_unlink list
  rw [hl] at hsome
  obtain ⟨l', hl'⟩ := Option.isSome_iff_exists.mp hsome
  have hdata : dataOf (m.unlink list p n) y = dataOf m y := dataOf_unlink y
  rw [dataOf, dataOf, h.iter] at hdata
  obtain ⟨i, hi, hdata⟩ := Option.bind_eq_some_iff.mp hdata
  simp only [lsDelete, h.list_ne, h.ne, or_self, if_false, lsSplitIter_eq h, Option.bind_eq_bind,
    Option.bind_some, list_eq h.list_ne, hl', iter_eq h.ne, hi, hdata]
  by_cases hfree : l'.free = true
  · refine ⟨(m.unlink list p n).freed ++ [x], ?_⟩
    have hi' : ({ m.unlink list p n with freed := (m.unlink list p n).freed ++ [x] } :
        Mem α κ).iters y = some i := hi
    rw [if_pos hfree, setIter_eq h.ne hi', Option.bind_some, freeIter_of_isSome h.ne,
      dropIter_modIter]
    · rfl
    · rw [isSome_iters_modIter, hi']
      rfl
  · refine ⟨(m.unlink list p n).freed, ?_⟩
    rw [if_neg hfree, freeIter_eq h.ne hi]
    rfl

/-- `ls_pop`. -/
theorem lsPop_eq (h : Node m list y x p 0) :
    lsPop m list = some (some x, (m.unlink list p 0).dropIter y) := by
  obtain ⟨l, hl, hhead, htail⟩ := h.record
  have hy := htail.mpr rfl
  rw [← hy] at hhead
  by_cases hp : p = 0
  · simp only [lsPop, h.list_ne, if_false, list_eq h.list_ne, hl, Option.bind_eq_bind,
      Option.bind_some, hy, h.ne, iter_eq h.ne, h.iter, hhead.mpr hp, if_true,
      setList_of_isSome h.list_ne, Option.isSome_some, freeIter_of_isSome h.ne, iters_modList,
      lists_dropIter, isSome_lists_modList, hp, Mem.unlink, Mem.setNext, Mem.setPrev, Mem.shorten,
      modList_modList, modList_dropIter]
  · have hno : ¬ l.head = l.tail := fun hh ↦ hp (hhead.mp hh)
    rw [hy] at hno
    simp only [lsPop, h.list_ne, if_false, list_eq h.list_ne, hl, Option.bind_eq_bind,
      Option.bind_some, hy, h.ne, iter_eq h.ne, h.iter, hno, setList_of_isSome h.list_ne,
      Option.isSome_some, setIter_of_isSome hp, h.prev hp, freeIter_of_isSome h.ne,
      isSome_iters_modIter, iters_modList, lists_dropIter, lists_modIter, isSome_lists_modList, hp,
      if_true, Mem.unlink, Mem.setNext, Mem.setPrev, Mem.shorten]
    rfl

/-- `ls_pop_head` of a list that is not empty. -/
theorem lsPopHead_eq (h : Node m list y x 0 n) :
    lsPopHead m list = some (some x, (m.unlink list 0 n).dropIter y) := by
  obtain ⟨l, hl, hhead, htail⟩ := h.record
  have hy := hhead.mpr rfl
  by_cases hn : n = 0
  · have hty := htail.mpr hn
    simp only [lsPopHead, h.list_ne, if_false, list_eq h.list_ne, hl, Option.bind_eq_bind,
      Option.bind_some, hy, h.ne, iter_eq h.ne, h.iter, hty, if_true, setList_of_isSome h.list_ne,
      Option.isSome_some, freeIter_of_isSome h.ne, iters_modList, lists_dropIter,
        isSome_lists_modList,
      hn, Mem.unlink, Mem.setNext, Mem.setPrev, Mem.shorten, modList_modList,
      modList_dropIter]
  · have hno : ¬ y = l.tail := fun hh ↦ hn (htail.mp hh.symm)
    simp only [lsPopHead, h.list_ne, if_false, list_eq h.list_ne, hl, Option.bind_eq_bind,
      Option.bind_some, hy, h.ne, iter_eq h.ne, h.iter, hno, setList_of_isSome h.list_ne,
      Option.isSome_some, setIter_of_isSome hn, h.next hn, freeIter_of_isSome h.ne,
      isSome_iters_modIter, iters_modList, lists_dropIter, lists_modIter, isSome_lists_modList, hn,
      if_true, Mem.unlink, Mem.setNext, Mem.setPrev, Mem.shorten]
    rfl

/-- `ls_del_n`, when its loop finds a node. -/
theorem lsDelN_eq {k : BitVec 32} {l : SdbList κ} (h : Node m list y x p n)
    (hl : m.lists list = some l) (hnth : nth m k l.head = some (some y)) :
    lsDelN m list k = some (true, (m.unlink list p n).dropIter y) := by
  by_cases hp : p = 0
  · by_cases hn : n = 0
    · simp only [lsDelN, h.list_ne, if_false, list_eq h.list_ne, hl, Option.bind_eq_bind,
        Option.bind_some, hnth, iter_eq h.ne, h.iter, hp, hn, and_self, if_true,
        setList_of_isSome h.list_ne, Option.isSome_some, freeIter_of_isSome h.ne, iters_modList,
        lists_dropIter, isSome_lists_modList, Mem.unlink, Mem.setNext, Mem.setPrev, Mem.shorten,
        modList_modList, modList_dropIter]
    · simp only [lsDelN, h.list_ne, if_false, list_eq h.list_ne, hl, Option.bind_eq_bind,
        Option.bind_some, hnth, iter_eq h.ne, h.iter, hp, hn, and_false, if_true,
        setIter_of_isSome hn, h.next hn, setList_of_isSome h.list_ne, Option.isSome_some,
        lists_modIter, freeIter_of_isSome h.ne, isSome_iters_modIter, iters_modList,
        lists_dropIter, isSome_lists_modList, Mem.unlink, Mem.setNext, Mem.setPrev, Mem.shorten]
      rfl
  · by_cases hn : n = 0
    · simp only [lsDelN, h.list_ne, if_false, list_eq h.list_ne, hl, Option.bind_eq_bind,
        Option.bind_some, hnth, iter_eq h.ne, h.iter, hp, hn, false_and, if_true,
        setIter_of_isSome hp, h.prev hp, setList_of_isSome h.list_ne, Option.isSome_some,
        lists_modIter, freeIter_of_isSome h.ne, isSome_iters_modIter, iters_modList,
        lists_dropIter, isSome_lists_modList, Mem.unlink, Mem.setNext, Mem.setPrev, Mem.shorten]
      rfl
    · simp only [lsDelN, h.list_ne, if_false, list_eq h.list_ne, hl, Option.bind_eq_bind,
        Option.bind_some, hnth, iter_eq h.ne, h.iter, hp, hn, and_self,
        setIter_of_isSome hp, setIter_of_isSome hn, h.prev hp, h.next hn,
          setList_of_isSome h.list_ne,
        Option.isSome_some, lists_modIter, freeIter_of_isSome h.ne, isSome_iters_modIter,
        lists_dropIter, Mem.unlink, Mem.setNext, Mem.setPrev, Mem.shorten]
      rfl

end Remove

/-! ## Putting a node in -/

section Insert

variable {m : Mem α κ} {list it p n : Nat}

/-- `ls_append`. -/
theorem lsAppend_eq (h : Gap m list p 0) (hit : it ≠ 0) (x : α) :
    lsAppend m list it (some x) = some (it, m.insert list it x p 0) := by
  obtain ⟨l, hl, -, htail, -, hhead⟩ := h.record
  have ht := htail rfl
  have hh := hhead rfl
  by_cases hp : p = 0
  · simp only [lsAppend, h.list_ne, hit, or_self, if_false, list_eq h.list_ne, hl,
      Option.bind_eq_bind, Option.bind_some, ht, hp, ne_eq, not_true_eq_false,
      setList_of_isSome h.list_ne, lists_newIter, Option.isSome_some, Mem.insert, Mem.setNext,
      Mem.setPrev, Mem.lengthen, if_true, modList_modList]
    refine congrArg (fun m ↦ some (it, m)) (modList_congr (l := l) ?_ ?_)
    · exact hl
    · rw [if_pos (hh.mpr hp)]
  · have hsome := isSome_iters_newIter (a := it) ⟨some x, 0, p⟩ (h.prev hp)
    simp only [lsAppend, h.list_ne, hit, or_self, if_false, list_eq h.list_ne, hl,
      Option.bind_eq_bind, Option.bind_some, ht, hp, ne_eq, not_false_eq_true, if_true,
      setIter_of_isSome hp, hsome, lists_modIter, setList_of_isSome h.list_ne, lists_newIter,
      Option.isSome_some, Mem.insert, Mem.setNext, Mem.setPrev, Mem.lengthen, modList_modList]
    refine congrArg (fun m ↦ some (it, m)) (modList_congr (l := l) ?_ ?_)
    · exact hl
    · rw [if_neg fun h0 ↦ hp (hh.mp h0)]

/-- `ls_prepend`. -/
theorem lsPrepend_eq (h : Gap m list 0 n) (hit : it ≠ 0) (x : α) :
    lsPrepend m list it (some x) = some (it, m.insert list it x 0 n) := by
  obtain ⟨l, hl, hhead, -, htail, -⟩ := h.record
  have hh := hhead rfl
  have ht := htail rfl
  by_cases hn : n = 0
  · simp only [lsPrepend, hit, if_false, list_eq h.list_ne, hl, Option.bind_eq_bind,
      Option.bind_some, hh, hn, ne_eq, not_true_eq_false, setList_of_isSome h.list_ne,
      lists_newIter,
      Option.isSome_some, Mem.insert, Mem.setNext, Mem.setPrev, Mem.lengthen, if_true,
        modList_modList]
    refine congrArg (fun m ↦ some (it, m)) (modList_congr (l := l) ?_ ?_)
    · exact hl
    · rw [if_pos (ht.mpr hn)]
  · have hsome := isSome_iters_newIter (a := it) ⟨some x, n, 0⟩ (h.next hn)
    simp only [lsPrepend, hit, if_false, list_eq h.list_ne, hl, Option.bind_eq_bind,
      Option.bind_some, hh, hn, ne_eq, not_false_eq_true, if_true, setIter_of_isSome hn, hsome,
      lists_modIter, setList_of_isSome h.list_ne, lists_newIter,
      Option.isSome_some, Mem.insert, Mem.setNext, Mem.setPrev, Mem.lengthen]
    have hmem : ((m.newIter it ⟨some x, n, 0⟩).modIter n fun h ↦ { h with p := it }).modList list
        (fun l ↦ { l with
          length := lengthInc l.length
          head := it
          tail := if l.tail = 0 then it else l.tail
          sorted := false }) =
        (((m.newIter it ⟨some x, n, 0⟩).modIter n fun h ↦ { h with p := it }).modList list fun l ↦
          { l with head := it }).modList list fun l ↦
            { l with length := lengthInc l.length, sorted := false } := by
      rw [modList_modList]
      refine modList_congr (l := l) ?_ ?_
      · exact hl
      · rw [if_neg fun h0 ↦ hn (ht.mp h0)]
    rw [hmem]
    rfl

/-- `ls_insert` in front of a node that its loop finds. -/
theorem lsInsert_eq {k : BitVec 32} {l : SdbList κ} (h : Gap m list p n) (hit : it ≠ 0) (hk : k ≠ 0)
    (hl : m.lists list = some l) (hhead : l.head ≠ 0) (hn : n ≠ 0) (hp : p ≠ 0)
    (hnth : nth m k l.head = some (some n)) (hnp : (m.iters n).map SdbListIter.p = some p) (x : α) :
    lsInsert m list k it (some x) = some (it, m.insert list it x p n) := by
  obtain ⟨i, hi, hip⟩ := Option.map_eq_some_iff.mp hnp
  have hsomep := isSome_iters_newIter (a := it) ⟨some x, n, p⟩ (h.prev hp)
  have hsomen := isSome_iters_newIter (a := it) ⟨some x, n, p⟩ (h.next hn)
  simp only [lsInsert, h.list_ne, if_false, list_eq h.list_ne, hl, Option.bind_eq_bind,
    Option.bind_some, hhead, hk, or_self, hnth, hit, iter_eq hn, hi, hip, hp, ne_eq,
    not_false_eq_true, if_true, setIter_of_isSome hp, hsomep, setIter_of_isSome hn, hsomen,
    isSome_iters_modIter, lists_modIter, lists_newIter, setList_of_isSome h.list_ne,
    Option.isSome_some, Mem.insert, Mem.setNext, Mem.setPrev, Mem.lengthen, hn]

end Insert

end SdbStore.Ls
