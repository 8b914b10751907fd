import SdbStore.Ls.Contents

/-!
# The functions, call by call

What every function of `ls.c` but the sorting ones does to the lists of a memory.  A number of a
node is an `int` that comes round, so a negative one means a node far behind.
-/

namespace SdbStore.Ls

open Lib

variable {α κ : Type}

namespace Effect

variable {m m₁ m' : Mem α κ} {c : Contents α} {list : Nat} {ns ns₁ : List (Nat × α)}

/-- Nothing is done. -/
theorem refl (h : Holds m c) (hc : c list = some ns) : Effect m m c list ns := by
  have hput : c.put list ns = c := by
    rw [Contents.put, ← hc, Function.update_eq_self]
  refine ⟨?_, fun old hold hlen ↦ ?_, fun _ _ ↦ rfl⟩
  · rw [hput]
    exact h
  · obtain rfl := Option.some.inj (hc.symm.trans hold)
    exact hlen

/-- One thing is done after the other. -/
theorem trans (h : Effect m m₁ c list ns₁) (h' : Effect m₁ m' (c.put list ns₁) list ns) :
    Effect m m' c list ns := by
  have hput : (c.put list ns₁).put list ns = c.put list ns := Function.update_idem _ _ _
  refine ⟨?_, fun old hold hlen ↦ ?_,
    fun list' hne ↦ (h'.others list' hne).trans (h.others list' hne)⟩
  · rw [← hput]
    exact h'.holds
  · exact h'.length ns₁ (c.put_self list ns₁) (h.length old hold hlen)

/-- The elements that have been freed do not matter. -/
theorem freed (h : Effect m m' c list ns) (f : List α) :
    Effect m { m' with freed := f } c list ns :=
  ⟨h.holds.congr rfl rfl, h.length, h.others⟩

end Effect

theorem listed_nil {m : Mem α κ} {list : Nat} {l : SdbList κ} (hne : list ≠ 0)
    (hl : m.lists list = some l) (hhead : l.head = 0) (htail : l.tail = 0) : Listed m list [] := by
  refine ⟨hne, ?_, ?_, List.nodup_singleton 0, fun _ hb ↦ absurd hb List.not_mem_nil⟩
  · show nextOf m list 0 = some 0
    rw [nextOf_zero, hl, ← hhead]
    rfl
  · rw [prevOf_zero, hl, Option.map_some, htail]
    rfl

section Calls

variable {m : Mem α κ} {c : Contents α} {list y it : Nat} {x : α} {ns l₁ l₂ : List (Nat × α)}
  (h : Holds m c)
include h

/-- Neither the rest of the list nor another list has a node that has been taken out. -/
theorem notMem_rest (hc : c list = some (l₁ ++ (y, x) :: l₂)) : y ∉ addrs (l₁ ++ l₂) := by
  have hnodup := (List.nodup_cons.mp (h.listed list _ hc).nodup).2
  rw [addrs_append, addrs_cons] at hnodup
  rw [addrs_append]
  exact (List.nodup_cons.mp (List.perm_middle.nodup_iff.mp hnodup)).1

theorem own_node (hc : c list = some (l₁ ++ (y, x) :: l₂)) : Own c list y :=
  own_of_mem h hc (mem_addrs (List.mem_append_right l₁ List.mem_cons_self))

/-! ## Taking elements out -/

theorem lsSplitIter_effect (hc : c list = some (l₁ ++ (y, x) :: l₂)) :
    ∃ m', lsSplitIter m list y = some m' ∧ Effect m m' c list (l₁ ++ l₂) :=
  ⟨_, lsSplitIter_eq (h.listed list _ hc).node, effect_unlink h hc⟩

theorem lsDelete_effect (hc : c list = some (l₁ ++ (y, x) :: l₂)) :
    ∃ m', lsDelete m list y = some m' ∧ Effect m m' c list (l₁ ++ l₂) := by
  obtain ⟨freed, hdel⟩ := lsDelete_eq (h.listed list _ hc).node
  exact ⟨_, hdel, ((effect_unlink h hc).dropIter (own_node h hc) (notMem_rest h hc)).freed freed⟩

theorem lsPop_effect (hc : c list = some (ns ++ [(y, x)])) :
    ∃ m', lsPop m list = some (some x, m') ∧ Effect m m' c list ns := by
  have heff := (effect_unlink h hc).dropIter (own_node h hc) (notMem_rest h hc)
  rw [List.append_nil] at heff
  exact ⟨_, lsPop_eq (h.listed list _ hc).node, heff⟩

theorem lsPop_nil (hc : c list = some []) : lsPop m list = some (none, m) := by
  have hl := h.listed list _ hc
  obtain ⟨l, hlist, -, htail⟩ := hl.exists_list
  rw [lsPop, if_neg hl.ne_zero, list_eq hl.ne_zero, hlist]
  exact if_pos htail

theorem lsPopHead_effect (hc : c list = some ((y, x) :: ns)) :
    ∃ m', lsPopHead m list = some (some x, m') ∧ Effect m m' c list ns := by
  have hc' : c list = some ([] ++ (y, x) :: ns) := hc
  exact ⟨_, lsPopHead_eq (h.listed list _ hc').node,
    (effect_unlink h hc').dropIter (own_node h hc') (notMem_rest h hc')⟩

/-- There is nothing to be taken out, and the length becomes less all the same. -/
theorem lsPopHead_nil (hc : c list = some []) :
    lsPopHead m list = some (none, m.shorten list) ∧ Holds (m.shorten list) c := by
  have hl := h.listed list _ hc
  obtain ⟨l, hlist, hhead, htail⟩ := hl.exists_list
  have hput : c.put list [] = c := by
    rw [Contents.put, ← hc, Function.update_eq_self]
  constructor
  · rw [lsPopHead, if_neg hl.ne_zero, list_eq hl.ne_zero, hlist]
    have hsome : (m.lists list).isSome := by
      rw [hlist]
      rfl
    have hhead' : l.head = 0 := hhead
    simp only [Option.bind_eq_bind, Option.bind_some, hhead', if_true,
      setList_of_isSome hl.ne_zero hsome]
    rfl
  · rw [← hput]
    have hlist' : (m.shorten list).lists list = some { l with length := lengthDec l.length } := by
      rw [Mem.shorten, lists_modList_self, hlist]
      rfl
    exact h.change (A := []) (listed_nil hl.ne_zero hlist' hhead htail) (Frame.modList _)
      (fun _ ha ↦ absurd ha List.not_mem_nil)
      (fun _ ha ↦ absurd ha List.not_mem_nil) fun _ ha ↦ .inl ha

/-! ## Finding a node by its number -/

omit h in
theorem nth_loop (hl : Listed m list (l₁ ++ l₂)) {k : BitVec 32} (hk : l₁.length ≤ k.toNat) :
    LoopEnds (nthTurn m k) ((addrs l₂).headD 0, BitVec.ofNat 32 l₁.length)
      (addrs l₂)[k.toNat - l₁.length]? := by
  induction l₂ generalizing l₁ with
  | nil => exact .stop rfl
  | cons b l₂ ih =>
      obtain ⟨a, x⟩ := b
      have hnode := hl.node
      have hturn : nthTurn m k (a, BitVec.ofNat 32 l₁.length) =
          if BitVec.ofNat 32 l₁.length = k then some (.inr (some a))
          else some (.inl ((addrs l₂).headD 0, BitVec.ofNat 32 l₁.length + 1)) := by
        simp only [nthTurn, hnode.ne, if_false, iter_eq hnode.ne, hnode.iter, Option.bind_eq_bind,
          Option.bind_some, Option.isNone_some, Bool.false_eq_true]
      by_cases heq : BitVec.ofNat 32 l₁.length = k
      · have hlen : k.toNat - l₁.length = 0 := by
          have htoNat := congrArg BitVec.toNat heq
          rw [BitVec.toNat_ofNat] at htoNat
          have hle := Nat.mod_le l₁.length (2 ^ 32)
          omega
        rw [hlen]
        rw [if_pos heq] at hturn
        exact .stop hturn
      · have hlt : l₁.length < k.toNat := by
          refine Nat.lt_of_le_of_ne hk fun hlen ↦ heq ?_
          rw [hlen, BitVec.ofNat_toNat, BitVec.setWidth_eq]
        rw [if_neg heq] at hturn
        have hl' : Listed m list ((l₁ ++ [(a, x)]) ++ l₂) := by
          rw [List.append_assoc]
          exact hl
        have hlen' : (l₁ ++ [(a, x)]).length = l₁.length + 1 := by
          rw [List.length_append]
          rfl
        have hloop := ih hl' (by omega)
        have hindex : k.toNat - l₁.length = k.toNat - (l₁.length + 1) + 1 := by omega
        rw [hlen', BitVec.ofNat_add] at hloop
        rw [hindex, addrs_cons, List.getElem?_cons_succ]
        exact .turn hturn hloop

omit h in
/-- The loop of `ls_insert` and of `ls_del_n`. -/
theorem nth_eq (hl : Listed m list ns) (k : BitVec 32) :
    nth m k ((addrs ns).headD 0) = some (addrs ns)[k.toNat]? := by
  have hl' : Listed m list ([] ++ ns) := hl
  have hloop := nth_loop hl' (Nat.zero_le k.toNat)
  exact hloop.result

theorem lsDelN_effect (hc : c list = some ns) (k : BitVec 32) :
    ∃ m', lsDelN m list k = some (decide (k.toNat < ns.length), m') ∧
      Effect m m' c list (ns.eraseIdx k.toNat) := by
  have hl := h.listed list _ hc
  obtain ⟨l, hlist, hhead, -⟩ := hl.exists_list
  have hnth := nth_eq hl k
  rw [← hhead] at hnth
  by_cases hlt : k.toNat < ns.length
  · have hsplit : ns = ns.take k.toNat ++ ns[k.toNat] :: ns.drop (k.toNat + 1) := by
      rw [List.getElem_cons_drop, List.take_append_drop]
    have hget : (addrs ns)[k.toNat]? = some ns[k.toNat].1 := by
      rw [addrs, List.getElem?_map, List.getElem?_eq_getElem hlt]
      rfl
    rw [hget] at hnth
    have hc' : c list = some (ns.take k.toNat ++
        (ns[k.toNat].1, ns[k.toNat].2) :: ns.drop (k.toNat + 1)) := hc.trans (congrArg some hsplit)
    have hl' := h.listed list _ hc'
    rw [List.eraseIdx_eq_take_drop_succ, decide_eq_true hlt]
    exact ⟨_, lsDelN_eq hl'.node hlist hnth,
      (effect_unlink h hc').dropIter (own_node h hc') (notMem_rest h hc')⟩
  · have hget : (addrs ns)[k.toNat]? = none := by
      rw [List.getElem?_eq_none_iff, List.length_map]
      exact Nat.le_of_not_lt hlt
    rw [hget] at hnth
    rw [List.eraseIdx_of_length_le (Nat.le_of_not_lt hlt), decide_eq_false hlt]
    refine ⟨m, ?_, .refl h hc⟩
    simp only [lsDelN, hl.ne_zero, if_false, list_eq hl.ne_zero, hlist, Option.bind_eq_bind,
      Option.bind_some, hnth]

/-! ## Destroying -/

/-- A turn of the loop of `ls_destroy` deletes a node. -/
theorem lsDestroy_loop (hc : c list = some ns) : ∃ m',
    LoopEnds (lsDestroyTurn list) (m, (addrs ns).headD 0) m' ∧ Effect m m' c list [] := by
  induction ns generalizing m c with
  | nil => exact ⟨m, .stop rfl, .refl h hc⟩
  | cons b ns ih =>
      obtain ⟨a, x⟩ := b
      have hc' : c list = some ([] ++ (a, x) :: ns) := hc
      have hnode := (h.listed list _ hc').node
      obtain ⟨m₁, hdel, heff⟩ := lsDelete_effect h hc'
      obtain ⟨m', hloop, heff'⟩ := ih heff.holds (c.put_self list ns)
      refine ⟨m', .turn ?_ hloop, heff.trans heff'⟩
      simp only [lsDestroyTurn, addrs_cons, List.headD_cons, hnode.ne, if_false, iter_eq hnode.ne,
        hnode.iter, Option.bind_eq_bind, Option.bind_some, hdel]

theorem lsDestroy_effect (hc : c list = some ns) :
    ∃ m', lsDestroy m list = some m' ∧ Effect m m' c list [] := by
  have hl := h.listed list _ hc
  obtain ⟨l, hlist, hhead, -⟩ := hl.exists_list
  obtain ⟨m₁, hloop, heff⟩ := lsDestroy_loop h hc
  have hl₁ := heff.holds.listed list [] (c.put_self list [])
  obtain ⟨l₁, hlist₁, -⟩ := hl₁.exists_list
  have hsome : (m₁.lists list).isSome := by
    rw [hlist₁]
    rfl
  have heff' : Effect m₁ (m₁.modList list fun l ↦ { l with head := 0, tail := 0, length := 0 })
      (c.put list []) list [] := by
    have hlist' : (m₁.modList list fun l ↦ { l with head := 0, tail := 0, length := 0 }).lists
        list = some { l₁ with head := 0, tail := 0, length := 0 } := by
      rw [lists_modList_self, hlist₁]
      rfl
    refine ⟨heff.holds.change (A := []) (listed_nil hl.ne_zero hlist' rfl rfl) (Frame.modList _)
      (fun _ ha ↦ absurd ha List.not_mem_nil)
      (fun _ ha ↦ absurd ha List.not_mem_nil) fun _ ha ↦ .inl ha, fun _ _ _ ↦ ?_,
      fun _ hne ↦ lists_modList_of_ne _ hne⟩
    rw [lengthOf, hlist']
    rfl
  refine ⟨_, ?_, heff.trans heff'⟩
  rw [lsDestroy, if_neg hl.ne_zero, list_eq hl.ne_zero, hlist]
  simp only [Option.bind_eq_bind, Option.bind_some, hhead, hloop.result,
    setList_of_isSome hl.ne_zero hsome]

end Calls

/-! ## Putting elements in -/

/-- The new node, if `malloc` has returned one. -/
def newNode (it : Nat) (x : α) : List (Nat × α) := if it = 0 then [] else [(it, x)]

/-- The nodes of a copy: one for each element for which `malloc` has returned one. -/
def clonedNodes : List α → List Nat → List (Nat × α)
  | [], _ => []
  | x :: l, its => newNode (its.headD 0) x ++ clonedNodes l its.tail

section Calls

variable {m : Mem α κ} {c : Contents α} {list it : Nat} {ns l₁ l₂ : List (Nat × α)}
  (h : Holds m c)
include h

theorem gap_zero (hc : c list = some (l₁ ++ l₂)) :
    Gap m list (lastOf 0 (addrs l₁)) ((addrs l₂).headD 0) := (h.listed list _ hc).gap

theorem lsAppend_effect (hc : c list = some ns) (hit : Mallocs m it) (x : α) :
    ∃ m', lsAppend m list it (some x) = some (it, m') ∧
      Effect m m' c list (ns ++ newNode it x) ∧
      ∀ a, (m'.iters a).isSome → a = it ∨ (m.iters a).isSome := by
  rcases hit with rfl | ⟨haddr, hit⟩
  · refine ⟨m, ?_, ?_, fun a ha ↦ .inr ha⟩
    · rw [lsAppend, if_pos (.inr rfl)]
    · rw [newNode, if_pos rfl, List.append_nil]
      exact .refl h hc
  · have hne : it ≠ 0 := Nat.ne_of_gt haddr.1
    have hc' : c list = some (ns ++ []) := by
      rw [List.append_nil]
      exact hc
    rw [newNode, if_neg hne]
    exact ⟨_, lsAppend_eq (gap_zero h hc') hne x, effect_insert h hc' haddr hit,
      fun a ha ↦ isSome_iters_insert ha⟩

theorem lsPrepend_effect (hc : c list = some ns) (hit : Mallocs m it) (x : α) :
    ∃ m', lsPrepend m list it (some x) = some (it, m') ∧
      Effect m m' c list (newNode it x ++ ns) := by
  rcases hit with rfl | ⟨haddr, hit⟩
  · refine ⟨m, ?_, ?_⟩
    · rw [lsPrepend, if_pos rfl]
    · exact .refl h hc
  · have hne : it ≠ 0 := Nat.ne_of_gt haddr.1
    have hc' : c list = some ([] ++ ns) := hc
    rw [newNode, if_neg hne]
    exact ⟨_, lsPrepend_eq (gap_zero h hc') hne x, effect_insert h hc' haddr hit⟩

theorem lsInsert_effect (hc : c list = some ns) (k : BitVec 32) (hit : Mallocs m it) (x : α) :
    ∃ m', lsInsert m list k it (some x) = some (it, m') ∧
      Effect m m' c list (ns.take k.toNat ++ newNode it x ++ ns.drop k.toNat) := by
  have hl := h.listed list _ hc
  obtain ⟨l, hlist, hhead, -⟩ := hl.exists_list
  have hnth := nth_eq hl k
  rw [← hhead] at hnth
  by_cases hfirst : l.head = 0 ∨ k = 0
  · -- the list is empty, or the element becomes the first one
    have hcode : lsInsert m list k it (some x) = lsPrepend m list it (some x) := by
      simp only [lsInsert, hl.ne_zero, if_false, list_eq hl.ne_zero, hlist, Option.bind_eq_bind,
        Option.bind_some, hfirst, if_true]
    have hlists : ns.take k.toNat ++ newNode it x ++ ns.drop k.toNat = newNode it x ++ ns := by
      rcases hfirst with h0 | rfl
      · have hl' : Listed m list ([] ++ ns) := hl
        obtain rfl := hl'.head_eq_zero.mp (hhead ▸ h0)
        rw [List.take_nil, List.drop_nil, List.nil_append]
      · rfl
    rw [hcode, hlists]
    exact lsPrepend_effect h hc hit x
  · have hhead0 : l.head ≠ 0 := fun h0 ↦ hfirst (.inl h0)
    have hk : k ≠ 0 := fun h0 ↦ hfirst (.inr h0)
    by_cases hlt : k.toNat < ns.length
    · have hsplit : ns = ns.take k.toNat ++ ns[k.toNat] :: ns.drop (k.toNat + 1) := by
        rw [List.getElem_cons_drop, List.take_append_drop]
      have hget : (addrs ns)[k.toNat]? = some ns[k.toNat].1 := by
        rw [addrs, List.getElem?_map, List.getElem?_eq_getElem hlt]
        rfl
      rw [hget] at hnth
      have hc' : c list = some (ns.take k.toNat ++ ns.drop k.toNat) := by
        rw [List.take_append_drop]
        exact hc
      have hgap := gap_zero h hc'
      have hheadD : (addrs (ns.drop k.toNat)).headD 0 = ns[k.toNat].1 := by
        rw [← List.getElem_cons_drop hlt]
        rfl
      have hl' : Listed m list (ns.take k.toNat ++
          (ns[k.toNat].1, ns[k.toNat].2) :: ns.drop (k.toNat + 1)) :=
        h.listed list _ (hc.trans (congrArg some hsplit))
      have hnode := hl'.node
      have hp : lastOf 0 (addrs (ns.take k.toNat)) ≠ 0 := by
        rw [Ne, (h.listed list _ hc').last_eq_zero, List.take_eq_nil_iff]
        rintro (h0 | rfl)
        · exact hk (BitVec.eq_of_toNat_eq h0)
        · exact absurd hlt (Nat.not_lt_zero _)
      rcases hit with rfl | ⟨haddr, hit⟩
      · refine ⟨m, ?_, ?_⟩
        · simp only [lsInsert, hl.ne_zero, if_false, list_eq hl.ne_zero, hlist, Option.bind_eq_bind,
            Option.bind_some, hhead0, hk, or_self, hnth, if_true]
        · rw [newNode, if_pos rfl, List.append_nil, List.take_append_drop]
          exact .refl h hc
      · have hne : it ≠ 0 := Nat.ne_of_gt haddr.1
        have hnp : (m.iters ns[k.toNat].1).map SdbListIter.p =
            some (lastOf 0 (addrs (ns.take k.toNat))) := by
          rw [hnode.iter]
          rfl
        rw [← hheadD] at hnth hnp
        have hn : (addrs (ns.drop k.toNat)).headD 0 ≠ 0 := by
          rw [hheadD]
          exact hnode.ne
        rw [newNode, if_neg hne, List.append_assoc]
        exact ⟨_, lsInsert_eq hgap hne hk hlist hhead0 hn hp hnth hnp x,
          effect_insert h hc' haddr hit⟩
    · have hle := Nat.le_of_not_lt hlt
      have hget : (addrs ns)[k.toNat]? = none := by
        rw [List.getElem?_eq_none_iff, List.length_map]
        exact hle
      rw [hget] at hnth
      have hcode : lsInsert m list k it (some x) = lsAppend m list it (some x) := by
        simp only [lsInsert, hl.ne_zero, if_false, list_eq hl.ne_zero, hlist, Option.bind_eq_bind,
          Option.bind_some, hhead0, hk, or_self, hnth]
      rw [hcode, List.take_of_length_le hle, List.drop_of_length_le hle, List.append_nil]
      obtain ⟨m', hm', heff, -⟩ := lsAppend_effect h hc hit x
      exact ⟨m', hm', heff⟩

end Calls

/-! ## Lists -/

/-- A new list has no nodes. -/
theorem lsNewf_effect {m : Mem α κ} {c : Contents α} {list : Nat} (h : Holds m c)
    (hne : list ≠ 0) (freefn : Bool) :
    (lsNewf m list freefn).1 = list ∧ Effect m (lsNewf m list freefn).2 c list [] ∧
      lengthOf (lsNewf m list freefn).2 list = some 0 := by
  have hlist : (lsNewf m list freefn).2.lists list = some ⟨0, 0, 0, freefn, none, false⟩ := by
    rw [lsNewf, if_neg hne]
    exact Function.update_self _ _ _
  have hother : ∀ list', list' ≠ list → (lsNewf m list freefn).2.lists list' = m.lists list' := by
    intro list' hne'
    rw [lsNewf, if_neg hne]
    exact Function.update_of_ne hne' _ _
  have hiters : (lsNewf m list freefn).2.iters = m.iters := by
    rw [lsNewf, if_neg hne]
  have hzero : lengthOf (lsNewf m list freefn).2 list = some 0 := by
    rw [lengthOf, hlist]
    rfl
  refine ⟨by rw [lsNewf, if_neg hne], ⟨?_, fun _ _ _ ↦ hzero, hother⟩, hzero⟩
  refine h.change (A := []) (listed_nil hne hlist rfl rfl) ⟨fun a _ _ ↦ congrFun hiters a, hother⟩
    (fun _ ha ↦ absurd ha List.not_mem_nil) (fun _ ha ↦ absurd ha List.not_mem_nil) fun a ha ↦ ?_
  rw [hiters] at ha
  exact .inl ha

/-- A turn of the loop of `ls_clone` puts one element into the copy. -/
theorem lsClone_loop {m : Mem α κ} {c : Contents α} {list r : Nat} {l₁ l₂ nr : List (Nat × α)}
    {its : List Nat} (h : Holds m c) (hc : c list = some (l₁ ++ l₂)) (hr : c r = some nr)
    (hne : list ≠ r) (hits : ∀ it ∈ its, Mallocs m it) (hnodup : (its.filter (· ≠ 0)).Nodup) :
    ∃ m', LoopEnds (lsCloneTurn r) (m, (addrs l₂).headD 0, its) m' ∧
      Effect m m' c r (nr ++ clonedNodes (l₂.map Prod.snd) its) := by
  induction l₂ generalizing m c l₁ nr its with
  | nil =>
      refine ⟨m, .stop rfl, ?_⟩
      rw [List.map_nil, clonedNodes, List.append_nil]
      exact .refl h hr
  | cons b l₂ ih =>
      obtain ⟨a, x⟩ := b
      have hnode := (h.listed list _ hc).node
      have hit : Mallocs m (its.headD 0) := by
        cases its with
        | nil => exact .inl rfl
        | cons it its => exact hits it List.mem_cons_self
      obtain ⟨m₁, happ, heff, hnews⟩ := lsAppend_effect h hr hit x
      have hc₁ : c.put r (nr ++ newNode (its.headD 0) x) list = some ((l₁ ++ [(a, x)]) ++ l₂) := by
        rw [c.put_of_ne _ hne, List.append_assoc]
        exact hc
      have hnode₁ : Listed m₁ list (l₁ ++ (a, x) :: l₂) := by
        refine heff.holds.listed list _ ?_
        rw [c.put_of_ne _ hne]
        exact hc
      have hits' : ∀ it ∈ its.tail, Mallocs m₁ it := by
        intro it hmem
        rcases hits it (List.mem_of_mem_tail hmem) with h0 | ⟨haddr, hnone⟩
        · exact .inl h0
        · refine .inr ⟨haddr, Option.not_isSome_iff_eq_none.mp fun hsome ↦ ?_⟩
          rcases hnews it hsome with heq | hsome
          · cases its with
            | nil => cases hmem
            | cons it' its =>
                have hit0 : it ≠ 0 := Nat.ne_of_gt haddr.1
                obtain rfl : it = it' := heq
                rw [List.filter_cons_of_pos (by simpa using hit0)] at hnodup
                refine (List.nodup_cons.mp hnodup).1 (List.mem_filter.mpr ⟨hmem, ?_⟩)
                simpa using hit0
          · rw [hnone] at hsome
            cases hsome
      have hnodup' : (its.tail.filter (· ≠ 0)).Nodup :=
        hnodup.sublist ((List.tail_sublist its).filter _)
      obtain ⟨m', hloop, heff'⟩ := ih heff.holds hc₁ (c.put_self r _) hits' hnodup'
      refine ⟨m', .turn ?_ hloop, ?_⟩
      · simp only [lsCloneTurn, addrs_cons, List.headD_cons, hnode.ne, if_false, iter_eq hnode.ne,
          hnode.iter, Option.bind_eq_bind, Option.bind_some, Option.isNone_some, Bool.false_eq_true,
          happ, hnode₁.node.iter]
      · rw [List.map_cons, clonedNodes, ← List.append_assoc]
        exact heff.trans heff'

theorem lsClone_effect {m : Mem α κ} {c : Contents α} {list r : Nat} {ns : List (Nat × α)}
    {its : List Nat} (h : Holds m c) (hc : c list = some ns) (hnew : m.lists r = none) (hr : r ≠ 0)
    (hits : ∀ it ∈ its, Mallocs m it) (hnodup : (its.filter (· ≠ 0)).Nodup) :
    ∃ m', lsClone m list r its = some (r, m') ∧
      Effect m m' c r (clonedNodes (ns.map Prod.snd) its) ∧
      lengthOf m' r = some (clonedNodes (ns.map Prod.snd) its).length := by
  have hl := h.listed list ns hc
  obtain ⟨l, hlist, hhead, -⟩ := hl.exists_list
  have hne : list ≠ r := by
    rintro rfl
    rw [hnew] at hlist
    cases hlist
  obtain ⟨-, heff, hzero⟩ := lsNewf_effect h hr false
  have hits' : ∀ it ∈ its, Mallocs (lsNewf m r false).2 it := by
    intro it hit
    have hiters : (lsNewf m r false).2.iters = m.iters := by
      rw [lsNewf, if_neg hr]
    rw [Mallocs, hiters]
    exact hits it hit
  have hc' : c.put r [] list = some ([] ++ ns) := by
    rw [c.put_of_ne [] hne]
    exact hc
  obtain ⟨m', hloop, heff'⟩ := lsClone_loop heff.holds hc' (c.put_self r []) hne hits' hnodup
  refine ⟨m', ?_, heff.trans heff', heff'.length [] (c.put_self r []) hzero⟩
  have hlist' : (lsNewf m r false).2.lists list = some l := by
    rw [heff.others list hne]
    exact hlist
  simp only [lsClone, hl.ne_zero, hr, or_self, if_false, list_eq hl.ne_zero, hlist',
    Option.bind_eq_bind, Option.bind_some, hhead, hloop.result]

end SdbStore.Ls
