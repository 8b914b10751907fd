import Mathlib.Algebra.Group.Nat.Defs
import SdbStore.Ls.Merge

/-!
# Sorting a list

`ls_merge_sort` divides the chain of the nodes until it is short, sorts the short chains by
exchanges and merges them, which makes the backward links right again; a chain that is short from
the beginning keeps its links.
-/

namespace SdbStore.Ls

open Lib

variable {α κ : Type}

/-- The merging of nodes is that of their elements. -/
theorem map_lsMerge (cmp : α → α → Int) (l₁ l₂ : List (Nat × α)) :
    (lsMerge (byData cmp) l₁ l₂).map Prod.snd =
      lsMerge cmp (l₁.map Prod.snd) (l₂.map Prod.snd) := by
  fun_induction lsMerge (byData cmp) l₁ l₂ with
  | case1 l₂ => rw [List.map_nil, lsMerge]
  | case2 b l₁ => rw [List.map_nil, List.map_cons, lsMerge]
  | case3 a l₁ b l₂ h ih =>
      rw [List.map_cons, ih, List.map_cons, List.map_cons, lsMerge]
      exact (if_pos h).symm
  | case4 a l₁ b l₂ h ih =>
      rw [List.map_cons, ih, List.map_cons, List.map_cons, lsMerge]
      exact (if_neg h).symm

/-- The nodes of a chain have been sorted. -/
structure Sorts (cmp : α → α → Int) (m m' : Mem α κ) (ns ns' : List (Nat × α)) : Prop where
  chain : Chain m' ns'
  nodes : (addrs ns').Perm (addrs ns)
  elements : (ns'.map Prod.snd).Perm (ns.map Prod.snd)
  inOrder : InOrder cmp (ns'.map Prod.snd)
  backward : Backward (pOf m) 0 (addrs ns) → Backward (pOf m') 0 (addrs ns')
  touches : Touches m m' (addrs ns)

section Sorts

variable {m m' : Mem α κ} {ns l₁ l₂ : List (Nat × α)} {cmp : α → α → Int}

/-- A chain with no more than one node is sorted. -/
theorem Sorts.short (h : Chain m ns) (hlen : ns.length < 2) : Sorts cmp m m ns ns := by
  refine ⟨h, List.Perm.refl _, List.Perm.refl _, ?_, id, .refl m _⟩
  match ns, hlen with
  | [], _ => exact List.Pairwise.nil
  | [b], _ => exact List.pairwise_singleton _ _

theorem mergeSort_short (h : Chain m ns) (hlen : ns.length < 2) (depth : Nat) :
    mergeSort cmp (depth + 1) m ((addrs ns).headD 0) = some ((addrs ns).headD 0, m) := by
  match ns, hlen, h with
  | [], _, _ => rw [mergeSort, addrs_nil, List.headD_nil, if_pos rfl]
  | [(a, x)], _, h =>
      obtain ⟨p, hi⟩ := h.iter
      simp only [mergeSort, addrs_cons, List.headD_cons, h.ne_zero, if_false, iter_eq h.ne_zero, hi,
        Option.bind_eq_bind, Option.bind_some, addrs_nil, List.headD_nil, if_true]

/-- The first node of a chain that has another one. -/
theorem exists_first (h : Chain m ns) (hlen : 2 ≤ ns.length) : ∃ i, (addrs ns).headD 0 ≠ 0 ∧
    m.iters ((addrs ns).headD 0) = some i ∧ i.n ≠ 0 := by
  match ns, hlen, h with
  | (a, x) :: (b, y) :: l, _, h =>
      obtain ⟨p, hi⟩ := h.iter
      exact ⟨_, h.ne_zero, hi, h.tail.ne_zero⟩

variable [IsStrictWeakOrder α fun a b ↦ cmp a b > 0]

variable (cmp) in
/-- `ls_insertion_sort_iter` sorts. -/
theorem lsInsertionSortIter_sorts (h : Chain m ns) : ∃ m' ns',
    lsInsertionSortIter cmp m ((addrs ns).headD 0) = some m' ∧ addrs ns' = addrs ns ∧
      Sorts cmp m m' ns ns' := by
  obtain ⟨m', ns', hloop, haddrs, hmap, hchain, hlinks, ht⟩ := insertionSort_loop cmp h
  refine ⟨m', ns', hloop.result, haddrs, hchain, ?_, ?_, ?_, fun hback ↦ ?_, ht⟩
  · rw [haddrs]
  · rw [hmap]
    exact lsInsertionSort_perm cmp _
  · rw [hmap]
    exact lsInsertionSort_inOrder cmp _
  · rw [haddrs]
    exact hback.congr fun a _ ↦ (hlinks a).2

variable (cmp) in
/-- **`_merge_sort`** sorts a chain, as its calls are nested no deeper than the length halves. -/
theorem mergeSort_sorts {depth : Nat} (h : Chain m ns) (hlen : ns.length ≤ 2 ^ depth) : ∃ m' ns',
    mergeSort cmp (depth + 1) m ((addrs ns).headD 0) = some ((addrs ns').headD 0, m') ∧
      Sorts cmp m m' ns ns' := by
  induction depth generalizing m ns with
  | zero =>
      have hshort : ns.length < 2 := by omega
      exact ⟨m, ns, mergeSort_short h hshort 0, .short h hshort⟩
  | succ depth ih =>
      by_cases hshort : ns.length < 2
      · exact ⟨m, ns, mergeSort_short h hshort _, .short h hshort⟩
      · obtain ⟨i, h0, hi, hn⟩ := exists_first h (Nat.le_of_not_lt hshort)
        rcases sdbListSplit_cases h (Nat.le_of_not_lt hshort) with
          hsplit | ⟨l₁, l₂, m₁, rfl, hne₁, hne₂, hlen₁, hlen₂, hsplit, hchain₁, hchain₂, ht₁⟩
        · -- a short chain
          obtain ⟨m', ns', hsort, haddrs, hsorts⟩ := lsInsertionSortIter_sorts cmp h
          refine ⟨m', ns', ?_, hsorts⟩
          rw [haddrs]
          simp only [mergeSort, h0, if_false, iter_eq h0, hi, Option.bind_eq_bind, Option.bind_some,
            hn, hsplit, ne_eq, not_true_eq_false, hsort]
        · -- two halves
          have hpow : 2 ^ (depth + 1) = 2 * 2 ^ depth := Nat.pow_succ'
          have hpos : 0 < 2 ^ depth := Nat.pow_pos (by decide)
          rw [hpow] at hlen
          have hdis : List.Disjoint (addrs l₁) (addrs l₂) := h.disjoint
          obtain ⟨m₂, ns₁, hsort₁, hs₁⟩ := ih hchain₁ (by omega)
          have hchain₂' : Chain m₂ l₂ := hchain₂.touches hs₁.touches fun a ha ha' ↦ hdis ha' ha
          obtain ⟨m₃, ns₂, hsort₂, hs₂⟩ := ih hchain₂' (by omega)
          have hchain₁' : Chain m₃ ns₁ := hs₁.chain.touches hs₂.touches fun a ha ha' ↦
            hdis (hs₁.nodes.mem_iff.mp ha) ha'
          have hdis' : List.Disjoint (addrs ns₁) (addrs ns₂) := fun a ha ha' ↦
            hdis (hs₁.nodes.mem_iff.mp ha) (hs₂.nodes.mem_iff.mp ha')
          obtain ⟨m', hmerge, hchain, hback, ht⟩ := merge_eq cmp hchain₁' hs₂.chain hdis'
          have hperm := (lsMerge_perm (byData cmp) ns₁ ns₂).map Prod.fst
          have hnodes : (addrs (lsMerge (byData cmp) ns₁ ns₂)).Perm (addrs (l₁ ++ l₂)) := by
            refine hperm.trans ?_
            rw [List.map_append, addrs_append]
            exact hs₁.nodes.append hs₂.nodes
          refine ⟨m', lsMerge (byData cmp) ns₁ ns₂, ?_, hchain, hnodes, ?_, ?_, fun _ ↦ hback, ?_⟩
          · have hne : (addrs l₂).headD 0 ≠ 0 := by
              cases l₂ with
              | nil => exact absurd rfl hne₂
              | cons b l => exact hchain₂.ne_zero
            have hheads : (addrs (l₁ ++ l₂)).headD 0 = (addrs l₁).headD 0 := by
              cases l₁ with
              | nil => exact absurd rfl hne₁
              | cons b l => rfl
            rw [mergeSort]
            simp only [h0, if_false, iter_eq h0, hi, Option.bind_eq_bind, Option.bind_some, hn,
              hsplit, ne_eq, hne, not_false_eq_true, if_true]
            rw [hheads]
            simp only [hsort₁, Option.bind_some, hsort₂, hmerge]
          · rw [map_lsMerge, List.map_append]
            exact (lsMerge_perm cmp _ _).trans (hs₁.elements.append hs₂.elements)
          · rw [map_lsMerge]
            exact lsMerge_inOrder cmp hs₁.inOrder hs₂.inOrder
          · have hleft : ∀ a ∈ addrs l₁, a ∈ addrs (l₁ ++ l₂) := fun a ha ↦ by
              rw [addrs_append]
              exact List.mem_append_left _ ha
            have hright : ∀ a ∈ addrs l₂, a ∈ addrs (l₁ ++ l₂) := fun a ha ↦ by
              rw [addrs_append]
              exact List.mem_append_right _ ha
            exact ((ht₁.trans (hs₁.touches.mono hleft)).trans (hs₂.touches.mono hright)).trans
              (ht.mono fun a ha ↦ hnodes.mem_iff.mp ha)

end Sorts

/-! ## Whole lists -/

section Whole

variable {m m' : Mem α κ} {c : Contents α} {list : Nat} {ns ns' : List (Nat × α)}

/-- The nodes of a list are a chain, linked backwards as well. -/
theorem Listed.chain (h : Listed m list ns) : Chain m ns ∧ Backward (pOf m) 0 (addrs ns) := by
  obtain ⟨hf, hb⟩ := linked_iff.mp h.links
  have hne : ∀ a ∈ addrs ns, a ≠ 0 := by
    rintro a ha rfl
    exact h.notMem_zero ha
  exact ⟨⟨hf.2.congr fun a ha ↦ (nextOf_node (hne a ha)).symm, h.nodup, h.data⟩,
    hb.congr fun a ha ↦ (prevOf_node (hne a ha)).symm⟩

/-- A chain that is linked backwards makes up a list, if the list knows its ends. -/
theorem Chain.listed {l : SdbList κ} (h : Chain m ns) (hb : Backward (pOf m) 0 (addrs ns))
    (hne : list ≠ 0) (hl : m.lists list = some l) (hhead : l.head = (addrs ns).headD 0)
    (htail : l.tail = lastOf 0 (addrs ns)) : Listed m list ns := by
  have hne0 : ∀ a ∈ addrs ns, a ≠ 0 := by
    rintro a ha rfl
    exact (List.nodup_cons.mp h.nodup).1 ha
  refine ⟨hne, linked_iff.mpr ⟨⟨?_, ?_⟩, ?_⟩, ?_, h.nodup, h.data⟩
  · rw [nextOf_zero, hl, ← hhead]
    rfl
  · exact h.forward.congr fun a ha ↦ nextOf_node (hne0 a ha)
  · exact hb.congr fun a ha ↦ prevOf_node (hne0 a ha)
  · rw [prevOf_zero, hl, ← htail]
    rfl

/-- The nodes of a list are sorted, and the list learns its ends. -/
theorem Sorts.effect {cmp : α → α → Int} {m₁ : Mem α κ} (h : Holds m c) (hc : c list = some ns)
    (hs : Sorts cmp m m₁ ns ns') {f : SdbList κ → SdbList κ} (hm' : m' = m₁.modList list f)
    (hf : ∀ l, m.lists list = some l → (f l).head = (addrs ns').headD 0 ∧
      (f l).tail = lastOf 0 (addrs ns') ∧ (f l).length = l.length) : Effect m m' c list ns' := by
  subst hm'
  have hl := h.listed list ns hc
  obtain ⟨hchain, hback⟩ := hl.chain
  obtain ⟨l, hlist, -, -⟩ := hl.exists_list
  obtain ⟨hhead, htail, hlength⟩ := hf l hlist
  have hlist₁ : (m₁.modList list f).lists list = some (f l) := by
    rw [lists_modList_self, hs.touches.lists, hlist]
    rfl
  have hchain' : Chain (m₁.modList list f) ns' := hs.chain.congr fun _ _ ↦ rfl
  have hframe : Frame m (m₁.modList list f) list (addrs ns) := by
    refine ⟨fun a _ ha ↦ hs.touches.iters a ha, fun list' hne ↦ ?_⟩
    rw [lists_modList_of_ne f hne, hs.touches.lists]
  refine ⟨h.change (hchain'.listed (hs.backward hback) hl.ne_zero hlist₁ hhead htail) hframe
    (fun a ha ↦ own_of_mem h hc ha)
    (fun a ha ↦ own_of_mem h hc (hs.nodes.mem_iff.mp ha)) fun a ha ↦ ?_, fun old hold hlen ↦ ?_,
    hframe.lists⟩
  · rw [iters_modList, hs.touches.isSome] at ha
    exact .inl ha
  · obtain rfl := Option.some.inj (hc.symm.trans hold)
    rw [lengthOf, hlist] at hlen
    have hperm := hs.nodes.length_eq
    rw [List.length_map, List.length_map] at hperm
    rw [lengthOf, hlist₁, Option.map_some, hlength, hperm]
    exact hlen

/-- The loop of `ls_merge_sort` that looks for the tail. -/
theorem tail_loop {b : Nat × α} (h : Chain m (b :: ns)) :
    LoopEnds (tailTurn m) b.1 (lastOf b.1 (addrs ns)) := by
  induction ns generalizing b with
  | nil =>
      obtain ⟨a, x⟩ := b
      obtain ⟨p, hi⟩ := h.iter
      refine .stop ?_
      simp only [tailTurn, h.ne_zero, if_false, iter_eq h.ne_zero, hi, Option.bind_eq_bind,
        Option.bind_some, addrs_nil, List.headD_nil, if_true, lastOf_nil]
  | cons d ns ih =>
      obtain ⟨a, x⟩ := b
      obtain ⟨p, hi⟩ := h.iter
      rw [addrs_cons, lastOf_cons]
      refine .turn ?_ (ih h.tail)
      have hne : d.1 ≠ 0 := Chain.ne_zero (x := d.2) h.tail
      simp only [tailTurn, h.ne_zero, if_false, iter_eq h.ne_zero, hi, Option.bind_eq_bind,
        Option.bind_some, addrs_cons, List.headD_cons, hne]

variable (call : κ → α → α → Int) (cmp : κ) [IsStrictWeakOrder α fun a b ↦ call cmp a b > 0]

/-- `ls_merge_sort` sorts the elements of a list, and its nodes stay a list. -/
theorem lsMergeSort_effect (h : Holds m c) (hc : c list = some ns) : ∃ m' ns',
    lsMergeSort call m list (some cmp) = some (true, m') ∧ Effect m m' c list ns' ∧
      (ns'.map Prod.snd).Perm (ns.map Prod.snd) ∧ InOrder (call cmp) (ns'.map Prod.snd) ∧
      ((m'.lists list).map SdbList.cmp = (m.lists list).map SdbList.cmp) := by
  have hl := h.listed list ns hc
  obtain ⟨l, hlist, hhead, -⟩ := hl.exists_list
  cases ns with
  | nil =>
      refine ⟨m, [], ?_, .refl h hc, List.Perm.refl _, List.Pairwise.nil, rfl⟩
      have hhead0 : l.head = 0 := hhead
      simp only [lsMergeSort, hl.ne_zero, if_false, list_eq hl.ne_zero, hlist, Option.bind_eq_bind,
        Option.bind_some, hhead0, if_true]
  | cons b ns =>
      have hpow : (b :: ns).length ≤ 2 ^ 63 :=
        Nat.le_of_lt (Nat.lt_of_lt_of_le (h.length_lt hc) (by decide))
      obtain ⟨m₁, ns', hsort, hs⟩ := mergeSort_sorts (call cmp) hl.chain.1 hpow
      rw [← hhead] at hsort
      have hne : l.head ≠ 0 := by
        rw [hhead]
        exact Chain.ne_zero (x := b.2) hl.chain.1
      cases ns' with
      | nil => exact absurd hs.nodes.length_eq (by simp)
      | cons d ns' =>
          have hlist₁ : m₁.lists list = some l := by
            rw [hs.touches.lists]
            exact hlist
          have hsome₁ : (m₁.lists list).isSome := by
            rw [hlist₁]
            rfl
          have hchain₂ : Chain (m₁.modList list fun l ↦ { l with head := d.1 }) (d :: ns') :=
            hs.chain.congr fun _ _ ↦ rfl
          have hloop := tail_loop hchain₂
          refine ⟨_, d :: ns', ?_, hs.effect h hc (f := fun l ↦ { l with
            head := d.1, tail := lastOf d.1 (addrs ns'), sorted := true }) rfl fun l' _ ↦
              ⟨rfl, (lastOf_cons 0 d.1 (addrs ns')).symm, rfl⟩, hs.elements, hs.inOrder, ?_⟩
          · simp only [lsMergeSort, hl.ne_zero, if_false, list_eq hl.ne_zero, hlist,
              Option.bind_eq_bind, Option.bind_some, hne, hsort, addrs_cons, List.headD_cons,
              setList_of_isSome hl.ne_zero hsome₁, hloop.result]
            rw [setList_of_isSome hl.ne_zero]
            · rw [modList_modList]
              rfl
            · rw [isSome_lists_modList]
              exact hsome₁
          · rw [lists_modList_self, hlist₁, hlist]
            rfl

end Whole

/-- **`ls_merge_sort` sorts.**  In a memory whose lists are well-formed it comes back for every list
and every comparator that is a strict weak order: the list is well-formed and as long as before, and
has the same elements, in order. -/
theorem lsMergeSort_sorts (call : κ → α → α → Int) (cmp : κ)
    (hcmp : IsStrictWeakOrder α fun a b ↦ call cmp a b > 0) {m : Mem α κ} {c : Contents α}
    {list : Nat} {ns : List (Nat × α)} (h : Measured m c) (hc : c list = some ns) : ∃ m' ns',
      lsMergeSort call m list (some cmp) = some (true, m') ∧ Measured m' (c.put list ns') ∧
      ns'.length = ns.length ∧ (ns'.map Prod.snd).Perm (ns.map Prod.snd) ∧
      InOrder (call cmp) (ns'.map Prod.snd) := by
  obtain ⟨m', ns', hrun, heff, hperm, hin, -⟩ := lsMergeSort_effect call cmp h.holds hc
  refine ⟨m', ns', hrun, h.effect hc heff, ?_, hperm, hin⟩
  have hlen := hperm.length_eq
  rw [List.length_map, List.length_map] at hlen
  exact hlen

/-- A list with the elements `5` and `3`, in a memory with no other one. -/
def lsFiveThree : Mem Int Unit :=
  (lsAppend (lsAppend (lsNewf .empty 8 false).2 8 16 (some 5)).get!.2 8 24 (some 3)).get!.2

/-- It is the list. -/
theorem lsFiveThree_measured : ∃ c, Measured lsFiveThree c ∧ c 8 = some [(16, 5), (24, 3)] := by
  have h₀ : Measured (.empty : Mem Int Unit) fun _ ↦ none := ⟨.empty, fun _ _ hc ↦ nomatch hc⟩
  obtain ⟨m₁, hrun₁, h₁⟩ := @Measured.step _ _ _ _ h₀ (.newf 8 false) (.inr rfl) id
  obtain rfl := congrArg Prod.snd (Option.some.inj hrun₁)
  obtain ⟨m₂, hrun₂, h₂⟩ :=
    @Measured.step _ _ _ _ h₁ (.append 8 16 5) ⟨rfl, .inr ⟨by decide, rfl⟩⟩ id
  obtain rfl := congrArg Prod.snd (Option.some.inj hrun₂)
  obtain ⟨m₃, hrun₃, h₃⟩ :=
    @Measured.step _ _ _ _ h₂ (.append 8 24 3) ⟨rfl, .inr ⟨by decide, rfl⟩⟩ id
  obtain rfl := congrArg Prod.snd (Option.some.inj hrun₃)
  exact ⟨_, h₃, rfl⟩

/-- The difference is a comparator. -/
instance isStrictWeakOrder_sub : IsStrictWeakOrder Int fun a b ↦ a - b > 0 where
  irrefl a := by omega
  trans a b c := by omega
  incomp_trans a b c := by omega

theorem lsFiveThree_sorts : ∃ (m' : Mem Int Unit) (c : Contents Int) (ns : List (Nat × Int)),
    lsMergeSort (fun _ a b ↦ a - b) lsFiveThree 8 (some ()) = some (true, m') ∧
      Measured m' (c.put 8 ns) ∧ ns.length = 2 ∧ (ns.map Prod.snd).Perm [5, 3] ∧
        InOrder (fun a b ↦ a - b) (ns.map Prod.snd) := by
  obtain ⟨c, h, hc⟩ := lsFiveThree_measured
  obtain ⟨m', ns, hrun, h', hlen, hperm, hin⟩ :=
    lsMergeSort_sorts (fun _ a b ↦ a - b) () inferInstance h hc
  exact ⟨m', c, ns, hrun, h', hlen, hperm, hin⟩

end SdbStore.Ls
