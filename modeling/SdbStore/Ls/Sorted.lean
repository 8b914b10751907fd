import SdbStore.Ls.Sorting

/-!
# Lists that have been sorted before

`ls_sort` keeps the comparator that a list has been sorted by, and does nothing when it is called
with it again.  The functions that change a list clear its flag `sorted`, but leave the comparator,
so a list that is changed between two sorts by the same comparator stays as it is.
-/

namespace SdbStore.Ls

open Lib

variable {α κ : Type}

/-! ## One list behind another -/

section Join

variable {m m' : Mem α κ} {c : Contents α} {list list1 list2 : Nat} {ns ns1 ns2 : List (Nat × α)}

/-- The nodes that `ls_join` writes: the last one of the first list, and the first and the last one
of the second. -/
def Mem.tied (m : Mem α κ) (tail1 head2 tail2 : Nat) : Mem α κ :=
  ((m.modIter tail1 fun t ↦ { t with n := head2 }).modIter head2 fun h ↦
    { h with p := tail1 }).modIter tail2 fun t ↦ { t with n := 0 }

theorem isSome_iters_tied {a tail1 head2 tail2 : Nat} :
    ((m.tied tail1 head2 tail2).iters a).isSome = (m.iters a).isSome := by
  rw [Mem.tied, isSome_iters_modIter, isSome_iters_modIter, isSome_iters_modIter]

theorem dataOf_tied {a tail1 head2 tail2 : Nat} :
    dataOf (m.tied tail1 head2 tail2) a = dataOf m a := by
  rw [Mem.tied, dataOf_modIter, dataOf_modIter, dataOf_modIter]
  all_goals exact fun _ ↦ rfl

theorem pOf_tied_of_ne {a tail1 head2 tail2 : Nat} (h : a ≠ head2) :
    pOf (m.tied tail1 head2 tail2) a = pOf m a := by
  rw [Mem.tied, pOf_modIter, pOf_modIter_of_ne _ h, pOf_modIter]
  all_goals exact fun _ ↦ rfl

theorem pOf_tied_self {tail1 head2 tail2 : Nat} (h : (m.iters head2).isSome) :
    pOf (m.tied tail1 head2 tail2) head2 = some tail1 := by
  rw [Mem.tied, pOf_modIter (f := fun t : SdbListIter α ↦ { t with n := 0 }) fun _ ↦ rfl, pOf,
    iters_modIter_self, Option.map_map]
  rw [← isSome_iters_modIter (a := tail1) fun t ↦ { t with n := head2 }] at h
  obtain ⟨i, hi⟩ := Option.isSome_iff_exists.mp h
  rw [hi]
  rfl

theorem nOf_tied_self {tail1 head2 tail2 : Nat} (h : (m.iters tail1).isSome) (hne : tail1 ≠ tail2) :
    nOf (m.tied tail1 head2 tail2) tail1 = some head2 := by
  rw [Mem.tied, nOf_modIter_of_ne _ hne,
    nOf_modIter (f := fun h : SdbListIter α ↦ { h with p := tail1 }) fun _ ↦ rfl, nOf,
    iters_modIter_self, Option.map_map]
  obtain ⟨i, hi⟩ := Option.isSome_iff_exists.mp h
  rw [hi]
  rfl

theorem nOf_tied_of_ne {a tail1 head2 tail2 : Nat} (h : a ≠ tail1) (htail : nOf m tail2 = some 0) :
    nOf (m.tied tail1 head2 tail2) a = nOf m a := by
  by_cases hne : a = tail2
  · subst hne
    rw [htail, Mem.tied, nOf, iters_modIter_self, Option.map_map]
    obtain ⟨i, hi, -⟩ := Option.map_eq_some_iff.mp htail
    have hsome : (((m.modIter tail1 fun t ↦ { t with n := head2 }).modIter head2 fun h ↦
        { h with p := tail1 }).iters a).isSome := by
      rw [isSome_iters_modIter, isSome_iters_modIter, hi]
      rfl
    obtain ⟨i', hi'⟩ := Option.isSome_iff_exists.mp hsome
    rw [hi']
    rfl
  · rw [Mem.tied, nOf_modIter_of_ne _ hne,
      nOf_modIter (f := fun h : SdbListIter α ↦ { h with p := tail1 }) fun _ ↦ rfl,
        nOf_modIter_of_ne _ h]

/-- The nodes of two lists become one list, if it knows its ends. -/
theorem Listed.join {l : SdbList κ} (h1 : Listed m list1 ns1) (h2 : Listed m list2 ns2)
    (hdis : List.Disjoint (addrs ns1) (addrs ns2)) (hne1 : ns1 ≠ []) (hne2 : ns2 ≠ [])
    (hiters : m'.iters =
      (m.tied (lastOf 0 (addrs ns1)) ((addrs ns2).headD 0) (lastOf 0 (addrs ns2))).iters)
    (hl : m'.lists list1 = some l) (hhead : l.head = (addrs ns1).headD 0)
    (htail : l.tail = lastOf 0 (addrs ns2)) : Listed m' list1 (ns1 ++ ns2) := by
  obtain ⟨b, ns1, rfl⟩ := List.exists_cons_of_ne_nil hne1
  obtain ⟨d, ns2, rfl⟩ := List.exists_cons_of_ne_nil hne2
  obtain ⟨hchain1, hback1⟩ := h1.chain
  obtain ⟨hchain2, hback2⟩ := h2.chain
  rw [addrs_cons, addrs_cons, lastOf_cons, lastOf_cons, List.headD_cons] at hiters
  have hlast1 : lastOf b.1 (addrs ns1) ∈ addrs (b :: ns1) := lastOf_mem _ _
  have hlast2 : lastOf d.1 (addrs ns2) ∈ addrs (d :: ns2) := lastOf_mem _ _
  have hhead2 : d.1 ∈ addrs (d :: ns2) := List.mem_cons_self
  have hnodup : (addrs (b :: ns1) ++ addrs (d :: ns2)).Nodup :=
    (List.nodup_cons.mp hchain1.nodup).2.append (List.nodup_cons.mp hchain2.nodup).2 hdis
  have hzero : nOf m (lastOf d.1 (addrs ns2)) = some 0 := Forward.at_last hchain2.forward
  have hn : ∀ a, a ≠ lastOf b.1 (addrs ns1) → nOf m' a = nOf m a := by
    intro a ha
    rw [nOf, hiters]
    exact nOf_tied_of_ne ha hzero
  have hp : ∀ a, a ≠ d.1 → pOf m' a = pOf m a := by
    intro a ha
    rw [pOf, hiters]
    exact pOf_tied_of_ne ha
  have hdata : ∀ a, dataOf m' a = dataOf m a := by
    intro a
    rw [dataOf, hiters]
    exact dataOf_tied
  have hchain : Chain m' ((b :: ns1) ++ (d :: ns2)) := by
    refine ⟨?_, ?_, fun e he ↦ ?_⟩
    · rw [addrs_append]
      refine forward_append.mpr ⟨hchain1.forward.setLast ?_ (fun a _ ha ↦ hn a ha) ?_,
        hchain2.forward.congr fun a ha ↦ hn a ?_⟩
      · rw [nOf, hiters]
        refine nOf_tied_self (h1.isSome_iter hlast1) ?_
        intro heq
        exact hdis hlast1 (heq ▸ hlast2)
      · exact (List.nodup_cons.mp hchain1.nodup).2
      · rintro rfl
        exact hdis hlast1 ha
    · rw [addrs_append]
      refine List.nodup_cons.mpr ⟨fun h0 ↦ ?_, hnodup⟩
      exact (List.mem_append.mp h0).elim h1.notMem_zero h2.notMem_zero
    · rw [hdata]
      exact (List.mem_append.mp he).elim (h1.data e) (h2.data e)
  refine hchain.listed ?_ h1.ne_zero hl hhead ?_
  · rw [addrs_append]
    refine backward_append.mpr ⟨hback1.congr fun a ha ↦ hp a ?_, ?_, ?_⟩
    · rintro rfl
      exact hdis ha hhead2
    · rw [pOf, hiters, addrs_cons, lastOf_cons]
      exact pOf_tied_self (h2.isSome_iter hhead2)
    · refine hback2.2.congr fun a ha ↦ hp a ?_
      rintro rfl
      exact (List.nodup_cons.mp (List.nodup_cons.mp hchain2.nodup).2).1 ha
  · rw [htail, addrs_append, addrs_cons, addrs_cons, lastOf_append_cons, lastOf_cons]

/-- A list is emptied. -/
def emptied (l : SdbList κ) : SdbList κ := { l with head := 0, tail := 0 }

/-- The second list is emptied, and then the first one gets its nodes. -/
theorem Holds.moved {l : SdbList κ} {A : List Nat} (h : Holds m c) (hc1 : c list1 = some ns1)
    (hc2 : c list2 = some ns2) (hne : list1 ≠ list2) (hl : Listed m' list1 ns)
    (hns : ∀ a ∈ addrs ns, a ∈ addrs ns1 ∨ a ∈ addrs ns2)
    (hA : ∀ a ∈ A, a ∈ addrs ns1 ∨ a ∈ addrs ns2) (hiters : ∀ a, a ∉ A → m'.iters a = m.iters a)
    (hsome : ∀ a, (m'.iters a).isSome = (m.iters a).isSome) (hl2 : m.lists list2 = some l)
    (hlist2 : m'.lists list2 = some (emptied l))
    (hothers : ∀ list, list ≠ list1 → list ≠ list2 → m'.lists list = m.lists list) :
    Holds m' ((c.put list2 []).put list1 ns) := by
  have hlists : (m.modList list2 emptied).lists list2 = some (emptied l) := by
    rw [lists_modList_self, hl2]
    rfl
  have hempty : Holds (m.modList list2 emptied) (c.put list2 []) :=
    h.change (A := []) (listed_nil (h.listed list2 ns2 hc2).ne_zero hlists rfl rfl)
      (Frame.modList _)
      (fun _ ha ↦ absurd ha List.not_mem_nil)
      (fun _ ha ↦ absurd ha List.not_mem_nil) fun _ ha ↦ .inl ha
  have hown : ∀ a, a ∈ addrs ns1 ∨ a ∈ addrs ns2 → Own (c.put list2 []) list1 a := by
    intro a ha list ns hlist hc' ha'
    by_cases heq : list = list2
    · subst heq
      rw [c.put_self] at hc'
      obtain rfl := Option.some.inj hc'
      cases ha'
    · rw [c.put_of_ne _ heq] at hc'
      rcases ha with ha | ha
      · exact h.apart list list1 ns ns1 hlist hc' hc1 ha' ha
      · exact h.apart list list2 ns ns2 heq hc' hc2 ha' ha
  refine hempty.change hl ⟨fun a _ ha ↦ hiters a ha, fun list hlist ↦ ?_⟩
    (fun a ha ↦ hown a (hA a ha)) (fun a ha ↦ hown a (hns a ha)) fun a ha ↦ ?_
  · by_cases heq : list = list2
    · rw [heq, hlist2, hlists]
    · rw [lists_modList_of_ne _ heq]
      exact hothers list hlist heq
  · rw [hsome] at ha
    exact .inl ha

section Joined

variable {n : Nat}

theorem lists_joined_fst (hne : list1 ≠ list2) : (m.joined list1 list2 n).lists list1 =
    (m.lists list1).map fun l ↦ { l with length := sizeT (l.length + n), sorted := false } := by
  rw [Mem.joined, lists_modList_self, lists_modList_of_ne _ hne, lists_modList_self, Option.map_map]
  rfl

theorem lists_joined_snd (hne : list1 ≠ list2) :
    (m.joined list1 list2 n).lists list2 = (m.lists list2).map emptied := by
  rw [Mem.joined, lists_modList_of_ne _ hne.symm, lists_modList_self,
    lists_modList_of_ne _ hne.symm]
  rfl

theorem lists_joined_of_ne (h1 : list ≠ list1) (h2 : list ≠ list2) :
    (m.joined list1 list2 n).lists list = m.lists list := by
  rw [Mem.joined, lists_modList_of_ne _ h1, lists_modList_of_ne _ h2, lists_modList_of_ne _ h1]

/-- A list that is put behind itself is emptied. -/
theorem listed_joined_same (hne : list ≠ 0) (h : (m.lists list).isSome) :
    Listed (m.joined list list n) list [] := by
  obtain ⟨l, hl⟩ := Option.isSome_iff_exists.mp h
  have hlist : (m.joined list list n).lists list =
      some { emptied l with length := sizeT (l.length + n), sorted := false } := by
    rw [Mem.joined, lists_modList_self, lists_modList_self, lists_modList_self, hl]
    rfl
  exact listed_nil hne hlist rfl rfl

end Joined

theorem last_mem (h : ns ≠ []) : lastOf 0 (addrs ns) ∈ addrs ns := by
  obtain ⟨b, ns, rfl⟩ := List.exists_cons_of_ne_nil h
  rw [addrs_cons, lastOf_cons]
  exact lastOf_mem b.1 (addrs ns)

theorem head_mem (h : ns ≠ []) : (addrs ns).headD 0 ∈ addrs ns := by
  obtain ⟨b, ns, rfl⟩ := List.exists_cons_of_ne_nil h
  exact List.mem_cons_self

/-- Whatever `ls_join` does, the memory still has lists. -/
theorem Joins.holds {b : Bool} (h : Joins m list1 list2 b m') (hm : Holds m c)
    (hc1 : c list1 = some ns1) (hc2 : c list2 = some ns2) : ∃ c', Holds m' c' := by
  have hl1 := hm.listed list1 ns1 hc1
  have hl2 := hm.listed list2 ns2 hc2
  obtain ⟨l1', hlist1, hhead1, htail1⟩ := hl1.exists_list
  obtain ⟨l2', hlist2, hhead2, htail2⟩ := hl2.exists_list
  cases h with
  | nothing => exact ⟨c, hm⟩
  | @replace l1 l2 h1 h2 hlen2 hlen1 =>
      rw [list_eq hl1.ne_zero, hlist1] at h1
      rw [list_eq hl2.ne_zero, hlist2] at h2
      cases h1
      cases h2
      have hne : list1 ≠ list2 := by
        rintro rfl
        obtain rfl := Option.some.inj (hlist1.symm.trans hlist2)
        exact hlen2 hlen1
      obtain ⟨hchain, hback⟩ := hl2.chain
      refine ⟨(c.put list2 []).put list1 ns2, hm.moved (A := []) hc1 hc2 hne ?_ (fun a ha ↦ .inr ha)
        (fun _ ha ↦ absurd ha List.not_mem_nil) (fun _ _ ↦ rfl)
        (fun _ ↦ rfl) hlist2 ?_ fun list h1 h2 ↦ ?_⟩
      · have hchain' : Chain ((m.modList list1 fun l ↦ { l with
            head := l2'.head, tail := l2'.tail }).joined list1 list2 l2'.length) ns2 :=
              hchain.congr fun _ _ ↦ rfl
        refine hchain'.listed hback hl1.ne_zero (l := { l1' with
          head := l2'.head, tail := l2'.tail, length := sizeT (l1'.length + l2'.length), sorted :=
            false })
            ?_ hhead2 htail2
        rw [lists_joined_fst hne, lists_modList_self, hlist1]
        rfl
      · rw [lists_joined_snd hne, lists_modList_of_ne _ hne.symm, hlist2]
        rfl
      · rw [lists_joined_of_ne h1 h2, lists_modList_of_ne _ h1]
  | @behind l1 l2 h1 h2 hlen2 hlen1 htail hhead =>
      rw [list_eq hl1.ne_zero, hlist1] at h1
      rw [list_eq hl2.ne_zero, hlist2] at h2
      cases h1
      cases h2
      -- both lists have nodes, or the call would not have come back
      have hne1 : ns1 ≠ [] := by
        rintro rfl
        rw [htail1] at htail
        cases htail
      have hne2 : ns2 ≠ [] := by
        rintro rfl
        rw [hhead2] at hhead
        cases hhead
      rw [hhead2, htail1, htail2]
      have htouch : ∀ a, a ∉ addrs ns1 ++ addrs ns2 →
          (m.tied (lastOf 0 (addrs ns1)) ((addrs ns2).headD 0) (lastOf 0 (addrs ns2))).iters a =
            m.iters a := by
        intro a ha
        rw [List.mem_append, not_or] at ha
        rw [Mem.tied, iters_modIter_of_ne _ (ne_of_mem_of_not_mem (last_mem hne2) ha.2).symm,
          iters_modIter_of_ne _ (ne_of_mem_of_not_mem (head_mem hne2) ha.2).symm,
          iters_modIter_of_ne _ (ne_of_mem_of_not_mem (last_mem hne1) ha.1).symm]
      by_cases hne : list1 = list2
      · -- the nodes are in no list any more
        subst hne
        obtain rfl := Option.some.inj (hc1.symm.trans hc2)
        refine ⟨c.put list1 [], hm.change (A := addrs ns1) (listed_joined_same hl1.ne_zero ?_)
          ⟨fun a _ ha ↦ htouch a (by simp [ha]), fun list hne ↦ ?_⟩
            (fun a ha ↦ own_of_mem hm hc1 ha)
            (fun _ ha ↦ absurd ha List.not_mem_nil) fun a ha ↦ .inl ?_⟩
        · rw [lists_modIter, lists_modList_self, lists_modIter, lists_modIter, hlist1]
          rfl
        · rw [lists_joined_of_ne hne hne, lists_modIter, lists_modList_of_ne _ hne]
          rfl
        · rw [← isSome_iters_tied]
          exact ha
      · refine ⟨(c.put list2 []).put list1 (ns1 ++ ns2),
          hm.moved (A := addrs ns1 ++ addrs ns2) hc1 hc2 hne ?_ (fun a ha ↦ ?_) (fun a ha ↦ ?_)
            htouch (fun a ↦ isSome_iters_tied) hlist2 ?_ fun list h1 h2 ↦ ?_⟩
        · refine hl1.join hl2 (hm.apart list1 list2 ns1 ns2 hne hc1 hc2) hne1 hne2 rfl
            (l := { l1' with
              tail := lastOf 0 (addrs ns2)
              length := sizeT (l1'.length + l2'.length)
              sorted := false }) ?_ hhead1 rfl
          rw [lists_joined_fst hne, lists_modIter, lists_modList_self, lists_modIter, lists_modIter,
            hlist1]
          rfl
        · rw [addrs_append] at ha
          exact List.mem_append.mp ha
        · exact List.mem_append.mp ha
        · rw [lists_joined_snd hne, lists_modIter, lists_modList_of_ne _ (Ne.symm hne),
            lists_modIter, lists_modIter, hlist2]
          rfl
        · rw [lists_joined_of_ne h1 h2, lists_modIter, lists_modList_of_ne _ h1]
          rfl

end Join

/-! ## Calls -/

section Calls

variable {m m' : Mem α κ} {c : Contents α} {list : Nat} {ns : List (Nat × α)}

/-- A legal call that comes back leaves lists behind. -/
theorem Holds.call (h : Holds m c) {op : LsOp α} (hlegal : Legal m c op) {r : Answer α × Mem α κ}
    (hrun : op.run m = some r) : ∃ c', Holds r.2 c' := by
  cases op with
  | newf list freefn =>
      obtain rfl := Option.some.inj hrun
      by_cases h0 : list = 0
      · refine ⟨c, ?_⟩
        rw [lsNewf, if_pos h0]
        exact h
      · exact ⟨_, (lsNewf_effect h h0 freefn).2.1.holds⟩
  | append list it x =>
      obtain ⟨hsome, hit⟩ := hlegal
      obtain ⟨ns, hc⟩ := Option.isSome_iff_exists.mp hsome
      obtain ⟨m', hcall, heff, -⟩ := lsAppend_effect h hc hit x
      rw [LsOp.run, hcall] at hrun
      obtain rfl := Option.some.inj hrun
      exact ⟨_, heff.holds⟩
  | prepend list it x =>
      obtain ⟨hsome, hit⟩ := hlegal
      obtain ⟨ns, hc⟩ := Option.isSome_iff_exists.mp hsome
      obtain ⟨m', hcall, heff⟩ := lsPrepend_effect h hc hit x
      rw [LsOp.run, hcall] at hrun
      obtain rfl := Option.some.inj hrun
      exact ⟨_, heff.holds⟩
  | insert list n it x =>
      obtain ⟨hsome, hit⟩ := hlegal
      obtain ⟨ns, hc⟩ := Option.isSome_iff_exists.mp hsome
      obtain ⟨m', hcall, heff⟩ := lsInsert_effect h hc n hit x
      rw [LsOp.run, hcall] at hrun
      obtain rfl := Option.some.inj hrun
      exact ⟨_, heff.holds⟩
  | pop list =>
      obtain ⟨ns, hc⟩ := Option.isSome_iff_exists.mp hlegal
      rcases ns.eq_nil_or_concat with rfl | ⟨l, b, rfl⟩
      · rw [LsOp.run, lsPop_nil h hc] at hrun
        obtain rfl := Option.some.inj hrun
        exact ⟨c, h⟩
      · rw [List.concat_eq_append] at hc
        obtain ⟨m', hcall, heff⟩ := lsPop_effect (x := b.2) h hc
        rw [LsOp.run, hcall] at hrun
        obtain rfl := Option.some.inj hrun
        exact ⟨_, heff.holds⟩
  | popHead list =>
      obtain ⟨ns, hc⟩ := Option.isSome_iff_exists.mp hlegal
      cases ns with
      | nil =>
          obtain ⟨hcall, hholds⟩ := lsPopHead_nil h hc
          rw [LsOp.run, hcall] at hrun
          obtain rfl := Option.some.inj hrun
          exact ⟨c, hholds⟩
      | cons b ns =>
          obtain ⟨m', hcall, heff⟩ := lsPopHead_effect (x := b.2) h hc
          rw [LsOp.run, hcall] at hrun
          obtain rfl := Option.some.inj hrun
          exact ⟨_, heff.holds⟩
  | delN list n =>
      obtain ⟨ns, hc⟩ := Option.isSome_iff_exists.mp hlegal
      obtain ⟨m', hcall, heff⟩ := lsDelN_effect h hc n
      rw [LsOp.run, hcall] at hrun
      obtain rfl := Option.some.inj hrun
      exact ⟨_, heff.holds⟩
  | delete list iter =>
      obtain ⟨hsome, hiter⟩ := hlegal
      obtain ⟨ns, hc⟩ := Option.isSome_iff_exists.mp hsome
      rw [at_eq hc] at hiter
      obtain ⟨l₁, x, l₂, rfl, -⟩ := exists_node (h.listed list ns hc) hiter
      obtain ⟨m', hcall, heff⟩ := lsDelete_effect h hc
      rw [LsOp.run, hcall] at hrun
      obtain rfl := Option.some.inj hrun
      exact ⟨_, heff.holds⟩
  | splitIter list iter =>
      obtain ⟨hsome, hiter⟩ := hlegal
      obtain ⟨ns, hc⟩ := Option.isSome_iff_exists.mp hsome
      rw [at_eq hc] at hiter
      obtain ⟨l₁, x, l₂, rfl, -⟩ := exists_node (h.listed list ns hc) hiter
      obtain ⟨m', hcall, heff⟩ := lsSplitIter_effect h hc
      rw [LsOp.run, hcall] at hrun
      obtain rfl := Option.some.inj hrun
      exact ⟨_, heff.holds⟩
  | join list1 list2 =>
      obtain ⟨hsome1, hsome2⟩ := hlegal
      obtain ⟨ns1, hc1⟩ := Option.isSome_iff_exists.mp hsome1
      obtain ⟨ns2, hc2⟩ := Option.isSome_iff_exists.mp hsome2
      obtain ⟨r', hjoin, rfl⟩ := Option.map_eq_some_iff.mp hrun
      exact (lsJoin_joins (h.listed list1 ns1 hc1).ne_zero
        (h.listed list2 ns2 hc2).ne_zero hjoin).holds
        h hc1 hc2
  | clone list r its =>
      obtain ⟨hsome, hr, hits, hnodup⟩ := hlegal
      obtain ⟨ns, hc⟩ := Option.isSome_iff_exists.mp hsome
      by_cases h0 : r = 0
      · rw [LsOp.run, lsClone, if_pos (.inr h0)] at hrun
        obtain rfl := Option.some.inj hrun
        exact ⟨c, h⟩
      · obtain ⟨m', hcall, heff, -⟩ := lsClone_effect h hc (hr.resolve_left h0) h0 hits hnodup
        rw [LsOp.run, hcall] at hrun
        obtain rfl := Option.some.inj hrun
        exact ⟨_, heff.holds⟩
  | destroy list =>
      obtain ⟨ns, hc⟩ := Option.isSome_iff_exists.mp hlegal
      obtain ⟨m', hcall, heff⟩ := lsDestroy_effect h hc
      rw [LsOp.run, hcall] at hrun
      obtain rfl := Option.some.inj hrun
      exact ⟨_, heff.holds⟩

/-- Fields other than the ends of a list are written. -/
theorem Listed.modList {f : SdbList κ → SdbList κ} (h : Listed m list ns)
    (hf : ∀ l, (f l).head = l.head ∧ (f l).tail = l.tail) : Listed (m.modList list f) list ns := by
  obtain ⟨hchain, hback⟩ := h.chain
  obtain ⟨l, hl, hhead, htail⟩ := h.exists_list
  have hchain' : Chain (m.modList list f) ns := hchain.congr fun _ _ ↦ rfl
  refine hchain'.listed hback h.ne_zero (l := f l) ?_ ((hf l).1.trans hhead) ((hf l).2.trans htail)
  rw [lists_modList_self, hl]
  rfl

/-- A list has been sorted by a comparator before. -/
def SortedBefore (m : Mem α κ) (list : Nat) (cmp : κ) : Prop :=
  ∃ l, m.lists list = some l ∧ l.cmp = some cmp

/-- The elements of a list are in order. -/
def Ordered (call : κ → α → α → Int) (m : Mem α κ) (list : Nat) (cmp : κ) : Prop :=
  ∃ ns, Listed m list ns ∧ InOrder (call cmp) (ns.map Prod.snd)

variable [DecidableEq κ] (call : κ → α → α → Int) {cmp : κ}

/-- A list that has been sorted by the comparator before stays as it is. -/
theorem lsSort_before (h : SortedBefore m list cmp) (hne : list ≠ 0) :
    lsSort call m list (some cmp) = some (false, m) := by
  obtain ⟨l, hl, hcmp⟩ := h
  simp only [lsSort, hne, if_false, list_eq hne, hl, Option.bind_eq_bind, Option.bind_some, hcmp,
    if_true]

/-- Another one is sorted. -/
theorem lsSort_sorts [IsStrictWeakOrder α fun a b ↦ call cmp a b > 0] (h : Holds m c)
    (hc : c list = some ns) (hbefore : ¬ SortedBefore m list cmp) : ∃ m' c',
      lsSort call m list (some cmp) = some (true, m') ∧ Holds m' c' ∧ Ordered call m' list cmp := by
  have hl := h.listed list ns hc
  obtain ⟨l, hlist, hhead, htail⟩ := hl.exists_list
  have hcmp : l.cmp ≠ some cmp := fun hcmp ↦ hbefore ⟨l, hlist, hcmp⟩
  -- both ways of sorting leave the list in order
  obtain ⟨m₁, ns', hsort, heff, hin⟩ : ∃ m₁ ns', (if l.length > mergelimit then
      (lsMergeSort call m list (some cmp)).map Prod.snd else lsInsertionSort (call cmp) m list) =
        some m₁ ∧ Effect m m₁ c list ns' ∧ InOrder (call cmp) (ns'.map Prod.snd) := by
    split
    · obtain ⟨m₁, ns', hsort, heff, -, hin, -⟩ := lsMergeSort_effect call cmp h hc
      rw [hsort]
      exact ⟨m₁, ns', rfl, heff, hin⟩
    · obtain ⟨m₁, ns', hsort, haddrs, hs⟩ := lsInsertionSortIter_sorts (call cmp) hl.chain.1
      refine ⟨m₁, ns', ?_, hs.effect h hc (f := id) ?_ fun l' hl' ↦ ?_, hs.inOrder⟩
      · rw [lsInsertionSort, list_eq hl.ne_zero, hlist, ← hsort, ← hhead]
        rfl
      · rw [Mem.modList, Option.map_id_fun, id, Function.update_eq_self]
      · obtain rfl := Option.some.inj (hlist.symm.trans hl')
        rw [haddrs]
        exact ⟨hhead, htail, rfl⟩
  have hl₁ := heff.holds.listed list ns' (c.put_self list ns')
  obtain ⟨l₁, hlist₁, -⟩ := hl₁.exists_list
  refine ⟨m₁.modList list fun l ↦ { l with cmp := some cmp, sorted := true },
    (c.put list ns').put list ns', ?_, ?_, ns', hl₁.modList fun _ ↦ ⟨rfl, rfl⟩, hin⟩
  · by_cases hlen : l.length > mergelimit
    · rw [if_pos hlen] at hsort
      simp only [lsSort, hl.ne_zero, if_false, list_eq hl.ne_zero, hlist, Option.bind_eq_bind,
        Option.bind_some, hcmp, hlen, if_true, hsort, setList_eq hl.ne_zero hlist₁]
    · rw [if_neg hlen] at hsort
      simp only [lsSort, hl.ne_zero, if_false, list_eq hl.ne_zero, hlist, Option.bind_eq_bind,
        Option.bind_some, hcmp, hlen, hsort, setList_eq hl.ne_zero hlist₁]
  · exact heff.holds.change (A := []) (hl₁.modList fun _ ↦ ⟨rfl, rfl⟩) (Frame.modList _)
      (fun _ ha ↦ absurd ha List.not_mem_nil)
      (fun a ha ↦ own_of_mem heff.holds (c.put_self list ns') ha) fun _ ha ↦ .inl ha

end Calls

/-! ## Runs -/

/-- The calls of a run with sorts. -/
inductive SortOp (α κ : Type) where
  | call (op : LsOp α)
  | sort (list : Nat) (cmp : κ)

section Runs

variable [DecidableEq κ] (call : κ → α → α → Int)

/-- One call, if it comes back. -/
def SortOp.run (m : Mem α κ) : SortOp α κ → Option (Mem α κ)
  | .call op => (op.run m).map Prod.snd
  | .sort list cmp => (lsSort call m list (some cmp)).map Prod.snd

/-- A call in a run. -/
def sortStep (s : Option (Mem α κ)) (op : SortOp α κ) : Unit × Option (Mem α κ) :=
  ((), s.bind fun m ↦ op.run call m)

/-- The memory after the first `n` calls of a run that begins without lists. -/
def sortState (ops : List (SortOp α κ)) (n : Nat) : Option (Mem α κ) :=
  stateAfter (sortStep call) (some .empty) ops n

/-- A call is legal for the lists that a memory has. -/
def SortLegal (m : Mem α κ) (op : SortOp α κ) : Prop :=
  ∀ c, Holds m c → match op with
    | .call op => Legal m c op
    | .sort list _ => (c list).isSome

variable {call} {ops : List (SortOp α κ)}
  (hcmp : ∀ list cmp, .sort list cmp ∈ ops → IsStrictWeakOrder α fun a b ↦ call cmp a b > 0)
  (hlegal : ∀ n op, ops[n]? = some op → ∀ m, sortState call ops n = some m → SortLegal m op)

theorem sortState_succ {n : Nat} {op : SortOp α κ} (hop : ops[n]? = some op) {m : Mem α κ}
    (hm : sortState call ops n = some m) : sortState call ops (n + 1) = op.run call m := by
  rw [sortState, stateAfter_succ _ _ hop]
  exact congrArg (Option.bind · fun m ↦ op.run call m) hm

include hcmp hlegal

/-- All along the run the memory has lists. -/
theorem sortState_holds {n : Nat} (hn : n ≤ ops.length) {m : Mem α κ}
    (hm : sortState call ops n = some m) : ∃ c, Holds m c := by
  induction n generalizing m with
  | zero =>
      obtain rfl := Option.some.inj hm
      exact ⟨_, .empty⟩
  | succ n ih =>
      have hop := List.getElem?_eq_getElem hn
      have hsome : (sortState call ops n).isSome := by
        rw [sortState, stateAfter_succ _ _ hop] at hm
        obtain ⟨m₀, hm₀, -⟩ := Option.bind_eq_some_iff.mp hm
        exact Option.isSome_iff_exists.mpr ⟨m₀, hm₀⟩
      obtain ⟨m₀, hm₀⟩ := Option.isSome_iff_exists.mp hsome
      rw [sortState_succ hop hm₀] at hm
      obtain ⟨c, h⟩ := ih (Nat.le_of_succ_le hn) hm₀
      have hok := hlegal n _ hop m₀ hm₀ c h
      have hmem : ops[n] ∈ ops := List.getElem_mem hn
      cases hcase : ops[n] with
      | call op =>
          rw [hcase] at hm hok
          obtain ⟨r, hr, rfl⟩ := Option.map_eq_some_iff.mp hm
          exact h.call hok hr
      | sort list cmp =>
          rw [hcase] at hm hok hmem
          obtain ⟨ns, hc⟩ := Option.isSome_iff_exists.mp hok
          by_cases hbefore : SortedBefore m₀ list cmp
          · rw [SortOp.run, lsSort_before call hbefore (h.listed list ns hc).ne_zero] at hm
            obtain rfl := Option.some.inj hm
            exact ⟨c, h⟩
          · have := hcmp list cmp hmem
            obtain ⟨m', c', hsort, h', -⟩ := lsSort_sorts call h hc hbefore
            rw [SortOp.run, hsort] at hm
            obtain rfl := Option.some.inj hm
            exact ⟨c', h'⟩

/-- **`ls_sort` sorts, unless it has before.**  In a run of legal calls, whose comparators are
strict weak orders, every `ls_sort` leaves its list in order if and only if none is called with the
comparator that its list has been sorted by before while the elements of the list are not in
order. -/
theorem lsSort_ordered_iff :
    (∀ n list cmp, ops[n]? = some (.sort list cmp) → (sortState call ops n).isSome →
      ∃ m', sortState call ops (n + 1) = some m' ∧ Ordered call m' list cmp) ↔
    ∀ n list cmp, ops[n]? = some (.sort list cmp) → ∀ m, sortState call ops n = some m →
      SortedBefore m list cmp → Ordered call m list cmp := by
  have hlist : ∀ n list cmp, ops[n]? = some (.sort list cmp) → ∀ m, sortState call ops n = some m →
      ∃ c ns, Holds m c ∧ c list = some ns := by
    intro n list cmp hop m hm
    obtain ⟨hn, -⟩ := List.getElem?_eq_some_iff.mp hop
    obtain ⟨c, h⟩ := sortState_holds hcmp hlegal (Nat.le_of_lt hn) hm
    obtain ⟨ns, hc⟩ := Option.isSome_iff_exists.mp (hlegal n _ hop m hm c h)
    exact ⟨c, ns, h, hc⟩
  constructor
  · intro hall n list cmp hop m hm hbefore
    obtain ⟨c, ns, h, hc⟩ := hlist n list cmp hop m hm
    obtain ⟨m', hm', hordered⟩ := hall n list cmp hop (Option.isSome_iff_exists.mpr ⟨m, hm⟩)
    rw [sortState_succ hop hm, SortOp.run, lsSort_before call hbefore (h.listed list ns hc).ne_zero]
      at hm'
    obtain rfl := Option.some.inj hm'
    exact hordered
  · intro hno n list cmp hop hsome
    obtain ⟨m, hm⟩ := Option.isSome_iff_exists.mp hsome
    obtain ⟨c, ns, h, hc⟩ := hlist n list cmp hop m hm
    rw [sortState_succ hop hm, SortOp.run]
    by_cases hbefore : SortedBefore m list cmp
    · rw [lsSort_before call hbefore (h.listed list ns hc).ne_zero]
      exact ⟨m, rfl, hno n list cmp hop m hm hbefore⟩
    · have := hcmp list cmp (List.mem_of_getElem? hop)
      obtain ⟨m', c', hsort, -, hordered⟩ := lsSort_sorts call h hc hbefore
      rw [hsort]
      exact ⟨m', rfl, hordered⟩

end Runs

/-! ## A list that is changed between two sorts -/

/-- A list has its nodes and elements, and no others. -/
theorem Listed.unique {m : Mem α κ} {list : Nat} {ns ns' : List (Nat × α)} (h : Listed m list ns)
    (h' : Listed m list ns') : ns = ns' := by
  have hdata : ∀ {ns : List (Nat × α)}, Listed m list ns →
      (addrs ns).map (fun a ↦ (a, dataOf m a)) = ns.map fun b ↦ (b.1, some b.2) := by
    intro ns h
    rw [addrs, List.map_map]
    exact List.map_congr_left fun b hb ↦ congrArg (Prod.mk b.1) (h.data b hb)
  have heq := h.links.unique h'.links h.notMem_zero h'.notMem_zero
  have hmap := hdata h
  rw [heq, hdata h'] at hmap
  refine (List.map_injective_iff.mpr ?_ hmap).symm
  rintro ⟨a, x⟩ ⟨a', x'⟩ hpair
  cases hpair
  rfl

/-- The comparator of the integers. -/
def lsDifference (_ : Unit) (a b : Int) : Int := a - b

instance isStrictWeakOrder_lsDifference (u : Unit) :
    IsStrictWeakOrder Int fun a b ↦ lsDifference u a b > 0 :=
  inferInstanceAs (IsStrictWeakOrder Int fun a b ↦ a - b > 0)

/-- A list with one element. -/
def lsFive : Mem Int Unit := (lsAppend (lsNewf .empty 8 false).2 8 16 (some 5)).get!.2

/-- The list after it has been sorted. -/
def lsFiveSorted : Mem Int Unit :=
  lsFive.modList 8 fun l ↦ { l with cmp := some (), sorted := true }

/-- Another element is put behind it. -/
def lsFiveAnd (x : Int) : Mem Int Unit := (lsAppend lsFiveSorted 8 24 (some x)).get!.2

theorem lsSort_five : lsSort lsDifference lsFive 8 (some ()) = some (true, lsFiveSorted) := by
  have hexchange : repeatM (exchangeTurn (lsDifference ()) 16) (lsFive, 0) = some lsFive :=
    LoopEnds.result (.stop rfl)
  have hiter : lsFive.iter 16 = some ⟨some 5, 0, 0⟩ := rfl
  have hlist : lsFive.list 8 = some ⟨1, 16, 16, false, none, false⟩ := rfl
  have hturn : lsInsertionSortTurn (lsDifference ()) (lsFive, 16) = some (.inl (lsFive, 0)) := by
    simp only [lsInsertionSortTurn, hiter, Option.bind_eq_bind, Option.bind_some, hexchange]
    rfl
  have hsort : lsInsertionSort (lsDifference ()) lsFive 8 = some lsFive := by
    rw [lsInsertionSort, hlist]
    exact LoopEnds.result (.turn hturn (.stop rfl))
  simp only [lsSort, hlist, Option.bind_eq_bind, Option.bind_some, hsort]
  rfl

/-- A list with one element is sorted, another element is put behind it, and it is sorted again. -/
def lsSortTwice (x : Int) : List (SortOp Int Unit) :=
  [.call (.newf 8 false), .call (.append 8 16 5), .sort 8 (), .call (.append 8 24 x), .sort 8 ()]

section Twice

variable (x : Int)

theorem lsFiveAnd_listed : Listed (lsFiveAnd x) 8 [(16, 5), (24, x)] := by
  refine ⟨by decide, ⟨rfl, rfl, rfl, rfl, rfl⟩, rfl, (by decide : [0, 16, 24].Nodup), fun b hb ↦ ?_⟩
  rcases List.mem_cons.mp hb with rfl | hb
  · rfl
  · obtain rfl := List.mem_singleton.mp hb
    rfl

theorem lsFiveAnd_before : SortedBefore (lsFiveAnd x) 8 () :=
  ⟨⟨2, 16, 24, false, some (), false⟩, rfl, rfl⟩

theorem lsSortTwice_three : sortState lsDifference (lsSortTwice x) 3 = some lsFiveSorted := by
  have htwo : sortState lsDifference (lsSortTwice x) 2 = some lsFive := rfl
  have hop : (lsSortTwice x)[2]? = some (.sort 8 ()) := rfl
  rw [sortState_succ hop htwo, SortOp.run, lsSort_five]
  rfl

theorem lsSortTwice_four : sortState lsDifference (lsSortTwice x) 4 = some (lsFiveAnd x) := by
  have hop : (lsSortTwice x)[3]? = some (.call (.append 8 24 x)) := rfl
  rw [sortState_succ hop (lsSortTwice_three x)]
  rfl

theorem lsSortTwice_legal (n : Nat) (op : SortOp Int Unit) (hop : (lsSortTwice x)[n]? = some op)
    (m : Mem Int Unit) (hm : sortState lsDifference (lsSortTwice x) n = some m) :
    SortLegal m op := by
  intro c h
  match n, hop with
  | 0, rfl =>
      obtain rfl := Option.some.inj hm
      exact .inr rfl
  | 1, rfl =>
      obtain rfl := Option.some.inj hm
      exact ⟨h.lists 8 rfl, .inr ⟨by decide, rfl⟩⟩
  | 2, rfl =>
      obtain rfl := Option.some.inj hm
      exact h.lists 8 rfl
  | 3, rfl =>
      obtain rfl := Option.some.inj ((lsSortTwice_three x).symm.trans hm)
      exact ⟨h.lists 8 rfl, .inr ⟨by decide, rfl⟩⟩
  | 4, rfl =>
      obtain rfl := Option.some.inj ((lsSortTwice_four x).symm.trans hm)
      exact h.lists 8 rfl
  | _ + 5, h => cases h

end Twice

/-- The second sort does no harm to a list that is in order. -/
theorem lsSortTwice_ordered : ∃ m', sortState lsDifference (lsSortTwice 7) 5 = some m' ∧
    Ordered lsDifference m' 8 () := by
  have hsome : (sortState lsDifference (lsSortTwice 7) 4).isSome := by
    rw [lsSortTwice_four]
    rfl
  refine (lsSort_ordered_iff (fun _ cmp _ ↦ inferInstance) (lsSortTwice_legal 7)).mpr ?_ 4 8
    () rfl hsome
  rintro n list cmp hop m hm ⟨l, hl, hcmp⟩
  match n, hop with
  | 2, rfl =>
      obtain rfl := Option.some.inj hm
      obtain rfl := Option.some.inj hl
      cases hcmp
  | 4, rfl =>
      obtain rfl := Option.some.inj ((lsSortTwice_four 7).symm.trans hm)
      exact ⟨_, lsFiveAnd_listed 7, List.pairwise_pair.mpr (by decide : ¬ (5 : Int) - 7 > 0)⟩

/-- It leaves a list as it is that is not. -/
theorem not_lsSort_ordered : ∃ m, sortState lsDifference (lsSortTwice 3) 5 = some m ∧
    ¬ Ordered lsDifference m 8 () := by
  refine ⟨lsFiveAnd 3, ?_, ?_⟩
  · have hop : (lsSortTwice 3)[4]? = some (.sort 8 ()) := rfl
    rw [sortState_succ hop (lsSortTwice_four 3), SortOp.run,
      lsSort_before lsDifference (lsFiveAnd_before 3) (by decide)]
    rfl
  · rintro ⟨ns, hl, hin⟩
    rw [hl.unique (lsFiveAnd_listed 3)] at hin
    exact List.rel_of_pairwise_cons hin List.mem_cons_self (by decide)

end SdbStore.Ls
