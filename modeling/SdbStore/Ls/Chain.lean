import SdbStore.Ls.Consistent

/-!
# Chains of nodes

While a list is sorted its nodes hang together by their forward links only: the backward links are
wrong until the chains are merged.  Here are the parts that sort: the exchanges on a short chain,
the division of a long one and the merging of two.
-/

namespace SdbStore.Ls

open Lib

variable {α κ : Type}

/-- The forward link of a node. -/
def nOf (m : Mem α κ) (a : Nat) : Option Nat := (m.iters a).map SdbListIter.n

/-- The backward link of a node. -/
def pOf (m : Mem α κ) (a : Nat) : Option Nat := (m.iters a).map SdbListIter.p

/-- Nodes that are linked forwards, and their elements. -/
structure Chain (m : Mem α κ) (ns : List (Nat × α)) : Prop where
  forward : Forward (nOf m) 0 (addrs ns)
  nodup : (0 :: addrs ns).Nodup
  data : ∀ b ∈ ns, dataOf m b.1 = some b.2

/-- Only some nodes are changed. -/
structure Touches (m m' : Mem α κ) (A : List Nat) : Prop where
  iters : ∀ a, a ∉ A → m'.iters a = m.iters a
  isSome : ∀ a, (m'.iters a).isSome = (m.iters a).isSome
  lists : m'.lists = m.lists

namespace Touches

variable {m m₁ m' : Mem α κ} {A B : List Nat}

theorem refl (m : Mem α κ) (A : List Nat) : Touches m m A := ⟨fun _ _ ↦ rfl, fun _ ↦ rfl, rfl⟩

theorem trans (h : Touches m m₁ A) (h' : Touches m₁ m' A) : Touches m m' A :=
  ⟨fun a ha ↦ (h'.iters a ha).trans (h.iters a ha), fun a ↦ (h'.isSome a).trans (h.isSome a),
    h'.lists.trans h.lists⟩

theorem mono (h : Touches m m' A) (hAB : ∀ a ∈ A, a ∈ B) : Touches m m' B :=
  ⟨fun a ha ↦ h.iters a fun haA ↦ ha (hAB a haA), h.isSome, h.lists⟩

theorem modIter {a : Nat} (ha : a ∈ A) (f : SdbListIter α → SdbListIter α) :
    Touches m (m.modIter a f) A :=
  ⟨fun _ hb ↦ iters_modIter_of_ne f fun h ↦ hb (h ▸ ha), fun _ ↦ isSome_iters_modIter f, rfl⟩

end Touches

namespace Chain

variable {m m' : Mem α κ} {a : Nat} {x : α} {ns l₁ l₂ : List (Nat × α)} {A : List Nat}

theorem nil : Chain m [] := ⟨trivial, List.nodup_singleton 0, fun _ hb ↦ absurd hb List.not_mem_nil⟩

/-- Only its nodes matter. -/
theorem congr (h : Chain m ns) (hiters : ∀ a ∈ addrs ns, m'.iters a = m.iters a) : Chain m' ns := by
  refine ⟨h.forward.congr fun a ha ↦ ?_, h.nodup, fun b hb ↦ ?_⟩
  · rw [nOf, nOf, hiters a ha]
  · rw [dataOf, hiters b.1 (mem_addrs hb)]
    exact h.data b hb

theorem touches (h : Chain m ns) (ht : Touches m m' A) (hA : ∀ a ∈ addrs ns, a ∉ A) : Chain m' ns :=
  h.congr fun a ha ↦ ht.iters a (hA a ha)

theorem ne_zero (h : Chain m ((a, x) :: ns)) : a ≠ 0 := by
  rintro rfl
  exact (List.nodup_cons.mp h.nodup).1 List.mem_cons_self

theorem notMem (h : Chain m ((a, x) :: ns)) : a ∉ addrs ns :=
  (List.nodup_cons.mp (List.nodup_cons.mp h.nodup).2).1

/-- The first node. -/
theorem iter (h : Chain m ((a, x) :: ns)) :
    ∃ p, m.iters a = some ⟨some x, (addrs ns).headD 0, p⟩ := by
  have hn := h.forward.1
  have hdata := h.data (a, x) List.mem_cons_self
  obtain ⟨⟨d, n, p⟩, hi, rfl⟩ := Option.map_eq_some_iff.mp hn
  have hd : d = some x := by
    rw [dataOf, hi] at hdata
    exact hdata
  exact ⟨p, by rw [hi, hd]⟩

theorem tail (h : Chain m ((a, x) :: ns)) : Chain m ns := by
  refine ⟨h.forward.2, ?_, fun b hb ↦ h.data b (List.mem_cons_of_mem _ hb)⟩
  exact h.nodup.sublist ((List.sublist_cons_self _ _).cons_cons 0)

/-- A node in front of a chain. -/
theorem cons {p : Nat} (h : Chain m ns) (h0 : a ≠ 0) (ha : a ∉ addrs ns)
    (hi : m.iters a = some ⟨some x, (addrs ns).headD 0, p⟩) : Chain m ((a, x) :: ns) := by
  have hnodup := List.nodup_cons.mp h.nodup
  refine ⟨⟨by rw [nOf, hi]; rfl, h.forward⟩, ?_, fun b hb ↦ ?_⟩
  · refine List.nodup_cons.mpr ⟨fun hmem ↦ ?_, List.nodup_cons.mpr ⟨ha, hnodup.2⟩⟩
    rcases List.mem_cons.mp hmem with heq | hmem
    · exact h0 heq.symm
    · exact hnodup.1 hmem
  · rcases List.mem_cons.mp hb with rfl | hb
    · rw [dataOf, hi]
      rfl
    · exact h.data b hb

theorem append_left (h : Chain m (l₁ ++ l₂)) : (0 :: addrs l₁).Nodup := by
  have hnodup := h.nodup
  rw [addrs_append, ← List.cons_append] at hnodup
  exact (List.nodup_append.mp hnodup).1

theorem append_right (h : Chain m (l₁ ++ l₂)) : Chain m l₂ := by
  induction l₁ with
  | nil => exact h
  | cons b l₁ ih => exact ih h.tail

theorem disjoint (h : Chain m (l₁ ++ l₂)) : List.Disjoint (addrs l₁) (addrs l₂) := by
  have hnodup := (List.nodup_cons.mp h.nodup).2
  rw [addrs_append] at hnodup
  exact List.disjoint_of_nodup_append hnodup

end Chain

/-! ## Exchanges -/

section Exchange

variable {m : Mem α κ} {it : Nat} {x : α} {ns : List (Nat × α)}

/-- The links of all nodes are the same. -/
def SameLinks (m m' : Mem α κ) : Prop := ∀ a, nOf m' a = nOf m a ∧ pOf m' a = pOf m a

theorem SameLinks.refl (m : Mem α κ) : SameLinks m m := fun _ ↦ ⟨rfl, rfl⟩

theorem SameLinks.trans {m m₁ m' : Mem α κ} (h : SameLinks m m₁) (h' : SameLinks m₁ m') :
    SameLinks m m' := fun a ↦ ⟨(h' a).1.trans (h a).1, (h' a).2.trans (h a).2⟩

theorem sameLinks_modIter (m : Mem α κ) (a : Nat) (d : Option α) :
    SameLinks m (m.modIter a fun i ↦ { i with data := d }) := by
  intro b
  rw [nOf, nOf, pOf, pOf]
  by_cases hb : b = a
  · subst hb
    rw [iters_modIter_self, Option.map_map, Option.map_map]
    exact ⟨rfl, rfl⟩
  · rw [iters_modIter_of_ne _ hb]
    exact ⟨rfl, rfl⟩

/-- The inner loop of `ls_insertion_sort_iter` moves elements from node to node. -/
theorem exchange_loop (cmp : α → α → Int) (hns : Chain m ns) (h0 : it ≠ 0) (hit : it ∉ addrs ns)
    {n p : Nat} (hi : m.iters it = some ⟨some x, n, p⟩) :
    ∃ m' ns', LoopEnds (exchangeTurn cmp it) (m, (addrs ns).headD 0) m' ∧ addrs ns' = addrs ns ∧
      ns'.map Prod.snd = (lsExchange cmp x (ns.map Prod.snd)).2 ∧ Chain m' ns' ∧
      m'.iters it = some ⟨some (lsExchange cmp x (ns.map Prod.snd)).1, n, p⟩ ∧
      SameLinks m m' ∧ Touches m m' (it :: addrs ns) := by
  induction ns generalizing m x with
  | nil => exact ⟨m, [], .stop rfl, rfl, rfl, hns, hi, .refl m, .refl m _⟩
  | cons b ns ih =>
      obtain ⟨a, y⟩ := b
      obtain ⟨q, hb⟩ := hns.iter
      have ha0 := hns.ne_zero
      have hne : it ≠ a := fun h ↦ hit (h ▸ List.mem_cons_self)
      have hit' : it ∉ addrs ns := fun h ↦ hit (List.mem_cons_of_mem a h)
      by_cases hcmp : cmp x y > 0
      · have hm₁ : (m.modIter it fun i ↦ { i with data := some y }).iters a =
            some ⟨some y, (addrs ns).headD 0, q⟩ := by
          rw [iters_modIter_of_ne _ hne.symm]
          exact hb
        have hturn : exchangeTurn cmp it (m, a) = some (.inl
            ((m.modIter it fun i ↦ { i with data := some y }).modIter a fun i ↦
              { i with data := some x }, (addrs ns).headD 0)) := by
          simp only [exchangeTurn, ha0, if_false, iter_eq ha0, hb, Option.bind_eq_bind,
            Option.bind_some, iter_eq h0, hi, hcmp, if_true, setIter_eq h0 hi, setIter_eq ha0 hm₁]
        have hi₂ : ((m.modIter it fun i ↦ { i with data := some y }).modIter a fun i ↦
            { i with data := some x }).iters it = some ⟨some y, n, p⟩ := by
          rw [iters_modIter_of_ne _ hne, iters_modIter_self, hi]
          rfl
        have ha₂ : ((m.modIter it fun i ↦ { i with data := some y }).modIter a fun i ↦
            { i with data := some x }).iters a = some ⟨some x, (addrs ns).headD 0, q⟩ := by
          rw [iters_modIter_self, hm₁]
          rfl
        have htouch : Touches m ((m.modIter it fun i ↦ { i with data := some y }).modIter a fun i ↦
            { i with data := some x }) (it :: a :: addrs ns) :=
          (Touches.modIter List.mem_cons_self _).trans
            (.modIter (List.mem_cons_of_mem it List.mem_cons_self) _)
        have hchain : Chain ((m.modIter it fun i ↦ { i with data := some y }).modIter a fun i ↦
            { i with data := some x }) ns := by
          refine hns.tail.congr fun c hc ↦ ?_
          have hca : c ≠ a := by
            rintro rfl
            exact hns.notMem hc
          have hcit : c ≠ it := by
            rintro rfl
            exact hit' hc
          rw [iters_modIter_of_ne _ hca, iters_modIter_of_ne _ hcit]
        obtain ⟨m', ns', hloop, haddrs, hmap, hns', hi', hlinks, ht⟩ := ih hchain hit' hi₂
        have ha' : m'.iters a = some ⟨some x, (addrs ns').headD 0, q⟩ := by
          rw [haddrs, ht.iters a fun hmem ↦ ?_]
          · exact ha₂
          · rcases List.mem_cons.mp hmem with h | h
            · exact hne h.symm
            · exact hns.notMem h
        refine ⟨m', (a, x) :: ns', .turn hturn hloop, ?_, ?_, hns'.cons ha0 ?_ ha', ?_, ?_, ?_⟩
        · rw [addrs_cons, addrs_cons, haddrs]
        · rw [List.map_cons, List.map_cons, lsExchange, if_pos hcmp, hmap]
        · rw [haddrs]
          exact hns.notMem
        · rw [List.map_cons, lsExchange, if_pos hcmp]
          exact hi'
        · exact ((sameLinks_modIter m it _).trans (sameLinks_modIter _ a _)).trans hlinks
        · refine htouch.trans (ht.mono fun b hb ↦ ?_)
          rcases List.mem_cons.mp hb with rfl | hb
          · exact List.mem_cons_self
          · exact List.mem_cons_of_mem _ (List.mem_cons_of_mem _ hb)
      · have hturn : exchangeTurn cmp it (m, a) = some (.inl (m, (addrs ns).headD 0)) := by
          simp only [exchangeTurn, ha0, if_false, iter_eq ha0, hb, Option.bind_eq_bind,
            Option.bind_some, iter_eq h0, hi, hcmp]
        obtain ⟨m', ns', hloop, haddrs, hmap, hns', hi', hlinks, ht⟩ := ih hns.tail hit' hi
        have ha' : m'.iters a = some ⟨some y, (addrs ns').headD 0, q⟩ := by
          rw [haddrs, ht.iters a fun hmem ↦ ?_]
          · exact hb
          · rcases List.mem_cons.mp hmem with h | h
            · exact hne h.symm
            · exact hns.notMem h
        refine ⟨m', (a, y) :: ns', .turn hturn hloop, ?_, ?_, hns'.cons ha0 ?_ ha', ?_, hlinks, ?_⟩
        · rw [addrs_cons, addrs_cons, haddrs]
        · rw [List.map_cons, List.map_cons, lsExchange, if_neg hcmp, hmap]
        · rw [haddrs]
          exact hns.notMem
        · rw [List.map_cons, lsExchange, if_neg hcmp]
          exact hi'
        · refine ht.mono fun b hb ↦ ?_
          rcases List.mem_cons.mp hb with rfl | hb
          · exact List.mem_cons_self
          · exact List.mem_cons_of_mem _ (List.mem_cons_of_mem _ hb)

/-- A turn of the loop of `ls_insertion_sort_iter` finishes one node. -/
theorem insertionSort_loop (cmp : α → α → Int) (hns : Chain m ns) :
    ∃ m' ns', LoopEnds (lsInsertionSortTurn cmp) (m, (addrs ns).headD 0) m' ∧ addrs ns' = addrs ns ∧
      ns'.map Prod.snd = SdbStore.lsInsertionSort cmp (ns.map Prod.snd) ∧ Chain m' ns' ∧
      SameLinks m m' ∧ Touches m m' (addrs ns) := by
  induction hlen : ns.length generalizing m ns with
  | zero =>
      obtain rfl := List.length_eq_zero_iff.mp hlen
      refine ⟨m, [], .stop rfl, rfl, ?_, hns, .refl m, .refl m _⟩
      rw [List.map_nil, SdbStore.lsInsertionSort]
  | succ k ih =>
      cases ns with
      | nil => cases hlen
      | cons b ns =>
          obtain ⟨a, x⟩ := b
          obtain ⟨q, hb⟩ := hns.iter
          have ha0 := hns.ne_zero
          obtain ⟨m₁, ns₁, hloop₁, haddrs₁, hmap₁, hchain₁, ha₁, hlinks₁, ht₁⟩ :=
            exchange_loop cmp hns.tail ha0 hns.notMem hb
          have hlen₁ : ns₁.length = k := by
            have hl := congrArg List.length haddrs₁
            rw [List.length_map, List.length_map] at hl
            rw [hl]
            exact Nat.succ.inj hlen
          obtain ⟨m', ns', hloop, haddrs, hmap, hchain, hlinks, ht⟩ := ih hchain₁ hlen₁
          have hturn : lsInsertionSortTurn cmp (m, a) = some (.inl (m₁, (addrs ns₁).headD 0)) := by
            simp only [lsInsertionSortTurn, ha0, if_false, iter_eq ha0, hb, Option.bind_eq_bind,
              Option.bind_some, Option.isNone_some, Bool.false_eq_true, hloop₁.result, haddrs₁]
          have ha' : m'.iters a = some
              ⟨some (lsExchange cmp x (ns.map Prod.snd)).1, (addrs ns').headD 0, q⟩ := by
            rw [haddrs, haddrs₁, ht.iters a fun hmem ↦ hns.notMem (haddrs₁ ▸ hmem)]
            exact ha₁
          refine ⟨m', (a, (lsExchange cmp x (ns.map Prod.snd)).1) :: ns', .turn hturn hloop, ?_, ?_,
            hchain.cons ha0 ?_ ha', hlinks₁.trans hlinks, ht₁.trans (ht.mono fun c hc ↦ ?_)⟩
          · rw [addrs_cons, addrs_cons, haddrs, haddrs₁]
          · rw [List.map_cons, List.map_cons, SdbStore.lsInsertionSort, hmap, hmap₁]
          · rw [haddrs, haddrs₁]
            exact hns.notMem
          · rw [haddrs₁] at hc
            exact List.mem_cons_of_mem a hc

end Exchange

/-! ## Dividing a chain -/

section Split

variable {m : Mem α κ} {s : Nat} {x : α} {ns l₁ l₂ : List (Nat × α)}

theorem nOf_modIter_of_ne {a b : Nat} (f : SdbListIter α → SdbListIter α) (h : b ≠ a) :
    nOf (m.modIter a f) b = nOf m b := by
  rw [nOf, nOf, iters_modIter_of_ne f h]

theorem pOf_modIter_of_ne {a b : Nat} (f : SdbListIter α → SdbListIter α) (h : b ≠ a) :
    pOf (m.modIter a f) b = pOf m b := by
  rw [pOf, pOf, iters_modIter_of_ne f h]

theorem nOf_modIter {a : Nat} {f : SdbListIter α → SdbListIter α} (hf : ∀ i, (f i).n = i.n)
    (b : Nat) :
    nOf (m.modIter a f) b = nOf m b := by
  by_cases hb : b = a
  · subst hb
    rw [nOf, nOf, iters_modIter_self, Option.map_map]
    exact congrFun (congrArg Option.map (funext hf)) _
  · exact nOf_modIter_of_ne f hb

theorem pOf_modIter {a : Nat} {f : SdbListIter α → SdbListIter α} (hf : ∀ i, (f i).p = i.p)
    (b : Nat) :
    pOf (m.modIter a f) b = pOf m b := by
  by_cases hb : b = a
  · subst hb
    rw [pOf, pOf, iters_modIter_self, Option.map_map]
    exact congrFun (congrArg Option.map (funext hf)) _
  · exact pOf_modIter_of_ne f hb

/-- A chain is cut behind a node. -/
theorem Chain.cut (h : Chain m (l₁ ++ (s, x) :: l₂)) :
    Chain (m.modIter s fun i ↦ { i with n := 0 }) (l₁ ++ [(s, x)]) ∧
      Chain (m.modIter s fun i ↦ { i with n := 0 }) l₂ := by
  have h' : Chain m ((l₁ ++ [(s, x)]) ++ l₂) := by
    rw [List.append_assoc]
    exact h
  have hs := h.append_right
  obtain ⟨p, hi⟩ := hs.iter
  have hf := h.forward
  rw [addrs_append] at hf
  have hf₁ := (forward_append.mp hf).1
  have hnotMem : ∀ a ∈ addrs l₁, a ≠ s := by
    rintro a ha rfl
    exact h.disjoint ha List.mem_cons_self
  refine ⟨⟨?_, h'.append_left, fun b hb ↦ ?_⟩, hs.tail.congr fun a ha ↦ iters_modIter_of_ne _ ?_⟩
  · rw [addrs_append]
    refine forward_append.mpr ⟨hf₁.congr fun a ha ↦ nOf_modIter_of_ne _ (hnotMem a ha), ?_, trivial⟩
    show nOf (m.modIter s fun i ↦ { i with n := 0 }) s = some 0
    rw [nOf, iters_modIter_self, hi]
    rfl
  · refine (dataOf_modIter ?_).trans (h'.data b (List.mem_append_left l₂ hb))
    exact fun _ ↦ rfl
  · rintro rfl
    exact hs.notMem ha

theorem Chain.drop (h : Chain m ns) (k : Nat) : Chain m (ns.drop k) := by
  rw [← List.take_append_drop k ns] at h
  exact h.append_right

theorem exists_drop {k : Nat} (hk : k < ns.length) :
    ∃ s x, ns.drop k = (s, x) :: ns.drop (k + 1) :=
  ⟨ns[k].1, ns[k].2, List.drop_eq_getElem_cons hk⟩

/-- One of two runners goes twice as fast, and the other one is in the middle at the end. -/
theorem split_loop (h : Chain m ns) {c : Nat} (hc : 2 * c < ns.length) :
    LoopEnds (splitTurn m)
      ((addrs (ns.drop (2 * c))).headD 0, (addrs (ns.drop c)).headD 0, BitVec.ofNat 32 c)
      ((addrs (ns.drop ((ns.length - 1) / 2))).headD 0, BitVec.ofNat 32 ((ns.length - 1) / 2)) := by
  induction hk : ns.length - 2 * c using Nat.strongRecOn generalizing c with
  | ind k ih =>
      have hfast := h.drop (2 * c)
      have hlen : (ns.drop (2 * c)).length = ns.length - 2 * c := List.length_drop
      match hd : ns.drop (2 * c) with
      | [] =>
          rw [hd, List.length_nil] at hlen
          omega
      | [(a, x)] =>
          rw [hd] at hfast hlen
          rw [List.length_cons, List.length_nil] at hlen
          have hend : (ns.length - 1) / 2 = c := by omega
          obtain ⟨p, hi⟩ := hfast.iter
          rw [hend]
          refine .stop ?_
          simp only [splitTurn, addrs_cons, List.headD_cons, hfast.ne_zero, if_false,
            iter_eq hfast.ne_zero, hi, Option.bind_eq_bind, Option.bind_some, addrs_nil,
            List.headD_nil, if_true]
      | [(a, x), (b, y)] =>
          rw [hd] at hfast hlen
          rw [List.length_cons, List.length_cons, List.length_nil] at hlen
          have hend : (ns.length - 1) / 2 = c := by omega
          obtain ⟨p, hi⟩ := hfast.iter
          obtain ⟨q, hj⟩ := hfast.tail.iter
          rw [hend]
          refine .stop ?_
          simp only [splitTurn, addrs_cons, List.headD_cons, hfast.ne_zero, hfast.tail.ne_zero,
            if_false, iter_eq hfast.ne_zero, hi, iter_eq hfast.tail.ne_zero, hj,
            Option.bind_eq_bind, Option.bind_some, addrs_nil, List.headD_nil, if_true]
      | (a, x) :: (b, y) :: (d, z) :: rest =>
          rw [hd] at hfast hlen
          rw [List.length_cons, List.length_cons, List.length_cons] at hlen
          obtain ⟨p, hi⟩ := hfast.iter
          obtain ⟨q, hj⟩ := hfast.tail.iter
          have hslow := h.drop c
          have hclt : c < ns.length := by omega
          obtain ⟨s, w, hslowd⟩ := exists_drop hclt
          rw [hslowd] at hslow ⊢
          obtain ⟨r, hs⟩ := hslow.iter
          have hdrop : ns.drop (2 * (c + 1)) = (d, z) :: rest := by
            have hdd : ns.drop (2 * (c + 1)) = (ns.drop (2 * c)).drop 2 := by
              rw [List.drop_drop]
              congr 1
            rw [hdd, hd]
            rfl
          have hloop := ih (ns.length - 2 * (c + 1)) (by omega) (c := c + 1) (by omega) rfl
          rw [hdrop, BitVec.ofNat_add] at hloop
          refine .turn ?_ hloop
          simp only [splitTurn, addrs_cons, List.headD_cons, hfast.ne_zero, hfast.tail.ne_zero,
            hfast.tail.tail.ne_zero, if_false, iter_eq hfast.ne_zero, hi,
              iter_eq hfast.tail.ne_zero, hj,
            iter_eq hslow.ne_zero, hs, Option.bind_eq_bind, Option.bind_some]
          rfl

/-- `_sdb_list_split` leaves a chain whole, or divides it into two chains that are shorter. -/
theorem sdbListSplit_cases (h : Chain m ns) (hlen : 2 ≤ ns.length) :
    sdbListSplit m ((addrs ns).headD 0) = some (0, m) ∨
      ∃ l₁ l₂ m', ns = l₁ ++ l₂ ∧ l₁ ≠ [] ∧ l₂ ≠ [] ∧ 2 * l₁.length ≤ ns.length + 1 ∧
        2 * l₂.length ≤ ns.length + 1 ∧
        sdbListSplit m ((addrs ns).headD 0) = some ((addrs l₂).headD 0, m') ∧
        Chain m' l₁ ∧ Chain m' l₂ ∧ Touches m m' (addrs ns) := by
  have hloop := split_loop h (c := 0) (by omega)
  have hk : (ns.length - 1) / 2 < ns.length := by omega
  generalize hkdef : (ns.length - 1) / 2 = k at hloop hk
  have hslow := h.drop k
  obtain ⟨s, y, hslowd⟩ := exists_drop hk
  have hsplit : ns = ns.take k ++ (s, y) :: ns.drop (k + 1) := by
    rw [← hslowd, List.take_append_drop]
  rw [hslowd] at hslow hloop
  obtain ⟨p, hi⟩ := hslow.iter
  have hhead : ∃ a q, (addrs ns).headD 0 = a ∧ a ≠ 0 ∧ ∃ n x, m.iters a = some ⟨some x, n, q⟩ ∧
      n ≠ 0 := by
    match ns, hlen, h with
    | (a, x) :: (b, y) :: l, _, h =>
        obtain ⟨q, hq⟩ := h.iter
        exact ⟨a, q, rfl, h.ne_zero, b, x, hq, h.tail.ne_zero⟩
  obtain ⟨a, q, ha, ha0, n, x, hia, hn0⟩ := hhead
  have hcode : sdbListSplit m ((addrs ns).headD 0) =
      if (BitVec.ofNat 32 k).toInt < mergelimit then some (0, m)
      else some ((addrs (ns.drop (k + 1))).headD 0, m.modIter s fun i ↦ { i with n := 0 }) := by
    rw [Nat.mul_zero, List.drop_zero, ha] at hloop
    have hres : repeatM (splitTurn m) (a, a, 0) = some (s, BitVec.ofNat 32 k) := hloop.result
    rw [ha, sdbListSplit, if_neg ha0, iter_eq ha0, hia]
    simp only [Option.bind_eq_bind, Option.bind_some, hn0, if_false, hres, iter_eq hslow.ne_zero,
      hi, setIter_eq hslow.ne_zero hi]
  by_cases hlim : (BitVec.ofNat 32 k).toInt < mergelimit
  · rw [if_pos hlim] at hcode
    exact .inl hcode
  · right
    rw [if_neg hlim] at hcode
    have hk24 : 24 ≤ k := by
      by_contra hlt
      refine hlim ?_
      have hsmall : k < 24 := Nat.not_le.mp hlt
      have hnat : (BitVec.ofNat 32 k).toNat = k := by
        rw [BitVec.toNat_ofNat]
        omega
      rw [BitVec.toInt_eq_toNat_of_lt (by omega), hnat, mergelimit]
      omega
    have hmem : s ∈ addrs ns := by
      rw [hsplit, addrs_append, addrs_cons]
      exact List.mem_append_right _ List.mem_cons_self
    have h' : Chain m (ns.take k ++ (s, y) :: ns.drop (k + 1)) := by
      rw [← hsplit]
      exact h
    obtain ⟨hleft, hright⟩ := h'.cut
    refine ⟨ns.take k ++ [(s, y)], ns.drop (k + 1), _, ?_, ?_, ?_, ?_, ?_, hcode, hleft, hright,
      .modIter hmem _⟩
    · rw [List.append_assoc]
      exact hsplit
    · exact List.append_ne_nil_of_right_ne_nil _ (List.cons_ne_nil _ _)
    · rw [Ne, List.drop_eq_nil_iff]
      omega
    · rw [List.length_append, List.length_take, List.length_singleton]
      omega
    · rw [List.length_drop]
      omega

end Split

end SdbStore.Ls
