import SdbStore.Ls.Chain

/-!
# Merging two chains

The loop of `_merge` puts one node after the other behind the nodes that are done: these are linked
in both directions, except that the last one still knows the node that was behind it before.
-/

namespace SdbStore.Ls

open Lib

variable {α κ : Type}

/-- The elements of two nodes are compared. -/
def byData (cmp : α → α → Int) (a b : Nat × α) : Int := cmp a.2 b.2

/-- What holds in every turn of the loop of `_merge`: the nodes of `d` are done. -/
structure Merging (m : Mem α κ) (v : MergeVars) (d ns₁ ns₂ : List (Nat × α)) : Prop where
  first : v.first = (addrs ns₁).headD 0
  second : v.second = (addrs ns₂).headD 0
  empty : d = [] → v.head = 0 ∧ v.next = 0
  last : d ≠ [] → v.head = (addrs d).headD 0 ∧ v.result = lastOf 0 (addrs d) ∧
    v.next = lastOf 0 (addrs d)
  forward : ∃ z, Forward (nOf m) z (addrs d)
  backward : Backward (pOf m) 0 (addrs d)
  chain₁ : Chain m ns₁
  chain₂ : Chain m ns₂
  nodup : (0 :: addrs (d ++ (ns₁ ++ ns₂))).Nodup
  data : ∀ b ∈ d, dataOf m b.1 = some b.2

section Merge

variable {m : Mem α κ} {v : MergeVars} {d ns₁ ns₂ : List (Nat × α)}

/-- A node is taken from one of two chains. -/
structure Takes (b : Nat × α) (ns₁ ns₂ ns₁' ns₂' : List (Nat × α)) : Prop where
  from_either : ns₁ = b :: ns₁' ∧ ns₂ = ns₂' ∨ ns₂ = b :: ns₂' ∧ ns₁ = ns₁'

theorem Takes.perm {b : Nat × α} {ns₁ ns₂ ns₁' ns₂' : List (Nat × α)}
    (h : Takes b ns₁ ns₂ ns₁' ns₂') : (ns₁ ++ ns₂).Perm (b :: (ns₁' ++ ns₂')) := by
  rcases h.from_either with ⟨rfl, rfl⟩ | ⟨rfl, rfl⟩
  · exact List.Perm.refl _
  · exact List.perm_middle

/-- The choice that `_merge` makes is that of the merging of sequences. -/
theorem mergeNext_eq (cmp : α → α → Int) (h₁ : Chain m ns₁) (h₂ : Chain m ns₂)
    (hne : ¬ (ns₁ = [] ∧ ns₂ = [])) (hv₁ : v.first = (addrs ns₁).headD 0)
    (hv₂ : v.second = (addrs ns₂).headD 0) : ∃ b ns₁' ns₂', Takes b ns₁ ns₂ ns₁' ns₂' ∧
      mergeNext cmp m v = some { v with
        next := b.1, first := (addrs ns₁').headD 0, second := (addrs ns₂').headD 0 } ∧
      lsMerge (byData cmp) ns₁ ns₂ = b :: lsMerge (byData cmp) ns₁' ns₂' := by
  obtain ⟨first, second, next, result, head⟩ := v
  obtain rfl : first = _ := hv₁
  obtain rfl : second = _ := hv₂
  match ns₁, ns₂, h₁, h₂ with
  | [], [], _, _ => exact absurd ⟨rfl, rfl⟩ hne
  | (a, x) :: l, [], h₁, _ =>
      obtain ⟨p, hi⟩ := h₁.iter
      refine ⟨(a, x), l, [], ⟨.inl ⟨rfl, rfl⟩⟩, ?_, ?_⟩
      · simp only [mergeNext, addrs_nil, List.headD_nil, if_true, Option.bind_eq_bind,
          Option.bind_some, addrs_cons, List.headD_cons, iter_eq h₁.ne_zero, hi]
      · rw [lsMerge]
        cases l with
        | nil => rw [lsMerge]
        | cons c l => rw [lsMerge]
  | [], (b, y) :: l, _, h₂ =>
      obtain ⟨p, hi⟩ := h₂.iter
      refine ⟨(b, y), [], l, ⟨.inr ⟨rfl, rfl⟩⟩, ?_, by rw [lsMerge, lsMerge]⟩
      simp only [mergeNext, addrs_nil, List.headD_nil, addrs_cons, List.headD_cons, h₂.ne_zero,
        if_false, if_true, Option.bind_eq_bind, Option.bind_some, Bool.false_eq_true,
        iter_eq h₂.ne_zero, hi]
  | (a, x) :: l₁, (b, y) :: l₂, h₁, h₂ =>
      obtain ⟨p, hi⟩ := h₁.iter
      obtain ⟨q, hj⟩ := h₂.iter
      by_cases hcmp : cmp x y ≤ 0
      · refine ⟨(a, x), l₁, (b, y) :: l₂, ⟨.inl ⟨rfl, rfl⟩⟩, ?_, ?_⟩
        · simp only [mergeNext, addrs_cons, List.headD_cons, h₁.ne_zero, h₂.ne_zero, if_false,
            Option.bind_eq_bind, Option.bind_some, iter_eq h₁.ne_zero, iter_eq h₂.ne_zero, hi, hj,
            hcmp, decide_true, if_true]
        · rw [lsMerge, if_pos]
          exact hcmp
      · refine ⟨(b, y), (a, x) :: l₁, l₂, ⟨.inr ⟨rfl, rfl⟩⟩, ?_, ?_⟩
        · simp only [mergeNext, addrs_cons, List.headD_cons, h₁.ne_zero, h₂.ne_zero, if_false,
            Option.bind_eq_bind, Option.bind_some, iter_eq h₁.ne_zero, iter_eq h₂.ne_zero, hi, hj,
            hcmp, decide_false, Bool.false_eq_true]
        · rw [lsMerge, if_neg]
          exact hcmp

/-- The node `a` has been chosen, behind the nodes of `d` that are done. -/
structure Chosen (m : Mem α κ) (d : List (Nat × α)) (a : Nat) (x : α) (n p : Nat)
    (ns₁' ns₂' : List (Nat × α)) : Prop where
  ne_zero : a ≠ 0
  iter : m.iters a = some ⟨some x, n, p⟩
  chain₁ : Chain m ns₁'
  chain₂ : Chain m ns₂'
  nodup : (0 :: addrs (d ++ [(a, x)] ++ (ns₁' ++ ns₂'))).Nodup

theorem Merging.chosen (h : Merging m v d ns₁ ns₂) {a : Nat} {x : α} {ns₁' ns₂' : List (Nat × α)}
    (htakes : Takes (a, x) ns₁ ns₂ ns₁' ns₂') : ∃ n p, Chosen m d a x n p ns₁' ns₂' := by
  have hperm : (d ++ (ns₁ ++ ns₂)).Perm (d ++ [(a, x)] ++ (ns₁' ++ ns₂')) := by
    rw [List.append_assoc]
    exact htakes.perm.append_left d
  have hnodup : (0 :: addrs (d ++ [(a, x)] ++ (ns₁' ++ ns₂'))).Nodup :=
    ((hperm.map Prod.fst).cons 0).nodup_iff.mp h.nodup
  rcases htakes.from_either with ⟨h₁, h₂⟩ | ⟨h₂, h₁⟩
  · have hchain := h.chain₁
    rw [h₁] at hchain
    obtain ⟨p, hi⟩ := hchain.iter
    exact ⟨_, p, hchain.ne_zero, hi, hchain.tail, h₂ ▸ h.chain₂, hnodup⟩
  · have hchain := h.chain₂
    rw [h₂] at hchain
    obtain ⟨p, hi⟩ := hchain.iter
    exact ⟨_, p, hchain.ne_zero, hi, h₁ ▸ h.chain₁, hchain.tail, hnodup⟩

/-- One of the two chains is left. -/
theorem Merging.not_both (h : Merging m v d ns₁ ns₂) (hne : ¬ (ns₁ = [] ∧ ns₂ = [])) :
    ¬ (v.first = 0 ∧ v.second = 0) := by
  rw [h.first, h.second]
  rintro ⟨h₁, h₂⟩
  refine hne ⟨?_, ?_⟩
  · cases ns₁ with
    | nil => rfl
    | cons b l => exact absurd h₁ h.chain₁.ne_zero
  · cases ns₂ with
    | nil => rfl
    | cons b l => exact absurd h₂ h.chain₂.ne_zero

section Chosen

variable {a : Nat} {x : α} {n p : Nat} {ns₁' ns₂' : List (Nat × α)}

theorem Chosen.apart (hc : Chosen m d a x n p ns₁' ns₂') :
    ∀ b ∈ addrs (d ++ [(a, x)]), b ∉ addrs ns₁' ∧ b ∉ addrs ns₂' := by
  intro b hb
  have hdis := (List.nodup_cons.mp hc.nodup).2
  rw [addrs_append] at hdis
  have hno := List.disjoint_of_nodup_append hdis hb
  rw [addrs_append] at hno
  exact ⟨fun h ↦ hno (List.mem_append_left _ h), fun h ↦ hno (List.mem_append_right _ h)⟩

theorem Chosen.not_done (hc : Chosen m d a x n p ns₁' ns₂') : a ∉ addrs d := by
  have hdis := (List.nodup_cons.mp hc.nodup).2
  rw [addrs_append, addrs_append] at hdis
  have hdis' := List.disjoint_of_nodup_append (List.nodup_append.mp hdis).1
  exact fun hmem ↦ hdis' hmem List.mem_cons_self

/-- The first node becomes the head. -/
theorem Merging.turn_first (cmp : α → α → Int) (h : Merging m v [] ns₁ ns₂)
    (hc : Chosen m [] a x n p ns₁' ns₂') (hnot : ¬ (v.first = 0 ∧ v.second = 0))
    (hnext : mergeNext cmp m v = some { v with
      next := a, first := (addrs ns₁').headD 0, second := (addrs ns₂').headD 0 }) :
    ∃ m' v', mergeTurn cmp (m, v) = some (.inl (m', v')) ∧ Merging m' v' [(a, x)] ns₁' ns₂' ∧
      Touches m m' (addrs [(a, x)]) := by
  obtain ⟨hhead, -⟩ := h.empty rfl
  have htouch : Touches m (m.modIter a fun i ↦ { i with p := 0 }) (addrs [(a, x)]) :=
    .modIter List.mem_cons_self _
  refine ⟨m.modIter a fun i ↦ { i with p := 0 }, { v with
    next := a, first := (addrs ns₁').headD 0, second := (addrs ns₂').headD 0, result := a,
    head := a }, ?_, ⟨rfl, rfl, ?_, ?_, ?_, ?_, ?_, ?_, hc.nodup, ?_⟩, htouch⟩
  · simp only [mergeTurn, if_neg hnot, hnext, Option.bind_eq_bind, Option.bind_some, hhead,
      if_true, setIter_eq hc.ne_zero hc.iter]
  · exact fun h ↦ absurd h (List.cons_ne_nil _ _)
  · exact fun _ ↦ ⟨rfl, rfl, rfl⟩
  · refine ⟨n, ?_, trivial⟩
    show nOf (m.modIter a fun i ↦ { i with p := 0 }) a = some n
    rw [nOf, iters_modIter_self, hc.iter]
    rfl
  · refine ⟨?_, trivial⟩
    show pOf (m.modIter a fun i ↦ { i with p := 0 }) a = some 0
    rw [pOf, iters_modIter_self, hc.iter]
    rfl
  · exact hc.chain₁.touches htouch fun b hb hb' ↦ (hc.apart b hb').1 hb
  · exact hc.chain₂.touches htouch fun b hb hb' ↦ (hc.apart b hb').2 hb
  · rintro b hb
    obtain rfl := List.mem_singleton.mp hb
    rw [dataOf, iters_modIter_self, hc.iter]
    rfl

section Behind

variable {d₀ : List (Nat × α)} {r : Nat} {y : α}

/-- The last node that is done, and the memory with the chosen one behind it. -/
theorem Chosen.linked (hc : Chosen m (d₀ ++ [(r, y)]) a x n p ns₁' ns₂') {j : SdbListIter α}
    (hj : m.iters r = some j) :
    let m' := (m.modIter r fun i ↦ { i with n := a }).modIter a fun i ↦ { i with p := r }
    m'.iters r = some { j with n := a } ∧ m'.iters a = some ⟨some x, n, r⟩ ∧
      (∀ b, b ≠ r → b ≠ a → m'.iters b = m.iters b) ∧
        Touches m m' (addrs (d₀ ++ [(r, y)] ++ [(a, x)])) := by
  intro m'
  have hra : r ≠ a := fun heq ↦ hc.not_done (by
    rw [addrs_append, heq]
    exact List.mem_append_right _ List.mem_cons_self)
  refine ⟨?_, ?_, fun b hbr hba ↦ ?_, ?_⟩
  · rw [iters_modIter_of_ne _ hra, iters_modIter_self, hj]
    rfl
  · rw [iters_modIter_self, iters_modIter_of_ne _ hra.symm, hc.iter]
    rfl
  · rw [iters_modIter_of_ne _ hba, iters_modIter_of_ne _ hbr]
  · exact (Touches.modIter (mem_addrs (b := (r, y)) (List.mem_append_left _
      (List.mem_append_right d₀ List.mem_cons_self))) _).trans
      (.modIter (mem_addrs (b := (a, x)) (List.mem_append_right _ List.mem_cons_self)) _)

/-- Another node is linked behind the last one that is done. -/
theorem Merging.turn_behind (cmp : α → α → Int) (h : Merging m v (d₀ ++ [(r, y)]) ns₁ ns₂)
    (hc : Chosen m (d₀ ++ [(r, y)]) a x n p ns₁' ns₂') (hnot : ¬ (v.first = 0 ∧ v.second = 0))
    (hnext : mergeNext cmp m v = some { v with
      next := a, first := (addrs ns₁').headD 0, second := (addrs ns₂').headD 0 }) :
    ∃ m' v', mergeTurn cmp (m, v) = some (.inl (m', v')) ∧
      Merging m' v' (d₀ ++ [(r, y)] ++ [(a, x)]) ns₁' ns₂' ∧
        Touches m m' (addrs (d₀ ++ [(r, y)] ++ [(a, x)])) := by
  obtain ⟨hhead, hresult, -⟩ := h.last (by simp)
  rw [addrs_append, addrs_cons, addrs_nil] at hresult hhead
  rw [lastOf_concat] at hresult
  have had := hc.not_done
  rw [addrs_append, addrs_cons, addrs_nil] at had
  have hnodup := (List.nodup_cons.mp h.nodup).2
  rw [addrs_append, addrs_append] at hnodup
  have hdis := List.disjoint_of_nodup_append (List.nodup_append.mp hnodup).1
  have hne0 (b : Nat × α) (hb : b ∈ d₀ ++ [(r, y)]) : b.1 ≠ 0 := fun h0 ↦
    (List.nodup_cons.mp h.nodup).1 (h0 ▸ mem_addrs (List.mem_append_left _ hb))
  have hr0 : r ≠ 0 := hne0 (r, y) (List.mem_append_right d₀ List.mem_cons_self)
  have hra : r ≠ a := fun heq ↦ had (heq ▸ List.mem_append_right _ List.mem_cons_self)
  have hrd (b : Nat) (hb : b ∈ addrs d₀) : b ≠ r := fun hbr ↦
    hdis hb (hbr ▸ List.mem_cons_self)
  have hda (b : Nat) (hb : b ∈ addrs d₀) : b ≠ a := fun hba ↦
    had (hba ▸ List.mem_append_left _ hb)
  obtain ⟨z, hf⟩ := h.forward
  rw [addrs_append] at hf
  obtain ⟨hf₀, hfr, -⟩ := forward_append.mp hf
  obtain ⟨j, hj, -⟩ := Option.map_eq_some_iff.mp hfr
  have hj' : m.iters r = some j := hj
  have hia : (m.modIter r fun i ↦ { i with n := a }).iters a = some ⟨some x, n, p⟩ := by
    rw [iters_modIter_of_ne _ hra.symm]
    exact hc.iter
  obtain ⟨hr₂, ha₂, hother, htouch⟩ := hc.linked hj'
  refine ⟨_, { v with
    next := a, first := (addrs ns₁').headD 0, second := (addrs ns₂').headD 0, result := a },
    ?_, ⟨rfl, rfl, ?_, ?_, ?_, ?_, ?_, ?_, hc.nodup, ?_⟩, htouch⟩
  · have hhead0 : v.head ≠ 0 := by
      rw [hhead]
      cases d₀ with
      | nil => exact hr0
      | cons b l => exact hne0 b List.mem_cons_self
    simp only [mergeTurn, if_neg hnot, hnext, Option.bind_eq_bind, Option.bind_some,
      if_neg hhead0, hresult, setIter_eq hr0 hj', setIter_eq hc.ne_zero hia, iter_eq hr0, hr₂]
  · exact fun h ↦ absurd h (by simp)
  · intro _
    refine ⟨?_, ?_, ?_⟩
    · show v.head = _
      rw [hhead]
      cases d₀ with
      | nil => rfl
      | cons b l => rfl
    · rw [addrs_append, addrs_cons, addrs_nil, lastOf_concat]
    · rw [addrs_append, addrs_cons, addrs_nil, lastOf_concat]
  · refine ⟨n, ?_⟩
    rw [addrs_append, addrs_append]
    refine forward_append.mpr
      ⟨forward_append.mpr ⟨hf₀.congr fun b hb ↦ ?_, ?_, trivial⟩, ?_, trivial⟩
    · rw [nOf, nOf, hother b (hrd b hb) (hda b hb)]
    · show nOf _ r = some a
      rw [nOf, hr₂]
      rfl
    · show nOf _ a = some n
      rw [nOf, ha₂]
      rfl
  · rw [addrs_append (d₀ ++ [(r, y)])]
    refine backward_append.mpr ⟨h.backward.congr fun b hb ↦ ?_, ?_, trivial⟩
    · by_cases hbr : b = r
      · subst hbr
        rw [pOf, pOf, hr₂, hj']
        rfl
      · have hba : b ≠ a := by
          rintro rfl
          rw [addrs_append] at hb
          exact had hb
        rw [pOf, pOf, hother b hbr hba]
    · rw [addrs_append, addrs_cons, addrs_nil, lastOf_concat]
      show pOf _ a = some r
      rw [pOf, ha₂]
      rfl
  · exact hc.chain₁.touches htouch fun b hb hb' ↦ (hc.apart b hb').1 hb
  · exact hc.chain₂.touches htouch fun b hb hb' ↦ (hc.apart b hb').2 hb
  · intro b hb
    rcases List.mem_append.mp hb with hb | hb
    · refine ((dataOf_modIter ?_).trans (dataOf_modIter ?_)).trans (h.data b hb)
      · exact fun _ ↦ rfl
      · exact fun _ ↦ rfl
    · obtain rfl := List.mem_singleton.mp hb
      rw [dataOf, ha₂]
      rfl

end Behind

end Chosen

/-- A turn of the loop of `_merge` puts the chosen node behind those that are done. -/
theorem Merging.turn (cmp : α → α → Int) (h : Merging m v d ns₁ ns₂)
    (hne : ¬ (ns₁ = [] ∧ ns₂ = [])) :
    ∃ m' v' b ns₁' ns₂', mergeTurn cmp (m, v) = some (.inl (m', v')) ∧
      Takes b ns₁ ns₂ ns₁' ns₂' ∧
      lsMerge (byData cmp) ns₁ ns₂ = b :: lsMerge (byData cmp) ns₁' ns₂' ∧
      Merging m' v' (d ++ [b]) ns₁' ns₂' ∧ Touches m m' (addrs (d ++ [b])) := by
  obtain ⟨⟨a, x⟩, ns₁', ns₂', htakes, hnext, hmerge⟩ :=
    mergeNext_eq cmp h.chain₁ h.chain₂ hne h.first h.second
  obtain ⟨n, p, hc⟩ := h.chosen htakes
  have hnot := h.not_both hne
  rcases d.eq_nil_or_concat' with rfl | ⟨d₀, ⟨r, y⟩, rfl⟩
  · obtain ⟨m', v', hturn, hmerging, htouch⟩ := h.turn_first cmp hc hnot hnext
    exact ⟨m', v', (a, x), ns₁', ns₂', hturn, htakes, hmerge, hmerging, htouch⟩
  · obtain ⟨m', v', hturn, hmerging, htouch⟩ := h.turn_behind cmp hc hnot hnext
    exact ⟨m', v', (a, x), ns₁', ns₂', hturn, htakes, hmerge, hmerging, htouch⟩

/-- What follows the loop closes the chain. -/
theorem Merging.finish (cmp : α → α → Int) (h : Merging m v d [] []) : ∃ m',
    mergeTurn cmp (m, v) = some (.inr ((addrs d).headD 0, m')) ∧ Chain m' d ∧
      Backward (pOf m') 0 (addrs d) ∧ Touches m m' (addrs d) := by
  have hboth : v.first = 0 ∧ v.second = 0 := ⟨h.first, h.second⟩
  have hnodup : (0 :: addrs d).Nodup := by
    have hnod := h.nodup
    rw [List.append_nil, List.append_nil] at hnod
    exact hnod
  rcases d.eq_nil_or_concat with rfl | ⟨d₀, ⟨r, y⟩, rfl⟩
  · obtain ⟨hhead, hnext⟩ := h.empty rfl
    refine ⟨m, ?_, .nil, trivial, .refl m _⟩
    simp only [mergeTurn, if_pos hboth, hhead, hnext, ne_eq, not_true_eq_false, if_false,
      Option.bind_eq_bind, Option.bind_some]
    rfl
  · rw [List.concat_eq_append] at h hnodup ⊢
    obtain ⟨hhead, -, hnext⟩ := h.last (by simp)
    have hlast : lastOf 0 (addrs (d₀ ++ [(r, y)])) = r := by
      rw [addrs_append, addrs_cons, addrs_nil, lastOf_concat]
    rw [hlast] at hnext
    have hsome : ∀ b ∈ addrs (d₀ ++ [(r, y)]), (m.iters b).isSome := by
      intro b hb
      obtain ⟨c, hc, rfl⟩ := List.mem_map.mp hb
      obtain ⟨i, hi, -⟩ := Option.bind_eq_some_iff.mp (h.data c hc)
      rw [hi]
      rfl
    have hr : r ∈ addrs (d₀ ++ [(r, y)]) := mem_addrs (List.mem_append_right d₀ List.mem_cons_self)
    -- the first node
    obtain ⟨a, l, hal⟩ : ∃ a l, addrs (d₀ ++ [(r, y)]) = a :: l :=
      List.exists_cons_of_ne_nil fun hnil ↦ by
      rw [hnil] at hr
      cases hr
    have hback := h.backward
    have ha : a ∈ addrs (d₀ ++ [(r, y)]) := by
      rw [hal]
      exact List.mem_cons_self
    have hne0 : ∀ b ∈ addrs (d₀ ++ [(r, y)]), b ≠ 0 := by
      rintro b hb rfl
      exact (List.nodup_cons.mp hnodup).1 hb
    rw [hal, List.headD_cons] at hhead
    rw [hal] at hback
    have hp : ∀ b, pOf (m.modIter a fun h ↦ { h with p := 0 }) b = pOf m b := by
      intro b
      by_cases hb : b = a
      · subst hb
        rw [hback.1, pOf, iters_modIter_self]
        obtain ⟨i, hi⟩ := Option.isSome_iff_exists.mp (hsome b ha)
        rw [hi]
        rfl
      · exact pOf_modIter_of_ne _ hb
    have hcode : mergeTurn cmp (m, v) = some (.inr ((addrs (d₀ ++ [(r, y)])).headD 0,
        (m.modIter a fun h ↦ { h with p := 0 }).modIter r fun b ↦ { b with n := 0 })) := by
      have hsomer : ((m.modIter a fun h ↦ { h with p := 0 }).iters r).isSome := by
        rw [isSome_iters_modIter]
        exact hsome r hr
      rw [hal, List.headD_cons]
      simp only [mergeTurn, if_pos hboth, hhead, hnext, ne_eq, hne0 a ha, hne0 r hr,
        not_false_eq_true, if_true, setIter_of_isSome (hne0 a ha) (hsome a ha),
        setIter_of_isSome (hne0 r hr) hsomer, Option.bind_eq_bind, Option.bind_some]
    obtain ⟨z, hf⟩ := h.forward
    rw [addrs_append] at hf
    refine ⟨_, hcode, ⟨?_, hnodup, fun b hb ↦ ?_⟩, ?_, (Touches.modIter ha _).trans (.modIter hr _)⟩
    · rw [addrs_append]
      refine forward_append.mpr ⟨(forward_append.mp hf).1.congr fun b hb ↦ ?_, ?_, trivial⟩
      · have hbr : b ≠ r := by
          rintro rfl
          have hdis := (List.nodup_cons.mp hnodup).2
          rw [addrs_append] at hdis
          exact List.disjoint_of_nodup_append hdis hb List.mem_cons_self
        refine (nOf_modIter_of_ne _ hbr).trans (nOf_modIter ?_ b)
        exact fun _ ↦ rfl
      · show nOf _ r = some 0
        have hsomer : ((m.modIter a fun h ↦ { h with p := 0 }).iters r).isSome := by
          rw [isSome_iters_modIter]
          exact hsome r hr
        obtain ⟨i, hi⟩ := Option.isSome_iff_exists.mp hsomer
        rw [nOf, iters_modIter_self, hi]
        rfl
    · refine ((dataOf_modIter ?_).trans (dataOf_modIter ?_)).trans (h.data b hb)
      · exact fun _ ↦ rfl
      · exact fun _ ↦ rfl
    · refine h.backward.congr fun b _ ↦ (pOf_modIter ?_ b).trans (hp b)
      exact fun _ ↦ rfl

/-- The loop of `_merge`. -/
theorem Merging.loop (cmp : α → α → Int) (h : Merging m v d ns₁ ns₂) : ∃ m',
    LoopEnds (mergeTurn cmp) (m, v) ((addrs (d ++ lsMerge (byData cmp) ns₁ ns₂)).headD 0, m') ∧
      Chain m' (d ++ lsMerge (byData cmp) ns₁ ns₂) ∧
      Backward (pOf m') 0 (addrs (d ++ lsMerge (byData cmp) ns₁ ns₂)) ∧
      Touches m m' (addrs (d ++ lsMerge (byData cmp) ns₁ ns₂)) := by
  induction hk : ns₁.length + ns₂.length generalizing m v d ns₁ ns₂ with
  | zero =>
      obtain rfl := List.length_eq_zero_iff.mp (Nat.add_eq_zero_iff.mp hk).1
      obtain rfl := List.length_eq_zero_iff.mp (Nat.add_eq_zero_iff.mp hk).2
      obtain ⟨m', hturn, hchain, hback, ht⟩ := h.finish cmp
      rw [lsMerge, List.append_nil]
      exact ⟨m', .stop hturn, hchain, hback, ht⟩
  | succ k ih =>
      have hne : ¬ (ns₁ = [] ∧ ns₂ = []) := by
        rintro ⟨rfl, rfl⟩
        cases hk
      obtain ⟨m₁, v₁, b, ns₁', ns₂', hturn, htakes, hmerge, h₁, ht₁⟩ := h.turn cmp hne
      have hlen := htakes.perm.length_eq
      rw [List.length_append, List.length_cons, List.length_append] at hlen
      obtain ⟨m', hloop, hchain, hback, ht⟩ := ih h₁ (by omega)
      have hassoc : d ++ lsMerge (byData cmp) ns₁ ns₂ =
          d ++ [b] ++ lsMerge (byData cmp) ns₁' ns₂' := by
        rw [hmerge, List.append_assoc]
        rfl
      rw [hassoc]
      refine ⟨m', .turn hturn hloop, hchain, hback, (ht₁.mono fun a ha ↦ ?_).trans ht⟩
      rw [addrs_append]
      exact List.mem_append_left _ ha

end Merge

/-- **Merging**: the nodes of two chains make up one, linked in both directions, and their elements
come in the order of the merged sequences. -/
theorem merge_eq {m : Mem α κ} {ns₁ ns₂ : List (Nat × α)} (cmp : α → α → Int) (h₁ : Chain m ns₁)
    (h₂ : Chain m ns₂) (hdis : List.Disjoint (addrs ns₁) (addrs ns₂)) : ∃ m',
      merge cmp m ((addrs ns₁).headD 0) ((addrs ns₂).headD 0) =
        some ((addrs (lsMerge (byData cmp) ns₁ ns₂)).headD 0, m') ∧
      Chain m' (lsMerge (byData cmp) ns₁ ns₂) ∧
      Backward (pOf m') 0 (addrs (lsMerge (byData cmp) ns₁ ns₂)) ∧
      Touches m m' (addrs (lsMerge (byData cmp) ns₁ ns₂)) := by
  have hnodup : (0 :: addrs ([] ++ (ns₁ ++ ns₂))).Nodup := by
    have hn₁ := List.nodup_cons.mp h₁.nodup
    have hn₂ := List.nodup_cons.mp h₂.nodup
    rw [List.nil_append, addrs_append]
    refine List.nodup_cons.mpr ⟨fun hmem ↦ ?_, hn₁.2.append hn₂.2 hdis⟩
    rcases List.mem_append.mp hmem with hmem | hmem
    · exact hn₁.1 hmem
    · exact hn₂.1 hmem
  have hstart : Merging m ⟨(addrs ns₁).headD 0, (addrs ns₂).headD 0, 0, 0, 0⟩ [] ns₁ ns₂ :=
    ⟨rfl, rfl, fun _ ↦ ⟨rfl, rfl⟩, fun h ↦ absurd rfl h, ⟨0, trivial⟩, trivial, h₁, h₂, hnodup,
      fun _ hb ↦ absurd hb List.not_mem_nil⟩
  obtain ⟨m', hloop, hchain, hback, ht⟩ := hstart.loop cmp
  exact ⟨m', hloop.result, hchain, hback, ht⟩

end SdbStore.Ls
