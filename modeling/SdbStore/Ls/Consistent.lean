import SdbStore.Ls.Calls
import SdbStore.Lib.Simulation

/-!
# Lists stay consistent

What the functions of `ls.c` are for: each of them changes a sequence of elements.  Whatever
functions are called, the lists of the memory are the sequences that this gives, linked in both
directions and with the right length, until `ls_pop_head` is called on an empty list or `ls_join`
with a second list that is not empty: both leave a wrong length behind.  The third exception needs
more than 2³¹ nodes.
-/

namespace SdbStore.Ls

open Lib

variable {α κ : Type}

/-- The calls of a run, with the addresses that `malloc` returns in them. -/
inductive LsOp (α : Type) where
  | newf (list : Nat) (freefn : Bool)
  | append (list it : Nat) (data : α)
  | prepend (list it : Nat) (data : α)
  | insert (list : Nat) (n : BitVec 32) (it : Nat) (data : α)
  | pop (list : Nat)
  | popHead (list : Nat)
  | delN (list : Nat) (n : BitVec 32)
  | delete (list iter : Nat)
  | splitIter (list iter : Nat)
  | join (list1 list2 : Nat)
  | clone (list r : Nat) (its : List Nat)
  | destroy (list : Nat)

/-- What a call returns: nothing, a node or a list, whether it has done something, or an element. -/
inductive Answer (α : Type) where
  | done
  | ptr (a : Nat)
  | flag (b : Bool)
  | data (x : Option α)
deriving DecidableEq

/-- One call, if it comes back. -/
def LsOp.run (m : Mem α κ) : LsOp α → Option (Answer α × Mem α κ)
  | .newf list freefn => some (.ptr (lsNewf m list freefn).1, (lsNewf m list freefn).2)
  | .append list it x => (lsAppend m list it (some x)).map fun r ↦ (.ptr r.1, r.2)
  | .prepend list it x => (lsPrepend m list it (some x)).map fun r ↦ (.ptr r.1, r.2)
  | .insert list n it x => (lsInsert m list n it (some x)).map fun r ↦ (.ptr r.1, r.2)
  | .pop list => (lsPop m list).map fun r ↦ (.data r.1, r.2)
  | .popHead list => (lsPopHead m list).map fun r ↦ (.data r.1, r.2)
  | .delN list n => (lsDelN m list n).map fun r ↦ (.flag r.1, r.2)
  | .delete list iter => (lsDelete m list iter).map fun m ↦ (.done, m)
  | .splitIter list iter => (lsSplitIter m list iter).map fun m ↦ (.done, m)
  | .join list1 list2 => (lsJoin m list1 list2).map fun r ↦ (.flag r.1, r.2)
  | .clone list r its => (lsClone m list r its).map fun r ↦ (.ptr r.1, r.2)
  | .destroy list => (lsDestroy m list).map fun m ↦ (.done, m)

/-! ## Sequences -/

/-- The elements of a list. -/
def Contents.at (c : Contents α) (list : Nat) : List (Nat × α) := (c list).getD []

/-- A sequence with another one put in at an index; behind it if there is no such index. -/
def insertAt (i : Int) (new l : List (Nat × α)) : List (Nat × α) :=
  if 0 ≤ i ∧ i ≤ l.length then l.take i.toNat ++ new ++ l.drop i.toNat else l ++ new

/-- What a call means for the sequences. -/
def LsOp.spec (c : Contents α) : LsOp α → Answer α × Contents α
  | .newf list _ => (.ptr list, if list = 0 then c else c.put list [])
  | .append list it x => (.ptr it, c.put list (c.at list ++ newNode it x))
  | .prepend list it x => (.ptr it, c.put list (newNode it x ++ c.at list))
  | .insert list n it x => (.ptr it, c.put list (insertAt n.toInt (newNode it x) (c.at list)))
  | .pop list => (.data ((c.at list).getLast?.map Prod.snd), c.put list (c.at list).dropLast)
  | .popHead list => (.data ((c.at list).head?.map Prod.snd), c.put list (c.at list).tail)
  | .delN list n =>
      if 0 ≤ n.toInt ∧ n.toInt < (c.at list).length then
        (.flag true, c.put list ((c.at list).eraseIdx n.toInt.toNat))
      else (.flag false, c)
  | .delete list iter | .splitIter list iter =>
      (.done, c.put list ((c.at list).eraseP fun b ↦ b.1 = iter))
  | .join list1 list2 =>
      if c.at list2 = [] then (.flag false, c)
      else (.flag true, (c.put list1 (c.at list1 ++ c.at list2)).put list2 [])
  | .clone list r its =>
      (.ptr r, if r = 0 then c else c.put r (clonedNodes ((c.at list).map Prod.snd) its))
  | .destroy list => (.done, c.put list [])

/-! ## Runs -/

/-- A call on lists of the memory, or on a node of its list, that gets new addresses. -/
def Legal (m : Mem α κ) (c : Contents α) : LsOp α → Prop
  | .newf list _ => list = 0 ∨ m.lists list = none
  | .append list it _ | .prepend list it _ | .insert list _ it _ => (c list).isSome ∧ Mallocs m it
  | .pop list | .popHead list | .delN list _ | .destroy list => (c list).isSome
  | .delete list iter | .splitIter list iter => (c list).isSome ∧ iter ∈ addrs (c.at list)
  | .join list1 list2 => (c list1).isSome ∧ (c list2).isSome
  | .clone list r its => (c list).isSome ∧ (r = 0 ∨ m.lists r = none) ∧ (∀ it ∈ its, Mallocs m it) ∧
      (its.filter (· ≠ 0)).Nodup

/-- The calls that go wrong: the head of an empty list is taken, a list that is not empty is put
behind another one, or an element is put or deleted at a negative number and the number comes
round to that of an element. -/
def Bad (c : Contents α) : LsOp α → Prop
  | .popHead list => c.at list = []
  | .join _ list2 => c.at list2 ≠ []
  | .insert list n it _ => it ≠ 0 ∧ n.toInt < 0 ∧ n.toNat < (c.at list).length
  | .delN list n => n.toInt < 0 ∧ n.toNat < (c.at list).length
  | _ => False

/-- The last call has answered rightly, and the memory has these lists, with the right lengths. -/
def Consistent (s : Option (Answer α × Mem α κ)) (a : Answer α × Contents α) : Prop :=
  ∃ m, s = some (a.1, m) ∧ Holds m a.2 ∧
    ∀ list ns, a.2 list = some ns → lengthOf m list = some ns.length

/-- A call in a run. -/
def lsStep (s : Option (Answer α × Mem α κ)) (op : LsOp α) : Unit × Option (Answer α × Mem α κ) :=
  ((), s.bind fun r ↦ op.run r.2)

/-- What it means for the sequences. -/
def lsSpec (a : Answer α × Contents α) (op : LsOp α) : Unit × (Answer α × Contents α) :=
  ((), op.spec a.2)

/-- The call is legal in the state of the run. -/
def LegalIn (s : Option (Answer α × Mem α κ)) (a : Answer α × Contents α) (op : LsOp α) : Prop :=
  ∀ r, s = some r → Legal r.2 a.2 op

/-- The call goes wrong in the state of the run. -/
def BadIn (_ : Option (Answer α × Mem α κ)) (a : Answer α × Contents α) (op : LsOp α) : Prop :=
  Bad a.2 op

section Step

variable {m m' : Mem α κ} {c : Contents α} {list : Nat} {ns : List (Nat × α)} {ans : Answer α}

/-- The lists of a memory, with the right lengths. -/
structure Measured (m : Mem α κ) (c : Contents α) : Prop where
  holds : Holds m c
  length : ∀ list ns, c list = some ns → lengthOf m list = some ns.length

theorem Measured.consistent (h : Measured m c) : Consistent (some (ans, m)) (ans, c) :=
  ⟨m, rfl, h.holds, h.length⟩

/-- A change to one list leaves the lengths right. -/
theorem Measured.effect {old : List (Nat × α)} (h : Measured m c) (hc : c list = some old)
    (heff : Effect m m' c list ns) : Measured m' (c.put list ns) := by
  refine ⟨heff.holds, fun list' ns' hc' ↦ ?_⟩
  by_cases hne : list' = list
  · subst hne
    rw [c.put_self] at hc'
    obtain rfl := Option.some.inj hc'
    exact heff.length old hc (h.length list' old hc)
  · rw [c.put_of_ne ns hne] at hc'
    rw [lengthOf, heff.others list' hne]
    exact h.length list' ns' hc'

theorem Measured.fresh (h : Measured m c) (heff : Effect m m' c list ns)
    (hlen : lengthOf m' list = some ns.length) : Measured m' (c.put list ns) := by
  refine ⟨heff.holds, fun list' ns' hc' ↦ ?_⟩
  by_cases hne : list' = list
  · subst hne
    rw [c.put_self] at hc'
    obtain rfl := Option.some.inj hc'
    exact hlen
  · rw [c.put_of_ne ns hne] at hc'
    rw [lengthOf, heff.others list' hne]
    exact h.length list' ns' hc'

theorem at_eq (hc : c list = some ns) : c.at list = ns := by
  rw [Contents.at, hc]
  rfl

theorem put_same (hc : c list = some ns) : c.put list ns = c := by
  rw [Contents.put, ← hc, Function.update_eq_self]

/-- The place where an element is put is the one that the number says. -/
theorem insertAt_eq {n : BitVec 32} {it : Nat} {x : α}
    (h : ¬ (it ≠ 0 ∧ n.toInt < 0 ∧ n.toNat < ns.length)) :
    insertAt n.toInt (newNode it x) ns = ns.take n.toNat ++ newNode it x ++ ns.drop n.toNat := by
  rw [insertAt]
  by_cases hneg : n.toInt < 0
  · rw [if_neg fun h0 ↦ absurd h0.1 (Int.not_le.mpr hneg)]
    by_cases hit : it = 0
    · rw [newNode, if_pos hit, List.append_nil, List.append_nil, List.take_append_drop]
    · have hle : ns.length ≤ n.toNat := Nat.le_of_not_lt fun hlt ↦ h ⟨hit, hneg, hlt⟩
      rw [List.take_of_length_le hle, List.drop_of_length_le hle, List.append_nil]
  · have hnat : n.toInt.toNat = n.toNat := by
      rw [BitVec.toInt_eq_toNat_cond] at hneg ⊢
      have hlt := n.isLt
      split at hneg
      · next hsmall =>
          rw [if_pos hsmall]
          rfl
      · omega
    split
    · rw [hnat]
    · next hno =>
        have hle : ns.length ≤ n.toNat := by omega
        rw [List.take_of_length_le hle, List.drop_of_length_le hle, List.append_nil]

/-- The node that the number says is deleted, if there is one. -/
theorem delN_spec {n : BitVec 32} (hc : c list = some ns)
    (h : ¬ (n.toInt < 0 ∧ n.toNat < ns.length)) : (LsOp.delN list n).spec c =
      (.flag (decide (n.toNat < ns.length)), c.put list (ns.eraseIdx n.toNat)) := by
  have hnat : 0 ≤ n.toInt → n.toInt = n.toNat := by
    intro h0
    have hlt := n.isLt
    rw [BitVec.toInt_eq_toNat_cond] at h0 ⊢
    split at h0
    · next hsmall => rw [if_pos hsmall]
    · omega
  rw [LsOp.spec, at_eq hc]
  by_cases hin : 0 ≤ n.toInt ∧ n.toInt < ns.length
  · have heq := hnat hin.1
    have hlt : n.toNat < ns.length := by omega
    have htoNat : n.toInt.toNat = n.toNat := by omega
    rw [if_pos hin, decide_eq_true hlt, htoNat]
  · have hle : ns.length ≤ n.toNat := by omega
    rw [if_neg hin, decide_eq_false (Nat.not_lt.mpr hle), List.eraseIdx_of_length_le hle,
      put_same hc]

/-- A node of a list, and the list without it. -/
theorem exists_node (hl : Listed m list ns) {y : Nat} (hy : y ∈ addrs ns) :
    ∃ l₁ x l₂, ns = l₁ ++ (y, x) :: l₂ ∧ (ns.eraseP fun b ↦ b.1 = y) = l₁ ++ l₂ := by
  obtain ⟨⟨y, x⟩, hmem, rfl⟩ := List.mem_map.mp hy
  obtain ⟨l₁, l₂, rfl⟩ := List.append_of_mem hmem
  refine ⟨l₁, x, l₂, rfl, ?_⟩
  have hnodup := (List.nodup_cons.mp hl.nodup).2
  rw [addrs_append, addrs_cons] at hnodup
  rw [List.eraseP_append_right, List.eraseP_cons_of_pos (by simp)]
  intro b hb
  have hne : b.1 ≠ y := by
    rintro rfl
    refine (List.nodup_cons.mp (List.perm_middle.nodup_iff.mp hnodup)).1 ?_
    exact List.mem_append_left _ (mem_addrs (b := b) hb)
  simpa using hne

/-- **One call.**  A legal call that does not go wrong answers as its sequences do. -/
theorem Measured.step (h : Measured m c) {op : LsOp α} (hlegal : Legal m c op) (hbad : ¬ Bad c op) :
    ∃ m', op.run m = some ((op.spec c).1, m') ∧ Measured m' (op.spec c).2 := by
  cases op with
  | newf list freefn =>
      by_cases h0 : list = 0
      · refine ⟨m, ?_, ?_⟩
        · rw [LsOp.run, lsNewf, if_pos h0, h0]
          rfl
        · rw [LsOp.spec, if_pos h0]
          exact h
      · obtain ⟨hptr, heff, hzero⟩ := lsNewf_effect h.holds h0 freefn
        refine ⟨(lsNewf m list freefn).2, ?_, ?_⟩
        · rw [LsOp.run, hptr]
          rfl
        · rw [LsOp.spec, if_neg h0]
          exact h.fresh heff hzero
  | append list it x =>
      obtain ⟨hsome, hit⟩ := hlegal
      obtain ⟨ns, hc⟩ := Option.isSome_iff_exists.mp hsome
      obtain ⟨m', hrun, heff, -⟩ := lsAppend_effect h.holds hc hit x
      refine ⟨m', by rw [LsOp.run, hrun]; rfl, ?_⟩
      rw [LsOp.spec, at_eq hc]
      exact h.effect hc heff
  | prepend list it x =>
      obtain ⟨hsome, hit⟩ := hlegal
      obtain ⟨ns, hc⟩ := Option.isSome_iff_exists.mp hsome
      obtain ⟨m', hrun, heff⟩ := lsPrepend_effect h.holds hc hit x
      refine ⟨m', by rw [LsOp.run, hrun]; rfl, ?_⟩
      rw [LsOp.spec, at_eq hc]
      exact h.effect hc heff
  | insert list n it x =>
      obtain ⟨hsome, hit⟩ := hlegal
      obtain ⟨ns, hc⟩ := Option.isSome_iff_exists.mp hsome
      obtain ⟨m', hrun, heff⟩ := lsInsert_effect h.holds hc n hit x
      refine ⟨m', by rw [LsOp.run, hrun]; rfl, ?_⟩
      rw [Bad, at_eq hc] at hbad
      rw [LsOp.spec, at_eq hc, insertAt_eq hbad]
      exact h.effect hc heff
  | pop list =>
      obtain ⟨ns, hc⟩ := Option.isSome_iff_exists.mp hlegal
      rw [LsOp.spec, at_eq hc]
      rcases ns.eq_nil_or_concat with rfl | ⟨l, b, rfl⟩
      · refine ⟨m, by rw [LsOp.run, lsPop_nil h.holds hc]; rfl, ?_⟩
        rw [List.dropLast_nil, put_same hc]
        exact h
      · rw [List.concat_eq_append] at hc ⊢
        obtain ⟨m', hrun, heff⟩ := lsPop_effect (x := b.2) h.holds hc
        rw [List.getLast?_concat, List.dropLast_concat]
        exact ⟨m', by rw [LsOp.run, hrun]; rfl, h.effect hc heff⟩
  | popHead list =>
      obtain ⟨ns, hc⟩ := Option.isSome_iff_exists.mp hlegal
      rw [Bad, at_eq hc] at hbad
      rw [LsOp.spec, at_eq hc]
      cases ns with
      | nil => exact absurd rfl hbad
      | cons b ns =>
          obtain ⟨m', hrun, heff⟩ := lsPopHead_effect (x := b.2) h.holds hc
          exact ⟨m', by rw [LsOp.run, hrun]; rfl, h.effect hc heff⟩
  | delN list n =>
      obtain ⟨ns, hc⟩ := Option.isSome_iff_exists.mp hlegal
      rw [Bad, at_eq hc] at hbad
      obtain ⟨m', hrun, heff⟩ := lsDelN_effect h.holds hc n
      rw [delN_spec hc hbad]
      exact ⟨m', by rw [LsOp.run, hrun]; rfl, h.effect hc heff⟩
  | delete list iter =>
      obtain ⟨hsome, hiter⟩ := hlegal
      obtain ⟨ns, hc⟩ := Option.isSome_iff_exists.mp hsome
      rw [at_eq hc] at hiter
      obtain ⟨l₁, x, l₂, rfl, herase⟩ := exists_node (h.holds.listed list ns hc) hiter
      obtain ⟨m', hrun, heff⟩ := lsDelete_effect h.holds hc
      rw [LsOp.spec, at_eq hc, herase]
      exact ⟨m', by rw [LsOp.run, hrun]; rfl, h.effect hc heff⟩
  | splitIter list iter =>
      obtain ⟨hsome, hiter⟩ := hlegal
      obtain ⟨ns, hc⟩ := Option.isSome_iff_exists.mp hsome
      rw [at_eq hc] at hiter
      obtain ⟨l₁, x, l₂, rfl, herase⟩ := exists_node (h.holds.listed list ns hc) hiter
      obtain ⟨m', hrun, heff⟩ := lsSplitIter_effect h.holds hc
      rw [LsOp.spec, at_eq hc, herase]
      exact ⟨m', by rw [LsOp.run, hrun]; rfl, h.effect hc heff⟩
  | join list1 list2 =>
      obtain ⟨hsome1, hsome2⟩ := hlegal
      obtain ⟨ns1, hc1⟩ := Option.isSome_iff_exists.mp hsome1
      obtain ⟨ns2, hc2⟩ := Option.isSome_iff_exists.mp hsome2
      rw [Bad, not_not] at hbad
      have hnil : ns2 = [] := (at_eq hc2).symm.trans hbad
      subst hnil
      obtain ⟨l2, hl2, hlen⟩ := Option.map_eq_some_iff.mp (h.length list2 [] hc2)
      have hne1 := (h.holds.listed list1 ns1 hc1).ne_zero
      have hne2 := (h.holds.listed list2 [] hc2).ne_zero
      refine ⟨m, ?_, ?_⟩
      · rw [LsOp.run, lsJoin, if_neg (by simp [hne1, hne2]), list_eq hne2, hl2, LsOp.spec,
          if_pos hbad]
        simp only [Option.bind_eq_bind, Option.bind_some, hlen, List.length_nil, if_true,
          Option.map_some]
      · rw [LsOp.spec, if_pos hbad]
        exact h
  | clone list r its =>
      obtain ⟨hsome, hr, hits, hnodup⟩ := hlegal
      obtain ⟨ns, hc⟩ := Option.isSome_iff_exists.mp hsome
      rw [LsOp.spec, at_eq hc]
      by_cases h0 : r = 0
      · refine ⟨m, ?_, ?_⟩
        · rw [LsOp.run, lsClone, if_pos (.inr h0), h0]
          rfl
        · rw [if_pos h0]
          exact h
      · obtain ⟨m', hrun, heff, hlen⟩ :=
          lsClone_effect h.holds hc (hr.resolve_left h0) h0 hits hnodup
        refine ⟨m', by rw [LsOp.run, hrun]; rfl, ?_⟩
        rw [if_neg h0]
        exact h.fresh heff hlen
  | destroy list =>
      obtain ⟨ns, hc⟩ := Option.isSome_iff_exists.mp hlegal
      obtain ⟨m', hrun, heff⟩ := lsDestroy_effect h.holds hc
      exact ⟨m', by rw [LsOp.run, hrun]; rfl, h.effect hc heff⟩

end Step

/-! ## What goes wrong -/

section Wrong

variable {m m' : Mem α κ} {c : Contents α} {list : Nat} {ns : List (Nat × α)}

theorem setIter_eq_some {a : Nat} {f : SdbListIter α → SdbListIter α}
    (h : m.setIter a f = some m') : (m.iter a).isSome ∧ m' = m.modIter a f := by
  rw [Mem.setIter] at h
  split at h
  · next hsome => exact ⟨hsome, (Option.some.inj h).symm⟩
  · cases h

theorem setList_eq_some {f : SdbList κ → SdbList κ} (h : m.setList list f = some m') :
    (m.list list).isSome ∧ m' = m.modList list f := by
  rw [Mem.setList] at h
  split at h
  · next hsome => exact ⟨hsome, (Option.some.inj h).symm⟩
  · cases h

/-- The end of `ls_join`, where `n` is the length of the second list. -/
def Mem.joined (m : Mem α κ) (list1 list2 n : Nat) : Mem α κ :=
  ((m.modList list1 fun l ↦ { l with length := sizeT (l.length + n) }).modList list2 fun l ↦
    { l with head := 0, tail := 0 }).modList list1 fun l ↦ { l with sorted := false }

/-- What `ls_join` does when it comes back: nothing, or the first list takes the place of the
second, or the second is put behind the first. -/
inductive Joins (m : Mem α κ) (list1 list2 : Nat) : Bool → Mem α κ → Prop
  | nothing {l2 : SdbList κ} (h2 : m.list list2 = some l2) (hlen2 : l2.length = 0) :
      Joins m list1 list2 false m
  | replace {l1 l2 : SdbList κ} (h1 : m.list list1 = some l1) (h2 : m.list list2 = some l2)
      (hlen2 : l2.length ≠ 0) (hlen1 : l1.length = 0) :
      Joins m list1 list2 true
        ((m.modList list1 fun l ↦ { l with head := l2.head, tail := l2.tail }).joined list1 list2
          l2.length)
  | behind {l1 l2 : SdbList κ} (h1 : m.list list1 = some l1) (h2 : m.list list2 = some l2)
      (hlen2 : l2.length ≠ 0) (hlen1 : l1.length ≠ 0) (htail : (m.iter l1.tail).isSome)
      (hhead : (m.iter l2.head).isSome) :
      Joins m list1 list2 true
        (((((m.modIter l1.tail fun t ↦ { t with n := l2.head }).modIter l2.head fun h ↦
          { h with p := l1.tail }).modList list1 fun l ↦ { l with tail := l2.tail }).modIter l2.tail
            fun t ↦ { t with n := 0 }).joined list1 list2 l2.length)

theorem lsJoin_joins {list1 list2 : Nat} {b : Bool} (h1 : list1 ≠ 0) (h2 : list2 ≠ 0)
    (h : lsJoin m list1 list2 = some (b, m')) : Joins m list1 list2 b m' := by
  rw [lsJoin, if_neg (by simp [h1, h2])] at h
  obtain ⟨l2, hl2, h⟩ := Option.bind_eq_some_iff.mp h
  by_cases hlen2 : l2.length = 0
  · rw [if_pos hlen2] at h
    cases h
    exact .nothing hl2 hlen2
  · rw [if_neg hlen2] at h
    obtain ⟨l1, hl1, h⟩ := Option.bind_eq_some_iff.mp h
    have hend : ∀ m₁ : Mem α κ, ((m₁.setList list1 fun l ↦ { l with
        length := sizeT (l.length + l2.length) }).bind fun m ↦ (m.setList list2 fun l ↦
          { l with head := 0, tail := 0 }).bind fun m ↦ (m.setList list1 fun l ↦
            { l with sorted := false }).bind fun m ↦ some (true, m)) = some (b, m') →
        b = true ∧ m' = m₁.joined list1 list2 l2.length := by
      intro m₁ h
      obtain ⟨m₂, hm₂, h⟩ := Option.bind_eq_some_iff.mp h
      obtain ⟨m₃, hm₃, h⟩ := Option.bind_eq_some_iff.mp h
      obtain ⟨m₄, hm₄, h⟩ := Option.bind_eq_some_iff.mp h
      obtain ⟨-, rfl⟩ := setList_eq_some hm₂
      obtain ⟨-, rfl⟩ := setList_eq_some hm₃
      obtain ⟨-, rfl⟩ := setList_eq_some hm₄
      cases h
      exact ⟨rfl, rfl⟩
    dsimp only at h
    by_cases hlen1 : l1.length = 0
    · rw [if_pos hlen1] at h
      obtain ⟨m₁, hm₁, h⟩ := Option.bind_eq_some_iff.mp h
      obtain ⟨-, rfl⟩ := setList_eq_some hm₁
      obtain ⟨rfl, rfl⟩ := hend _ h
      exact .replace hl1 hl2 hlen2 hlen1
    · rw [if_neg hlen1] at h
      obtain ⟨n₁, hn₁, h⟩ := Option.bind_eq_some_iff.mp h
      obtain ⟨n₂, hn₂, h⟩ := Option.bind_eq_some_iff.mp h
      obtain ⟨n₃, hn₃, h⟩ := Option.bind_eq_some_iff.mp h
      obtain ⟨n₄, hn₄, h⟩ := Option.bind_eq_some_iff.mp h
      obtain ⟨htail, rfl⟩ := setIter_eq_some hn₁
      obtain ⟨hhead, rfl⟩ := setIter_eq_some hn₂
      obtain ⟨-, rfl⟩ := setList_eq_some hn₃
      obtain ⟨-, rfl⟩ := setIter_eq_some hn₄
      obtain ⟨rfl, rfl⟩ := hend _ h
      refine .behind hl1 hl2 hlen2 hlen1 htail ?_
      rw [Mem.iter] at hhead ⊢
      split at hhead
      · cases hhead
      · next h0 =>
          rw [if_neg h0]
          rwa [isSome_iters_modIter] at hhead

/-- The second list keeps its length, or gets twice as much if it is the first one as well. -/
theorem Joins.length {list1 list2 : Nat} {b : Bool} (h : Joins m list1 list2 b m')
    {n : Nat} (hn : lengthOf m list2 = some n) (h2 : list2 ≠ 0) (hn0 : n ≠ 0)
    (hlt : n < 2305843009213693952) : lengthOf m' list2 ≠ some 0 := by
  have hjoined : ∀ m₁ : Mem α κ, lengthOf m₁ list2 = some n →
      lengthOf (m₁.joined list1 list2 n) list2 ≠ some 0 := by
    intro m₁ hm₁
    obtain ⟨l, hl, rfl⟩ := Option.map_eq_some_iff.mp hm₁
    by_cases heq : list1 = list2
    · subst heq
      rw [Mem.joined, lengthOf, lists_modList_self, lists_modList_self, lists_modList_self, hl]
      simp only [Option.map_some, ne_eq, Option.some.injEq, sizeT]
      omega
    · rw [Mem.joined, lengthOf, lists_modList_of_ne _ (Ne.symm heq), lists_modList_self,
        lists_modList_of_ne _ (Ne.symm heq), hl]
      simpa using hn0
  obtain ⟨l2', hl2', hlen⟩ := Option.map_eq_some_iff.mp hn
  have hsame : ∀ {l2}, m.list list2 = some l2 → l2.length = n := by
    intro l2 hl2
    rw [list_eq h2, hl2'] at hl2
    rw [← Option.some.inj hl2]
    exact hlen
  have hkeep : ∀ (m₁ : Mem α κ) (list : Nat) (f : SdbList κ → SdbList κ),
      (∀ l, (f l).length = l.length) → lengthOf m₁ list2 = some n →
      lengthOf (m₁.modList list f) list2 = some n := by
    intro m₁ list f hf hm₁
    by_cases heq : list2 = list
    · subst heq
      rw [lengthOf_modList id hf, hm₁]
      rfl
    · rw [lengthOf, lists_modList_of_ne f heq]
      exact hm₁
  cases h with
  | nothing hl2 hlen2 => exact absurd ((hsame hl2).symm.trans hlen2) hn0
  | replace hl1 hl2 hlen2 hlen1 =>
      rw [hsame hl2]
      exact hjoined _ (hkeep m list1 _ (fun _ ↦ rfl) hn)
  | behind hl1 hl2 hlen2 hlen1 htail hhead =>
      rw [hsame hl2]
      refine hjoined _ ?_
      exact hkeep _ list1 _ (fun _ ↦ rfl) hn

/-- A call that goes wrong leaves a length or a list that is not what its sequences say. -/
theorem Measured.not_consistent (h : Measured m c) {op : LsOp α} (hlegal : Legal m c op)
    (hbad : Bad c op) : ¬ Consistent (op.run m) (op.spec c) := by
  rintro ⟨m', hrun, hholds, hlength⟩
  cases op with
  | popHead list =>
      obtain ⟨ns, hc⟩ := Option.isSome_iff_exists.mp hlegal
      have hnil : ns = [] := (at_eq hc).symm.trans hbad
      subst hnil
      obtain ⟨hpop, -⟩ := lsPopHead_nil h.holds hc
      rw [LsOp.run, hpop] at hrun
      obtain rfl : m.shorten list = m' := congrArg Prod.snd (Option.some.inj hrun)
      have hlen := hlength list [] (by rw [LsOp.spec, at_eq hc]; exact c.put_self list [])
      have hdec : lengthOf (m.shorten list) list = some 18446744073709551615 := by
        rw [Mem.shorten]
        refine (lengthOf_modList lengthDec ?_).trans ?_
        · exact fun _ ↦ rfl
        · rw [h.length list [] hc, Option.map_some, List.length_nil]
          decide
      rw [hdec] at hlen
      cases hlen
  | join list1 list2 =>
      obtain ⟨hsome1, hsome2⟩ := hlegal
      obtain ⟨ns1, hc1⟩ := Option.isSome_iff_exists.mp hsome1
      obtain ⟨ns2, hc2⟩ := Option.isSome_iff_exists.mp hsome2
      obtain ⟨r, hjoin, hr⟩ := Option.map_eq_some_iff.mp hrun
      obtain rfl : r.2 = m' := congrArg Prod.snd hr
      have hne1 := (h.holds.listed list1 ns1 hc1).ne_zero
      have hne2 := (h.holds.listed list2 ns2 hc2).ne_zero
      have hns : ns2.length ≠ 0 := by
        rw [Ne, List.length_eq_zero_iff]
        rintro rfl
        exact hbad (at_eq hc2)
      refine (lsJoin_joins hne1 hne2 hjoin).length (h.length list2 ns2 hc2) hne2 hns
        (h.holds.length_lt hc2) ?_
      refine hlength list2 [] ?_
      rw [LsOp.spec, if_neg hbad]
      exact Contents.put_self _ list2 []
  | insert list n it x =>
      obtain ⟨hsome, hit⟩ := hlegal
      obtain ⟨ns, hc⟩ := Option.isSome_iff_exists.mp hsome
      rw [Bad, at_eq hc] at hbad
      obtain ⟨hit0, hneg, hlt⟩ := hbad
      obtain ⟨m₁, hins, heff⟩ := lsInsert_effect h.holds hc n hit x
      rw [LsOp.run, hins] at hrun
      obtain rfl : m₁ = m' := congrArg Prod.snd (Option.some.inj hrun)
      -- the new node would have to be the last one, and another one is
      have hspec : (LsOp.spec c (.insert list n it x)).2 list = some (ns ++ [(it, x)]) := by
        rw [LsOp.spec, at_eq hc, insertAt, if_neg fun h0 ↦ absurd h0.1 (Int.not_le.mpr hneg),
          newNode, if_neg hit0]
        exact c.put_self list _
      have hl := hholds.listed list _ hspec
      have hl' := heff.holds.listed list _ (c.put_self list _)
      rw [newNode, if_neg hit0] at hl'
      obtain ⟨l, hlist, -, htail⟩ := hl.exists_list
      obtain ⟨l', hlist', -, htail'⟩ := hl'.exists_list
      obtain rfl := Option.some.inj (hlist.symm.trans hlist')
      rw [addrs_append, addrs_cons, addrs_nil, lastOf_concat] at htail
      rw [List.drop_eq_getElem_cons hlt, addrs_append, addrs_cons, lastOf_append_cons, htail]
        at htail'
      have hmem : it ∈ addrs (ns.drop n.toNat) := by
        have hlast : it = lastOf ns[n.toNat].1 (addrs (ns.drop (n.toNat + 1))) := htail'
        rw [List.drop_eq_getElem_cons hlt, addrs_cons, hlast]
        exact lastOf_mem _ _
      have hmem' : it ∈ addrs ns := List.map_subset Prod.fst (List.drop_subset n.toNat ns) hmem
      have hsome' := (h.holds.listed list ns hc).isSome_iter hmem'
      rw [(hit.resolve_left hit0).2] at hsome'
      cases hsome'
  | delN list n =>
      obtain ⟨ns, hc⟩ := Option.isSome_iff_exists.mp hlegal
      rw [Bad, at_eq hc] at hbad
      obtain ⟨hneg, hlt⟩ := hbad
      obtain ⟨m₁, hdel, -⟩ := lsDelN_effect h.holds hc n
      rw [LsOp.run, hdel] at hrun
      have hspec : ((LsOp.delN list n).spec c).1 = .flag false := by
        rw [LsOp.spec, if_neg fun h0 ↦ absurd h0.1 (Int.not_le.mpr hneg)]
      rw [hspec, decide_eq_true hlt] at hrun
      cases hrun
  | _ => exact hbad

end Wrong

/-! ## Whole runs -/

/-- The answer and the memory after the first `n` calls of a run that begins without lists. -/
def lsState (κ : Type) (ops : List (LsOp α)) (n : Nat) : Option (Answer α × Mem α κ) :=
  stateAfter lsStep (some (.done, .empty)) ops n

/-- The answer and the sequences after the first `n` calls. -/
def lsContents (ops : List (LsOp α)) (n : Nat) : Answer α × Contents α :=
  stateAfter lsSpec (.done, fun _ ↦ none) ops n

/-- The calls of the run are legal. -/
def LegalRun (κ : Type) (ops : List (LsOp α)) : Prop :=
  ∀ n op, ops[n]? = some op → LegalIn (lsState κ ops n) (lsContents ops n) op

/-- **Lists stay consistent**: in a run of legal calls, all lists are consistent and have the
elements of their sequences after every call, and every call answers as they do, if and only if no
call goes wrong. -/
theorem lsConsistent_iff {ops : List (LsOp α)} (hlegal : LegalRun κ ops) :
    (∀ n ≤ ops.length, Consistent (lsState κ ops n) (lsContents ops n)) ↔
      ∀ n op, ops[n]? = some op → ¬ Bad (lsContents ops n).2 op := by
  refine stateAfter_iff_of_ok (fun s a (h : Consistent s a) ↦ h)
    (fun s a op h hok (hbad : ¬ BadIn s a op) ↦ ?_) (fun s a op h hok hbad ↦ ?_) ?_ hlegal
  · obtain ⟨m, rfl, hholds, hlength⟩ := h
    obtain ⟨m', hrun, h'⟩ := (Measured.mk hholds hlength).step (hok _ rfl) hbad
    rw [lsStep, Option.bind_some, hrun]
    exact h'.consistent
  · obtain ⟨m, rfl, hholds, hlength⟩ := h
    exact (Measured.mk hholds hlength).not_consistent (hok _ rfl) hbad
  · exact ⟨.empty, rfl, .empty, fun _ _ hc ↦ nomatch hc⟩

theorem LegalIn.of_eq {s : Option (Answer α × Mem α κ)} {r : Answer α × Mem α κ}
    {a : Answer α × Contents α} {op : LsOp α} (hs : s = some r) (h : Legal r.2 a.2 op) :
    LegalIn s a op := by
  intro r' hr'
  obtain rfl := Option.some.inj (hs.symm.trans hr')
  exact h

/-- An element is put behind another one, and a third in front of both, which is taken again. -/
def lsFewOps : List (LsOp Nat) :=
  [.newf 8 false, .append 8 16 5, .append 8 24 6, .prepend 8 32 7, .popHead 8]

theorem lsFewOps_legal : LegalRun Unit lsFewOps := by
  rintro n op hop
  match n, hop with
  | 0, rfl => exact .of_eq rfl (.inr rfl)
  | 1, rfl => exact .of_eq rfl ⟨rfl, .inr ⟨by decide, rfl⟩⟩
  | 2, rfl => exact .of_eq rfl ⟨rfl, .inr ⟨by decide, rfl⟩⟩
  | 3, rfl => exact .of_eq rfl ⟨rfl, .inr ⟨by decide, rfl⟩⟩
  | 4, rfl => exact .of_eq rfl rfl
  | _ + 5, h => cases h

theorem lsFewOps_consistent : Consistent (lsState Unit lsFewOps 5) (lsContents lsFewOps 5) := by
  refine (lsConsistent_iff lsFewOps_legal).mpr ?_ 5 (Nat.le_refl 5)
  rintro n op hop
  match n, hop with
  | 0, rfl => exact id
  | 1, rfl => exact id
  | 2, rfl => exact id
  | 3, rfl => exact id
  | 4, rfl => exact fun h ↦ nomatch h
  | _ + 5, h => cases h

/-- The head of an empty list is taken. -/
def lsPopEmpty : List (LsOp Nat) := [.newf 8 false, .popHead 8]

/-- A list with one element is put behind an empty one. -/
def lsJoinOne : List (LsOp Nat) := [.newf 8 false, .newf 16 false, .append 16 24 5, .join 8 16]

/-- Both leave a wrong length behind. -/
theorem not_lsConsistent :
    (LegalRun Unit lsPopEmpty ∧
      ¬ Consistent (lsState Unit lsPopEmpty 2) (lsContents lsPopEmpty 2)) ∧
    LegalRun Unit lsJoinOne ∧ ¬ Consistent (lsState Unit lsJoinOne 4) (lsContents lsJoinOne 4) := by
  refine ⟨⟨?_, ?_⟩, ?_, ?_⟩
  · rintro n op hop
    match n, hop with
    | 0, rfl => exact .of_eq rfl (.inr rfl)
    | 1, rfl => exact .of_eq rfl rfl
    | _ + 2, h => cases h
  · rintro ⟨m, hm, -, hlength⟩
    have hlen := hlength 8 [] rfl
    have hwrong : ((lsState Unit lsPopEmpty 2).bind fun s ↦ lengthOf s.2 8) =
        some 18446744073709551615 := by decide
    rw [hm, Option.bind_some, hlen] at hwrong
    cases hwrong
  · rintro n op hop
    match n, hop with
    | 0, rfl => exact .of_eq rfl (.inr rfl)
    | 1, rfl => exact .of_eq rfl (.inr rfl)
    | 2, rfl => exact .of_eq rfl ⟨rfl, .inr ⟨by decide, rfl⟩⟩
    | 3, rfl => exact .of_eq rfl ⟨rfl, rfl⟩
    | _ + 4, h => cases h
  · rintro ⟨m, hm, -, hlength⟩
    have hlen := hlength 16 [] rfl
    have hwrong : ((lsState Unit lsJoinOne 4).bind fun s ↦ lengthOf s.2 16) = some 1 := by decide
    rw [hm, Option.bind_some, hlen] at hwrong
    cases hwrong

end SdbStore.Ls
