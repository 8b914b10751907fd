import SdbStore.Lib.Answers
import SdbStore.Foreach
import SdbStore.HtForeach

/-!
# Sets

`SetP` and `SetU` are hash tables from strings and from 64-bit numbers, in which every key has the
value 1.  A member is looked for as a value that is not null, and an iteration may delete the
members that it comes to.
-/

namespace SdbStore

open Lib

universe u

/-! ## The tables -/

/-- The options of `ht_pp_new0`. -/
def htPpOptions : HtOptions CStr Nat where
  cmp := some strcmp
  hashfn := some sdbHash
  keyToHash := fun _ ↦ 0
  dupvalue := none
  calcsizeK := some fun k ↦ k.length
  calcsizeV := none

/-- The options of `ht_up_new0`, whose keys are compared by themselves. -/
def htUpOptions : HtOptions UInt64 Nat where
  cmp := none
  hashfn := none
  keyToHash := fun k ↦ k.toUInt32.toNat
  dupvalue := none
  calcsizeK := none
  calcsizeV := none

theorem strcmp_eq_zero_iff (a b : CStr) : strcmp a b = 0 ↔ a = b := by
  have hcmp : strcmp a b = 0 ↔ compare (a.val.map UInt8.toNat) (b.val.map UInt8.toNat) = .eq := by
    rw [strcmp]
    cases compare (a.val.map UInt8.toNat) (b.val.map UInt8.toNat) <;> decide
  rw [hcmp, Std.LawfulEqCmp.compare_eq_iff_eq, List.map_inj_right fun _ _ ↦ UInt8.toNat_inj.mp]
  exact Subtype.ext_iff.symm

/-- Options of a table that keeps its values as they are. -/
structure HtOptions.Plain {K : Type u} (o : HtOptions K Nat) : Prop where
  lawful : o.Lawful
  dupvalue : o.dupvalue = none

theorem plain_htPpOptions : htPpOptions.Plain := by
  refine ⟨?_, rfl⟩
  intro cmp hcmp a b _
  obtain rfl := Option.some.inj hcmp
  exact strcmp_eq_zero_iff a b

theorem plain_htUpOptions : htUpOptions.Plain :=
  ⟨fun _ hcmp ↦ absurd hcmp (Option.some_ne_none _).symm, rfl⟩

/-! ## What a callback chooses -/

section Chosen

variable {K V σ : Type} {o : HtOptions K V}

theorem bucketForeachTurn_keeps {cb : HtForeachCallback o σ} {P : σ → Prop}
    (hcb : ∀ user h k v, P user → P (cb user h k v).2.1) {i : Nat} {s : SafeLoop o σ}
    (hs : P s.user) : (∀ s', bucketForeachTurn cb i s = some (.inl s') → P s'.user) ∧
      ∀ r, bucketForeachTurn cb i s = some (.inr r) → P r.2.user := by
  rw [bucketForeachTurn]
  dsimp only
  split
  · split
    · constructor
      · intro _ h
        cases h
      · intro _ h
        cases h
    · next kv _ =>
        have hkeep := hcb s.user s.ht kv.key kv.value hs
        split
        · constructor
          · intro _ h
            cases h
            exact hkeep
          · intro _ h
            cases h
        · constructor
          · intro _ h
            cases h
          · intro _ h
            cases h
            exact hkeep
  · constructor
    · intro _ h
      cases h
    · intro _ h
      cases h
      exact hs

variable [DecidableEq K] (choose : σ → Ht (HtKv o) → K → V → Choice × σ) (ho : o.Lawful)
  {P : List (ChoiceCall K V) × σ → Prop}
  (hcb : ∀ user h k v, P user → P (logged choose user h k v).2)
include ho hcb

/-- What the callback keeps of what it is given holds at the end of the loop. -/
theorem htForeachLoop_keeps {h h' : Ht (HtKv o)} (hw : h.WF o.opt) {S T : List (List (HtKv o))}
    (htable : h.table = S ++ T) {user user' : List (ChoiceCall K V) × σ}
    (hloop : htForeachLoop (selfDeleting (logged choose)) T.length S.length user h =
      some (user', h'))
    (hP : P user) : P user' := by
  induction T generalizing h S user with
  | nil =>
      cases hloop
      exact hP
  | cons bt T ih =>
      have hi : h.table[S.length]? = some ([] ++ bt) := by
        rw [htable, List.getElem?_append_right (Nat.le_refl _), Nat.sub_self]
        rfl
      obtain ⟨ret, s, calls, stay, hturns, -, -, hws, -, htable'⟩ :=
        bucketForeach_called choose ho hw hi user.1 user.2
      have hcb' : ∀ user h k v, P user → P (selfDeleting (logged choose) user h k v).2.1 :=
        fun user h k v hP ↦ hcb user h k v hP
      have hs : P s.user := by
        refine hturns.keeps (P := fun s ↦ P s.user) (Q := fun r ↦ P r.2.user) ?_ ?_ hP
        · exact fun s s' hs hturn ↦ (bucketForeachTurn_keeps hcb' hs).1 s' hturn
        · exact fun s r hs hturn ↦ (bucketForeachTurn_keeps hcb' hs).2 r hturn
      rw [htable, List.nil_append, List.set_append_right _ _ (Nat.le_refl _), Nat.sub_self,
        List.set_cons_zero, List.append_cons] at htable'
      have : Nonempty (Bool × SafeLoop o (List (ChoiceCall K V) × σ)) := ⟨ret, s⟩
      have hbucket := hturns.result
      rw [List.length_nil] at hbucket
      rw [List.length_cons, htForeachLoop] at hloop
      simp only [hbucket] at hloop
      cases ret with
      | false =>
          cases hloop
          exact hs
      | true =>
          refine ih hws htable' ?_ hs
          rw [List.length_append, List.length_singleton]
          exact hloop

theorem htForeach_keeps {h h' : Ht (HtKv o)} (hw : h.WF o.opt)
    {user user' : List (ChoiceCall K V) × σ} (hloop : htForeach h
      (selfDeleting (logged choose)) user = some (user', h')) (hP : P user) : P user' := by
  rw [htForeach, ← hw.length] at hloop
  exact htForeachLoop_keeps choose ho hcb hw (List.nil_append h.table).symm hloop hP

end Chosen

/-! ## The calls -/

section Calls

variable {K σ : Type} [DecidableEq K] (o : HtOptions K Nat)

/-- `set_p_add` and `set_u_add`. -/
def setAdd (s : Ht (HtKv o)) (u : K) : Ht (HtKv o) := (htInsert o s u 1).2

/-- `set_p_contains` and `set_u_contains`: `HT_NULL_VALUE` is the null pointer. -/
def setContains (s : Ht (HtKv o)) (u : K) : Bool := decide ((htFind o s u).getD 0 ≠ 0)

/-- `set_p_delete` and `set_u_delete`. -/
def setDelete (s : Ht (HtKv o)) (u : K) : Ht (HtKv o) := (htDelete o.opt s u).2

/-- A callback of `set_p_foreach` or `set_u_foreach`, which may delete the member that it is called
with. -/
abbrev SetForeachCb (K σ : Type) := σ → K → Choice × σ

/-- `p_foreach_cb` and `u_foreach_cb`: the value is not handed on. -/
def foreachCb (cb : SetForeachCb K σ) : σ → Ht (HtKv o) → K → Nat → Choice × σ :=
  fun user _ k _ ↦ cb user k

/-- `set_p_foreach` and `set_u_foreach`, with the calls that they have made. -/
def setForeach (s : Ht (HtKv o)) (cb : SetForeachCb K σ) (user : σ) :
    Option ((List (ChoiceCall K Nat) × σ) × Ht (HtKv o)) :=
  htForeach s (selfDeleting (logged (foreachCb o cb))) ([], user)

/-- The calls on a set. -/
inductive SetOp (K σ : Type) where
  | add (u : K)
  | contains (u : K)
  | delete (u : K)
  | foreach (cb : SetForeachCb K σ) (user : σ)

/-- What a call answers: nothing, whether there is the member, or what an iteration has called its
callback with and what that chose. -/
inductive SetRes (K : Type) where
  | void
  | bool (b : Bool)
  | called (calls : List (K × Choice))

variable {o}

/-- A call on a set. -/
def SetOp.run (s : Ht (HtKv o)) : SetOp K σ → Option (SetRes K × Ht (HtKv o))
  | .add u => some (.void, setAdd o s u)
  | .contains u => some (.bool (setContains o s u), s)
  | .delete u => some (.void, setDelete o s u)
  | .foreach cb user => (setForeach o s cb user).map fun r ↦
      (.called (r.1.1.map fun c ↦ (c.key, c.choice)), r.2)

/-! ## The finite set -/

/-- What an iteration over a finite set may do: it asks the callback about members, each one once,
until it does not go on, and otherwise about all of them; the ones that it deletes are gone. -/
structure Iterates (cb : SetForeachCb K σ) (user : σ) (F : Finset K) (calls : List (K × Choice))
    (F' : Finset K) : Prop where
  chosen : calls.map Prod.snd = (runOps cb user (calls.map Prod.fst)).1
  once : (calls.map Prod.fst).Nodup
  member : ∀ c ∈ calls, c.1 ∈ F
  goesOn : ∀ c ∈ calls.dropLast, c.2.ret = true
  all : (∀ c ∈ calls, c.2.ret = true) → ∀ u ∈ F, u ∈ calls.map Prod.fst
  left : ∀ u, u ∈ F' ↔ u ∈ F ∧ ∀ c ∈ calls, c.1 = u → c.2.delete = false

/-- What a call does with a finite set. -/
def SetOp.Spec (F : Finset K) : SetOp K σ → SetRes K → Finset K → Prop
  | .add u, r, F' => r = .void ∧ F' = insert u F
  | .contains u, r, F' => r = .bool (decide (u ∈ F)) ∧ F' = F
  | .delete u, r, F' => r = .void ∧ F' = F.erase u
  | .foreach cb user, r, F' => ∃ calls, r = .called calls ∧ Iterates cb user F calls F'

/-- The table holds the members, with the value 1. -/
structure SetHolds (s : Ht (HtKv o)) (F : Finset K) : Prop where
  wf : s.WF o.opt
  members : ∀ u, u ∈ F ↔ u ∈ s.toList.map HtKv.key
  one : ∀ kv ∈ s.toList, kv.value = 1

section Tables

variable {s : Ht (HtKv o)} {F : Finset K} (ho : o.Plain) (h : SetHolds s F)
include ho h

omit ho in
theorem SetHolds.lookup (u : K) : (Keyed.lookup o.opt.key s.toList u = none) ↔ u ∉ F := by
  rw [Keyed.lookup_eq_none_iff, h.members u, List.mem_map, not_exists]
  exact forall_congr' fun kv ↦ ⟨fun hno hkv ↦ hno hkv.1 hkv.2, fun hno hkv hk ↦ hno ⟨hkv, hk⟩⟩

theorem SetHolds.contains (u : K) : setContains o s u = decide (u ∈ F) := by
  have hlookup := h.lookup u
  rw [setContains, htFind, htFindKv_eq ho.lawful.opt h.wf]
  cases hkv : Keyed.lookup o.opt.key s.toList u with
  | none =>
      rw [decide_eq_false (hlookup.mp hkv)]
      rfl
  | some kv =>
      have hmem : u ∈ F := by
        by_contra hno
        rw [hlookup.mpr hno] at hkv
        cases hkv
      have hone : kv.value = 1 := h.one kv (Keyed.lookup_some_mem hkv).1
      rw [decide_eq_true hmem, Option.map_some, Option.getD_some, hone]
      rfl

theorem SetHolds.add (u : K) : SetHolds (setAdd o s u) (insert u F) := by
  have hlookup := h.lookup u
  rw [setAdd, htInsert, insertUpdate]
  cases hkv : Keyed.lookup o.opt.key s.toList u with
  | some kv =>
      -- the member is there, and the table stays as it is
      have hmem : u ∈ F := by
        by_contra hno
        rw [hlookup.mpr hno] at hkv
        cases hkv
      rw [htInsertKv_refused ho.lawful.opt h.wf (e := newKv o u 1) hkv,
        Finset.insert_eq_self.mpr hmem]
      exact h
  | none =>
      obtain ⟨-, hwf, hperm⟩ := htInsertKv_spec ho.lawful.opt h.wf (newKv o u 1)
      rw [htInsertKv_fresh ho.lawful.opt h.wf (e := newKv o u 1) hkv]
      change List.Perm _ (_ :: Keyed.erase o.opt.key s.toList u) at hperm
      rw [Keyed.erase_of_lookup_none hkv] at hperm
      refine ⟨hwf, fun v ↦ ?_, fun kv hmem ↦ ?_⟩
      · rw [Finset.mem_insert, (hperm.map HtKv.key).mem_iff, List.map_cons, List.mem_cons,
          h.members v]
        exact Iff.rfl
      · rcases List.mem_cons.mp (hperm.mem_iff.mp hmem) with rfl | hmem
        · rw [newKv, dupval, ho.dupvalue]
        · exact h.one kv hmem

theorem SetHolds.delete (u : K) : SetHolds (setDelete o s u) (F.erase u) := by
  obtain ⟨hwf, hlist⟩ := htDelete_spec ho.lawful.opt h.wf u
  refine ⟨hwf, fun v ↦ ?_, fun kv hmem ↦ ?_⟩
  · rw [setDelete, hlist, Finset.mem_erase, h.members v, List.mem_map, List.mem_map]
    constructor
    · rintro ⟨hne, kv, hmem, rfl⟩
      exact ⟨kv, Keyed.mem_erase.mpr ⟨hmem, hne⟩, rfl⟩
    · rintro ⟨kv, hmem, rfl⟩
      obtain ⟨hmem, hne⟩ := Keyed.mem_erase.mp hmem
      exact ⟨hne, kv, hmem, rfl⟩
  · rw [setDelete, hlist] at hmem
    exact h.one kv (Keyed.mem_erase.mp hmem).1

/-- The choices of an iteration are those of its callback. -/
theorem SetHolds.chosen {cb : SetForeachCb K σ} {user user' : σ} {log : List (ChoiceCall K Nat)}
    {s' : Ht (HtKv o)} (hrun : setForeach o s cb user = some ((log, user'), s')) :
    runOps cb user (log.map ChoiceCall.key) = (log.map ChoiceCall.choice, user') := by
  refine htForeach_keeps (foreachCb o cb) ho.lawful
    (P := fun p ↦ runOps cb user (p.1.map ChoiceCall.key) = (p.1.map ChoiceCall.choice, p.2)) ?_
      h.wf hrun rfl
  rintro ⟨log, now⟩ _ k v hP
  dsimp only at hP
  rw [logged, foreachCb]
  dsimp only
  rw [List.map_append, List.map_singleton, runOps_concat, hP, List.map_append, List.map_singleton]

/-- An iteration over the table is one over its members. -/
theorem SetHolds.foreach (cb : SetForeachCb K σ) (user : σ) :
    ∃ calls s' F', (SetOp.foreach cb user).run s = some (.called calls, s') ∧
      Iterates cb user F calls F' ∧ SetHolds s' F' := by
  obtain ⟨ret, log, user', s', stay, heq, hcalled, hwf, hlist⟩ :=
    htForeach_called (foreachCb o cb) ho.lawful h.wf user
  have hkeys : (log.map fun c ↦ (c.key, c.choice)).map Prod.fst = log.map ChoiceCall.key := by
    rw [List.map_map]
    rfl
  have hprefix : log.map ChoiceCall.key <+: s.toList.map HtKv.key := by
    have hfst := hcalled.args.map Prod.fst
    rw [List.map_map, List.map_map] at hfst
    exact hfst
  have hstay := hcalled.stay_eq h.wf.distinct
  refine ⟨log.map fun c ↦ (c.key, c.choice), s', (s'.toList.map HtKv.key).toFinset, ?_, ?_, ?_⟩
  · rw [SetOp.run, setForeach, heq, Option.map_some]
  · constructor
    · rw [hkeys]
      have hchosen := h.chosen ho heq
      rw [hchosen, List.map_map]
      rfl
    · rw [hkeys]
      exact h.wf.distinct.sublist hprefix.sublist
    · intro p hp
      obtain ⟨c, hc, rfl⟩ := List.mem_map.mp hp
      exact (h.members _).mpr (hcalled.key_mem c hc)
    · intro p hp
      rw [← List.map_dropLast] at hp
      obtain ⟨c, hc, rfl⟩ := List.mem_map.mp hp
      exact hcalled.goesOn c hc
    · intro hgo u hu
      have hall := hcalled.all fun c hc ↦ hgo _ (List.mem_map_of_mem hc)
      have hfst := congrArg (List.map Prod.fst) hall
      rw [List.map_map, List.map_map] at hfst
      rw [hkeys]
      exact (congrArg (u ∈ ·) hfst).mpr ((h.members u).mp hu)
    · intro u
      rw [List.mem_toFinset, hlist, hstay, h.members u, List.mem_map, List.mem_map]
      constructor
      · rintro ⟨kv, hmem, rfl⟩
        obtain ⟨hmem, hkept⟩ := List.mem_filter.mp hmem
        refine ⟨⟨kv, hmem, rfl⟩, fun p hp hck ↦ ?_⟩
        obtain ⟨c, hc, rfl⟩ := List.mem_map.mp hp
        rw [keptBy, Bool.not_eq_true', List.any_eq_false] at hkept
        have hno := hkept c hc
        rw [decide_eq_true hck, Bool.true_and] at hno
        exact Bool.not_eq_true _ ▸ hno
      · rintro ⟨⟨kv, hmem, rfl⟩, hno⟩
        refine ⟨kv, List.mem_filter.mpr ⟨hmem, ?_⟩, rfl⟩
        rw [keptBy, Bool.not_eq_true', List.any_eq_false]
        intro c hc htrue
        rw [Bool.and_eq_true, decide_eq_true_eq] at htrue
        have hfalse := hno (c.key, c.choice) (List.mem_map_of_mem hc) htrue.1
        rw [htrue.2] at hfalse
        cases hfalse
  · refine ⟨hwf, fun u ↦ List.mem_toFinset, fun kv hmem ↦ ?_⟩
    rw [hlist, hstay] at hmem
    exact h.one kv (List.mem_filter.mp hmem).1

/-- A call on a table does with its members what it does with a finite set. -/
theorem SetHolds.run (c : SetOp K σ) :
    ∃ r s' F', c.run s = some (r, s') ∧ c.Spec F r F' ∧ SetHolds s' F' := by
  cases c with
  | add u => exact ⟨.void, _, _, rfl, ⟨rfl, rfl⟩, h.add ho u⟩
  | contains u =>
      refine ⟨.bool (setContains o s u), s, F, rfl, ⟨?_, rfl⟩, h⟩
      rw [h.contains ho u]
  | delete u => exact ⟨.void, _, _, rfl, ⟨rfl, rfl⟩, h.delete ho u⟩
  | «foreach» cb user =>
      obtain ⟨calls, s', F', hrun, hiter, h'⟩ := h.foreach ho cb user
      exact ⟨_, s', F', hrun, ⟨calls, rfl, hiter⟩, h'⟩

end Tables

omit [DecidableEq K] in
theorem setHolds_htNew : SetHolds (htNew : Ht (HtKv o)) ∅ := by
  refine ⟨htNew_wf, fun u ↦ ?_, fun kv hmem ↦ ?_⟩
  · rw [toList_htNew]
    exact ⟨fun hno ↦ absurd hno (Finset.notMem_empty u), fun hno ↦ absurd hno List.not_mem_nil⟩
  · rw [toList_htNew] at hmem
    exact absurd hmem List.not_mem_nil

/-- A run on a new table comes back, and answers as one on the empty set. -/
def RunsAsSet (o : HtOptions K Nat) (calls : List (SetOp K σ)) : Prop :=
  ∃ rs s F, runAll SetOp.run (htNew : Ht (HtKv o)) calls = some (rs, s) ∧
    Behaves SetOp.Spec ∅ calls rs F ∧ SetHolds s F

theorem runsAsSet (ho : o.Plain) (calls : List (SetOp K σ)) : RunsAsSet o calls :=
  runAll_behaves (fun _ _ c h ↦ h.run ho c) setHolds_htNew calls

end Calls

/-- **`SetP` and `SetU` are finite sets**: whatever is called, and whatever members the iterations
delete on their way, every run comes back and answers as a finite set. -/
theorem sets_refine {σ : Type} :
    (∀ calls : List (SetOp CStr σ), RunsAsSet htPpOptions calls) ∧
      ∀ calls : List (SetOp UInt64 σ), RunsAsSet htUpOptions calls :=
  ⟨runsAsSet plain_htPpOptions, runsAsSet plain_htUpOptions⟩

end SdbStore
