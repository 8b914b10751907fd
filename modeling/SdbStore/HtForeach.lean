import SdbStore.Lib.Runs
import SdbStore.HtMap

/-!
# Deleting while iterating

`ht_foreach` lets its callback delete the entry that it is called on.  The deletion moves the
rest of the bucket under the cursor, and the loop learns of it from the number of entries in the
whole table, which it keeps for comparison.
-/

namespace SdbStore

open Lib

universe u v w

variable {K : Type u} {V : Type v} {σ : Type w}

/-- `HT_(ForeachCallback)`, with the table that it may change: it goes on while it returns true. -/
abbrev HtForeachCallback (o : HtOptions K V) (σ : Type w) :=
  σ → Ht (HtKv o) → K → V → Bool × σ × Ht (HtKv o)

/-- The variables of `BUCKET_FOREACH_SAFE`, with what the callback changes; `kv` points into the
array of the bucket. -/
structure SafeLoop (o : HtOptions K V) (σ : Type w) where
  j : Nat
  kv : Nat
  count : Nat
  user : σ
  ht : Ht (HtKv o)

variable {o : HtOptions K V}

/-- A turn of `BUCKET_FOREACH_SAFE` in `ht_foreach`.  A bucket without an array has no entries. -/
def bucketForeachTurn (cb : HtForeachCallback o σ) (i : Nat) (s : SafeLoop o σ) :
    Option (SafeLoop o σ ⊕ (Bool × SafeLoop o σ)) :=
  let bt := s.ht.table.getD i []
  if s.j < bt.length then
    match bt[s.kv]? with
    | none => none
    | some kv =>
        let (ret, user, ht) := cb s.user s.ht kv.key kv.value
        if ret then
          some (.inl {
            j := if s.count = ht.count then s.j + 1 else s.j
            kv := if s.count = ht.count then s.kv + 1 else s.kv
            count := ht.count
            user := user
            ht := ht })
        else some (.inr (false, { s with user := user, ht := ht }))
  else some (.inr (true, s))

/-- The loop of `ht_foreach` over `n` buckets from `i` on. -/
def htForeachLoop (cb : HtForeachCallback o σ) :
    Nat → Nat → σ → Ht (HtKv o) → Option (σ × Ht (HtKv o))
  | 0, _, user, ht => some (user, ht)
  | n + 1, i, user, ht =>
      let s : SafeLoop o σ := { j := 0, kv := 0, count := ht.count, user := user, ht := ht }
      have : Nonempty (Bool × SafeLoop o σ) := ⟨true, s⟩
      match repeatM (bucketForeachTurn cb i) s with
      | none => none
      | some (true, s) => htForeachLoop cb n (i + 1) s.user s.ht
      | some (false, s) => some (s.user, s.ht)

/-- `ht_foreach`, if it comes back. -/
def htForeach (ht : Ht (HtKv o)) (cb : HtForeachCallback o σ) (user : σ) :
    Option (σ × Ht (HtKv o)) :=
  htForeachLoop cb ht.size 0 user ht

/-! ## Callbacks that delete their entry -/

/-- What a callback makes of an entry: whether it goes on, and whether it deletes the entry. -/
structure Choice where
  ret : Bool
  delete : Bool

/-- The callback that chooses so, and deletes nothing but the entry it is called on. -/
def selfDeleting [DecidableEq K] (choose : σ → Ht (HtKv o) → K → V → Choice × σ) :
    HtForeachCallback o σ := fun user ht key value ↦
  let (c, user) := choose user ht key value
  (c.ret, user, if c.delete then (htDelete o.opt ht key).2 else ht)

/-- A call of a callback: its arguments, and what it chose. -/
structure ChoiceCall (K : Type u) (V : Type v) where
  key : K
  value : V
  choice : Choice

/-- The choices, written down as they are made. -/
def logged (choose : σ → Ht (HtKv o) → K → V → Choice × σ) :
    List (ChoiceCall K V) × σ → Ht (HtKv o) → K → V → Choice × List (ChoiceCall K V) × σ :=
  fun (log, user) ht key value ↦
    let (c, user) := choose user ht key value
    (c, log ++ [⟨key, value, c⟩], user)

section Called

variable {A B stayA stayB : List (HtKv o)} {callsA callsB : List (ChoiceCall K V)} {ret : Bool}

/-- The calls that are made for a list of entries, one after another until one returns false; `stay`
is what the calls leave of the entries. -/
inductive Called : List (HtKv o) → List (ChoiceCall K V) → List (HtKv o) → Bool → Prop
  | done : Called [] [] [] true
  | stop (kv : HtKv o) (kvs : List (HtKv o)) (c : Choice) (hc : c.ret = false) :
      Called (kv :: kvs) [⟨kv.key, kv.value, c⟩] (if c.delete then kvs else kv :: kvs) false
  | call (kv : HtKv o) {kvs stay : List (HtKv o)} {calls : List (ChoiceCall K V)} {ret : Bool}
      (c : Choice) (hc : c.ret = true) (hcalled : Called kvs calls stay ret) :
      Called (kv :: kvs) (⟨kv.key, kv.value, c⟩ :: calls)
        (if c.delete then stay else kv :: stay) ret

theorem Called.append (hA : Called A callsA stayA true) (hB : Called B callsB stayB ret) :
    Called (A ++ B) (callsA ++ callsB) (stayA ++ stayB) ret := by
  generalize htrue : true = r at hA
  induction hA with
  | done => exact hB
  | stop => cases htrue
  | call kv c hc _ ih =>
      have hcall := Called.call kv c hc (ih htrue)
      cases hdel : c.delete with
      | true =>
          rw [hdel, if_pos rfl] at hcall
          exact hcall
      | false =>
          rw [hdel, if_neg Bool.false_ne_true] at hcall
          exact hcall

theorem Called.stopped (hA : Called A callsA stayA false) (B : List (HtKv o)) :
    Called (A ++ B) callsA (stayA ++ B) false := by
  generalize hfalse : false = r at hA ⊢
  induction hA with
  | done => cases hfalse
  | stop kv kvs c hc =>
      have hstop := Called.stop kv (kvs ++ B) c hc
      cases hdel : c.delete with
      | true =>
          rw [hdel, if_pos rfl] at hstop
          exact hstop
      | false =>
          rw [hdel, if_neg Bool.false_ne_true] at hstop
          exact hstop
  | call kv c hc _ ih =>
      have hcall := Called.call kv c hc (ih hfalse)
      cases hdel : c.delete with
      | true =>
          rw [hdel, if_pos rfl] at hcall
          exact hcall
      | false =>
          rw [hdel, if_neg Bool.false_ne_true] at hcall
          exact hcall

end Called

/-! ## The loops -/

/-- A turn on the entry that the cursor has come to. -/
theorem bucketForeachTurn_kv (cb : HtForeachCallback o σ) {h : Ht (HtKv o)} {i : Nat}
    {A B : List (HtKv o)} {kv : HtKv o} (hi : h.table[i]? = some (A ++ kv :: B)) (user : σ) :
    bucketForeachTurn cb i ⟨A.length, A.length, h.count, user, h⟩ =
      let (ret, user, h') := cb user h kv.key kv.value
      if ret then
        some (.inl ⟨if h.count = h'.count then A.length + 1 else A.length,
          if h.count = h'.count then A.length + 1 else A.length, h'.count, user, h'⟩)
      else some (.inr (false, ⟨A.length, A.length, h.count, user, h'⟩)) := by
  have hgetD : h.table.getD i [] = A ++ kv :: B := by
    rw [List.getD_eq_getElem?_getD, hi]
    rfl
  have hmore : A.length < (A ++ kv :: B).length := by
    rw [List.length_append, List.length_cons]
    omega
  have hkv : (A ++ kv :: B)[A.length]? = some kv := by
    rw [List.getElem?_append_right (Nat.le_refl _), Nat.sub_self]
    rfl
  rw [bucketForeachTurn]
  simp only [hgetD, hmore, if_true, hkv]

theorem bucketForeachTurn_end (cb : HtForeachCallback o σ) {h : Ht (HtKv o)} {i : Nat}
    {A : List (HtKv o)} (hi : h.table[i]? = some A) (user : σ) :
    bucketForeachTurn cb i ⟨A.length, A.length, h.count, user, h⟩ =
      some (.inr (true, ⟨A.length, A.length, h.count, user, h⟩)) := by
  have hend : ¬ A.length < (h.table.getD i []).length := by
    rw [List.getD_eq_getElem?_getD, hi, Option.getD_some]
    exact Nat.lt_irrefl _
  rw [bucketForeachTurn]
  simp only [hend, if_false]

section Loops

variable [DecidableEq K] {h : Ht (HtKv o)} (choose : σ → Ht (HtKv o) → K → V → Choice × σ)
  (ho : o.Lawful) (hw : h.WF o.opt)
include ho hw

omit choose in
/-- An entry is deleted, or not: the number of entries tells. -/
theorem choice_bucket {i : Nat} {A B : List (HtKv o)} {kv : HtKv o}
    (hi : h.table[i]? = some (A ++ kv :: B)) (delete : Bool) :
    let h' := if delete then (htDelete o.opt h kv.key).2 else h
    h'.WF o.opt ∧ h'.size = h.size ∧
      h'.table = h.table.set i (A ++ if delete then B else kv :: B) ∧
      (h.count = h'.count ↔ delete = false) := by
  cases delete with
  | true =>
      have hpos : 0 < h.count := by
        rw [hw.count]
        exact List.length_pos_of_mem
          (List.mem_flatten.mpr ⟨_, List.mem_of_getElem? hi, (by simp : kv ∈ A ++ kv :: B)⟩)
      have hdel : (htDelete o.opt h kv.key).2 =
          { h with table := h.table.set i (A ++ B), count := h.count - 1 } :=
        congrArg Prod.snd (htDelete_bucket ho.opt hw hi)
      refine ⟨(htDelete_spec ho.opt hw kv.key).1, ?_⟩
      rw [if_pos rfl, if_pos rfl, hdel]
      refine ⟨rfl, rfl, ?_⟩
      rw [Bool.true_eq_false, iff_false]
      dsimp only
      omega
  | false =>
      obtain ⟨hlt, hget⟩ := List.getElem?_eq_some_iff.mp hi
      dsimp only
      rw [if_neg Bool.false_ne_true, if_neg Bool.false_ne_true, ← hget, List.set_getElem_self]
      exact ⟨hw, rfl, rfl, fun _ ↦ rfl, fun _ ↦ rfl⟩

/-- **The loop over a bucket**, from the entry on that the cursor has come to.  An entry that is
deleted makes the count differ, and the cursor stays where the next entry has moved to. -/
theorem bucketForeach_called {i : Nat} {A B : List (HtKv o)} (hi : h.table[i]? = some (A ++ B))
    (log : List (ChoiceCall K V)) (user : σ) :
    ∃ ret s calls stay, LoopEnds (bucketForeachTurn (selfDeleting (logged choose)) i)
        ⟨A.length, A.length, h.count, (log, user), h⟩ (ret, s) ∧
      Called B calls stay ret ∧ s.user.1 = log ++ calls ∧ s.ht.WF o.opt ∧ s.ht.size = h.size ∧
      s.ht.table = h.table.set i (A ++ stay) := by
  induction B generalizing h A log user with
  | nil =>
      obtain ⟨hlt, hget⟩ := List.getElem?_eq_some_iff.mp hi
      have hstop := bucketForeachTurn_end (selfDeleting (logged choose)) hi (log, user)
      rw [List.append_nil] at hstop hget
      refine ⟨true, _, [], [], .stop hstop, .done, (List.append_nil log).symm, hw, rfl, ?_⟩
      rw [List.append_nil, ← hget, List.set_getElem_self]
  | cons kv B ih =>
      obtain ⟨hlt, hget⟩ := List.getElem?_eq_some_iff.mp hi
      have hturn := bucketForeachTurn_kv (selfDeleting (logged choose)) hi (log, user)
      rcases hchoose : choose user h kv.key kv.value with ⟨c, user'⟩
      simp only [selfDeleting, logged, hchoose] at hturn
      have hchoice := choice_bucket ho hw hi c.delete
      dsimp only at hchoice
      generalize (if c.delete then (htDelete o.opt h kv.key).2 else h) = h' at hturn hchoice
      obtain ⟨hw', hsize', htable', hcount'⟩ := hchoice
      have hi' : h'.table[i]? = some (A ++ if c.delete then B else kv :: B) := by
        rw [htable', List.getElem?_set_self hlt]
      cases hret : c.ret with
      | false =>
          rw [hret, if_neg Bool.false_ne_true] at hturn
          exact ⟨false, _, _, _, .stop hturn, .stop kv B c hret, rfl, hw', hsize', htable'⟩
      | true =>
          rw [hret, if_pos rfl] at hturn
          cases hdelete : c.delete with
          | true =>
              rw [hdelete, if_pos rfl] at hi'
              rw [if_neg fun heq ↦ by rw [hcount'.mp heq] at hdelete; cases hdelete] at hturn
              obtain ⟨ret, s, calls, stay, hloop, hcalled, hlog, hws, hsize, htable⟩ :=
                ih hw' hi' (log ++ [⟨kv.key, kv.value, c⟩]) user'
              have hcalled' := Called.call kv c hret hcalled
              rw [hdelete, if_pos rfl] at hcalled'
              refine ⟨ret, s, _, _, .turn hturn hloop, hcalled', ?_, hws, hsize.trans hsize', ?_⟩
              · rw [hlog, List.append_assoc]
                rfl
              · rw [htable, htable', List.set_set]
          | false =>
              rw [hdelete, if_neg Bool.false_ne_true, List.append_cons] at hi'
              have hlength : A.length + 1 = (A ++ [kv]).length := by
                rw [List.length_append, List.length_singleton]
              rw [if_pos (hcount'.mpr hdelete), hlength] at hturn
              obtain ⟨ret, s, calls, stay, hloop, hcalled, hlog, hws, hsize, htable⟩ :=
                ih hw' hi' (log ++ [⟨kv.key, kv.value, c⟩]) user'
              have hcalled' := Called.call kv c hret hcalled
              rw [hdelete, if_neg Bool.false_ne_true] at hcalled'
              refine ⟨ret, s, _, _, .turn hturn hloop, hcalled', ?_, hws, hsize.trans hsize', ?_⟩
              · rw [hlog, List.append_assoc]
                rfl
              · rw [htable, htable', List.set_set, ← List.append_cons]

/-- **The loop over the buckets**, from a bucket on. -/
theorem htForeachLoop_called {S T : List (List (HtKv o))} (htable : h.table = S ++ T)
    (log : List (ChoiceCall K V)) (user : σ) :
    ∃ ret user' h' calls stay, htForeachLoop (selfDeleting (logged choose)) T.length S.length
        (log, user) h = some ((log ++ calls, user'), h') ∧
      Called T.flatten calls stay ret ∧ h'.WF o.opt ∧ h'.toList = S.flatten ++ stay := by
  induction T generalizing h S log user with
  | nil =>
      refine ⟨true, user, h, [], [], ?_, .done, hw, ?_⟩
      · rw [List.append_nil]
        rfl
      · rw [Ht.toList, htable, List.flatten_append, List.flatten_nil]
  | cons bt T ih =>
      have hi : h.table[S.length]? = some ([] ++ bt) := by
        rw [htable, List.getElem?_append_right (Nat.le_refl _), Nat.sub_self]
        rfl
      obtain ⟨ret, s, calls, stay, hloop, hcalled, hlog, hws, hsize, htable'⟩ :=
        bucketForeach_called choose ho hw hi log user
      obtain ⟨j, kv, count, ⟨log', user'⟩, h'⟩ := s
      dsimp only at hlog hws hsize htable'
      subst hlog
      rw [htable, List.nil_append, List.set_append_right _ _ (Nat.le_refl _), Nat.sub_self,
        List.set_cons_zero] at htable'
      have : Nonempty (Bool × SafeLoop o (List (ChoiceCall K V) × σ)) :=
        ⟨true, ⟨j, kv, count, (log, user'), h'⟩⟩
      have hbucket := hloop.result
      rw [List.length_nil] at hbucket
      rw [List.length_cons, htForeachLoop]
      simp only [hbucket]
      cases ret with
      | false =>
          refine ⟨false, user', h', calls, stay ++ T.flatten, rfl, ?_, hws, ?_⟩
          · exact hcalled.stopped T.flatten
          · rw [Ht.toList, htable', List.flatten_append, List.flatten_cons]
      | true =>
          rw [List.append_cons] at htable'
          obtain ⟨ret, user', h', calls', stay', hrest, hcalled', hw', hlist⟩ :=
            ih hws htable' (log ++ calls) user'
          rw [List.length_append, List.length_singleton] at hrest
          refine ⟨ret, user', h', calls ++ calls', stay ++ stay', ?_, hcalled.append hcalled', hw',
            ?_⟩
          · rw [← List.append_assoc]
            exact hrest
          · rw [hlist, List.flatten_append, List.flatten_singleton, List.append_assoc]

/-- **`ht_foreach`** comes back, having called the callback for the entries of the table. -/
theorem htForeach_called (user : σ) :
    ∃ ret calls user' h' stay, htForeach h (selfDeleting (logged choose)) ([], user) =
        some ((calls, user'), h') ∧
      Called h.toList calls stay ret ∧ h'.WF o.opt ∧ h'.toList = stay := by
  obtain ⟨ret, user', h', calls, stay, hloop, hcalled, hw', hlist⟩ :=
    htForeachLoop_called choose ho hw (List.nil_append h.table).symm [] user
  rw [List.length_nil, hw.length] at hloop
  exact ⟨ret, calls, user', h', stay, hloop, hcalled, hw', hlist⟩

end Loops

/-! ## What the calls are -/

section Calls

variable {entries stay : List (HtKv o)} {calls : List (ChoiceCall K V)} {ret : Bool}

/-- The calls are for the entries, one each and in order; the last one may have ended the loop. -/
theorem Called.args (h : Called entries calls stay ret) :
    (calls.map fun c ↦ (c.key, c.value)) <+: entries.map fun kv ↦ (kv.key, kv.value) := by
  induction h with
  | done => exact List.prefix_rfl
  | stop kv kvs c _ => exact ⟨kvs.map fun kv ↦ (kv.key, kv.value), rfl⟩
  | call kv c _ _ ih => exact (List.cons_prefix_cons).mpr ⟨rfl, ih⟩

theorem Called.all (h : Called entries calls stay ret) (hgo : ∀ c ∈ calls, c.choice.ret = true) :
    (calls.map fun c ↦ (c.key, c.value)) = entries.map fun kv ↦ (kv.key, kv.value) := by
  induction h with
  | done => rfl
  | stop kv kvs c hc =>
      have htrue := hgo _ List.mem_cons_self
      rw [hc] at htrue
      cases htrue
  | call kv c _ _ ih =>
      rw [List.map_cons, List.map_cons, ih fun c hmem ↦ hgo c (List.mem_cons_of_mem _ hmem)]

theorem Called.goesOn (h : Called entries calls stay ret) :
    ∀ c ∈ calls.dropLast, c.choice.ret = true := by
  induction h with
  | done => exact fun _ hmem ↦ absurd hmem List.not_mem_nil
  | stop => exact fun _ hmem ↦ absurd hmem List.not_mem_nil
  | @call kv kvs stay calls ret c hc _ ih =>
      intro c' hmem
      cases calls with
      | nil => exact absurd hmem List.not_mem_nil
      | cons c₁ calls =>
          rw [List.dropLast_cons_cons] at hmem
          rcases List.mem_cons.mp hmem with rfl | hmem
          · exact hc
          · exact ih c' hmem

theorem Called.key_mem (h : Called entries calls stay ret) :
    ∀ c ∈ calls, c.key ∈ entries.map HtKv.key := by
  intro c hc
  have hmem : (c.key, c.value) ∈ calls.map fun c ↦ (c.key, c.value) := List.mem_map_of_mem hc
  obtain ⟨kv, hkv, heq⟩ := List.mem_map.mp (h.args.subset hmem)
  exact List.mem_map.mpr ⟨kv, hkv, (Prod.mk.inj heq).1⟩

variable [DecidableEq K]

/-- No call has deleted the entry. -/
def keptBy (calls : List (ChoiceCall K V)) (kv : HtKv o) : Bool :=
  !calls.any fun c ↦ decide (c.key = kv.key) && c.choice.delete

theorem filter_keptBy_cons {kv : HtKv o} (hkv : kv.key ∉ entries.map HtKv.key)
    (hcalls : ∀ c ∈ calls, c.key ∈ entries.map HtKv.key) (value : V) (c : Choice) :
    (kv :: entries).filter (keptBy (⟨kv.key, value, c⟩ :: calls)) =
      if c.delete then entries.filter (keptBy calls) else kv :: entries.filter (keptBy calls) := by
  have htail : entries.filter (keptBy (⟨kv.key, value, c⟩ :: calls)) =
      entries.filter (keptBy calls) := by
    refine List.filter_congr fun e he ↦ ?_
    have hne : kv.key ≠ e.key := fun heq ↦ hkv (List.mem_map.mpr ⟨e, he, heq.symm⟩)
    rw [keptBy, List.any_cons, decide_eq_false hne, Bool.false_and, Bool.false_or, keptBy]
  have hhead : keptBy (⟨kv.key, value, c⟩ :: calls) kv = !c.delete := by
    have hnone : (calls.any fun c ↦ decide (c.key = kv.key) && c.choice.delete) = false := by
      rw [List.any_eq_false]
      intro c' hc' htrue
      rw [Bool.and_eq_true, decide_eq_true_eq] at htrue
      exact hkv (htrue.1 ▸ hcalls c' hc')
    rw [keptBy, List.any_cons, hnone, Bool.or_false, decide_eq_true rfl, Bool.true_and]
  rw [List.filter_cons, hhead, htail]
  cases c.delete with
  | true => rfl
  | false => rfl

/-- The entries that stay are those that no call has deleted. -/
theorem Called.stay_eq (h : Called entries calls stay ret) (hd : (entries.map HtKv.key).Nodup) :
    stay = entries.filter (keptBy calls) := by
  induction h with
  | done => rfl
  | stop kv kvs c _ =>
      have hall : kvs.filter (keptBy []) = kvs := List.filter_eq_self.mpr fun _ _ ↦ rfl
      rw [List.map_cons, List.nodup_cons] at hd
      rw [filter_keptBy_cons hd.1 (fun _ hmem ↦ absurd hmem List.not_mem_nil), hall]
  | call kv c _ hcalled ih =>
      rw [List.map_cons, List.nodup_cons] at hd
      rw [filter_keptBy_cons hd.1 hcalled.key_mem, ← ih hd.2]

end Calls

/-! ## Any table -/

section Tables

variable [DecidableEq K]

/-- `ht_foreach` over `h` has made these calls, and left `h'`: the calls are for the entries of the
table, for each at most once, and for each of them if none returned false; those that a call
deleted are gone, and no other. -/
structure SelfDeleted (h : Ht (HtKv o)) (calls : List (ChoiceCall K V)) (h' : Ht (HtKv o)) :
    Prop where
  args : (calls.map fun c ↦ (c.key, c.value)) <+: h.toList.map fun kv ↦ (kv.key, kv.value)
  once : (calls.map ChoiceCall.key).Nodup
  goesOn : ∀ c ∈ calls.dropLast, c.choice.ret = true
  all : (∀ c ∈ calls, c.choice.ret = true) →
    (calls.map fun c ↦ (c.key, c.value)) = h.toList.map fun kv ↦ (kv.key, kv.value)
  left : h'.toList = h.toList.filter (keptBy calls)
  wf : h'.WF o.opt

variable {h : Ht (HtKv o)} (ho : o.Lawful)
include ho

theorem wf_htInsertKv (hw : h.WF o.opt) (kv : HtKv o) (update : Bool) :
    (htInsertKv o.opt h kv update).2.WF o.opt := by
  cases update with
  | true => exact (htInsertKv_spec ho.opt hw kv).2.1
  | false =>
      cases hlookup : Keyed.lookup o.opt.key h.toList (o.opt.key kv) with
      | none =>
          rw [htInsertKv_fresh ho.opt hw hlookup]
          exact (htInsertKv_spec ho.opt hw kv).2.1
      | some x =>
          rw [htInsertKv_refused ho.opt hw hlookup]
          exact hw

/-- Every operation keeps the invariant. -/
theorem wf_htCall (hw : h.WF o.opt) (c : HtCall o) : (htCall o h c).2.WF o.opt := by
  cases c with
  | insert key value => exact wf_htInsertKv ho hw _ false
  | update key value => exact wf_htInsertKv ho hw _ true
  | insertKv kv update => exact wf_htInsertKv ho hw kv update
  | find key => exact hw
  | findKv key => exact hw
  | delete key => exact (htDelete_spec ho.opt hw key).1
  | updateKey oldKey newKey =>
      rw [htCall, htUpdateKey]
      cases htFind o h oldKey with
      | none => exact hw
      | some value =>
          have hw' := wf_htInsertKv ho hw (newKv o newKey value) false
          rw [← insertUpdate] at hw'
          rcases hins : insertUpdate o h newKey value false with ⟨_ | _, h'⟩
          · rw [hins] at hw'
            simp only [hins]
            exact hw'
          · rw [hins] at hw'
            simp only [hins]
            exact (htDelete_spec ho.opt hw' oldKey).1

/-- **Deleting while iterating.**  In every table, `ht_foreach` with a callback that deletes nothing
but the entry it is called on calls it for every entry once, until it returns false, and leaves the
entries that it did not delete. -/
theorem htForeach_selfDeleting {h₀ : Ht (HtKv o)} (hm : HtMade o h₀) (calls : List (HtCall o))
    (choose : σ → Ht (HtKv o) → K → V → Choice × σ) (user : σ) :
    let h := (runOps (htCall o) h₀ calls).2
    ∃ log user' h', htForeach h (selfDeleting (logged choose)) ([], user) =
      some ((log, user'), h') ∧ SelfDeleted h log h' := by
  intro h
  have hw : h.WF o.opt := by
    have hkeeps := stateAfter_keeps (P := fun h : Ht (HtKv o) ↦ h.WF o.opt)
      (fun _ c hw ↦ wf_htCall ho hw c) hm.represents.wf calls calls.length
    rw [stateAfter, List.take_length] at hkeeps
    exact hkeeps
  obtain ⟨ret, log, user', h', stay, heq, hcalled, hw', hlist⟩ := htForeach_called choose ho hw user
  refine ⟨log, user', h', heq, hcalled.args, ?_, hcalled.goesOn, hcalled.all, ?_, hw'⟩
  · -- the keys are among those of the table, in order
    have hkeys : log.map ChoiceCall.key <+: h.toList.map HtKv.key := by
      have hfst := hcalled.args.map Prod.fst
      rw [List.map_map, List.map_map] at hfst
      exact hfst
    exact hw.distinct.sublist hkeys.sublist
  · rw [hlist]
    exact hcalled.stay_eq hw.distinct

end Tables

/-- Four numbers in one bucket, of which those with an even value are deleted. -/
theorem htForeach_selfDeleting_num :
    let calls : List (HtCall numOptions) := [.insert 0 1, .insert 3 2, .insert 6 4, .insert 9 5]
    let h := (runOps (htCall numOptions) htNew calls).2
    numOptions.Lawful ∧
    ∃ log user' h', htForeach h (selfDeleting (logged fun (n : Nat) _ _ value ↦
        (⟨true, decide (value % 2 = 0)⟩, n + 1))) ([], 0) = some ((log, user'), h') ∧
      SelfDeleted h log h' := by
  intro calls h
  have ho : numOptions.Lawful := by
    intro cmp hcmp a b _
    obtain rfl := Option.some.inj hcmp
    dsimp only
    omega
  exact ⟨ho, htForeach_selfDeleting ho .new calls _ 0⟩

end SdbStore
