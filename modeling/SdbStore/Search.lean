import SdbStore.Base64
import SdbStore.Dump
import SdbStore.Match
import SdbStore.TextWrites

/-!
# Searching a database

`sdb_foreach_match`, `sdb_foreach_list_filter` and `sdb_like` collect the pairs that match.  The
first two make copies.  `sdb_like` keeps the pointers that its callback is given, in an array that
grows with every pair, and these lead to an entry in memory or to buffers that are gone when it
returns.
-/

namespace SdbStore

open Lib

/-! ## Sorting by keys -/

section Sorted

variable {α : Type} (cmp : α → α → Int) [IsStrictWeakOrder α fun a b ↦ cmp a b > 0]

theorem lsMergeSort_inOrder (l : List α) : InOrder cmp (lsMergeSort cmp l) := by
  fun_induction lsMergeSort cmp l with
  | case1 l h => exact lsInsertionSort_inOrder cmp l
  | case2 l n h ih₁ ih₂ => exact lsMerge_inOrder cmp ih₁ ih₂

theorem lsSort_inOrder (l : List α) : InOrder cmp (lsSort cmp l) := by
  rw [lsSort]
  split
  · exact lsMergeSort_inOrder cmp l
  · exact lsInsertionSort_inOrder cmp l

end Sorted

theorem strcmp_pos_iff (a b : CStr) :
    strcmp a b > 0 ↔ compare (a.val.map UInt8.toNat) (b.val.map UInt8.toNat) = .gt := by
  rw [strcmp]
  cases compare (a.val.map UInt8.toNat) (b.val.map UInt8.toNat) <;> decide

theorem compare_self_ne_gt (l : List Nat) : compare l l ≠ .gt := by
  have heq : compare l l = .eq := Std.ReflCmp.compare_self
  rw [heq]
  exact Ordering.noConfusion

/-- `__cmp_asc`. -/
def cmpAsc (a b : KvRec) : Int := strcmp a.1 b.1

instance isStrictWeakOrder_cmpAsc : IsStrictWeakOrder KvRec fun a b ↦ cmpAsc a b > 0 where
  irrefl a h := by
    rw [cmpAsc, strcmp_pos_iff] at h
    exact compare_self_ne_gt _ h
  trans a b c hab hbc := by
    rw [cmpAsc, strcmp_pos_iff] at hab hbc ⊢
    exact Std.TransCmp.gt_trans hab hbc
  incomp_trans a b c hab hbc := by
    have heq {a b : KvRec} (h : ¬ cmpAsc a b > 0 ∧ ¬ cmpAsc b a > 0) :
        a.1.val.map UInt8.toNat = b.1.val.map UInt8.toNat := by
      rw [cmpAsc, cmpAsc, strcmp_pos_iff, strcmp_pos_iff] at h
      refine Std.LawfulEqCmp.eq_of_compare (show compare _ _ = .eq from ?_)
      cases hcmp : compare (a.1.val.map UInt8.toNat) (b.1.val.map UInt8.toNat) with
      | lt => exact absurd (Std.OrientedCmp.gt_of_lt hcmp) h.2
      | eq => rfl
      | gt => exact absurd hcmp h.1
    rw [cmpAsc, cmpAsc, strcmp_pos_iff, strcmp_pos_iff, heq hab, heq hbc]
    exact ⟨compare_self_ne_gt _, compare_self_ne_gt _⟩

/-! ## Copies of the pairs -/

/-- Whether `sdbkv_match` looks at the value. -/
def matchesValue (expr : CStr) : Bool :=
  match expr.val.idxOf? 61 with
  | some i => decide (expr.val.drop (i + 1) ≠ [])
  | none => false

/-- `sdb_foreach_match_cb`.  `none` is a crash, on a value that is `NULL`. -/
def sdbForeachMatchCb (expr : CStr) (single : Bool) : SdbForeachCallback (Option (List KvRec)) :=
  fun list k v ↦
  match list, v with
  | none, _ => (false, none)
  | some list, some v =>
      if sdbkvMatch k v expr then (!single, some (list ++ [(k, v)])) else (true, some list)
  | some list, none =>
      if matchesValue expr ∨ sdbkvMatch k CStr.empty expr then (false, none) else (true, some list)

/-- `sdb_foreach_match`. -/
def sdbForeachMatch (s : Sdb) (expr : CStr) (single : Bool) : Option (List KvRec) :=
  (sdbForeach s (sdbForeachMatchCb expr single) (some [])).2

/-- `sdb_foreach_list_filter_cb`, with a filter that has no state. -/
def sdbForeachListFilterCb (filter : Option (CStr → CStr → Bool)) :
    SdbForeachCallback (Option (List KvRec)) :=
  fun list k v ↦
  match list, v with
  | none, _ => (false, none)
  | some list, some v =>
      if filter.elim true (fun f ↦ f k v) then (true, some (list ++ [(k, v)]))
      else (true, some list)
  | some _, none => (false, none)

/-- `sdb_foreach_list_filter`. -/
def sdbForeachListFilter (s : Sdb) (filter : Option (CStr → CStr → Bool)) (sorted : Bool) :
    Option (List KvRec) :=
  (sdbForeach s (sdbForeachListFilterCb filter) (some [])).2.map fun list ↦
    if sorted then lsSort cmpAsc list else list

/-- A loop that collects what it finds, and ends with the first one if it is to find a single
one. -/
theorem foreachLoop_collect {cb : Option (List KvRec) → Call → Bool × Option (List KvRec)}
    {p : KvRec → Bool} {single : Bool} (hcb : ∀ list k v, cb (some list) (k, some v) =
      if p (k, v) then (!single, some (list ++ [(k, v)]))
      else (true, some list)) (recs : List KvRec)
    (list : List KvRec) :
    (foreachLoop cb (recs.map fun r ↦ (r.1, some r.2)) (some list)).2 =
      some (list ++ if single then (recs.filter p).take 1 else recs.filter p) := by
  induction recs generalizing list with
  | nil =>
      have hnil : (if single then (([] : List KvRec).filter p).take 1 else [].filter p) = [] := by
        cases single with
        | true => rfl
        | false => rfl
      rw [hnil, List.append_nil]
      rfl
  | cons r recs ih =>
      rw [List.map_cons, foreachLoop, hcb, List.filter_cons]
      cases hr : p r with
      | false =>
          rw [if_neg Bool.false_ne_true, if_pos rfl, if_neg Bool.false_ne_true]
          exact ih list
      | true =>
          rw [if_pos rfl, if_pos rfl]
          cases single with
          | true => rfl
          | false =>
              rw [if_neg Bool.false_ne_true]
              refine (ih _).trans ?_
              rw [if_neg Bool.false_ne_true, List.append_assoc]
              rfl

section Exact

variable {st : Sdb × World} {calls : List Call} (h : Exact st calls)
include h

theorem Exact.nodup_keys : (calls.map Prod.fst).Nodup := by
  rw [List.nodup_iff_count_le_one]
  intro k
  have hcount : (calls.map Prod.fst).count k = (calls.filter (·.1 = k)).length := by
    rw [List.count, List.countP_map, List.countP_eq_length_filter]
    rfl
  rw [hcount, h k]
  cases sdbGet st.1 st.2 k with
  | none => exact Nat.zero_le 1
  | some v => exact Nat.le_refl 1

/-- The pairs that an exact enumeration calls for. -/
theorem Exact.pairs : ∃ recs : List KvRec, calls = recs.map (fun r ↦ (r.1, some r.2)) ∧
    Keyed.Distinct Prod.fst recs ∧ ∀ k v, (k, v) ∈ recs ↔ sdbGet st.1 st.2 k = some v := by
  have hcalls : (calls.map fun c ↦ ((c.1, c.2.getD CStr.empty) : KvRec)).map
      (fun r ↦ (r.1, some r.2)) = calls := by
    rw [List.map_map]
    refine (List.map_congr_left fun c hc ↦ ?_).trans (List.map_id calls)
    obtain ⟨v, hv, -⟩ := (h.mem_iff c).mp hc
    refine Prod.ext rfl ?_
    rw [Function.comp_apply, hv, id, hv]
    rfl
  refine ⟨_, hcalls.symm, ?_, fun k v ↦ ?_⟩
  · rw [Keyed.Distinct, List.map_map]
    exact h.nodup_keys
  · rw [List.mem_map]
    constructor
    · rintro ⟨c, hc, heq⟩
      obtain ⟨w, hw, hget⟩ := (h.mem_iff c).mp hc
      rw [hw] at heq
      obtain ⟨rfl, rfl⟩ := Prod.mk.inj heq
      exact hget
    · intro hget
      exact ⟨(k, some v), (h.mem_iff (k, some v)).mpr ⟨v, rfl, hget⟩, rfl⟩

end Exact

/-- The pairs of a database that a predicate is true of, each once. -/
structure Found (st : Sdb × World) (p : CStr → CStr → Bool) (recs : List KvRec) : Prop where
  distinct : Keyed.Distinct Prod.fst recs
  mem : ∀ k v, (k, v) ∈ recs ↔ sdbGet st.1 st.2 k = some v ∧ p k v = true

theorem Found.perm {st : Sdb × World} {p : CStr → CStr → Bool} {recs recs' : List KvRec}
    (h : Found st p recs) (hp : recs.Perm recs') : Found st p recs' :=
  ⟨h.distinct.perm hp, fun k v ↦ hp.mem_iff.symm.trans (h.mem k v)⟩

theorem found_filter {st : Sdb × World} {recs : List KvRec} (hd : Keyed.Distinct Prod.fst recs)
    (hmem : ∀ k v, (k, v) ∈ recs ↔ sdbGet st.1 st.2 k = some v) (p : KvRec → Bool) :
    Found st (fun k v ↦ p (k, v)) (recs.filter p) :=
  ⟨hd.sublist (List.filter_sublist.map _), fun k v ↦ by rw [List.mem_filter, hmem]⟩

/-- **Searching**: where `sdb_foreach` enumerates the map of a database, `sdb_foreach_match` and
`sdb_foreach_list_filter` find what matches in it, each pair once, and in order if it is sorted; a
single search finds one of these if there is one. -/
theorem search_finds {st : Sdb × World} (h : Exact st (foreachCalls st.1)) (expr : CStr)
    (filter : Option (CStr → CStr → Bool)) :
    (∃ recs, sdbForeachMatch st.1 expr false = some recs ∧
      Found st (fun k v ↦ sdbkvMatch k v expr) recs ∧
        sdbForeachMatch st.1 expr true = some (recs.take 1)) ∧
    ∀ sorted, ∃ recs, sdbForeachListFilter st.1 filter sorted = some recs ∧
      Found st (fun k v ↦ filter.elim true fun f ↦ f k v) recs ∧
      (sorted → InOrder cmpAsc recs) := by
  obtain ⟨recs, hcalls, hd, hmem⟩ := h.pairs
  constructor
  · have hmatch (single : Bool) : sdbForeachMatch st.1 expr single =
        some (if single then (recs.filter fun r ↦ sdbkvMatch r.1 r.2 expr).take 1
          else recs.filter fun r ↦ sdbkvMatch r.1 r.2 expr) := by
      rw [sdbForeachMatch, Fd.sdbForeach_loop, hcalls]
      exact foreachLoop_collect (fun _ _ _ ↦ rfl) recs []
    exact ⟨_, hmatch false, found_filter hd hmem fun r ↦ sdbkvMatch r.1 r.2 expr, hmatch true⟩
  · intro sorted
    have hfilter : (sdbForeach st.1 (sdbForeachListFilterCb filter) (some [])).2 =
        some (recs.filter fun r ↦ filter.elim true fun f ↦ f r.1 r.2) := by
      rw [Fd.sdbForeach_loop, hcalls]
      refine (foreachLoop_collect (fun list k v ↦ ?_) recs []).trans
        (congrArg some (if_neg Bool.false_ne_true))
      rfl
    have hfound := found_filter hd hmem fun r ↦ filter.elim true fun f ↦ f r.1 r.2
    rw [sdbForeachListFilter, hfilter, Option.map_some]
    cases sorted with
    | false => exact ⟨_, rfl, hfound, fun hno ↦ absurd hno Bool.false_ne_true⟩
    | true => exact ⟨_, rfl, hfound.perm (lsSort_perm _ _).symm, fun _ ↦ lsSort_inOrder cmpAsc _⟩

/-! ## Pointers to the pairs -/

/-- A pair as `sdb_foreach` hands it on: its pointers lead to an entry, or to the buffers for the
record that has been read last, which do not outlive the call. -/
structure PairRef where
  key : CStr
  value : Option CStr
  inEntry : Bool

section Refs

variable {σ : Type}

/-- `sdb_foreach_cdb` and `sdb_foreach`, with where the pointers lead to. -/
def sdbForeachRefs (s : Sdb) (cb : σ → PairRef → Bool × σ) (user : σ) : Bool × σ :=
  let r := foreachLoop (fun user (d : Dumped) ↦
    match sdbHtFindKvp s d.key with
    | some kv =>
        match kv.value with
        | none => (true, user)
        | some v => cb user ⟨kv.key, some v, true⟩
    | none => cb user ⟨d.key, d.value.map CStr.ofBytes, false⟩) s.scan user
  if r.1 then
    foreachLoop (fun user (kv : SdbKv) ↦
      match kv.value with
      | none => (true, user)
      | some v => if v = CStr.empty then (true, user) else cb user ⟨kv.key, some v, true⟩)
      s.ht.toList r.2
  else (false, r.2)

/-- The pairs without their pointers are those of `sdb_foreach`. -/
theorem sdbForeachRefs_eq (s : Sdb) (cb : SdbForeachCallback σ) (user : σ) :
    sdbForeachRefs s (fun user r ↦ cb user r.key r.value) user = sdbForeach s cb user := rfl

/-- The pointers for a record. -/
def cdbRef (s : Sdb) (d : Dumped) : Option PairRef :=
  match sdbHtFindKvp s d.key with
  | some kv => kv.value.map fun v ↦ ⟨kv.key, some v, true⟩
  | none => some ⟨d.key, d.value.map CStr.ofBytes, false⟩

/-- The pointers for an entry. -/
def memRef (kv : SdbKv) : Option PairRef :=
  match kv.value with
  | none => none
  | some v => if v = CStr.empty then none else some ⟨kv.key, some v, true⟩

/-- What `sdb_foreach` hands on while its callback returns true. -/
def foreachRefs (s : Sdb) : List PairRef :=
  s.scan.filterMap (cdbRef s) ++ s.ht.toList.filterMap memRef

theorem sdbForeachRefs_loop (s : Sdb) (cb : σ → PairRef → Bool × σ) (user : σ) :
    sdbForeachRefs s cb user = foreachLoop cb (foreachRefs s) user := by
  have hscan : foreachLoop (fun user (d : Dumped) ↦
      match sdbHtFindKvp s d.key with
      | some kv =>
          match kv.value with
          | none => (true, user)
          | some v => cb user ⟨kv.key, some v, true⟩
      | none => cb user ⟨d.key, d.value.map CStr.ofBytes, false⟩) s.scan user =
      foreachLoop cb (s.scan.filterMap (cdbRef s)) user := by
    refine foreachLoop_filterMap (fun user d ↦ ?_) _ user
    unfold cdbRef
    cases sdbHtFindKvp s d.key with
    | none => rfl
    | some kv =>
        dsimp only
        cases kv.value with
        | none => rfl
        | some v => rfl
  have htable (user : σ) : foreachLoop (fun user (kv : SdbKv) ↦
      match kv.value with
      | none => (true, user)
      | some v =>
          if v = CStr.empty then (true, user)
          else cb user ⟨kv.key, some v, true⟩) s.ht.toList user =
      foreachLoop cb (s.ht.toList.filterMap memRef) user := by
    refine foreachLoop_filterMap (fun user kv ↦ ?_) _ user
    unfold memRef
    cases kv.value with
    | none => rfl
    | some v =>
        dsimp only
        split
        · rfl
        · rfl
  rw [foreachRefs, Fd.foreachLoop_append, ← hscan, ← htable]
  rfl

theorem call_cdbRef (s : Sdb) (d : Dumped) :
    (cdbRef s d).map (fun r ↦ (r.key, r.value)) = cdbCall s d := by
  unfold cdbRef cdbCall
  cases sdbHtFindKvp s d.key with
  | none => rfl
  | some kv =>
      dsimp only
      rw [Option.map_map]
      rfl

theorem call_memRef (kv : SdbKv) : (memRef kv).map (fun r ↦ (r.key, r.value)) = memCall kv := by
  unfold memRef memCall
  cases kv.value with
  | none => rfl
  | some v =>
      dsimp only
      split
      · rfl
      · rfl

theorem map_foreachRefs (s : Sdb) :
    (foreachRefs s).map (fun r ↦ (r.key, r.value)) = foreachCalls s := by
  rw [foreachRefs, foreachCalls, List.map_append, List.map_filterMap, List.map_filterMap]
  congr 1
  · exact List.filterMap_congr fun d _ ↦ call_cdbRef s d
  · exact List.filterMap_congr fun kv _ ↦ call_memRef kv

/-- The pointers lead to an entry if there is one for the key. -/
theorem inEntry_iff {s : Sdb} (hw : s.WF) {r : PairRef} (hr : r ∈ foreachRefs s) :
    r.inEntry = true ↔ (sdbHtFindKvp s r.key).isSome := by
  rcases List.mem_append.mp hr with hr | hr
  · obtain ⟨d, -, hd⟩ := List.mem_filterMap.mp hr
    unfold cdbRef at hd
    cases hf : sdbHtFindKvp s d.key with
    | none =>
        rw [hf] at hd
        obtain rfl := Option.some.inj hd
        rw [hf]
        exact ⟨fun hno ↦ absurd hno Bool.false_ne_true, fun hno ↦ absurd hno Bool.false_ne_true⟩
    | some kv =>
        rw [hf] at hd
        obtain ⟨v, -, rfl⟩ := Option.map_eq_some_iff.mp hd
        have hkey := (key_of_sdbHtFindKvp hw hf).2
        rw [show (PairRef.mk kv.key (some v) true).key = d.key from hkey, hf]
        exact ⟨fun _ ↦ rfl, fun _ ↦ rfl⟩
  · obtain ⟨kv, hkv, hd⟩ := List.mem_filterMap.mp hr
    have hfind := sdbHtFindKvp_of_mem hw hkv
    unfold memRef at hd
    split at hd
    · cases hd
    · split at hd
      · cases hd
      · obtain rfl := Option.some.inj hd
        rw [hfind]
        exact ⟨fun _ ↦ rfl, fun _ ↦ rfl⟩

end Refs

/-! ## `sdb_like` -/

/-- A pointer in the array: none yet, null, or to the key or the value of a pair. -/
inductive LikeCell where
  | garbage
  | null
  | key (r : PairRef)
  | value (r : PairRef)

/-- `LikeCallbackData`, with what the callback has been called with. -/
structure LikeData where
  array : Option (List LikeCell)
  arrayIndex : Nat
  arraySize : Nat
  called : List Call

/-- What `like_cb` does with a pair that matches; `none` for a pointer that is written behind the
end of the array. -/
def likeTake (cb : Bool) (lcd : LikeData) (r : PairRef) : Bool × Option LikeData :=
  match lcd.array with
  | some array =>
      let idx := lcd.arrayIndex
      let newsize := intOfSize (lcd.arraySize + 16)
      -- a negative size is a huge one for `sdb_gh_realloc`
      if newsize < 0 then (false, some lcd)
      else
        let array := array ++ List.replicate (newsize.toNat / 8 - array.length) .garbage
        if idx + 3 < array.length then
          let array := (((array.set idx (.key r)).set (idx + 1) (.value r)).set (idx + 2) .null).set
              (idx + 3) .null
          (true, some { lcd with
            array := some array
            arrayIndex := idx + 2
            arraySize := newsize.toNat })
        else (false, none)
  | none =>
      (true, some (if cb then { lcd with called := lcd.called ++ [(r.key, r.value)] } else lcd))

/-- `like_cb`, with the patterns and whether there is a callback. -/
def likeCb (key val : Option CStr) (cb : Bool) (lcd : Option LikeData) (r : PairRef) :
    Bool × Option LikeData :=
  match lcd with
  | none => (false, none)
  | some lcd =>
      if key ≠ none ∧ ¬ sdbMatch (some r.key) key then (true, some lcd)
      else if r.value ≠ none ∧ val ≠ none ∧ ¬ sdbMatch r.value val then (true, some lcd)
      else likeTake cb lcd r

/-- An empty pattern is none. -/
def notEmpty (pattern : Option CStr) : Option CStr :=
  if pattern = some CStr.empty then none else pattern

/-- `sdb_like`: the calls of the callback, if there is one, and the array that is returned. -/
def sdbLike (s : Sdb) (k v : Option CStr) (cb : Bool) :
    Option (List Call × Option (List LikeCell)) :=
  if cb then
    (sdbForeachRefs s (likeCb k v true) (some ⟨none, 0, 0, []⟩)).2.map fun lcd ↦ (lcd.called, none)
  else
    (sdbForeachRefs s (likeCb (notEmpty k) (notEmpty v) false)
      (some ⟨some [.null, .null], 0, 16, []⟩)).2.map fun lcd ↦
      (lcd.called, if lcd.arrayIndex = 0 then none else lcd.array)

/-- A pair that the patterns, as far as there are any, match. -/
def likes (key val : Option CStr) (c : Call) : Bool :=
  decide (key ≠ none → sdbMatch (some c.1) key) && decide
    (c.2 ≠ none → val ≠ none → sdbMatch c.2 val)

/-- What the caller finds in the array, up to the first null pointer; `none` for a pointer to what
is gone. -/
def readCells : List LikeCell → Option (List Call)
  | .key r :: .value r' :: cells =>
      if r.inEntry ∧ r'.inEntry then (readCells cells).map ((r.key, r'.value) :: ·) else none
  | .null :: _ => some []
  | _ => none

/-- The two pointers to a pair. -/
def PairRef.cells (r : PairRef) : List LikeCell := [.key r, .value r]

/-- The array for pairs. -/
def likeArray (refs : List PairRef) : List LikeCell := refs.flatMap PairRef.cells ++ [.null, .null]

theorem length_likeArray (refs : List PairRef) : (likeArray refs).length = 2 * refs.length + 2 := by
  rw [likeArray, List.length_append, List.length_flatMap]
  change (refs.map fun _ ↦ 2).sum + 2 = _
  rw [List.map_const', List.sum_replicate_nat, Nat.mul_comm]

section Like

variable {key val : Option CStr} {r : PairRef}

theorem likeCb_skip (h : likes key val (r.key, r.value) = false) (cb : Bool) (lcd : LikeData) :
    likeCb key val cb (some lcd) r = (true, some lcd) := by
  rw [likes, Bool.and_eq_false_iff, decide_eq_false_iff_not, decide_eq_false_iff_not] at h
  rw [likeCb]
  rcases h with h | h
  · rw [Classical.not_imp] at h
    rw [if_pos h]
  · rw [Classical.not_imp, Classical.not_imp] at h
    rw [if_pos (c := r.value ≠ none ∧ val ≠ none ∧ ¬ sdbMatch r.value val = true) h, ite_self]

theorem likeCb_take (h : likes key val (r.key, r.value) = true) (cb : Bool) (lcd : LikeData) :
    likeCb key val cb (some lcd) r = likeTake cb lcd r := by
  rw [likes, Bool.and_eq_true, decide_eq_true_eq, decide_eq_true_eq] at h
  rw [likeCb, if_neg fun hno ↦ hno.2 (h.1 hno.1), if_neg fun hno ↦ hno.2.2 (h.2 hno.1 hno.2.1)]

theorem set_four {α : Type} (A : List α) (a b c d x y z u : α) :
    ((((A ++ [a, b, c, d]).set A.length x).set (A.length + 1) y).set (A.length + 2) z).set
    (A.length + 3) u = A ++ [x, y, z, u] := by
  induction A with
  | nil => rfl
  | cons e A ih =>
      have hlen (n : Nat) : A.length + 1 + n = A.length + n + 1 := Nat.add_right_comm _ _ _
      rw [List.length_cons, hlen, hlen, hlen]
      exact congrArg (e :: ·) ih

/-- A pair that is taken goes behind the others, and the array ends with two null pointers again. -/
theorem likeTake_array (cb : Bool) (refs : List PairRef)
    (hsize : 16 * (refs.length + 2) < 2147483648) :
    likeTake cb ⟨some (likeArray refs), 2 * refs.length, 16 * (refs.length + 1), []⟩ r =
      (true, some ⟨some (likeArray (refs ++ [r])), 2 * (refs ++ [r]).length,
        16 * ((refs ++ [r]).length + 1), []⟩) := by
  have hnew : intOfSize (16 * (refs.length + 1) + 16) = (16 * (refs.length + 2) : Nat) :=
    intOfSize_of_lt hsize
  have hcells : 16 * (refs.length + 2) / 8 - (likeArray refs).length = 2 := by
    rw [length_likeArray]
    omega
  have hflat : (refs.flatMap PairRef.cells).length = 2 * refs.length := by
    have hlen := length_likeArray refs
    rw [likeArray, List.length_append] at hlen
    exact Nat.add_right_cancel hlen
  have hset := set_four (refs.flatMap PairRef.cells) .null .null .garbage .garbage (.key r)
      (.value r) .null .null
  rw [hflat] at hset
  rw [likeTake]
  dsimp only
  rw [hnew, if_neg (Int.not_lt.mpr (Int.natCast_nonneg _)), Int.toNat_natCast, hcells, if_pos ?_]
  · have harray : likeArray (refs ++ [r]) =
        refs.flatMap PairRef.cells ++ [.key r, .value r, .null, .null] := by
      rw [likeArray, List.flatMap_append, List.append_assoc]
      rfl
    rw [harray, ← hset, likeArray, List.append_assoc, List.length_append, List.length_singleton]
    rfl
  · rw [List.length_append, length_likeArray, List.length_replicate]
    omega

/-- The loop takes what the patterns match. -/
theorem foreachLoop_like (key val : Option CStr) (cb : Bool) (l refs : List PairRef)
    (hsize : 16 * ((refs ++ l.filter fun r ↦ likes key val (r.key, r.value)).length + 1) <
      2147483648) :
    (foreachLoop (likeCb key val cb) l
        (some ⟨some (likeArray refs), 2 * refs.length, 16 * (refs.length + 1), []⟩)).2 =
      let refs := refs ++ l.filter fun r ↦ likes key val (r.key, r.value)
      some ⟨some (likeArray refs), 2 * refs.length, 16 * (refs.length + 1), []⟩ := by
  induction l generalizing refs with
  | nil =>
      rw [List.filter_nil, List.append_nil]
      rfl
  | cons r l ih =>
      rw [List.filter_cons] at hsize ⊢
      rw [foreachLoop]
      cases hr : likes key val (r.key, r.value) with
      | false =>
          rw [hr, if_neg Bool.false_ne_true] at hsize
          rw [likeCb_skip hr, if_pos rfl, if_neg Bool.false_ne_true]
          exact ih refs hsize
      | true =>
          rw [hr, if_pos rfl, List.append_cons] at hsize
          have hroom : 16 * (refs.length + 2) < 2147483648 := by
            rw [List.length_append, List.length_append, List.length_singleton] at hsize
            omega
          rw [likeCb_take hr, likeTake_array cb refs hroom, if_pos rfl, if_pos rfl]
          refine (ih (refs ++ [r]) hsize).trans ?_
          rw [← List.append_cons]

/-- With a callback, it is called for what the patterns match. -/
theorem foreachLoop_likeCalls (key val : Option CStr) (l : List PairRef) (called : List Call) :
    (foreachLoop (likeCb key val true) l (some ⟨none, 0, 0, called⟩)).2 =
      some ⟨none, 0, 0, called ++ (l.map fun r ↦ (r.key, r.value)).filter (likes key val)⟩ := by
  induction l generalizing called with
  | nil =>
      rw [List.map_nil, List.filter_nil, List.append_nil]
      rfl
  | cons r l ih =>
      rw [List.map_cons, List.filter_cons, foreachLoop]
      cases hr : likes key val (r.key, r.value) with
      | false =>
          rw [likeCb_skip hr, if_pos rfl, if_neg Bool.false_ne_true]
          exact ih called
      | true =>
          rw [likeCb_take hr, if_pos rfl, List.append_cons]
          exact ih (called ++ [(r.key, r.value)])

/-- Reading the array finds the pairs, if none of the pointers leads to what is gone. -/
theorem readCells_likeArray (refs : List PairRef) : readCells (likeArray refs) =
    if ∀ r ∈ refs, r.inEntry = true then some (refs.map fun r ↦ (r.key, r.value)) else none := by
  induction refs with
  | nil => rfl
  | cons r refs ih =>
      have hcons : likeArray (r :: refs) = .key r :: .value r :: likeArray refs := rfl
      have hmem : (∀ x ∈ r :: refs, x.inEntry = true) ↔ r.inEntry = true ∧
          ∀ x ∈ refs, x.inEntry = true :=
        List.forall_mem_cons
      rw [hcons, readCells]
      by_cases hr : r.inEntry = true
      · rw [if_pos ⟨hr, hr⟩, ih]
        by_cases hall : ∀ r ∈ refs, r.inEntry = true
        · rw [if_pos hall, if_pos (hmem.mpr ⟨hr, hall⟩)]
          rfl
        · rw [if_neg hall, if_neg fun hno ↦ hall (hmem.mp hno).2]
          rfl
      · rw [if_neg fun hno ↦ hr hno.1, if_neg fun hno ↦ hr (hmem.mp hno).1]

end Like

/-- **`sdb_like`** never writes behind its array, and calls its callback for the pairs of
`sdb_foreach` that the patterns match.  Without a callback these are what is found in the array,
unless one of them has no entry in memory: its pointers lead to what is gone. -/
theorem like_finds {s : Sdb} (hw : s.WF) (k v : Option CStr)
    (hsize : 16 * ((foreachCalls s).length + 1) < 2147483648) :
    (∀ (σ : Type) (cb : SdbForeachCallback σ) user,
      sdbForeachRefs s (fun user r ↦ cb user r.key r.value) user = sdbForeach s cb user) ∧
    sdbLike s k v true = some ((foreachCalls s).filter (likes k v), none) ∧
      ∃ array, sdbLike s k v false = some ([], array) ∧
        let calls := (foreachCalls s).filter (likes (notEmpty k) (notEmpty v))
        (array = none ↔ calls = []) ∧ ∀ cells, array = some cells →
          readCells cells =
            if ∀ c ∈ calls, (sdbHtFindKvp s c.1).isSome then some calls else none := by
  refine ⟨fun _ cb user ↦ sdbForeachRefs_eq s cb user, ?_, ?_⟩
  · rw [sdbLike, if_pos rfl, sdbForeachRefs_loop, foreachLoop_likeCalls, map_foreachRefs]
    rfl
  · have hcalls (key val : Option CStr) :
        ((foreachRefs s).filter fun r ↦ likes key val (r.key, r.value)).map
        (fun r ↦ (r.key, r.value)) = (foreachCalls s).filter (likes key val) := by
      rw [← map_foreachRefs, List.filter_map]
      rfl
    have hroom : 16 * (([] ++ (foreachRefs s).filter fun (r : PairRef) ↦
        likes (notEmpty k) (notEmpty v) (r.key, r.value)).length + 1) < 2147483648 := by
      have hle := List.length_filter_le (likes (notEmpty k) (notEmpty v)) (foreachCalls s)
      rw [← hcalls, List.length_map] at hle
      rw [List.nil_append]
      omega
    have hlike := foreachLoop_like (notEmpty k) (notEmpty v) false (foreachRefs s) [] hroom
    rw [List.nil_append] at hlike
    rw [sdbLike, if_neg Bool.false_ne_true, sdbForeachRefs_loop]
    refine ⟨_, congrArg (Option.map _) hlike, ?_, fun cells hcells ↦ ?_⟩
    · rw [← hcalls, List.map_eq_nil_iff, ← List.length_eq_zero_iff]
      constructor
      · intro hnone
        by_contra hne
        rw [if_neg (Nat.mul_ne_zero two_ne_zero hne)] at hnone
        cases hnone
      · intro hzero
        rw [if_pos (by rw [hzero])]
    · split at hcells
      · cases hcells
      · obtain rfl := Option.some.inj hcells
        rw [readCells_likeArray, hcalls]
        refine if_congr ?_ rfl rfl
        rw [← hcalls, List.forall_mem_map]
        refine forall₂_congr fun r hr ↦ ?_
        exact inEntry_iff hw (List.mem_filter.mp hr).1

/-- `a=2` is set. -/
def setA (st : Sdb × World) : Sdb × World :=
  Op.run (.set (CStr.ofBytes [97]) (CStr.ofBytes [50]) 0) st

section SetA

variable {st : Sdb × World} (h : OverX st none)
include h

theorem OverX.setA_wrote : Wrote st.1 (CStr.ofBytes [97])
    (2, some (newEntry (CStr.ofBytes [97]) (CStr.ofBytes [50]) false))
    (sdbSetInternal st.1 st.2 (CStr.ofBytes [97]) (CStr.ofBytes [50]) false 0) := by
  have hspec := sdbSetInternal_spec h.reach.backed.1.wf st.2 (CStr.ofBytes [97])
      (CStr.ofBytes [50]) false 0
  rw [h.find, ite_self, setEntry, if_neg (by decide)] at hspec
  exact hspec

theorem OverX.setA_sound : (setA st).1.Sound := h.reach.backed.1.run _

theorem OverX.setA_reads : (setA st).1.Reads fileX := by
  have hholds : (setA st).1.Holds fileX := h.setA_wrote.holds h.holds
  exact hholds.reads fileX_scans

theorem OverX.setA_find (k : CStr) : sdbHtFindKvp (setA st).1 k = if k = CStr.ofBytes [97] then
    some (newEntry (CStr.ofBytes [97]) (CStr.ofBytes [50]) false) else none := by
  refine (h.setA_wrote.find k).trans ?_
  rw [h.find, ite_self]

/-- The pair of the file and the one in memory are called for. -/
theorem OverX.foreachCalls_setA (hht : st.1.ht = htNew) : foreachCalls (setA st).1 =
    [(CStr.ofBytes [120], some (CStr.ofBytes [49])),
      (CStr.ofBytes [97], some (CStr.ofBytes [50]))] := by
  have hcall := cdbCall_dumped h.setA_sound.wf (CStr.ofBytes [120], CStr.ofBytes [49])
  rw [recCall, h.setA_find, if_neg (by decide)] at hcall
  have hscan : (setA st).1.scan.filterMap (cdbCall (setA st).1) =
      [(CStr.ofBytes [120], some (CStr.ofBytes [49]))] := by
    rw [h.setA_reads.scan]
    exact List.filterMap_cons_some hcall
  have htable : (setA st).1.ht =
      (htInsertKv sdbHtOpt htNew
        (newEntry (CStr.ofBytes [97]) (CStr.ofBytes [50]) false) true).2 := by
    change (sdbSetInternal st.1 st.2 _ _ false 0).2.1.ht = _
    rw [sdbSetInternal, if_neg (by decide), h.find, ite_self]
    dsimp only [sdbSetNew]
    rw [hht]
    rfl
  rw [foreachCalls, hscan, htable]
  decide

theorem OverX.exact_setA : Exact (setA st) (foreachCalls (setA st).1) := by
  refine (exact_iff h.setA_sound h.setA_reads).mpr ⟨?_, fun k _ ↦ List.length_filter_le _ _⟩
  rintro r hr ⟨kv, v, hf, -⟩
  obtain rfl := List.mem_singleton.mp hr
  rw [h.setA_find, if_neg (by decide)] at hf
  cases hf

end SetA

/-- Searching for `a` finds the pair in memory, and all there is comes in order. -/
theorem search_finds_overX : ∃ st, OverX st none ∧
    (∃ recs, sdbForeachMatch (setA st).1 (CStr.ofBytes [97]) false = some recs ∧
      Found (setA st) (fun k v ↦ sdbkvMatch k v (CStr.ofBytes [97])) recs) ∧
    ∃ recs, sdbForeachListFilter (setA st).1 none true = some recs ∧
      Found (setA st) (fun _ _ ↦ true) recs ∧ InOrder cmpAsc recs := by
  obtain ⟨⟨recs, hmatch, hfound, -⟩, hlist⟩ :=
    search_finds OverX.new.exact_setA (CStr.ofBytes [97]) none
  obtain ⟨sorted, hsorted, hall, horder⟩ := hlist true
  exact ⟨_, OverX.new, ⟨recs, hmatch, hfound⟩, sorted, hsorted, hall, horder rfl⟩

/-- The pair in memory can be read from the array; with the pair in the file it cannot. -/
theorem like_finds_overX : ∃ st, OverX st none ∧
    (∃ cells, sdbLike (setA st).1 (some (CStr.ofBytes [97])) none false = some ([], some cells) ∧
      readCells cells = some [(CStr.ofBytes [97], some (CStr.ofBytes [50]))]) ∧
    ∃ cells, sdbLike (setA st).1 none none false = some ([], some cells) ∧
      readCells cells = none := by
  have hnew := OverX.new
  have hcalls := hnew.foreachCalls_setA (newOn_ht fileX_not_text)
  generalize newOn (kvImage fileX) = st at hnew hcalls
  have hread {k : Option CStr} {calls : List Call} (hlikes : (foreachCalls (setA st).1).filter
      (likes (notEmpty k) (notEmpty none)) = calls) (hne : calls ≠ []) :
      ∃ cells, sdbLike (setA st).1 k none false = some ([], some cells) ∧
        readCells cells =
          if ∀ c ∈ calls, (sdbHtFindKvp (setA st).1 c.1).isSome then some calls else none := by
    obtain ⟨-, -, array, hlike, hnone, hcells⟩ :=
      like_finds hnew.setA_sound.wf k none (by rw [hcalls]; decide)
    rw [hlikes] at hnone hcells
    cases array with
    | none => exact absurd (hnone.mp rfl) hne
    | some cells => exact ⟨cells, hlike, hcells cells rfl⟩
  refine ⟨st, hnew, ?_, ?_⟩
  · obtain ⟨cells, hlike, hcells⟩ := @hread (some (CStr.ofBytes [97]))
      [(CStr.ofBytes [97], some (CStr.ofBytes [50]))] (by rw [hcalls]; decide)
      (List.cons_ne_nil _ _)
    refine ⟨cells, hlike, hcells.trans (if_pos ?_)⟩
    rw [List.forall_mem_singleton, hnew.setA_find, if_pos rfl]
    rfl
  · obtain ⟨cells, hlike, hcells⟩ := @hread none _ (by rw [hcalls]; rfl) (List.cons_ne_nil _ _)
    refine ⟨cells, hlike, hcells.trans (if_neg fun hall ↦ ?_)⟩
    have hsome := hall _ List.mem_cons_self
    rw [hnew.setA_find, if_neg (by decide)] at hsome
    cases hsome

end SdbStore
