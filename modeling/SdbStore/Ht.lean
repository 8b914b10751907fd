import SdbStore.Lib.Keyed
import Mathlib.Data.List.GetD

/-!
# The hash table `Ht`

`ht.inc.c` is the hash table behind every database: an array of buckets, each an
array of entries, that grows through a table of primes.  Entries are found by key
length and comparator; the options of a table say how an entry gives its key and
how keys are hashed and compared.

The faithful functions come first, then the invariant `Ht.WF` and one specification
for each operation.  They speak about `Ht.toList`, the entries in the order in which
`ht_foreach` visits them, and describe it up to permutation: a lookup does not see
the order, and everything above this file reasons about `Keyed.lookup`.

Allocations succeed.  Growth reinserts every entry into a second table, and such an
insertion may itself find the second table full (the new size is computed in `ut32`
and may come out smaller); `htGrow` follows that recursion to a fixed depth and then
goes on without growing, as the source does when it cannot allocate.
-/

namespace SdbStore

open Lib

universe u v

variable {K : Type u} {E : Type v} [DecidableEq K]

/-- `HtOptions`: how entries are hashed and compared.  `cmp` is the comparator read
as a test for equality; without one only identical keys are equal. -/
structure HtOpt (K : Type u) (E : Type v) where
  cmp : Option (K → K → Bool)
  hashfn : K → Nat
  calcsizeK : K → Nat
  key : E → K
  keyLen : E → Nat

/-- A hash table of entries `E`; a bucket is the list of its entries. -/
structure Ht (E : Type v) where
  table : List (List E)
  size : Nat
  count : Nat
  primeIdx : Nat
deriving DecidableEq

/-- `ht_primes_sizes`. -/
def htPrimesSizes : List Nat :=
  [3, 7, 11, 17, 23, 29, 37, 47, 59, 71, 89, 107, 131,
   163, 197, 239, 293, 353, 431, 521, 631, 761, 919,
   1103, 1327, 1597, 1931, 2333, 2801, 3371, 4049, 4861,
   5839, 7013, 8419, 10103, 12143, 14591, 17519, 21023,
   25229, 30293, 36353, 43627, 52361, 62851, 75431, 90523,
   108631, 130363, 156437, 187751, 225307, 270371, 324449,
   389357, 467237, 560689, 672827, 807403, 968897, 1162687,
   1395263, 1674319, 2009191, 2411033, 2893249, 3471899,
   4166287, 4999559, 5999471, 7199369]

/-- `UT32_MAX`, which as an index into the primes means none. -/
def ut32Max : Nat := 4294967295

/-- `next_idx`. -/
def nextIdx (idx : Nat) : Nat :=
  if idx ≠ ut32Max ∧ idx < htPrimesSizes.length - 1 then idx + 1 else ut32Max

/-- `compute_size`: a prime while there are primes, and else an odd number. -/
def computeSize (idx sz : Nat) : Nat :=
  if idx ≠ ut32Max ∧ idx < htPrimesSizes.length then htPrimesSizes.getD idx 0 else sz ||| 1

/-- `internal_ht_new`. -/
def internalHtNew (size primeIdx : Nat) : Ht E :=
  { table := List.replicate size [], size := size, count := 0, primeIdx := primeIdx }

/-- A table as `ht_pp_new` makes it. -/
def htNew : Ht E := internalHtNew (htPrimesSizes.getD 0 0) 0

namespace Ht

/-- The entries in the order of `ht_foreach`. -/
def toList (h : Ht E) : List E := h.table.flatten

end Ht

section Operations

variable (o : HtOpt K E)

/-- `is_kv_equal`. -/
def isKvEqual (key : K) (keyLen : Nat) (e : E) : Bool :=
  decide (keyLen = o.keyLen e) &&
    (decide (key = o.key e) || match o.cmp with
      | some cmp => cmp key (o.key e)
      | none => false)

/-- `bucketfn`. -/
def bucketfn (h : Ht E) (k : K) : Nat := o.hashfn k % h.size

/-- Overwrite the first entry that satisfies `p`. -/
def overwrite (p : E → Bool) (e : E) : List E → List E
  | [] => []
  | x :: l => if p x then e :: l else x :: overwrite p e l

/-- `reserve_kv` and the copy of the entry into the slot it reserves. -/
def reserveKv (h : Ht E) (e : E) (update : Bool) : Option (Ht E) :=
  let i := bucketfn o h (o.key e)
  let bt := h.table.getD i []
  let eq := isKvEqual o (o.key e) (o.keyLen e)
  if bt.any eq then
    if update then some { h with table := h.table.set i (overwrite eq e bt) } else none
  else
    some { h with table := h.table.set i (bt ++ [e]), count := h.count + 1 }

/-- `ht_insert_kv` without update, as growth calls it on the second table; `grow` is
what `check_growing` does to a full table. -/
def reinsertKv (grow : Ht E → Ht E) (h2 : Ht E) (e : E) : Ht E :=
  match reserveKv o h2 e false with
  | none => h2
  | some h3 => if h3.count ≥ h3.size then grow h3 else h3

/-- `internal_ht_grow`, with nested growth followed to the depth given. -/
def htGrow : Nat → Ht E → Ht E
  | 0, h => h
  | d + 1, h =>
      let idx := nextIdx h.primeIdx
      let sz := computeSize idx (h.size * 2 % 4294967296)
      h.toList.foldl (reinsertKv o (htGrow d)) (internalHtNew sz idx)

/-- `check_growing`. -/
def checkGrowing (h : Ht E) : Ht E := if h.count ≥ h.size then htGrow o 64 h else h

/-- `ht_insert_kv`. -/
def htInsertKv (h : Ht E) (e : E) (update : Bool) : Bool × Ht E :=
  match reserveKv o h e update with
  | none => (false, h)
  | some h' => (true, checkGrowing o h')

/-- `ht_find_kv`. -/
def htFindKv (h : Ht E) (k : K) : Option E :=
  (h.table.getD (bucketfn o h k) []).find? (isKvEqual o k (o.calcsizeK k))

/-- `ht_delete`. -/
def htDelete (h : Ht E) (k : K) : Bool × Ht E :=
  let i := bucketfn o h k
  let bt := h.table.getD i []
  let eq := isKvEqual o k (o.calcsizeK k)
  if bt.any eq then
    (true, { h with table := h.table.set i (bt.eraseP eq), count := h.count - 1 })
  else (false, h)

/-- Writing through the pointer that `ht_find_kv` returned for the key of `e`. -/
def htWriteKv (h : Ht E) (e : E) : Ht E :=
  let i := bucketfn o h (o.key e)
  let bt := h.table.getD i []
  { h with table := h.table.set i (overwrite (isKvEqual o (o.key e) (o.calcsizeK (o.key e))) e bt) }

end Operations

/-! ## The invariant -/

/-- Options under which two keys are equal when the comparator says so, the entries
carrying the length of their key. -/
structure HtOpt.Lawful (o : HtOpt K E) : Prop where
  eq_of_cmp : ∀ cmp, o.cmp = some cmp → ∀ a b, o.calcsizeK a = o.calcsizeK b →
    cmp a b = true → a = b
  keyLen_eq : ∀ e, o.keyLen e = o.calcsizeK (o.key e)

omit [DecidableEq K] in
/-- The invariant of a hash table. -/
structure Ht.WF (o : HtOpt K E) (h : Ht E) : Prop where
  pos : 0 < h.size
  length : h.table.length = h.size
  home : ∀ i bt, h.table[i]? = some bt → ∀ e ∈ bt, o.hashfn (o.key e) % h.size = i
  distinct : Keyed.Distinct o.key h.toList
  count : h.count = h.toList.length

variable {o : HtOpt K E}

theorem HtOpt.Lawful.isKvEqual_iff (ho : o.Lawful) (k : K) (e : E) :
    isKvEqual o k (o.calcsizeK k) e = true ↔ o.key e = k := by
  simp only [isKvEqual, Bool.and_eq_true, Bool.or_eq_true, decide_eq_true_eq, ho.keyLen_eq e]
  constructor
  · rintro ⟨hlen, h | h⟩
    · exact h.symm
    · cases hc : o.cmp with
      | none => rw [hc] at h; exact absurd h (by simp)
      | some cmp => rw [hc] at h; exact (ho.eq_of_cmp cmp hc k (o.key e) hlen h).symm
  · rintro rfl
    exact ⟨rfl, .inl rfl⟩

theorem HtOpt.Lawful.isKvEqual_eq (ho : o.Lawful) (k : K) :
    isKvEqual o k (o.calcsizeK k) = fun e ↦ decide (o.key e = k) := by
  funext e
  rw [Bool.eq_iff_iff, ho.isKvEqual_iff, decide_eq_true_eq]

omit [DecidableEq K] in
theorem internalHtNew_wf {size : Nat} (hs : 0 < size) (idx : Nat) :
    (internalHtNew size idx : Ht E).WF o where
  pos := hs
  length := by simp [internalHtNew]
  home i bt hbt e he := by
    have : bt = [] := by
      rw [internalHtNew, List.getElem?_replicate] at hbt
      split at hbt
      · exact (Option.some.inj hbt).symm
      · exact absurd hbt (by simp)
    rw [this] at he
    exact absurd he (by simp)
  distinct := by simp [internalHtNew, Ht.toList, Keyed.Distinct]
  count := by simp [internalHtNew, Ht.toList]

omit [DecidableEq K] in
theorem toList_internalHtNew (size idx : Nat) : (internalHtNew size idx : Ht E).toList = [] := by
  simp [internalHtNew, Ht.toList]

omit [DecidableEq K] in
theorem htNew_wf : (htNew : Ht E).WF o := internalHtNew_wf (by decide) 0

omit [DecidableEq K] in
theorem toList_htNew : (htNew : Ht E).toList = [] := toList_internalHtNew _ _

section Bucket

variable {h : Ht E}

omit [DecidableEq K] in
theorem Ht.WF.bucketfn_lt (hw : h.WF o) (k : K) : bucketfn o h k < h.table.length := by
  rw [hw.length]
  exact Nat.mod_lt _ hw.pos

omit [DecidableEq K] in
/-- The entries in the bucket of a key belong there. -/
theorem Ht.WF.bucket (hw : h.WF o) (k : K) : ∀ e ∈ h.table.getD (bucketfn o h k) [],
    o.hashfn (o.key e) % h.size = bucketfn o h k := by
  intro e he
  rw [List.getD_eq_getElem _ _ (hw.bucketfn_lt k)] at he
  exact hw.home _ _ (List.getElem?_eq_getElem (hw.bucketfn_lt k)) e he

omit [DecidableEq K] in
/-- The bucket of a key splits the entries; no entry outside has that bucket. -/
theorem Ht.WF.split (hw : h.WF o) (k : K) :
    ∃ A B, h.toList = A ++ (h.table.getD (bucketfn o h k) [] ++ B) ∧
      (∀ bt, (h.table.set (bucketfn o h k) bt).flatten = A ++ (bt ++ B)) ∧
      ∀ e ∈ A ++ B, o.key e ≠ k := by
  have hi := hw.bucketfn_lt k
  refine ⟨(h.table.take (bucketfn o h k)).flatten, (h.table.drop (bucketfn o h k + 1)).flatten,
    ?_, ?_, ?_⟩
  · rw [List.getD_eq_getElem _ _ hi, ← List.flatten_cons, ← List.flatten_append,
      ← List.drop_eq_getElem_cons hi, List.take_append_drop]
    rfl
  · intro bt
    rw [List.set_eq_take_append_cons_drop, if_pos hi, List.flatten_append, List.flatten_cons]
  · intro e he hek
    have hmem : ∃ j, j ≠ bucketfn o h k ∧ ∃ bt, h.table[j]? = some bt ∧ e ∈ bt := by
      rw [List.mem_append, List.mem_flatten, List.mem_flatten] at he
      rcases he with ⟨bt, hbt, hebt⟩ | ⟨bt, hbt, hebt⟩
      · obtain ⟨j, hj⟩ := List.mem_iff_getElem?.mp hbt
        rw [List.getElem?_take] at hj
        split at hj
        · next hlt => exact ⟨j, Nat.ne_of_lt hlt, bt, hj, hebt⟩
        · exact absurd hj (by simp)
      · obtain ⟨j, hj⟩ := List.mem_iff_getElem?.mp hbt
        rw [List.getElem?_drop] at hj
        exact ⟨_, by omega, bt, hj, hebt⟩
    obtain ⟨j, hne, bt, hbt, hebt⟩ := hmem
    exact hne ((hw.home j bt hbt e hebt).symm.trans (by rw [hek, bucketfn]))

omit [DecidableEq K] in
/-- A table with one bucket replaced keeps the invariant if the bucket's entries
belong there and the keys stay distinct. -/
theorem Ht.WF.set_bucket (hw : h.WF o) (k : K) {bt : List E} {n : Nat}
    (hbt : ∀ e ∈ bt, o.hashfn (o.key e) % h.size = bucketfn o h k)
    (hd : Keyed.Distinct o.key (h.table.set (bucketfn o h k) bt).flatten)
    (hn : n = (h.table.set (bucketfn o h k) bt).flatten.length) :
    ({ h with table := h.table.set (bucketfn o h k) bt, count := n } : Ht E).WF o where
  pos := hw.pos
  length := by simpa using hw.length
  home i b hb e he := by
    rw [List.getElem?_set] at hb
    split at hb
    · next hik =>
        split at hb
        · cases hb
          rw [← hik]
          exact hbt e he
        · exact absurd hb (by simp)
    · exact hw.home i b hb e he
  distinct := hd
  count := hn

end Bucket

theorem exists_overwrite {p : E → Bool} {l : List E} (h : l.any p = true) (e : E) :
    ∃ a x b, l = a ++ x :: b ∧ p x = true ∧ overwrite p e l = a ++ e :: b := by
  induction l with
  | nil => exact absurd h (by simp)
  | cons y l ih =>
      by_cases hy : p y = true
      · exact ⟨[], y, l, rfl, hy, by simp [overwrite, hy]⟩
      · have hl : l.any p = true := by simpa [hy] using h
        obtain ⟨a, x, b, rfl, hx, ho⟩ := ih hl
        exact ⟨y :: a, x, b, rfl, hx, by simp [overwrite, hy, ho]⟩

theorem overwrite_append {p : E → Bool} {A B : List E} {x : E} (hA : ∀ a ∈ A, p a = false)
    (hx : p x = true) (e : E) : overwrite p e (A ++ x :: B) = A ++ e :: B := by
  induction A with
  | nil => exact if_pos hx
  | cons a A ih =>
      rw [List.cons_append, overwrite, if_neg (by rw [hA a List.mem_cons_self]; decide),
        ih fun b hb ↦ hA b (List.mem_cons_of_mem a hb)]
      rfl

/-! ## Specifications -/

section Spec

variable {h : Ht E} (ho : o.Lawful) (hw : h.WF o)
include ho hw

theorem any_bucket_iff (k : K) :
    (h.table.getD (bucketfn o h k) []).any (isKvEqual o k (o.calcsizeK k)) = true ↔
      ∃ e ∈ h.toList, o.key e = k := by
  obtain ⟨A, B, hl, -, hout⟩ := hw.split k
  rw [ho.isKvEqual_eq, List.any_eq_true, hl]
  constructor
  · rintro ⟨e, he, hk⟩
    exact ⟨e, List.mem_append_right _ (List.mem_append_left _ he), by simpa using hk⟩
  · rintro ⟨e, he, hk⟩
    refine ⟨e, ?_, by simpa using hk⟩
    rcases List.mem_append.mp he with hA | hB
    · exact absurd hk (hout e (by simp [hA]))
    · rcases List.mem_append.mp hB with hb | hB
      · exact hb
      · exact absurd hk (hout e (by simp [hB]))

/-- **Find** looks the key up among all entries. -/
theorem htFindKv_eq (k : K) : htFindKv o h k = Keyed.lookup o.key h.toList k := by
  obtain ⟨A, B, hl, -, hout⟩ := hw.split k
  have hnone : ∀ l : List E, (∀ e ∈ l, o.key e ≠ k) →
      l.find? (fun e ↦ decide (o.key e = k)) = none := by
    intro l hlk
    rw [List.find?_eq_none]
    exact fun e he ↦ by simpa using hlk e he
  rw [htFindKv, ho.isKvEqual_eq, Keyed.lookup, hl, List.find?_append, List.find?_append,
    hnone A fun e he ↦ hout e (by simp [he]), hnone B fun e he ↦ hout e (by simp [he]),
    Option.none_or, Option.or_none]

/-- **Reserve** with `update`: the entry replaces the one with its key, if any. -/
theorem reserveKv_update (e : E) : ∃ h', reserveKv o h e true = some h' ∧ h'.WF o ∧
    h'.toList.Perm (e :: Keyed.erase o.key h.toList (o.key e)) := by
  obtain ⟨A, B, hl, hset, hout⟩ := hw.split (o.key e)
  have hany := any_bucket_iff ho hw (o.key e)
  have hbucket := hw.bucket (o.key e)
  rw [reserveKv]
  simp only [ho.keyLen_eq e]
  by_cases hex : (h.table.getD (bucketfn o h (o.key e)) []).any
      (isKvEqual o (o.key e) (o.calcsizeK (o.key e))) = true
  · -- the key is there: its entry is overwritten in place
    rw [if_pos hex, if_pos trivial]
    obtain ⟨a, x, b, hbt, hx, hov⟩ := exists_overwrite hex e
    have hxk : o.key x = o.key e := (ho.isKvEqual_iff _ x).mp hx
    have hlist : h.toList = (A ++ a) ++ x :: (b ++ B) := by rw [hl, hbt]; simp
    have hnew : (h.table.set (bucketfn o h (o.key e)) (a ++ e :: b)).flatten =
        (A ++ a) ++ e :: (b ++ B) := by rw [hset]; simp
    have hd := hw.distinct
    rw [hlist] at hd
    have hperm := hd.replace_perm hxk
    refine ⟨_, rfl, ?_, ?_⟩
    · rw [hov]
      refine hw.set_bucket (o.key e) ?_ ?_ ?_
      · intro y hy
        rcases List.mem_append.mp hy with hy | hy
        · exact hbucket y (by rw [hbt]; simp [hy])
        · rcases List.mem_cons.mp hy with rfl | hy
          · rfl
          · exact hbucket y (by rw [hbt]; simp [hy])
      · rw [hnew]
        exact (hd.cons_erase e).perm hperm.symm
      · rw [hw.count, hlist, hnew]
        simp
    · rw [Ht.toList, hov, hnew, hlist]
      exact hperm
  · -- the key is new: its entry goes to the end of the bucket
    rw [if_neg hex]
    have hfresh : Keyed.lookup o.key h.toList (o.key e) = none := by
      rw [Keyed.lookup_eq_none_iff]
      exact fun y hy hk ↦ hex (hany.mpr ⟨y, hy, hk⟩)
    have hnew : (h.table.set (bucketfn o h (o.key e))
        (h.table.getD (bucketfn o h (o.key e)) [] ++ [e])).flatten.Perm
        (e :: Keyed.erase o.key h.toList (o.key e)) := by
      rw [Keyed.erase_of_lookup_none hfresh, hset, hl, List.append_assoc, List.singleton_append]
      refine (List.Perm.append_left A List.perm_middle).trans ?_
      exact List.perm_middle
    refine ⟨_, rfl, ?_, hnew⟩
    refine hw.set_bucket (o.key e) ?_ ?_ ?_
    · intro y hy
      rcases List.mem_append.mp hy with hy | hy
      · exact hbucket y hy
      · rw [List.mem_singleton.mp hy]
        rfl
    · exact (hw.distinct.cons_erase e).perm hnew.symm
    · rw [hw.count, hnew.length_eq, Keyed.erase_of_lookup_none hfresh, List.length_cons]

/-- **Reserve** without `update` refuses exactly the keys that are there. -/
theorem reserveKv_fresh {e : E} (hfresh : Keyed.lookup o.key h.toList (o.key e) = none) :
    reserveKv o h e false = reserveKv o h e true := by
  have hex : ¬ (h.table.getD (bucketfn o h (o.key e)) []).any
      (isKvEqual o (o.key e) (o.keyLen e)) = true := by
    rw [ho.keyLen_eq e, any_bucket_iff ho hw (o.key e)]
    rintro ⟨x, hx, hk⟩
    exact Keyed.lookup_eq_none_iff.mp hfresh x hx hk
  rw [reserveKv, reserveKv]
  simp only [if_neg hex]

/-- **Write** through the pointer to an entry replaces it. -/
theorem htWriteKv_spec {e x : E} (hx : Keyed.lookup o.key h.toList (o.key e) = some x) :
    (htWriteKv o h e).WF o ∧
      (htWriteKv o h e).toList.Perm (e :: Keyed.erase o.key h.toList (o.key e)) := by
  have hex : (h.table.getD (bucketfn o h (o.key e)) []).any
      (isKvEqual o (o.key e) (o.calcsizeK (o.key e))) = true :=
    (any_bucket_iff ho hw (o.key e)).mpr ⟨x, Keyed.lookup_some_mem hx⟩
  obtain ⟨h', hres, hwf, hperm⟩ := reserveKv_update ho hw e
  rw [reserveKv] at hres
  simp only [ho.keyLen_eq e] at hres
  rw [if_pos hex, if_pos trivial] at hres
  cases hres
  exact ⟨hwf, hperm⟩

/-- **Delete** takes the entry with the key out. -/
theorem htDelete_spec (k : K) : (htDelete o h k).2.WF o ∧
    (htDelete o h k).2.toList = Keyed.erase o.key h.toList k := by
  obtain ⟨A, B, hl, hset, hout⟩ := hw.split k
  have hkeep : ∀ l : List E, (∀ e ∈ l, o.key e ≠ k) →
      l.filter (fun e ↦ decide (o.key e ≠ k)) = l := by
    intro l hlk
    rw [List.filter_eq_self]
    exact fun e he ↦ by simpa using hlk e he
  have hA := hkeep A fun e he ↦ hout e (by simp [he])
  have hB := hkeep B fun e he ↦ hout e (by simp [he])
  by_cases hex : (h.table.getD (bucketfn o h k) []).any
      (isKvEqual o k (o.calcsizeK k)) = true
  · have hdel : (htDelete o h k).2 = { h with
        table := h.table.set (bucketfn o h k)
          ((h.table.getD (bucketfn o h k) []).eraseP (isKvEqual o k (o.calcsizeK k))),
        count := h.count - 1 } := by
      rw [htDelete]
      simp only [if_pos hex]
    obtain ⟨x, hx, hxk⟩ := List.any_eq_true.mp hex
    obtain ⟨y, a, b, ha, hy, hbt, herase⟩ := List.exists_of_eraseP hx hxk
    have hyk : o.key y = k := (ho.isKvEqual_iff k y).mp hy
    have hlist : h.toList = (A ++ a) ++ y :: (b ++ B) := by rw [hl, hbt]; simp
    have hother : ∀ e ∈ (A ++ a) ++ (b ++ B), o.key e ≠ k := by
      have hd := hw.distinct
      rw [hlist] at hd
      have hn := hd.perm List.perm_middle
      rw [Keyed.Distinct, List.map_cons, List.nodup_cons] at hn
      intro e he hek
      exact hn.1 (List.mem_map.mpr ⟨e, he, hek.trans hyk.symm⟩)
    have hnew : (h.table.set (bucketfn o h k) (a ++ b)).flatten =
        Keyed.erase o.key h.toList k := by
      rw [hset, hlist, Keyed.erase, List.filter_append,
        List.filter_cons_of_neg (by simp [hyk]), ← List.filter_append, hkeep _ hother]
      simp
    rw [hdel, herase]
    refine ⟨hw.set_bucket k ?_ ?_ ?_, hnew⟩
    · intro e he
      apply hw.bucket k
      rw [hbt]
      rcases List.mem_append.mp he with he | he
      · simp [he]
      · simp [he]
    · rw [hnew]
      exact hw.distinct.erase k
    · rw [hset, hw.count, hlist]
      simp
      omega
  · have hdel : (htDelete o h k).2 = h := by
      rw [htDelete]
      simp only [if_neg hex]
    have hfresh : Keyed.lookup o.key h.toList k = none := by
      rw [Keyed.lookup_eq_none_iff]
      exact fun y hy hk ↦ hex ((any_bucket_iff ho hw k).mpr ⟨y, hy, hk⟩)
    rw [hdel, Keyed.erase_of_lookup_none hfresh]
    exact ⟨hw, rfl⟩

variable {i : Nat} {A B : List E} {e : E}

/-- No entry in front of an entry has its key. -/
theorem isKvEqual_before (hi : h.table[i]? = some (A ++ e :: B)) :
    ∀ a ∈ A, isKvEqual o (o.key e) (o.calcsizeK (o.key e)) a = false := by
  have hsub : (A ++ e :: B).Sublist h.toList :=
    List.sublist_flatten_of_mem (List.mem_of_getElem? hi)
  have hnodup := hw.distinct.sublist (hsub.map o.key)
  rw [List.map_append, List.map_cons] at hnodup
  intro a ha
  rw [ho.isKvEqual_eq]
  refine decide_eq_false fun hkey ↦ ?_
  exact (List.nodup_append.mp hnodup).2.2 _ (List.mem_map_of_mem ha) _ List.mem_cons_self hkey

/-- **Delete** closes the gap in the bucket. -/
theorem htDelete_bucket (hi : h.table[i]? = some (A ++ e :: B)) :
    htDelete o h (o.key e) =
      (true, { h with table := h.table.set i (A ++ B), count := h.count - 1 }) := by
  have hbucket : bucketfn o h (o.key e) = i := hw.home i _ hi e (by simp)
  have hgetD : h.table.getD i [] = A ++ e :: B := by
    rw [List.getD_eq_getElem?_getD, hi]
    rfl
  have he : isKvEqual o (o.key e) (o.calcsizeK (o.key e)) e = true := (ho.isKvEqual_iff _ e).mpr rfl
  have hany : (A ++ e :: B).any (isKvEqual o (o.key e) (o.calcsizeK (o.key e))) = true :=
    List.any_eq_true.mpr ⟨e, by simp, he⟩
  have hA := isKvEqual_before ho hw hi
  rw [htDelete, hbucket, hgetD, if_pos hany, List.eraseP_append_right _ (by simpa using hA),
    List.eraseP_cons_of_pos he]

end Spec

/-! ## Growth keeps the entries -/

theorem computeSize_pos (idx sz : Nat) : 0 < computeSize idx sz := by
  rw [computeSize]
  split
  · next h =>
      have hall : ∀ p ∈ htPrimesSizes, 0 < p := by decide
      rw [List.getD_eq_getElem _ _ h.2]
      exact hall _ (List.getElem_mem h.2)
  · exact Nat.lt_of_lt_of_le Nat.one_pos Nat.right_le_or

/-- Reinserting `l` into a table that holds `q`, all keys being distinct. -/
theorem foldl_reinsertKv (ho : o.Lawful) {grow : Ht E → Ht E}
    (hgrow : ∀ h : Ht E, h.WF o → (grow h).WF o ∧ (grow h).toList.Perm h.toList) :
    ∀ (l q : List E) {h2 : Ht E}, h2.WF o → h2.toList.Perm q → Keyed.Distinct o.key (q ++ l) →
      (l.foldl (reinsertKv o grow) h2).WF o ∧
        (l.foldl (reinsertKv o grow) h2).toList.Perm (q ++ l) := by
  intro l
  induction l with
  | nil => exact fun q h2 hw2 hq _ ↦ ⟨hw2, by simpa using hq⟩
  | cons e l ih =>
      intro q h2 hw2 hq hd
      have hfresh : Keyed.lookup o.key h2.toList (o.key e) = none := by
        rw [Keyed.lookup_eq_none_iff]
        intro x hx hxe
        have hn := hd.perm List.perm_middle
        rw [Keyed.Distinct, List.map_cons, List.nodup_cons] at hn
        exact hn.1 (List.mem_map.mpr ⟨x, by simp [hq.mem_iff.mp hx], hxe⟩)
      obtain ⟨h3, hres, hw3, hp3⟩ := reserveKv_update ho hw2 e
      rw [← reserveKv_fresh ho hw2 hfresh] at hres
      rw [Keyed.erase_of_lookup_none hfresh] at hp3
      have hp3' : h3.toList.Perm (q ++ [e]) :=
        hp3.trans ((hq.cons e).trans (List.perm_append_singleton e q).symm)
      have hd' : Keyed.Distinct o.key ((q ++ [e]) ++ l) := by simpa using hd
      rw [List.foldl_cons, show q ++ e :: l = (q ++ [e]) ++ l by simp]
      have hstep : reinsertKv o grow h2 e = if h3.count ≥ h3.size then grow h3 else h3 := by
        rw [reinsertKv, hres]
      rw [hstep]
      split
      · obtain ⟨hwg, hpg⟩ := hgrow h3 hw3
        exact ih (q ++ [e]) hwg (hpg.trans hp3') hd'
      · exact ih (q ++ [e]) hw3 hp3' hd'

theorem htGrow_spec (ho : o.Lawful) : ∀ (d : Nat) {h : Ht E}, h.WF o →
    (htGrow o d h).WF o ∧ (htGrow o d h).toList.Perm h.toList := by
  intro d
  induction d with
  | zero => exact fun hw ↦ ⟨hw, List.Perm.refl _⟩
  | succ d ih =>
      intro h hw
      exact foldl_reinsertKv ho (fun _ hw' ↦ ih hw') h.toList []
        (internalHtNew_wf (computeSize_pos _ _) _) (List.Perm.of_eq (toList_internalHtNew _ _))
        hw.distinct

/-- **Insert** with `update`: the table maps the key of the entry to it, and every
other key as before. -/
theorem htInsertKv_spec (ho : o.Lawful) {h : Ht E} (hw : h.WF o) (e : E) :
    (htInsertKv o h e true).1 = true ∧ (htInsertKv o h e true).2.WF o ∧
      (htInsertKv o h e true).2.toList.Perm (e :: Keyed.erase o.key h.toList (o.key e)) := by
  obtain ⟨h', hres, hw', hp⟩ := reserveKv_update ho hw e
  rw [htInsertKv, hres]
  refine ⟨rfl, ?_⟩
  simp only [checkGrowing]
  split
  · obtain ⟨hwg, hpg⟩ := htGrow_spec ho 64 hw'
    exact ⟨hwg, hpg.trans hp⟩
  · exact ⟨hw', hp⟩

end SdbStore
