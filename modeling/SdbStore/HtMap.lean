import Mathlib.Algebra.GroupWithZero.Nat
import SdbStore.Lib.Simulation
import SdbStore.Ht
import Mathlib.Data.Finmap

/-!
# The hash table is a finite map

The interface of `HtPP` and `HtUP`: entries are pairs of a key and a value with their
lengths, and every operation is compared with the operation on a finite map.  A table is
never full after an operation: when the last insertion has filled it, it grows at once, so
that the entries always fit into the larger table and growth does not recur.
-/

namespace SdbStore

open Lib

universe u v

/-! ## The interface -/

/-- `HT_(Options)`, with `KEY_TO_HASH`.  Keys stand for what they hold, so that the copy that
`dupkey` makes of a key is the key; how entries are freed is left out. -/
structure HtOptions (K : Type u) (V : Type v) where
  cmp : Option (K → K → Int)
  hashfn : Option (K → Nat)
  keyToHash : K → Nat
  dupvalue : Option (V → V)
  calcsizeK : Option (K → Nat)
  calcsizeV : Option (V → Nat)

variable {K : Type u} {V : Type v}

/-- `hashfn`. -/
def hashKey (o : HtOptions K V) (k : K) : Nat :=
  match o.hashfn with
  | some hashfn => hashfn k
  | none => o.keyToHash k

/-- `dupval`. -/
def dupval (o : HtOptions K V) (v : V) : V :=
  match o.dupvalue with
  | some dupvalue => dupvalue v
  | none => v

/-- `calcsize_key`. -/
def calcsizeKey (o : HtOptions K V) (k : K) : Nat :=
  match o.calcsizeK with
  | some calcsizeK => calcsizeK k
  | none => 0

/-- `calcsize_val`. -/
def calcsizeVal (o : HtOptions K V) (v : V) : Nat :=
  match o.calcsizeV with
  | some calcsizeV => calcsizeV v
  | none => 0

/-- `HT_(Kv)`: an entry carries the length of its key. -/
structure HtKv (o : HtOptions K V) where
  key : K
  value : V
  keyLen : Nat
  valueLen : Nat
  keyLen_eq : keyLen = calcsizeKey o key

/-- The options of a table of such entries. -/
def HtOptions.opt (o : HtOptions K V) : HtOpt K (HtKv o) where
  cmp := o.cmp.map fun cmp a b ↦ decide (cmp a b = 0)
  hashfn := hashKey o
  calcsizeK := calcsizeKey o
  key := HtKv.key
  keyLen := HtKv.keyLen

/-- The comparator is equality on keys of the same length. -/
def HtOptions.Lawful (o : HtOptions K V) : Prop :=
  ∀ cmp, o.cmp = some cmp → ∀ a b, calcsizeKey o a = calcsizeKey o b → (cmp a b = 0 ↔ a = b)

theorem HtOptions.Lawful.opt {o : HtOptions K V} (ho : o.Lawful) : o.opt.Lawful where
  eq_of_cmp cmp hcmp a b hlen hab := by
    obtain ⟨cmp', hcmp', rfl⟩ := Option.map_eq_some_iff.mp hcmp
    exact (ho cmp' hcmp' a b hlen).mp (of_decide_eq_true hab)
  keyLen_eq := HtKv.keyLen_eq

/-- `ht_new_size`: the first prime that is large enough. -/
def htNewSize {E : Type v} (initialSize : Nat) : Ht E :=
  let i := htPrimesSizes.findIdx fun p ↦ decide (¬ p < initialSize)
  let i := if i = htPrimesSizes.length then ut32Max else i
  internalHtNew (computeSize i initialSize) i

section Interface

variable [DecidableEq K] (o : HtOptions K V)

/-- The entry that `insert_update` writes. -/
def newKv (key : K) (value : V) : HtKv o where
  key := key
  value := dupval o value
  keyLen := calcsizeKey o key
  valueLen := calcsizeVal o value
  keyLen_eq := rfl

/-- `insert_update`, which is `ht_insert_kv` with the entry written into its place. -/
def insertUpdate (h : Ht (HtKv o)) (key : K) (value : V) (update : Bool) : Bool × Ht (HtKv o) :=
  htInsertKv o.opt h (newKv o key value) update

/-- `ht_insert`. -/
def htInsert (h : Ht (HtKv o)) (key : K) (value : V) : Bool × Ht (HtKv o) :=
  insertUpdate o h key value false

/-- `ht_update`. -/
def htUpdate (h : Ht (HtKv o)) (key : K) (value : V) : Bool × Ht (HtKv o) :=
  insertUpdate o h key value true

/-- `ht_find`; `none` is `HT_NULL_VALUE` with `found` false. -/
def htFind (h : Ht (HtKv o)) (key : K) : Option V := (htFindKv o.opt h key).map HtKv.value

/-- `ht_update_key`.  The loop that removes the old entry is that of `ht_delete`; it takes the
value out of the entry before the entry is freed. -/
def htUpdateKey (h : Ht (HtKv o)) (oldKey newKey : K) : Bool × Ht (HtKv o) :=
  match htFind o h oldKey with
  | none => (false, h)
  | some value =>
      match insertUpdate o h newKey value false with
      | (false, h) => (false, h)
      | (true, h) => htDelete o.opt h oldKey

/-- The operations on a table. -/
inductive HtCall (o : HtOptions K V) where
  | insert (key : K) (value : V)
  | update (key : K) (value : V)
  | insertKv (kv : HtKv o) (update : Bool)
  | find (key : K)
  | findKv (key : K)
  | delete (key : K)
  | updateKey (oldKey newKey : K)

/-- What an operation returns. -/
inductive HtResult (o : HtOptions K V) where
  | ret (ok : Bool)
  | value (v : Option V)
  | kv (kv : Option (HtKv o))

/-- An operation on a table. -/
def htCall (h : Ht (HtKv o)) : HtCall o → HtResult o × Ht (HtKv o)
  | .insert key value => let r := htInsert o h key value; (.ret r.1, r.2)
  | .update key value => let r := htUpdate o h key value; (.ret r.1, r.2)
  | .insertKv kv update => let r := htInsertKv o.opt h kv update; (.ret r.1, r.2)
  | .find key => (.value (htFind o h key), h)
  | .findKv key => (.kv (htFindKv o.opt h key), h)
  | .delete key => let r := htDelete o.opt h key; (.ret r.1, r.2)
  | .updateKey oldKey newKey => let r := htUpdateKey o h oldKey newKey; (.ret r.1, r.2)

/-! ## The finite map -/

/-- What a table is for: a finite map from keys to entries. -/
abbrev HtMap (o : HtOptions K V) := Finmap fun _ : K ↦ HtKv o

/-- An entry goes into the map, unless its key is there and may not be updated. -/
def HtMap.insertKv (m : HtMap o) (kv : HtKv o) (update : Bool) : Bool × HtMap o :=
  if kv.key ∈ m ∧ update = false then (false, m) else (true, m.insert kv.key kv)

/-- The value of a key goes to a new one, if there is one and the new key is not taken. -/
def HtMap.updateKey (m : HtMap o) (oldKey newKey : K) : Bool × HtMap o :=
  match m.lookup oldKey with
  | none => (false, m)
  | some kv =>
      if newKey ∈ m then (false, m)
      else (true, (m.erase oldKey).insert newKey (newKv o newKey kv.value))

/-- An operation on the map. -/
def mapCall (m : HtMap o) : HtCall o → HtResult o × HtMap o
  | .insert key value => let r := HtMap.insertKv o m (newKv o key value) false; (.ret r.1, r.2)
  | .update key value => let r := HtMap.insertKv o m (newKv o key value) true; (.ret r.1, r.2)
  | .insertKv kv update => let r := HtMap.insertKv o m kv update; (.ret r.1, r.2)
  | .find key => (.value ((m.lookup key).map HtKv.value), m)
  | .findKv key => (.kv (m.lookup key), m)
  | .delete key => (.ret (key ∈ m), m.erase key)
  | .updateKey oldKey newKey => let r := HtMap.updateKey o m oldKey newKey; (.ret r.1, r.2)

end Interface

/-! ## Sizes -/

/-- The sizes that a table has: the primes of the table, and beyond them odd numbers. -/
def PrimeSize (idx size : Nat) : Prop :=
  (idx < htPrimesSizes.length ∧ size = htPrimesSizes.getD idx 0) ∨
    (idx = ut32Max ∧ htPrimesSizes.getD (htPrimesSizes.length - 1) 0 < size ∧ size % 2 = 1)

/-- The size that `internal_ht_grow` computes. -/
def growSize (idx size : Nat) : Nat := computeSize (nextIdx idx) (size * 2 % 4294967296)

theorem computeSize_prime {idx : Nat} (h : idx < htPrimesSizes.length) (sz : Nat) :
    computeSize idx sz = htPrimesSizes.getD idx 0 := by
  have hlen : htPrimesSizes.length < ut32Max := by decide
  rw [computeSize, if_pos ⟨(h.trans hlen).ne, h⟩]

theorem computeSize_odd (sz : Nat) : computeSize ut32Max sz = sz ||| 1 := by
  rw [computeSize, if_neg fun h ↦ h.1 rfl]

theorem primeSize_computeSize {sz : Nat}
    (h : htPrimesSizes.getD (htPrimesSizes.length - 1) 0 < sz) :
    PrimeSize ut32Max (computeSize ut32Max sz) := by
  rw [computeSize_odd]
  refine .inr ⟨rfl, h.trans_le Nat.left_le_or, ?_⟩
  rw [Nat.or_mod_two_eq_one]
  exact .inr rfl

/-- **Growth**: the next size is another one of the sizes, and is larger. -/
theorem PrimeSize.grow {idx size : Nat} (h : PrimeSize idx size) (hsize : size ≤ 2 ^ 30) :
    PrimeSize (nextIdx idx) (growSize idx size) ∧ size < growSize idx size := by
  have hmod : size * 2 % 4294967296 = size * 2 := Nat.mod_eq_of_lt (by omega)
  have hodd : ∀ n, growSize idx size = computeSize ut32Max n → n = size * 2 →
      htPrimesSizes.getD (htPrimesSizes.length - 1) 0 ≤ size →
      PrimeSize ut32Max (growSize idx size) ∧ size < growSize idx size := by
    intro n hgrow hn hlast
    have hpos : 0 < size := Nat.lt_of_lt_of_le (by decide) hlast
    have hlt : size < size * 2 := by omega
    rw [hgrow, hn]
    refine ⟨primeSize_computeSize (hlast.trans_lt hlt), ?_⟩
    rw [computeSize_odd]
    exact hlt.trans_le Nat.left_le_or
  rcases h with ⟨hidx, rfl⟩ | ⟨rfl, hlast, -⟩
  · by_cases hnext : idx < htPrimesSizes.length - 1
    · -- the next prime
      have hstep : ∀ i < htPrimesSizes.length - 1,
          htPrimesSizes.getD i 0 < htPrimesSizes.getD (i + 1) 0 := by decide
      have hne : idx ≠ ut32Max := (hidx.trans (by decide)).ne
      have hlt : idx + 1 < htPrimesSizes.length := by omega
      rw [growSize, nextIdx, if_pos ⟨hne, hnext⟩, computeSize_prime hlt]
      exact ⟨.inl ⟨hlt, rfl⟩, hstep idx hnext⟩
    · have hlast : idx = htPrimesSizes.length - 1 := by omega
      have hnone : nextIdx idx = ut32Max := by rw [nextIdx, if_neg fun h ↦ hnext h.2]
      rw [hnone]
      exact hodd _ (by rw [growSize, hnone]) hmod (by rw [hlast])
  · have hnone : nextIdx ut32Max = ut32Max := by rw [nextIdx, if_neg fun h ↦ h.1 rfl]
    rw [hnone]
    exact hodd _ (by rw [growSize, hnone]) hmod hlast.le

/-- A table has one of the sizes, and is not full. -/
structure Ht.Sized {E : Type v} (h : Ht E) : Prop where
  room : h.count < h.size
  prime : PrimeSize h.primeIdx h.size

theorem sized_htNew {E : Type v} : (htNew : Ht E).Sized :=
  ⟨Nat.zero_lt_succ 2, .inl ⟨Nat.zero_lt_succ 71, rfl⟩⟩

theorem sized_htNewSize {E : Type v} (initialSize : Nat) :
    (htNewSize initialSize : Ht E).Sized := by
  have hprime : PrimeSize (htNewSize initialSize : Ht E).primeIdx
      (htNewSize initialSize : Ht E).size := by
    rw [htNewSize]
    dsimp only [internalHtNew]
    by_cases hi : htPrimesSizes.findIdx (fun p ↦ decide (¬ p < initialSize)) = htPrimesSizes.length
    · rw [if_pos hi]
      apply primeSize_computeSize
      have hall := List.findIdx_eq_length.mp hi (htPrimesSizes.getD (htPrimesSizes.length - 1) 0)
        (by decide)
      simpa using hall
    · have hlt := lt_of_le_of_ne List.findIdx_le_length hi
      rw [if_neg hi, computeSize_prime hlt]
      exact .inl ⟨hlt, rfl⟩
  exact ⟨computeSize_pos _ _, hprime⟩

/-! ## Growth -/

section Growth

variable {E : Type v} [DecidableEq K] {o : HtOpt K E} {h : Ht E}

theorem reserveKv_frame {e : E} {update : Bool} {h' : Ht E}
    (hres : reserveKv o h e update = some h') :
    h'.size = h.size ∧ h'.primeIdx = h.primeIdx ∧ h'.count ≤ h.count + 1 := by
  unfold reserveKv at hres
  dsimp only at hres
  split at hres
  · split at hres
    · obtain rfl := Option.some.inj hres
      exact ⟨rfl, rfl, Nat.le_succ _⟩
    · cases hres
  · obtain rfl := Option.some.inj hres
    exact ⟨rfl, rfl, Nat.le_refl _⟩

/-- Where there is room for all entries, reinserting them does not grow the table. -/
theorem foldl_reinsertKv_room (grow : Ht E → Ht E) (l : List E) {h2 : Ht E}
    (hroom : h2.count + l.length < h2.size) :
    l.foldl (reinsertKv o grow) h2 = l.foldl (reinsertKv o id) h2 ∧
      (l.foldl (reinsertKv o grow) h2).size = h2.size ∧
      (l.foldl (reinsertKv o grow) h2).primeIdx = h2.primeIdx := by
  induction l generalizing h2 with
  | nil => exact ⟨rfl, rfl, rfl⟩
  | cons e l ih =>
      rw [List.length_cons] at hroom
      rw [List.foldl_cons, List.foldl_cons, reinsertKv, reinsertKv]
      cases hres : reserveKv o h2 e false with
      | none =>
          dsimp only
          exact ih (by omega)
      | some h3 =>
          obtain ⟨hsize, hidx, hcount⟩ := reserveKv_frame hres
          have hno : ¬ h3.count ≥ h3.size := by omega
          dsimp only
          rw [if_neg hno, if_neg hno, ← hsize, ← hidx]
          exact ih (by omega)

/-- The table grows, if at all, to the next size. -/
def Ht.Grows (h h' : Ht E) : Prop :=
  (h'.primeIdx = h.primeIdx ∧ h'.size = h.size) ∨
    (h'.primeIdx = nextIdx h.primeIdx ∧ h'.size = growSize h.primeIdx h.size ∧ h.size < h'.size)

theorem Ht.Grows.refl (h : Ht E) : h.Grows h := .inl ⟨rfl, rfl⟩

variable (ho : o.Lawful) (hw : h.WF o) (hprime : PrimeSize h.primeIdx h.size)
  (hcount : h.count ≤ h.size) (hsmall : h.count ≤ 2 ^ 30)
include ho hw hprime hcount hsmall

/-- **A full table grows** to the next size, and growth does not recur, whatever its depth. -/
theorem htGrow_full (hfull : h.count ≥ h.size) (d : Nat) :
    htGrow o (d + 1) h = htGrow o 1 h ∧ (htGrow o (d + 1) h).Sized ∧
      h.Grows (htGrow o (d + 1) h) := by
  have hsize : h.size ≤ 2 ^ 30 := hfull.trans hsmall
  obtain ⟨hprime', hlt⟩ := hprime.grow hsize
  have hroom : (internalHtNew (growSize h.primeIdx h.size) (nextIdx h.primeIdx) : Ht E).count +
      h.toList.length < (internalHtNew (growSize h.primeIdx h.size) (nextIdx h.primeIdx) :
        Ht E).size := by
    rw [← hw.count]
    exact (Nat.zero_add h.count).symm ▸ hcount.trans_lt hlt
  obtain ⟨heq, hsz, hidx⟩ := foldl_reinsertKv_room (o := o) (htGrow o d) h.toList hroom
  obtain ⟨heq', -⟩ := foldl_reinsertKv_room (o := o) (htGrow o 0) h.toList hroom
  obtain ⟨hwg, hperm⟩ := htGrow_spec ho (d + 1) hw
  have hgrowSize : (htGrow o (d + 1) h).size = growSize h.primeIdx h.size := hsz
  have hgrowIdx : (htGrow o (d + 1) h).primeIdx = nextIdx h.primeIdx := hidx
  refine ⟨heq.trans heq'.symm, ⟨?_, ?_⟩, .inr ⟨hgrowIdx, hgrowSize, hgrowSize ▸ hlt⟩⟩
  · rw [hwg.count, hperm.length_eq, ← hw.count, hgrowSize]
    exact hcount.trans_lt hlt
  · rw [hgrowIdx, hgrowSize]
    exact hprime'

/-- `check_growing` leaves room. -/
theorem checkGrowing_sized : (checkGrowing o h).Sized ∧ h.Grows (checkGrowing o h) := by
  rw [checkGrowing]
  split
  · next hfull => exact (htGrow_full ho hw hprime hcount hsmall hfull 63).2
  · next hroom => exact ⟨⟨Nat.not_le.mp hroom, hprime⟩, .refl h⟩

end Growth

section Insert

variable {E : Type v} [DecidableEq K] {o : HtOpt K E} {h : Ht E} (ho : o.Lawful) (hw : h.WF o)
include ho hw

/-- A key that is there is not inserted again. -/
theorem htInsertKv_refused {e x : E} (hx : Keyed.lookup o.key h.toList (o.key e) = some x) :
    htInsertKv o h e false = (false, h) := by
  have hex : (h.table.getD (bucketfn o h (o.key e)) []).any
      (isKvEqual o (o.key e) (o.keyLen e)) = true := by
    rw [ho.keyLen_eq e, any_bucket_iff ho hw (o.key e)]
    exact ⟨x, Keyed.lookup_some_mem hx⟩
  rw [htInsertKv, reserveKv]
  simp only [if_pos hex, if_neg Bool.false_ne_true]

theorem htInsertKv_fresh {e : E} (hfresh : Keyed.lookup o.key h.toList (o.key e) = none) :
    htInsertKv o h e false = htInsertKv o h e true := by
  rw [htInsertKv, htInsertKv, reserveKv_fresh ho hw hfresh]

/-- An insertion leaves room. -/
theorem htInsertKv_sized (hs : h.Sized) (hsmall : h.count < 2 ^ 30) (e : E) :
    (htInsertKv o h e true).2.Sized ∧ h.Grows (htInsertKv o h e true).2 := by
  obtain ⟨h', hres, hw', -⟩ := reserveKv_update ho hw e
  obtain ⟨hsize, hidx, hcount⟩ := reserveKv_frame hres
  have hroom := hs.room
  have hprime : PrimeSize h'.primeIdx h'.size := by
    rw [hsize, hidx]
    exact hs.prime
  have hgrow := checkGrowing_sized ho hw' hprime (by omega) (by omega)
  rw [Ht.Grows, hsize, hidx] at hgrow
  rw [htInsertKv, hres]
  exact hgrow

omit ho hw in
theorem htDelete_frame (k : K) : (htDelete o h k).2.primeIdx = h.primeIdx ∧
    (htDelete o h k).2.size = h.size ∧ (htDelete o h k).2.count ≤ h.count := by
  rw [htDelete]
  split
  · exact ⟨rfl, rfl, Nat.sub_le _ _⟩
  · exact ⟨rfl, rfl, Nat.le_refl _⟩

theorem htDelete_ret (k : K) :
    (htDelete o h k).1 = true ↔ Keyed.lookup o.key h.toList k ≠ none := by
  have hany := any_bucket_iff ho hw k
  have hex : (∃ e ∈ h.toList, o.key e = k) ↔ Keyed.lookup o.key h.toList k ≠ none := by
    rw [Ne, Keyed.lookup_eq_none_iff]
    push Not
    exact Iff.rfl
  rw [← hex, ← hany, htDelete]
  split
  · next hbucket => exact ⟨fun _ ↦ hbucket, fun _ ↦ rfl⟩
  · next hbucket => exact ⟨(absurd · Bool.false_ne_true), fun hb ↦ absurd hb hbucket⟩

end Insert

/-! ## Refinement -/

section Refine

variable [DecidableEq K] {o : HtOptions K V}

/-- A table in order, which has the entries of the map. -/
structure Represents (h : Ht (HtKv o)) (m : HtMap o) : Prop where
  wf : h.WF o.opt
  sized : h.Sized
  lookup : ∀ k, m.lookup k = Keyed.lookup o.opt.key h.toList k

/-- A new table is empty. -/
theorem represents_empty {h : Ht (HtKv o)} (hw : h.WF o.opt) (hs : h.Sized) (hnil : h.toList = []) :
    Represents h (∅ : HtMap o) := by
  refine ⟨hw, hs, fun k ↦ ?_⟩
  rw [Finmap.lookup_empty, hnil]
  rfl

variable {h : Ht (HtKv o)} {m : HtMap o} (hr : Represents h m)
include hr

theorem Represents.mem_iff (k : K) : k ∈ m ↔ Keyed.lookup o.opt.key h.toList k ≠ none := by
  rw [← hr.lookup, Ne, Finmap.lookup_eq_none, not_not]

/-- The count is the number of keys. -/
theorem Represents.count : h.count = m.keys.card := by
  have hkeys : m.keys = (h.toList.map o.opt.key).toFinset := by
    ext k
    rw [Finmap.mem_keys, hr.mem_iff, Ne, Keyed.lookup_eq_none_iff, List.mem_toFinset, List.mem_map]
    push Not
    exact Iff.rfl
  rw [hkeys, List.toFinset_card_of_nodup hr.wf.distinct, List.length_map, hr.wf.count]

variable (ho : o.Lawful)
include ho

theorem Represents.find (k : K) : htFindKv o.opt h k = m.lookup k := by
  rw [htFindKv_eq ho.opt hr.wf, hr.lookup]

theorem Represents.insertKv_true (hsmall : m.keys.card < 2 ^ 30) (kv : HtKv o) :
    (htInsertKv o.opt h kv true).1 = true ∧
      Represents (htInsertKv o.opt h kv true).2 (m.insert kv.key kv) ∧
      h.Grows (htInsertKv o.opt h kv true).2 := by
  obtain ⟨hret, hw, hperm⟩ := htInsertKv_spec ho.opt hr.wf kv
  obtain ⟨hs, hgrow⟩ := htInsertKv_sized ho.opt hr.wf hr.sized (hr.count ▸ hsmall) kv
  refine ⟨hret, ⟨hw, hs, fun k ↦ ?_⟩, hgrow⟩
  rw [hw.distinct.lookup_perm hperm, Keyed.lookup_cons_erase, ← hr.lookup]
  split
  · next hk =>
      subst hk
      exact Finmap.lookup_insert m
  · next hk => exact Finmap.lookup_insert_of_ne m hk

/-- **Insertion.** -/
theorem Represents.insertKv (hsmall : m.keys.card < 2 ^ 30) (kv : HtKv o) (update : Bool) :
    (htInsertKv o.opt h kv update).1 = (HtMap.insertKv o m kv update).1 ∧
      Represents (htInsertKv o.opt h kv update).2 (HtMap.insertKv o m kv update).2 ∧
      h.Grows (htInsertKv o.opt h kv update).2 := by
  have htrue := hr.insertKv_true ho hsmall kv
  rw [HtMap.insertKv]
  by_cases hmem : kv.key ∈ m
  · cases update with
    | true =>
        rw [if_neg fun hc ↦ nomatch hc.2]
        exact htrue
    | false =>
        obtain ⟨x, hx⟩ := Option.ne_none_iff_exists'.mp ((hr.mem_iff kv.key).mp hmem)
        rw [if_pos ⟨hmem, rfl⟩, htInsertKv_refused ho.opt hr.wf hx]
        exact ⟨rfl, hr, .refl h⟩
  · rw [if_neg fun hc ↦ hmem hc.1]
    cases update with
    | true => exact htrue
    | false =>
        have hfresh := not_not.mp (mt (hr.mem_iff kv.key).mpr hmem)
        rw [htInsertKv_fresh ho.opt hr.wf hfresh]
        exact htrue

/-- **Deletion.** -/
theorem Represents.delete (k : K) :
    (htDelete o.opt h k).1 = decide (k ∈ m) ∧ Represents (htDelete o.opt h k).2 (m.erase k) := by
  obtain ⟨hw, hlist⟩ := htDelete_spec ho.opt hr.wf k
  obtain ⟨hidx, hsize, hcount⟩ := htDelete_frame (o := o.opt) (h := h) k
  have hs : (htDelete o.opt h k).2.Sized := by
    refine ⟨?_, ?_⟩
    · rw [hsize]
      exact hcount.trans_lt hr.sized.room
    · rw [hidx, hsize]
      exact hr.sized.prime
  refine ⟨?_, ⟨hw, hs, fun k' ↦ ?_⟩⟩
  · rw [Bool.eq_iff_iff, decide_eq_true_iff, htDelete_ret ho.opt hr.wf, hr.mem_iff]
  · rw [hlist, Keyed.lookup_erase, ← hr.lookup]
    split
    · next hk =>
        subst hk
        exact Finmap.lookup_erase k' m
    · next hk => exact Finmap.lookup_erase_ne hk

omit hr ho in
/-- Two keys do not get into each other's way. -/
theorem erase_insert {k k' : K} (hne : k ≠ k') (kv : HtKv o) :
    (m.insert k' kv).erase k = (m.erase k).insert k' kv := by
  apply Finmap.ext_lookup
  intro x
  by_cases hx : x = k
  · subst hx
    rw [Finmap.lookup_erase, Finmap.lookup_insert_of_ne _ hne, Finmap.lookup_erase]
  · rw [Finmap.lookup_erase_ne hx]
    by_cases hx' : x = k'
    · subst hx'
      rw [Finmap.lookup_insert, Finmap.lookup_insert]
    · rw [Finmap.lookup_insert_of_ne _ hx', Finmap.lookup_insert_of_ne _ hx',
        Finmap.lookup_erase_ne hx]

/-- **A new key for a value**: the new entry goes in before the old one goes out. -/
theorem Represents.updateKey (hsmall : m.keys.card < 2 ^ 30) (oldKey newKey : K) :
    (htUpdateKey o h oldKey newKey).1 = (HtMap.updateKey o m oldKey newKey).1 ∧
      Represents (htUpdateKey o h oldKey newKey).2 (HtMap.updateKey o m oldKey newKey).2 ∧
      h.Grows (htUpdateKey o h oldKey newKey).2 := by
  rw [htUpdateKey, HtMap.updateKey, htFind, hr.find ho]
  cases hold : m.lookup oldKey with
  | none => exact ⟨rfl, hr, .refl h⟩
  | some kv =>
      dsimp only [Option.map_some]
      obtain ⟨hret, hins, hgrow⟩ := hr.insertKv ho hsmall (newKv o newKey kv.value) false
      rw [HtMap.insertKv] at hret hins
      by_cases hmem : newKey ∈ m
      · rw [if_pos ⟨hmem, rfl⟩] at hret hins
        rw [if_pos hmem, ← Prod.mk.eta (p := insertUpdate o h newKey kv.value false),
          show (insertUpdate o h newKey kv.value false).1 = false from hret]
        exact ⟨rfl, hins, hgrow⟩
      · rw [if_neg fun hc ↦ hmem hc.1] at hret hins
        rw [if_neg hmem, ← Prod.mk.eta (p := insertUpdate o h newKey kv.value false),
          show (insertUpdate o h newKey kv.value false).1 = true from hret]
        dsimp only
        have hne : oldKey ≠ newKey := by
          rintro rfl
          exact hmem (Finmap.mem_of_lookup_eq_some hold)
        have hthere : oldKey ∈ m.insert newKey (newKv o newKey kv.value) :=
          Finmap.mem_insert.mpr (.inr (Finmap.mem_of_lookup_eq_some hold))
        obtain ⟨hdel, hrep⟩ := hins.delete ho oldKey
        obtain ⟨hidx, hsize, -⟩ :=
          htDelete_frame (o := o.opt) (h := (insertUpdate o h newKey kv.value false).2) oldKey
        refine ⟨hdel.trans (decide_eq_true hthere), ?_, ?_⟩
        · rw [← erase_insert hne]
          exact hrep
        · rw [Ht.Grows, hidx, hsize]
          exact hgrow

/-- **One operation**: the table answers as the map does, has the entries of the map again, and
has grown to the next size at most. -/
theorem Represents.htCall (hsmall : m.keys.card < 2 ^ 30) (c : HtCall o) :
    (htCall o h c).1 = (mapCall o m c).1 ∧ Represents (htCall o h c).2 (mapCall o m c).2 ∧
      h.Grows (htCall o h c).2 := by
  cases c with
  | insert key value =>
      obtain ⟨hret, hrep⟩ := hr.insertKv ho hsmall (newKv o key value) false
      exact ⟨congrArg _ hret, hrep⟩
  | update key value =>
      obtain ⟨hret, hrep⟩ := hr.insertKv ho hsmall (newKv o key value) true
      exact ⟨congrArg _ hret, hrep⟩
  | insertKv kv update =>
      obtain ⟨hret, hrep⟩ := hr.insertKv ho hsmall kv update
      exact ⟨congrArg _ hret, hrep⟩
  | find key =>
      refine ⟨congrArg HtResult.value ?_, hr, .refl h⟩
      rw [htFind, hr.find ho]
  | findKv key => exact ⟨congrArg _ (hr.find ho key), hr, .refl h⟩
  | delete key =>
      obtain ⟨hret, hrep⟩ := hr.delete ho key
      obtain ⟨hidx, hsize, -⟩ := htDelete_frame (o := o.opt) (h := h) key
      exact ⟨congrArg _ hret, hrep, .inl ⟨hidx, hsize⟩⟩
  | updateKey oldKey newKey =>
      obtain ⟨hret, hrep⟩ := hr.updateKey ho hsmall oldKey newKey
      exact ⟨congrArg _ hret, hrep⟩

end Refine

/-! ## Runs -/

section Runs

variable [DecidableEq K] (o : HtOptions K V)

/-- A new table: `ht_new`, `ht_new_opt` or `ht_new_size`. -/
inductive HtMade : Ht (HtKv o) → Prop
  | new : HtMade htNew
  | newSize (initialSize : Nat) : HtMade (htNewSize initialSize)

/-- The table after the first `n` operations. -/
def htAfter (h : Ht (HtKv o)) (calls : List (HtCall o)) (n : Nat) : Ht (HtKv o) :=
  stateAfter (htCall o) h calls n

/-- The map after the first `n` operations. -/
def mapAfter (calls : List (HtCall o)) (n : Nat) : HtMap o := stateAfter (mapCall o) ∅ calls n

/-- The table is a finite map in the whole run: it answers as the map does, and all the time it
has the entries of the map, each once and in the bucket of its key, counts them, and grows by
going to the next size. -/
structure HtRefines (h : Ht (HtKv o)) (calls : List (HtCall o)) : Prop where
  results : (runOps (htCall o) h calls).1 = (runOps (mapCall o) ∅ calls).1
  represents : ∀ n, Represents (htAfter o h calls n) (mapAfter o calls n)
  count : ∀ n, (htAfter o h calls n).count = ((htAfter o h calls n).table.map List.length).sum
  grows : ∀ n < calls.length, (htAfter o h calls n).Grows (htAfter o h calls (n + 1))

variable {o}

theorem HtMade.represents {h : Ht (HtKv o)} (hm : HtMade o h) : Represents h (∅ : HtMap o) := by
  cases hm with
  | new => exact represents_empty htNew_wf sized_htNew toList_htNew
  | newSize n =>
      exact represents_empty (internalHtNew_wf (computeSize_pos _ _) _) (sized_htNewSize n)
        (toList_internalHtNew _ _)

theorem simulates_htCall (ho : o.Lawful) :
    Simulates Represents (fun _ m _ ↦ m.keys.card < 2 ^ 30) (htCall o) (mapCall o) := by
  intro h m c hr hsmall
  obtain ⟨hret, hrep, -⟩ := hr.htCall ho hsmall c
  exact ⟨hret, hrep⟩

/-- **The hash table refines a finite map**, whatever the hash function is. -/
theorem htRefines (ho : o.Lawful) {h : Ht (HtKv o)} (hm : HtMade o h) {calls : List (HtCall o)}
    (hsmall : ∀ n < calls.length, (mapAfter o calls n).keys.card < 2 ^ 30) :
    HtRefines o h calls := by
  obtain ⟨hres, hrep⟩ := (simulates_htCall ho).run hm.represents fun n c hc ↦
    hsmall n (List.getElem?_eq_some_iff.mp hc).1
  refine ⟨hres, hrep, fun n ↦ ?_, fun n hn ↦ ?_⟩
  · rw [htAfter, (hrep n).wf.count, Ht.toList, List.length_flatten]
  · have hstep : htAfter o h calls (n + 1) = (htCall o (htAfter o h calls n) calls[n]).2 :=
      stateAfter_succ (htCall o) h (List.getElem?_eq_getElem hn)
    rw [hstep]
    exact ((hrep n).htCall ho (hsmall n hn) calls[n]).2.2

end Runs

/-- Numbers that all have the same hash. -/
def numOptions : HtOptions Nat Nat where
  cmp := some fun a b ↦ a - b
  hashfn := some fun _ ↦ 7
  keyToHash := id
  dupvalue := none
  calcsizeK := none
  calcsizeV := none

/-- Three insertions, with which the table grows, a new key and a deletion. -/
theorem htRefines_num :
    let calls : List (HtCall numOptions) := [.insert 1 10, .insert 2 20, .insert 3 30,
      .insert 3 31, .updateKey 1 4, .updateKey 2 3, .delete 2, .find 4]
    (numOptions.Lawful ∧ ∀ n < calls.length, (mapAfter numOptions calls n).keys.card < 2 ^ 30) ∧
      HtRefines numOptions htNew calls := by
  intro calls
  have ho : numOptions.Lawful := by
    intro cmp hcmp a b _
    obtain rfl := Option.some.inj hcmp
    dsimp only
    omega
  have hsmall : ∀ n < calls.length, (mapAfter numOptions calls n).keys.card < 2 ^ 30 := by
    decide
  exact ⟨⟨ho, hsmall⟩, htRefines ho .new hsmall⟩

end SdbStore
