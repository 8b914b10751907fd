import Mathlib.Algebra.GroupWithZero.Nat
import Mathlib.Data.List.TakeWhile
import SdbStore.Ht

/-!
# The integer dictionary

`dict.c` keeps pairs of a key and a value in buckets, and each bucket is an array that ends with an
entry whose key is 0.  No length is stored: the functions walk to that entry, a new entry goes
where it was, and a deletion moves the entries behind and the end with them.

The table is not resized, so `Ht` without its growth is what a dictionary has to be compared with:
`Dict.toHt` reads the entries in front of the end of each bucket.  That the end is there is the
invariant, and without it a function would read past its array, which the model does not give a
result for.
-/

namespace SdbStore

open Lib

variable {U σ : Type}

/-- `dictkv`; `none` is a null pointer. -/
structure Dictkv (U : Type) where
  k : UInt64
  v : UInt64
  u : Option U
deriving DecidableEq

/-- An entry of zeros. -/
def Dictkv.zero : Dictkv U := ⟨0, 0, none⟩

/-- `dict`: a bucket is the memory that its pointer points to.  Of the function that frees values,
`f` tells whether there is one. -/
structure Dict (U : Type) where
  table : List (Option (List (Dictkv U)))
  f : Bool
  size : UInt32

/-- `dict_init`. -/
def dictInit (size : UInt32) (f : Bool) : Dict U where
  table := List.replicate size.toNat none
  f := f
  size := size

/-- `dict_new`. -/
def dictNew (size : UInt32) (f : Bool) : Dict U := dictInit (max size 1) f

/-- `dict_bucket`. -/
def dictBucket (m : Dict U) (k : UInt64) : UInt32 :=
  if m.size > 0 then (k % m.size.toUInt64).toUInt32 else 0

/-- `m->table[bucket]`, if the index is in the table. -/
def Dict.slot (m : Dict U) (bucket : Int32) : Option (Option (List (Dictkv U))) :=
  if 0 ≤ bucket.toInt then m.table[bucket.toInt.toNat]? else none

/-- `m->table[bucket] = arr`. -/
def Dict.setSlot (m : Dict U) (bucket : Int32) (arr : List (Dictkv U)) : Dict U :=
  { m with table := m.table.set bucket.toInt.toNat (some arr) }

/-- The loop `while (kv->k != 0)`, which stops at the key: whether it has found the key, and
where it is.  It does not leave the array. -/
def dictWalk (k : UInt64) : List (Dictkv U) → Nat → Option (Bool × Nat)
  | [], _ => none
  | kv :: arr, i =>
      if kv.k = 0 then some (false, i)
      else if kv.k = k then some (true, i)
      else dictWalk k arr (i + 1)

/-- `dict_set`.  A bucket that has no array gets one of two zero entries, and the call is made
again; `(curln + 2)` is computed as an `int`. -/
def dictSet (m : Dict U) (k v : UInt64) (u : Option U) : Option (Bool × Dict U) :=
  if m.size = 0 ∨ k = 0 then some (false, m)
  else do
    let bucket := (dictBucket m k).toInt32
    let slot ← m.slot bucket
    let tmp := slot.getD [.zero, .zero]
    let (found, curln) ← dictWalk k tmp 0
    if found then do
      let kv ← tmp[curln]?
      some (true, m.setSlot bucket (tmp.set curln { kv with v := v, u := u }))
    else if curln + 2 < 2147483648 then
      some (true, m.setSlot bucket (tmp.take curln ++ [⟨k, v, u⟩, .zero]))
    else none

/-- The loop of `dict_stats`. -/
def dictCount : List (Dictkv U) → Option Nat
  | [] => none
  | kv :: arr => if kv.k = 0 then some 0 else (dictCount arr).map (· + 1)

/-- `dict_stats`. -/
def dictStats (m : Dict U) (nb : UInt32) : Option Nat :=
  if nb.toInt32.toInt < 0 then some (m.size - 1).toNat
  else if nb < m.size then do
    let slot ← m.table[nb.toNat]?
    match slot with
    | none => some 0
    | some arr => dictCount arr
  else some 0

/-- `dict_getr`; `some none` is a null pointer. -/
def dictGetr (m : Dict U) (k : UInt64) : Option (Option (Dictkv U)) :=
  if m.size = 0 then some none
  else do
    let slot ← m.slot (dictBucket m k).toInt32
    match slot with
    | none => some none
    | some arr => do
        let (found, i) ← dictWalk k arr 0
        if found then arr[i]?.map some else some none

/-- `dict_get`. -/
def dictGet (m : Dict U) (k : UInt64) : Option UInt64 :=
  (dictGetr m k).map fun kv ↦ match kv with
    | some kv => kv.v
    | none => 0

/-- `dict_getu`. -/
def dictGetu (m : Dict U) (k : UInt64) : Option (Option U) :=
  (dictGetr m k).map fun kv ↦ match kv with
    | some kv => kv.u
    | none => none

/-- `dict_add`. -/
def dictAdd (m : Dict U) (k v : UInt64) (u : Option U) : Option (Bool × Dict U) := do
  let kv ← dictGetr m k
  if kv.isSome then some (false, m) else dictSet m k v u

/-- The loop of `dict_del` that moves the entries behind `kv` one place down, and the end with
them. -/
def dictShift : List (Dictkv U) → Option (List (Dictkv U))
  | kv :: n :: arr =>
      if n.k ≠ 0 then (dictShift (n :: arr)).map (n :: ·)
      else some ({ kv with k := 0 } :: n :: arr)
  | _ => none

/-- `dict_del`: what it returns, the values that it frees, and the dictionary. -/
def dictDel (m : Dict U) (k : UInt64) : Option (Bool × List (Option U) × Dict U) :=
  let bucket := (dictBucket m k).toInt32
  if k = 0 then some (false, [], m)
  else do
    let slot ← m.slot bucket
    match slot with
    | none => some (false, [], m)
    | some arr => do
        let (found, i) ← dictWalk k arr 0
        if found then do
          let kv ← arr[i]?
          let shifted ← dictShift (arr.drop i)
          some (true, if m.f then [kv.u] else [], m.setSlot bucket (arr.take i ++ shifted))
        else some (false, [], m)

/-- The loop of `dict_foreach` over a bucket: whether it goes on. -/
def dictForeachBucket (cb : σ → Dictkv U → Int × σ) : List (Dictkv U) → σ → Option (Bool × σ)
  | [], _ => none
  | kv :: arr, user =>
      if kv.k = 0 then some (true, user)
      else
        let (res, user) := cb user kv
        if res ≠ 0 then some (false, user) else dictForeachBucket cb arr user

/-- The loop of `dict_foreach` over the buckets. -/
def dictForeachLoop (cb : σ → Dictkv U → Int × σ) :
    List (Option (List (Dictkv U))) → σ → Option σ
  | [], user => some user
  | none :: table, user => dictForeachLoop cb table user
  | some arr :: table, user => do
      let (iterate, user) ← dictForeachBucket cb arr user
      if iterate then dictForeachLoop cb table user else some user

/-- `dict_foreach`. -/
def dictForeach (m : Dict U) (cb : σ → Dictkv U → Int × σ) (user : σ) : Option σ :=
  dictForeachLoop cb m.table user

/-! ## The invariant -/

/-- The entries of a bucket, up to its end. -/
def liveKvs (slot : Option (List (Dictkv U))) : List (Dictkv U) :=
  (slot.getD []).takeWhile fun kv ↦ decide (kv.k ≠ 0)

/-- A dictionary compares keys as they are, and its buckets are chosen by the key itself. -/
def dictOpt : HtOpt UInt64 (Dictkv U) where
  cmp := none
  hashfn := UInt64.toNat
  calcsizeK := fun _ ↦ 0
  key := Dictkv.k
  keyLen := fun _ ↦ 0

theorem dictOpt_lawful : (dictOpt : HtOpt UInt64 (Dictkv U)).Lawful where
  eq_of_cmp _ h := by cases h
  keyLen_eq _ := rfl

theorem isKvEqual_dictOpt (k : UInt64) :
    isKvEqual (dictOpt : HtOpt UInt64 (Dictkv U)) k 0 = fun e ↦ decide (e.k = k) :=
  dictOpt_lawful.isKvEqual_eq k

/-- The hash table that a dictionary stands for. -/
def Dict.toHt (m : Dict U) : Ht (Dictkv U) where
  table := m.table.map liveKvs
  size := m.size.toNat
  count := (m.table.map liveKvs).flatten.length
  primeIdx := 0

/-- The entries of a dictionary. -/
def Dict.entries (m : Dict U) : List (Dictkv U) := m.toHt.toList

/-- The invariant: the entries in front of the ends are those of a hash table, the index of every
bucket is an `int`, and every array has its end. -/
structure Dict.WF (m : Dict U) : Prop where
  ht : m.toHt.WF dictOpt
  size : m.size.toNat ≤ 2 ^ 31
  sentinel : ∀ arr, some arr ∈ m.table → ∃ kv ∈ arr, kv.k = 0

/-- An array with its end splits there. -/
theorem exists_sentinel {arr : List (Dictkv U)} (h : ∃ kv ∈ arr, kv.k = 0) :
    ∃ s rest, arr = liveKvs (some arr) ++ s :: rest ∧ s.k = 0 := by
  induction arr with
  | nil =>
      obtain ⟨kv, hkv, -⟩ := h
      exact absurd hkv List.not_mem_nil
  | cons kv arr ih =>
      by_cases hk : kv.k = 0
      · refine ⟨kv, arr, ?_, hk⟩
        rw [liveKvs, Option.getD_some, List.takeWhile_cons_of_neg (by simpa using hk)]
        rfl
      · obtain ⟨e, he, hek⟩ := h
        have htail : ∃ kv ∈ arr, kv.k = 0 := by
          rcases List.mem_cons.mp he with rfl | he
          · exact absurd hek hk
          · exact ⟨e, he, hek⟩
        obtain ⟨s, rest, harr, hs⟩ := ih htail
        refine ⟨s, rest, ?_, hs⟩
        rw [liveKvs, Option.getD_some, List.takeWhile_cons_of_pos (by simpa using hk),
          List.cons_append]
        exact congrArg (kv :: ·) harr

/-- What stands in front of an end, and has no end in it, is all that is live. -/
theorem liveKvs_append {live rest : List (Dictkv U)} {s : Dictkv U} (hlive : ∀ kv ∈ live, kv.k ≠ 0)
    (hs : s.k = 0) : liveKvs (some (live ++ s :: rest)) = live := by
  rw [liveKvs, Option.getD_some, List.takeWhile_append_of_pos (by simpa using hlive),
    List.takeWhile_cons_of_neg (by simpa using hs), List.append_nil]

theorem liveKvs_ne_zero (slot : Option (List (Dictkv U))) : ∀ kv ∈ liveKvs slot, kv.k ≠ 0 := by
  intro kv hkv
  simpa using List.mem_takeWhile_imp hkv

/-! ## The walk -/

section Walk

variable {live : List (Dictkv U)} {s : Dictkv U} {k : UInt64}

/-- The walk comes to the end if the key is not there. -/
theorem dictWalk_end (rest : List (Dictkv U)) (hlive : ∀ kv ∈ live, kv.k ≠ 0)
    (hk : ∀ kv ∈ live, kv.k ≠ k) (hs : s.k = 0) (i : Nat) :
    dictWalk k (live ++ s :: rest) i = some (false, i + live.length) := by
  induction live generalizing i with
  | nil =>
      rw [List.nil_append, dictWalk, if_pos hs]
      rfl
  | cons kv live ih =>
      rw [List.forall_mem_cons] at hlive hk
      rw [List.cons_append, dictWalk, if_neg hlive.1, if_neg hk.1, ih hlive.2 hk.2,
        List.length_cons, Nat.add_right_comm, Nat.add_assoc]

/-- The walk stops at the key. -/
theorem dictWalk_key {A rest : List (Dictkv U)} {e : Dictkv U} (hA : ∀ kv ∈ A, kv.k ≠ 0)
    (hk : ∀ kv ∈ A, kv.k ≠ k) (he : e.k ≠ 0) (hek : e.k = k) (i : Nat) :
    dictWalk k (A ++ e :: rest) i = some (true, i + A.length) := by
  induction A generalizing i with
  | nil =>
      rw [List.nil_append, dictWalk, if_neg he, if_pos hek]
      rfl
  | cons kv A ih =>
      rw [List.forall_mem_cons] at hA hk
      rw [List.cons_append, dictWalk, if_neg hA.1, if_neg hk.1, ih hA.2 hk.2,
        List.length_cons, Nat.add_right_comm, Nat.add_assoc]

/-- The walk tells whether the key is there, and where it is. -/
theorem dictWalk_cases (k : UInt64) (rest : List (Dictkv U)) (hlive : ∀ kv ∈ live, kv.k ≠ 0)
    (hs : s.k = 0) : ((∀ kv ∈ live, kv.k ≠ k) ∧
      dictWalk k (live ++ s :: rest) 0 = some (false, live.length)) ∨ ∃ A e B, live = A ++ e :: B ∧
        e.k = k ∧ (∀ kv ∈ A, kv.k ≠ k) ∧ dictWalk k (live ++ s :: rest) 0 = some (true, A.length) ∧
        (live ++ s :: rest)[A.length]? = some e := by
  cases hfind : live.find? fun e ↦ decide (e.k = k) with
  | none =>
      have hk : ∀ kv ∈ live, kv.k ≠ k := by
        intro kv hkv
        simpa using List.find?_eq_none.mp hfind kv hkv
      refine .inl ⟨hk, ?_⟩
      rw [dictWalk_end rest hlive hk hs, Nat.zero_add]
  | some e =>
      obtain ⟨hek, A, B, rfl, hA⟩ := List.find?_eq_some_iff_append.mp hfind
      have hk : ∀ kv ∈ A, kv.k ≠ k := fun kv hkv ↦ by simpa using hA kv hkv
      refine .inr ⟨A, e, B, rfl, of_decide_eq_true hek, hk, ?_, ?_⟩
      · rw [List.append_assoc, List.cons_append, dictWalk_key
          (fun kv hkv ↦ hlive kv (List.mem_append_left _ hkv)) hk (hlive e (by simp))
          (of_decide_eq_true hek), Nat.zero_add]
      · rw [List.append_assoc, List.getElem?_append_right (Nat.le_refl _), Nat.sub_self]
        rfl

theorem dictCount_live (rest : List (Dictkv U)) (hlive : ∀ kv ∈ live, kv.k ≠ 0) (hs : s.k = 0) :
    dictCount (live ++ s :: rest) = some live.length := by
  induction live with
  | nil => rw [List.nil_append, dictCount, if_pos hs, List.length_nil]
  | cons kv live ih =>
      rw [List.forall_mem_cons] at hlive
      rw [List.cons_append, dictCount, if_neg hlive.1, ih hlive.2, List.length_cons,
        Option.map_some]

/-- **The shift** moves the end along. -/
theorem dictShift_live (rest : List (Dictkv U)) (hlive : ∀ kv ∈ live, kv.k ≠ 0) (hs : s.k = 0)
    (e : Dictkv U) :
    ∃ s' rest', dictShift (e :: (live ++ s :: rest)) = some (live ++ s' :: rest') ∧ s'.k = 0 := by
  induction live generalizing e with
  | nil =>
      refine ⟨{ e with k := 0 }, s :: rest, ?_, rfl⟩
      rw [List.nil_append, dictShift, if_neg fun hne ↦ hne hs]
      rfl
  | cons kv live ih =>
      rw [List.forall_mem_cons] at hlive
      obtain ⟨s', rest', heq, hs'⟩ := ih hlive.2 kv
      refine ⟨s', rest', ?_, hs'⟩
      rw [List.cons_append, dictShift, if_pos hlive.1, heq]
      rfl

end Walk

/-! ## Specifications -/

theorem toInt_toInt32 {x : UInt32} (hx : x.toNat < 2 ^ 31) : x.toInt32.toInt = x.toNat :=
  BitVec.toInt_eq_toNat_of_lt (x := x.toBitVec) (by
    rw [UInt32.toNat_toBitVec]
    omega)

theorem toNat_dictBucket {m : Dict U} (hpos : 0 < m.size.toNat) (k : UInt64) :
    (dictBucket m k).toNat = k.toNat % m.size.toNat := by
  have hsize : m.size > 0 := UInt32.lt_iff_toNat_lt.mpr hpos
  have hlt : k.toNat % m.size.toNat < 2 ^ 32 := (Nat.mod_lt _ hpos).trans (UInt32.toNat_lt m.size)
  rw [dictBucket, if_pos hsize, UInt64.toNat_toUInt32, UInt64.toNat_mod, UInt32.toNat_toUInt64]
  exact Nat.mod_eq_of_lt hlt

section Spec

variable {m : Dict U} (hw : m.WF)
include hw

/-- The bucket of a key. -/
theorem Dict.WF.slot (k : UInt64) : ∃ slot, m.slot (dictBucket m k).toInt32 = some slot ∧
    m.table[(dictBucket m k).toNat]? = some slot ∧
    (dictBucket m k).toInt32.toInt.toNat = bucketfn dictOpt m.toHt k ∧
    m.toHt.table.getD (bucketfn dictOpt m.toHt k) [] = liveKvs slot := by
  have hbucket : (dictBucket m k).toNat = bucketfn dictOpt m.toHt k := toNat_dictBucket hw.ht.pos k
  have hlt : bucketfn dictOpt m.toHt k < m.table.length := by
    have hlt := hw.ht.bucketfn_lt k
    rw [Dict.toHt, List.length_map] at hlt
    exact hlt
  have hsmall : (dictBucket m k).toNat < 2 ^ 31 := by
    rw [hbucket]
    exact (Nat.mod_lt _ hw.ht.pos).trans_le hw.size
  have hint := toInt_toInt32 hsmall
  have htoNat : (dictBucket m k).toInt32.toInt.toNat = bucketfn dictOpt m.toHt k := by
    rw [hint, Int.toNat_natCast, hbucket]
  refine ⟨m.table[bucketfn dictOpt m.toHt k], ?_, ?_, htoNat, ?_⟩
  · rw [Dict.slot, hint, if_pos (Int.natCast_nonneg _), Int.toNat_natCast, hbucket]
    exact List.getElem?_eq_getElem hlt
  · rw [hbucket]
    exact List.getElem?_eq_getElem hlt
  · have hmap : bucketfn dictOpt m.toHt k < (m.table.map liveKvs).length := by
      rw [List.length_map]
      exact hlt
    exact (List.getD_eq_getElem _ _ hmap).trans (List.getElem_map _)

theorem Dict.WF.size_ne : m.size ≠ 0 := by
  intro h
  have hpos : 0 < m.size.toNat := hw.ht.pos
  rw [h] at hpos
  exact absurd hpos (by decide)

/-- The array of a bucket has its end, also one that has only just been made. -/
theorem Dict.WF.array {i : Nat} {slot : Option (List (Dictkv U))} (hi : m.table[i]? = some slot) :
    ∃ s rest, slot.getD [.zero, .zero] = liveKvs slot ++ s :: rest ∧ s.k = 0 := by
  cases slot with
  | none => exact ⟨.zero, [.zero], rfl, rfl⟩
  | some arr => exact exists_sentinel (hw.sentinel arr (List.mem_of_getElem? hi))

/-- **`dict_getr`** finds the entry of the key. -/
theorem dictGetr_eq (k : UInt64) : dictGetr m k = some (htFindKv dictOpt m.toHt k) := by
  obtain ⟨slot, hslot, hi, -, hlive⟩ := hw.slot k
  obtain ⟨s, rest, harr, hs⟩ := hw.array hi
  have hne := liveKvs_ne_zero slot
  rw [dictGetr, if_neg hw.size_ne, hslot, htFindKv, hlive,
    show dictOpt.calcsizeK k = 0 from rfl, isKvEqual_dictOpt]
  cases slot with
  | none => rfl
  | some arr =>
      rw [Option.getD_some] at harr
      rcases dictWalk_cases k rest hne hs with
        ⟨hk, hwalk⟩ | ⟨A, e, B, hsplit, hek, hA, hwalk, hget⟩
      · have hnone : (liveKvs (some arr)).find? (fun e ↦ decide (e.k = k)) = none :=
          List.find?_eq_none.mpr fun kv hkv ↦ by simpa using hk kv hkv
        rw [← harr] at hwalk
        simp only [Option.bind_eq_bind, Option.bind_some, hwalk, Bool.false_eq_true, if_false,
          hnone]
      · have hsome : (liveKvs (some arr)).find? (fun e ↦ decide (e.k = k)) = some e := by
          refine List.find?_eq_some_iff_append.mpr
            ⟨decide_eq_true hek, A, B, hsplit, fun kv hkv ↦ ?_⟩
          simpa using hA kv hkv
        rw [← harr] at hwalk hget
        simp only [Option.bind_eq_bind, Option.bind_some, hwalk, if_true, hget, hsome,
          Option.map_some]

/-- The array of a bucket is replaced: the dictionary stands for the table with this bucket. -/
theorem Dict.WF.setSlot (k : UInt64) {h : Ht (Dictkv U)} {live : List (Dictkv U)} {s : Dictkv U}
    (rest : List (Dictkv U)) (hlive : ∀ kv ∈ live, kv.k ≠ 0) (hs : s.k = 0) (hwh : h.WF dictOpt)
    (htable : h.table = m.toHt.table.set (bucketfn dictOpt m.toHt k) live)
    (hsize : h.size = m.size.toNat) :
    (m.setSlot (dictBucket m k).toInt32 (live ++ s :: rest)).WF ∧
      (m.setSlot (dictBucket m k).toInt32 (live ++ s :: rest)).entries = h.toList := by
  obtain ⟨slot, -, hi, htoNat, -⟩ := hw.slot k
  have hmap : (m.setSlot (dictBucket m k).toInt32 (live ++ s :: rest)).table.map liveKvs =
      h.table := by
    rw [Dict.setSlot, List.map_set, liveKvs_append hlive hs, htoNat]
    exact htable.symm
  have htoHt : (m.setSlot (dictBucket m k).toInt32 (live ++ s :: rest)).toHt =
      { h with primeIdx := 0 } := by
    rw [Dict.toHt, hmap, hwh.count, hsize]
    rfl
  refine ⟨⟨?_, hw.size, fun arr harr ↦ ?_⟩, ?_⟩
  · rw [htoHt]
    exact ⟨hwh.pos, hwh.length, hwh.home, hwh.distinct, hwh.count⟩
  · rcases List.mem_or_eq_of_mem_set harr with harr | harr
    · exact hw.sentinel arr harr
    · obtain rfl := Option.some.inj harr
      exact ⟨s, by simp, hs⟩
  · rw [Dict.entries, htoHt]
    rfl

/-- `dict_stats` counts the entries of a bucket. -/
theorem dictStats_eq {nb : UInt32} {slot : Option (List (Dictkv U))}
    (hi : m.table[nb.toNat]? = some slot) : dictStats m nb = some (liveKvs slot).length := by
  have hlt : nb.toNat < m.size.toNat := by
    have hlength : (m.table.map liveKvs).length = m.size.toNat := hw.ht.length
    rw [List.length_map] at hlength
    rw [← hlength]
    exact (List.getElem?_eq_some_iff.mp hi).1
  have hint := toInt_toInt32 (hlt.trans_le hw.size)
  have hneg : ¬ nb.toInt32.toInt < 0 := by omega
  obtain ⟨s, rest, harr, hs⟩ := hw.array hi
  rw [dictStats, if_neg hneg, if_pos (UInt32.lt_iff_toNat_lt.mpr hlt), hi]
  cases slot with
  | none => rfl
  | some arr =>
      rw [Option.getD_some] at harr
      simp only [Option.bind_eq_bind, Option.bind_some]
      rw [harr, dictCount_live _ (liveKvs_ne_zero _) hs, ← harr]

/-- The bucket of the key has the key, or has room: `int` bounds the length of an array. -/
def Dict.Room (m : Dict U) (k : UInt64) : Prop :=
  (∃ kv ∈ m.entries, kv.k = k) ∨ ∀ n ∈ dictStats m (dictBucket m k), n + 2 < 2147483648

instance Dict.decidableRoom (m : Dict U) (k : UInt64) : Decidable (m.Room k) :=
  inferInstanceAs (Decidable (_ ∨ _))

/-- **`dict_set`** gives the key its value. -/
theorem dictSet_spec {k : UInt64} (hk0 : k ≠ 0) (v : UInt64) (u : Option U) (hroom : m.Room k) :
    ∃ m', dictSet m k v u = some (true, m') ∧ m'.WF ∧ m'.f = m.f ∧
      m'.entries.Perm (⟨k, v, u⟩ :: Keyed.erase Dictkv.k m.entries k) := by
  obtain ⟨h', hres, hw', hperm⟩ := reserveKv_update dictOpt_lawful hw.ht ⟨k, v, u⟩
  obtain ⟨slot, hslot, hi, htoNat, hlive⟩ := hw.slot k
  obtain ⟨s, rest, harr, hs⟩ := hw.array hi
  have hne := liveKvs_ne_zero slot
  have heq : isKvEqual dictOpt (dictOpt.key (⟨k, v, u⟩ : Dictkv U))
      (dictOpt.keyLen (⟨k, v, u⟩ : Dictkv U)) =
      fun e : Dictkv U ↦ decide (e.k = k) := isKvEqual_dictOpt k
  have hbucket : bucketfn dictOpt m.toHt (dictOpt.key ⟨k, v, u⟩) = bucketfn dictOpt m.toHt k := rfl
  rw [dictSet, if_neg fun h ↦ h.elim hw.size_ne hk0]
  simp only [hslot, Option.bind_eq_bind, Option.bind_some]
  rw [reserveKv] at hres
  simp only [heq, hbucket, hlive] at hres
  rcases dictWalk_cases k rest hne hs with
    ⟨hk, hwalk⟩ | ⟨A, e, B, hsplit, hek, hA, hwalk, hget⟩
  · -- the entry goes to the place of the end
    have hany : ¬ (liveKvs slot).any (fun e ↦ decide (e.k = k)) = true := by
      rw [List.any_eq_true]
      rintro ⟨kv, hkv, htrue⟩
      exact hk kv hkv (of_decide_eq_true htrue)
    rw [if_neg hany] at hres
    obtain rfl := Option.some.inj hres
    have hlen : (liveKvs slot).length + 2 < 2147483648 := by
      rcases hroom with ⟨kv, hkv, hkey⟩ | hroom
      · have hex := (any_bucket_iff dictOpt_lawful hw.ht k).mpr ⟨kv, hkv, hkey⟩
        rw [hlive, show dictOpt.calcsizeK k = 0 from rfl, isKvEqual_dictOpt] at hex
        exact absurd hex hany
      · exact hroom _ (dictStats_eq hw hi)
    have hne' : ∀ kv ∈ liveKvs slot ++ [⟨k, v, u⟩], kv.k ≠ 0 := by
      rw [List.forall_mem_append, List.forall_mem_singleton]
      exact ⟨hne, hk0⟩
    have hzero : (Dictkv.zero : Dictkv U).k = 0 := rfl
    have hstep := hw.setSlot k [] hne' hzero hw' rfl rfl
    rw [List.append_assoc, List.singleton_append] at hstep
    rw [← harr] at hwalk
    simp only [hwalk, Option.bind_some, Bool.false_eq_true, if_false, hlen, if_true]
    refine ⟨_, rfl, ?_⟩
    rw [harr, List.take_left]
    refine ⟨hstep.1, rfl, ?_⟩
    rw [hstep.2]
    exact hperm
  · -- the entry is there
    have hany : (liveKvs slot).any (fun e ↦ decide (e.k = k)) = true := by
      rw [hsplit]
      exact List.any_eq_true.mpr ⟨e, by simp, decide_eq_true hek⟩
    have hover := overwrite_append (p := fun e : Dictkv U ↦ decide (e.k = k)) (B := B)
      (fun kv hkv ↦ decide_eq_false (hA kv hkv)) (decide_eq_true hek) ⟨k, v, u⟩
    rw [if_pos hany, if_pos trivial, hsplit, hover] at hres
    obtain rfl := Option.some.inj hres
    rw [← harr] at hwalk hget
    simp only [hwalk, Option.bind_some, if_true, hget]
    have hset : (A ++ e :: B ++ s :: rest).set A.length { e with v := v, u := u } =
        A ++ ⟨k, v, u⟩ :: B ++ s :: rest := by
      rw [List.append_assoc, List.set_append_right _ _ (Nat.le_refl _), Nat.sub_self,
        List.cons_append, List.set_cons_zero, hek, List.append_assoc, List.cons_append]
    have hne' : ∀ kv ∈ A ++ ⟨k, v, u⟩ :: B, kv.k ≠ 0 := by
      rw [hsplit] at hne
      rw [List.forall_mem_append, List.forall_mem_cons] at hne ⊢
      exact ⟨hne.1, hk0, hne.2.2⟩
    have hstep := hw.setSlot k rest hne' hs hw' rfl rfl
    refine ⟨_, rfl, ?_⟩
    rw [harr, hsplit, hset]
    refine ⟨hstep.1, rfl, ?_⟩
    rw [hstep.2]
    exact hperm

/-- Where there is no room, `dict_set` computes a length that is no `int`. -/
theorem dictSet_full {k : UInt64} (hk0 : k ≠ 0) (v : UInt64) (u : Option U) (hroom : ¬ m.Room k) :
    dictSet m k v u = none := by
  obtain ⟨slot, hslot, hi, -, hlive⟩ := hw.slot k
  obtain ⟨s, rest, harr, hs⟩ := hw.array hi
  rw [Dict.Room, not_or] at hroom
  obtain ⟨habsent, hfull⟩ := hroom
  have hk : ∀ kv ∈ liveKvs slot, kv.k ≠ k := by
    intro kv hkv hkey
    refine habsent ⟨kv, ?_, hkey⟩
    exact List.mem_flatten.mpr ⟨_, List.mem_map_of_mem (List.mem_of_getElem? hi), hkv⟩
  have hlen : ¬ (liveKvs slot).length + 2 < 2147483648 := by
    refine fun hlt ↦ hfull fun n hn ↦ ?_
    rw [dictStats_eq hw hi] at hn
    obtain rfl := Option.some.inj hn
    exact hlt
  have hwalk := dictWalk_end rest (liveKvs_ne_zero slot) hk hs 0
  rw [← harr, Nat.zero_add] at hwalk
  rw [dictSet, if_neg fun h ↦ h.elim hw.size_ne hk0]
  simp only [hslot, Option.bind_eq_bind, Option.bind_some, hwalk, Bool.false_eq_true, if_false,
    hlen]

/-- **`dict_del`** takes the entry of the key out. -/
theorem dictDel_spec {k : UInt64} (hk0 : k ≠ 0) :
    (Keyed.lookup Dictkv.k m.entries k = none ∧ dictDel m k = some (false, [], m)) ∨
      ∃ e m', Keyed.lookup Dictkv.k m.entries k = some e ∧
        dictDel m k = some (true, if m.f then [e.u] else [], m') ∧ m'.WF ∧ m'.f = m.f ∧
        m'.entries = Keyed.erase Dictkv.k m.entries k := by
  obtain ⟨slot, hslot, hi, htoNat, hlive⟩ := hw.slot k
  have hne := liveKvs_ne_zero slot
  have hlookup := htFindKv_eq dictOpt_lawful hw.ht k
  rw [htFindKv, hlive, show dictOpt.calcsizeK k = 0 from rfl, isKvEqual_dictOpt] at hlookup
  have hlookup' : Keyed.lookup Dictkv.k m.entries k =
      (liveKvs slot).find? fun e ↦ decide (e.k = k) := hlookup.symm
  rw [hlookup', dictDel]
  simp only [hk0, if_false, hslot, Option.bind_eq_bind, Option.bind_some]
  cases slot with
  | none => exact .inl ⟨rfl, rfl⟩
  | some arr =>
      obtain ⟨s, rest, harr, hs⟩ := hw.array hi
      rw [Option.getD_some] at harr
      rcases dictWalk_cases k rest hne hs with
        ⟨hk, hwalk⟩ | ⟨A, e, B, hsplit, hek, hA, hwalk, hget⟩
      · rw [← harr] at hwalk
        simp only [hwalk, Option.bind_some, Bool.false_eq_true, if_false]
        exact .inl ⟨List.find?_eq_none.mpr fun kv hkv ↦ by simpa using hk kv hkv, trivial⟩
      · rw [← harr] at hwalk hget
        rw [hsplit, List.forall_mem_append, List.forall_mem_cons] at hne
        -- the shift leaves the entries behind the key, and an end
        obtain ⟨s', rest', hshift, hs'⟩ := dictShift_live rest hne.2.2 hs e
        have hdrop : arr.drop A.length = e :: (B ++ s :: rest) := by
          rw [harr, hsplit, List.append_assoc, List.drop_left]
          rfl
        have htake : arr.take A.length = A := by
          rw [harr, hsplit, List.append_assoc, List.take_left]
        have hbucket : m.toHt.table[bucketfn dictOpt m.toHt k]? = some (A ++ e :: B) := by
          rw [← hsplit, ← hlive, List.getD_eq_getElem _ _ (hw.ht.bucketfn_lt k)]
          exact List.getElem?_eq_getElem (hw.ht.bucketfn_lt k)
        have hdelete := htDelete_bucket dictOpt_lawful hw.ht hbucket
        have hkey : dictOpt.key e = k := hek
        obtain ⟨hwdel, hdel⟩ := htDelete_spec dictOpt_lawful hw.ht k
        rw [hkey] at hdelete
        rw [hdelete] at hwdel hdel
        have hne' : ∀ kv ∈ A ++ B, kv.k ≠ 0 := List.forall_mem_append.mpr ⟨hne.1, hne.2.2⟩
        have hstep := hw.setSlot k rest' hne' hs' hwdel rfl rfl
        simp only [hwalk, Option.bind_some, if_true, hget, hdrop, hshift, htake]
        refine .inr ⟨e, _, ?_, rfl, ?_, rfl, ?_⟩
        · refine List.find?_eq_some_iff_append.mpr
            ⟨decide_eq_true hek, A, B, hsplit, fun kv hkv ↦ ?_⟩
          simpa using hA kv hkv
        · rw [← List.append_assoc]
          exact hstep.1
        · rw [← List.append_assoc, hstep.2]
          exact hdel

end Spec

/-! ## The loop over all entries -/

section Foreach

variable {cb : σ → Dictkv U → Int × σ} (hcb : ∀ user kv, (cb user kv).1 = 0)
include hcb

theorem dictForeachBucket_live {live : List (Dictkv U)} {s : Dictkv U}
    (hlive : ∀ kv ∈ live, kv.k ≠ 0) (rest : List (Dictkv U)) (hs : s.k = 0) (user : σ) :
    dictForeachBucket cb (live ++ s :: rest) user =
      some (true, live.foldl (fun user kv ↦ (cb user kv).2) user) := by
  induction live generalizing user with
  | nil =>
      rw [List.nil_append, dictForeachBucket, if_pos hs]
      rfl
  | cons kv live ih =>
      rw [List.forall_mem_cons] at hlive
      rw [List.cons_append, dictForeachBucket, if_neg hlive.1]
      dsimp only
      rw [if_neg fun hne ↦ hne (hcb user kv), ih hlive.2]
      rfl

theorem dictForeachLoop_live {table : List (Option (List (Dictkv U)))}
    (hend : ∀ arr, some arr ∈ table → ∃ kv ∈ arr, kv.k = 0) (user : σ) :
    dictForeachLoop cb table user =
      some ((table.map liveKvs).flatten.foldl (fun user kv ↦ (cb user kv).2) user) := by
  induction table generalizing user with
  | nil => rfl
  | cons slot table ih =>
      have htail := ih fun arr harr ↦ hend arr (List.mem_cons_of_mem slot harr)
      rw [List.map_cons, List.flatten_cons, List.foldl_append]
      cases slot with
      | none => exact htail user
      | some arr =>
          obtain ⟨s, rest, harr, hs⟩ := exists_sentinel (hend arr List.mem_cons_self)
          have hbucket := dictForeachBucket_live hcb
            (liveKvs_ne_zero (some arr)) rest hs user
          rw [← harr] at hbucket
          rw [dictForeachLoop, hbucket]
          exact htail _

/-- **`dict_foreach`** calls its callback for the entries one after another. -/
theorem dictForeach_eq {m : Dict U} (hw : m.WF) (user : σ) :
    dictForeach m cb user = some (m.entries.foldl (fun user kv ↦ (cb user kv).2) user) :=
  dictForeachLoop_live hcb hw.sentinel user

end Foreach

end SdbStore
