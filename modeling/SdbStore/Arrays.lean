import Mathlib.Data.List.Sort
import SdbStore.Persist

/-!
# Strings and arrays

`sdb_concat`, and the functions of `array.c` that build a new value from the old one.
An array is a string with its elements between commas.  The functions copy from the
pointer that `sdb_const_get_len` hands out, as many bytes as it reports: for a value in
memory that is the string, and for a value in the file it is the string with its NUL.

A database that has `k=v` in memory and one that has it in its file should not differ.
They do: `not_transparent`.
-/

namespace SdbStore

open Lib

/-- `SDB_RS`. -/
def sdbRs : UInt8 := 44

/-- The memory behind the pointer that `sdb_const_get_len` returns for the string `p`. -/
def getBlock (s : Sdb) (key p : CStr) : Bytes :=
  match sdbHtFindKvp s key with
  | some _ => p.bytesZ
  | none => (s.db.map.getD []).drop (cdbLookup s.db key).2.dpos

/-- `sdb_concat`. -/
def sdbConcat (s : Sdb) (w : World) (key value : CStr) (cas : Nat) : Bool × Sdb × World :=
  if key = CStr.empty ∨ value = CStr.empty then (false, s, w) else
    let r := sdbConstGetLen s w key
    match r.1.value with
    | none => sdbSet r.2.1 r.2.2 key value cas
    | some p =>
        let o := (getBlock s key p).take r.1.vlen ++ value.bytesZ
        sdbSetOwned r.2.1 r.2.2 key (CStr.ofBytes o) cas

/-! ## `array.c` -/

/-- `Aindexof`: the offset of an element in a string. -/
def aindexof (str : Bytes) : Nat → Option Nat
  | 0 => some 0
  | idx + 1 =>
      match str.idxOf? sdbRs with
      | none => none
      | some n => (aindexof (str.drop (n + 1)) idx).map (n + 1 + ·)

/-- `sdb_alen`. -/
def sdbAlen (str : CStr) : Nat := if str = CStr.empty then 0 else str.val.count sdbRs + 1

/-- `sdb_array_append`. -/
def sdbArrayAppend (s : Sdb) (w : World) (key val : CStr) (cas : Nat) : Bool × Sdb × World :=
  let r := sdbConstGetLen s w key
  let kas := r.1.cas
  if cas ≠ 0 ∧ cas ≠ kas then (false, r.2) else
    match r.1.value with
    | some str =>
        if str ≠ CStr.empty ∧ r.1.vlen > 0 then
          let newval := (getBlock s key str).take r.1.vlen ++ sdbRs :: val.bytesZ
          (true, (sdbSetOwned r.2.1 r.2.2 key (CStr.ofBytes newval) kas).2)
        else (true, (sdbSet r.2.1 r.2.2 key val kas).2)
    | none => (true, (sdbSet r.2.1 r.2.2 key val kas).2)

/-- `sdb_array_prepend`. -/
def sdbArrayPrepend (s : Sdb) (w : World) (key val : CStr) (cas : Nat) : Bool × Sdb × World :=
  let r := sdbConstGetLen s w key
  let kas := r.1.cas
  if cas ≠ 0 ∧ cas ≠ kas then (false, r.2) else
    match r.1.value with
    | some str =>
        if str ≠ CStr.empty then
          let newval := val.val ++ sdbRs :: ((getBlock s key str).take r.1.vlen ++ [0])
          (true, (sdbSetOwned r.2.1 r.2.2 key (CStr.ofBytes newval) kas).2)
        else (true, (sdbSet r.2.1 r.2.2 key val kas).2)
    | none => (true, (sdbSet r.2.1 r.2.2 key val kas).2)

/-- `sdb_array_insert` at the end, for the index -1.  Unlike the others it measures the
string again. -/
def sdbArrayInsertLast (s : Sdb) (w : World) (key val : CStr) (cas : Nat) :
    Bool × Sdb × World :=
  let r := sdbConstGetLen s w key
  match r.1.value with
  | none => sdbSet r.2.1 r.2.2 key val cas
  | some str =>
      if str = CStr.empty then sdbSet r.2.1 r.2.2 key val cas
      else sdbSetOwned r.2.1 r.2.2 key (CStr.ofBytes (str.val ++ sdbRs :: val.val)) cas

/-- `sdb_array_set`. -/
def sdbArraySet (s : Sdb) (w : World) (key : CStr) (idx : Int) (val : CStr) (cas : Nat) :
    Bool × Sdb × World :=
  let r := sdbConstGetLen s w key
  match r.1.value with
  | none => sdbSet r.2.1 r.2.2 key val cas
  | some str =>
      if str = CStr.empty then sdbSet r.2.1 r.2.2 key val cas
      else
        let len := sdbAlen str
        if idx < 0 ∨ idx = len then sdbArrayInsertLast r.2.1 r.2.2 key val cas
        else if idx > len then
          let newkey := List.replicate (idx - len).toNat sdbRs ++ val.val
          sdbArrayInsertLast r.2.1 r.2.2 key (CStr.ofBytes newkey) cas
        else
          match aindexof str.val idx.toNat with
          | none => (false, r.2)
          | some diff =>
              let nstr :=
                match aindexof str.val (idx.toNat + 1) with
                | some usr =>
                    str.val.take diff ++ val.val ++
                      sdbRs :: ((getBlock s key str).drop usr).take (r.1.vlen + 1 - usr)
                | none => str.val.take diff ++ val.val
              sdbSet r.2.1 r.2.2 key (CStr.ofBytes nstr) cas

/-- `sdb_array_insert`. -/
def sdbArrayInsert (s : Sdb) (w : World) (key : CStr) (idx : Int) (val : CStr) (cas : Nat) :
    Bool × Sdb × World :=
  if idx = -1 then sdbArrayInsertLast s w key val cas else
    let r := sdbConstGetLen s w key
    match r.1.value with
    | none => sdbSet r.2.1 r.2.2 key val cas
    | some str =>
        if str = CStr.empty then sdbSet r.2.1 r.2.2 key val cas
        else if idx = 0 then
          sdbSetOwned r.2.1 r.2.2 key (CStr.ofBytes (val.val ++ sdbRs :: str.val)) cas
        else
          match if idx < 0 then none else aindexof str.val idx.toNat with
          | some off =>
              let x := str.val.take (off - 1) ++ sdbRs :: (val.val ++ sdbRs :: str.val.drop off)
              sdbSetOwned r.2.1 r.2.2 key (CStr.ofBytes x) cas
          | none => sdbArraySet r.2.1 r.2.2 key idx val cas

/-- The end of a string or of an element. -/
def aEnd (c : UInt8) : Bool := c == 0 || c == sdbRs

/-- `astrcmp`: compare two elements; `char` is signed. -/
def astrcmp : Bytes → Bytes → Int
  | [], [] => 0
  | [], b :: _ => if aEnd b then 0 else -1
  | a :: _, [] => if aEnd a then 0 else 1
  | a :: as, b :: bs =>
      if aEnd a then if aEnd b then 0 else -1
      else if aEnd b then 1
      else if a ≠ b then if a.toInt8 > b.toInt8 then 1 else -1
      else astrcmp as bs

/-- `sdb_fmt_array`: the elements of a string. -/
def sdbFmtArray (list : CStr) : List Bytes := list.val.splitOn sdbRs

/-- The inner loop of `sdb_array_add_sorted`: step over the elements that are not greater
than `val`.  The fuel is a bound on the number of elements. -/
def addSortedSkip (block val : Bytes) (e : Nat) : Nat → Nat → Nat
  | 0, p => p
  | fuel + 1, p =>
      if p < e then
        if astrcmp val (block.drop p) < 0 then p
        else
          match (CStr.ofBytes (block.drop p)).val.idxOf? sdbRs with
          | some n => addSortedSkip block val e fuel (p + n + 1)
          | none => e
      else p

/-- One round of the outer loop; the state is `str_p`, `str_lp` and the bytes of `nstr`. -/
def addSortedStep (block : Bytes) (e : Nat) (st : Nat × Nat × Bytes) (val : Bytes) :
    Nat × Nat × Bytes :=
  let p := addSortedSkip block val e (e + 1) st.1
  let lp := st.2.1
  let out := st.2.2 ++ slice block lp (p - lp)
  let out := if p = e ∧ lp ≠ e then out ++ [sdbRs] else out
  (p, p, out ++ val ++ [sdbRs])

/-- The string that `sdb_array_add_sorted` builds. -/
def addSortedStr (block : Bytes) (e : Nat) (vals : List Bytes) : CStr :=
  let st := vals.foldl (addSortedStep block e) (0, 0, [])
  CStr.ofBytes
    (if st.2.1 < e then st.2.2 ++ slice block st.2.1 (e - st.2.1) else st.2.2.dropLast)

/-- `sdb_array_add_sorted`. -/
def sdbArrayAddSorted (s : Sdb) (w : World) (key val : CStr) (cas : Nat) : Bool × Sdb × World :=
  let r := sdbConstGetLen s w key
  if val = CStr.empty then (false, r.2) else
    let vals := (sdbFmtArray val).insertionSort fun a b ↦ astrcmp a b ≤ 0
    let nstr :=
      match r.1.value with
      | none => addSortedStr [0] 0 vals
      | some str =>
          if str = CStr.empty then addSortedStr [0] 0 vals
          else addSortedStr (getBlock s key str) r.1.vlen vals
    sdbSetOwned r.2.1 r.2.2 key nstr cas

/-! ## The same value in two places -/

/-- The calls that build a new value from the old one. -/
inductive ArrayOp where
  | concat (value : CStr) (cas : Nat)
  | append (val : CStr) (cas : Nat)
  | prepend (val : CStr) (cas : Nat)
  | insert (idx : Int) (val : CStr) (cas : Nat)
  | set (idx : Int) (val : CStr) (cas : Nat)
  | addSorted (val : CStr) (cas : Nat)
deriving DecidableEq

/-- One call. -/
def ArrayOp.run (op : ArrayOp) (key : CStr) (st : Sdb × World) : Bool × Sdb × World :=
  match op with
  | .concat value cas => sdbConcat st.1 st.2 key value cas
  | .append val cas => sdbArrayAppend st.1 st.2 key val cas
  | .prepend val cas => sdbArrayPrepend st.1 st.2 key val cas
  | .insert idx val cas => sdbArrayInsert st.1 st.2 key idx val cas
  | .set idx val cas => sdbArraySet st.1 st.2 key idx val cas
  | .addSorted val cas => sdbArrayAddSorted st.1 st.2 key val cas

/-- The value of the key after a call. -/
def ArrayOp.after (op : ArrayOp) (key : CStr) (st : Sdb × World) : Option CStr :=
  sdbGet (op.run key st).2.1 (op.run key st).2.2 key

/-- A database without a file that has `k=v` in memory. -/
structure InMemory (s : Sdb) (k v : CStr) : Prop where
  sound : s.Sound
  bare : s.Bare
  find : ∃ kv, sdbHtFindKvp s k = some kv ∧ kv.value = some v

/-- A database with nothing in memory over a file that has `k=v`. -/
structure OnDisk (s : Sdb) (k v : CStr) : Prop where
  sound : s.Sound
  empty : s.ht.toList = []
  holds : ∃ recs, s.Holds recs ∧ Keyed.lookup Prod.fst recs k = some (k, v)

/-- The two databases report the same value and length, and have the same value after
any call. -/
def Transparent (mem disk : Sdb × World) (k : CStr) : Prop :=
  (sdbConstGetLen mem.1 mem.2 k).1.value = (sdbConstGetLen disk.1 disk.2 k).1.value ∧
  (sdbConstGetLen mem.1 mem.2 k).1.vlen = (sdbConstGetLen disk.1 disk.2 k).1.vlen ∧
  ∀ op : ArrayOp, op.after k mem = op.after k disk

section Get

variable {s : Sdb} {k v : CStr}

theorem InMemory.get (h : InMemory s k v) (hv : v ≠ CStr.empty) (w : World) :
    ∃ kv, sdbHtFindKvp s k = some kv ∧ kv.value = some v ∧
      sdbConstGetLen s w k = (⟨some v, v.length, kv.cas⟩, s, w) := by
  obtain ⟨kv, hf, hkv⟩ := h.find
  refine ⟨kv, hf, hkv, ?_⟩
  rw [sdbConstGetLen_eq h.sound.noExpire, hf]
  simp only [entryGet, hkv, if_neg hv]

theorem OnDisk.find (h : OnDisk s k v) (k' : CStr) : sdbHtFindKvp s k' = none := by
  rw [sdbHtFindKvp_eq h.sound.wf, h.empty]
  rfl

theorem OnDisk.get (h : OnDisk s k v) (w : World) :
    sdbConstGetLen s w k = (⟨some v, v.length + 1, 0⟩, s, w) := by
  obtain ⟨recs, hholds, hlook⟩ := h.holds
  rw [sdbConstGetLen_eq h.sound.noExpire, h.find, sdbGetDisk_holds hholds, hlook]
  rfl

end Get

/-! ## What each call makes of the value -/

/-- The value of the key after `x` is stored in the place of `v`. -/
def stored (k v x : CStr) : Option CStr :=
  if k.length ≥ 0xff ∨ x.length ≥ 0xffffff then some v else readAs x

/-- The value `v` of the key is found, with `n` bytes behind it, and can be replaced. -/
structure Located (s : Sdb) (w : World) (k v : CStr) (n : Nat) : Prop where
  get : ∃ c, sdbConstGetLen s w k = (⟨some v, n, c⟩, s, w) ∧
    ∀ cas x owned, cas = 0 ∨ cas = c →
      sdbGet (sdbSetInternal s w k x owned cas).2.1 (sdbSetInternal s w k x owned cas).2.2 k =
        stored k v x
  block : ∃ rest, getBlock s k v = v.bytesZ ++ rest
  ne : v ≠ CStr.empty

theorem entryGet_of_value {kv : SdbKv} {x : CStr} (h : kv.value = some x) (d : Got) :
    (entryGet (some kv) d).value = readAs x := by
  simp only [entryGet, h, readAs]
  split
  · rfl
  · rfl

theorem InMemory.located {s : Sdb} {k v : CStr} (h : InMemory s k v) (hv : v ≠ CStr.empty)
    (w : World) : Located s w k v v.length := by
  obtain ⟨kv, hf, hkv, hget⟩ := h.get hv w
  refine ⟨⟨kv.cas, hget, fun cas x owned hcas ↦ ?_⟩, ⟨[], ?_⟩, hv⟩
  · have hspec := sdbSetInternal_spec h.sound.wf w k x owned cas
    rw [sdbGet_eq (h.sound.setInternal w k x owned cas).noExpire, hspec.find, if_pos rfl, hf,
      cdbLookup_bare h.bare, stored]
    unfold setEntry
    split
    · rw [entryGet_of_value hkv, readAs, if_neg hv]
    · have hno : ¬ (cas ≠ 0 ∧ kv.cas ≠ cas) := fun hc ↦ hcas.elim hc.1 fun he ↦ hc.2 he.symm
      simp only [hkv]
      rw [if_pos (by decide), if_neg hno]
      split
      · next hsame => rw [entryGet_of_value hkv, hsame]
      · exact entryGet_of_value rfl _
  · rw [getBlock, hf, List.append_nil]

theorem OnDisk.located {s : Sdb} {k v : CStr} (h : OnDisk s k v) (hv : v ≠ CStr.empty)
    (w : World) : Located s w k v (v.length + 1) := by
  obtain ⟨recs, hholds, hlook⟩ := h.holds
  refine ⟨⟨0, h.get w, fun cas x owned _ ↦ ?_⟩, ?_, hv⟩
  · have hspec := sdbSetInternal_spec h.sound.wf w k x owned cas
    rw [sdbGet_eq (h.sound.setInternal w k x owned cas).noExpire, hspec.find, if_pos rfl, h.find,
      hspec.disk, sdbGetDisk_holds hholds, hlook, stored, setEntry]
    split
    · rfl
    · by_cases hx : x = CStr.empty
      · subst hx
        cases owned with
        | true => rfl
        | false => rfl
      · refine entryGet_of_value ?_ _
        simp [newEntry, hx]
  · have hfind := cdbLookup_holds hholds k
    rw [hlook] at hfind
    refine ⟨((kvImage recs).drop (cdbLookup s.db k).2.dpos).drop (v.length + 1), ?_⟩
    rw [getBlock, h.find, hholds.db.map, Option.getD_some]
    dsimp only
    rw [← hfind.2.2]
    exact (List.take_append_drop _ _).symm

/-- Two strings with a comma between them. -/
def joined (v t : CStr) : CStr := CStr.ofBytes (v.val ++ sdbRs :: t.val)

/-- The string that `sdb_array_set` stores, if any. -/
def arraySetStr (v : CStr) (idx : Int) (t : CStr) : Option CStr :=
  let len := sdbAlen v
  if idx < 0 ∨ idx = len then some (joined v t)
  else if idx > len then
    some (joined v (CStr.ofBytes (List.replicate (idx - len).toNat sdbRs ++ t.val)))
  else
    (aindexof v.val idx.toNat).map fun diff ↦
      match aindexof v.val (idx.toNat + 1) with
      | some usr => CStr.ofBytes (v.val.take diff ++ t.val ++ sdbRs :: v.val.drop usr)
      | none => CStr.ofBytes (v.val.take diff ++ t.val)

/-- The string that `sdb_array_insert` stores, if any. -/
def arrayInsertStr (v : CStr) (idx : Int) (t : CStr) : Option CStr :=
  if idx = -1 then some (joined v t)
  else if idx = 0 then some (joined t v)
  else
    match if idx < 0 then none else aindexof v.val idx.toNat with
    | some off =>
        some (CStr.ofBytes
          (v.val.take (off - 1) ++ sdbRs :: (t.val ++ sdbRs :: v.val.drop off)))
    | none => arraySetStr v idx t

/-- A string is written, if there is one. -/
def writeStr (st : Sdb × World) (k : CStr) (owned : Bool) : Option CStr → Sdb × World
  | none => st
  | some x => (sdbSetInternal st.1 st.2 k x owned 0).2

theorem aindexof_le {str : Bytes} {idx off : Nat} (h : aindexof str idx = some off) :
    off ≤ str.length := by
  induction idx generalizing str off with
  | zero =>
      cases h
      exact Nat.zero_le _
  | succ idx ih =>
      rw [aindexof] at h
      cases hn : str.idxOf? sdbRs with
      | none =>
          rw [hn] at h
          cases h
      | some m =>
          rw [hn] at h
          obtain ⟨off', hoff', rfl⟩ := Option.map_eq_some_iff.mp h
          have hm := (List.findIdx?_eq_some_iff_getElem.mp hn).1
          have hle := ih hoff'
          rw [List.length_drop] at hle
          omega

/-- The bytes that a pointer to `v` reports: the string, without or with its NUL. -/
def Reported (v : CStr) (n : Nat) : Prop := n = v.length ∨ n = v.length + 1

theorem take_bytesZ_length (v : CStr) : v.bytesZ.take v.length = v.val :=
  List.take_left

theorem take_bytesZ_succ (v : CStr) : v.bytesZ.take (v.length + 1) = v.bytesZ :=
  List.take_of_length_le (Nat.le_of_eq (CStr.length_bytesZ v))

/-- A string that is copied with a NUL behind it is read as it is. -/
theorem ofBytes_take_zero {v : CStr} {n : Nat} (hn : Reported v n) (r : Bytes) :
    CStr.ofBytes (v.bytesZ.take n ++ 0 :: r) = v := by
  rcases hn with rfl | rfl
  · rw [take_bytesZ_length]
    exact (congrArg CStr.ofBytes (List.append_cons v.val 0 r)).trans
      (CStr.ofBytes_bytesZ_append v r)
  · rw [take_bytesZ_succ, CStr.ofBytes_bytesZ_append]

section Located

variable {s : Sdb} {w : World} {k v : CStr} {n : Nat} (h : Located s w k v n)
include h

theorem Located.take (hn : Reported v n) : (getBlock s k v).take n = v.bytesZ.take n := by
  obtain ⟨rest, hrest⟩ := h.block
  have hlen := CStr.length_bytesZ v
  rw [hrest, List.take_append_of_le_length]
  rcases hn with rfl | rfl
  · omega
  · omega

theorem Located.sdbGet_self : sdbGet s w k = some v := by
  obtain ⟨c, hget, -⟩ := h.get
  rw [sdbGet, hget]

/-- `sdb_concat` copies what is reported and puts the new string behind it. -/
theorem Located.after_concat (hn : Reported v n) {t : CStr} (hk : k ≠ CStr.empty)
    (ht : t ≠ CStr.empty) : (ArrayOp.concat t 0).after k (s, w) =
      stored k v (CStr.ofBytes (v.bytesZ.take n ++ t.bytesZ)) := by
  obtain ⟨c, hget, hset⟩ := h.get
  have hrun : (ArrayOp.concat t 0).run k (s, w) = sdbSetOwned s w k
      (CStr.ofBytes (v.bytesZ.take n ++ t.bytesZ)) 0 := by
    change sdbConcat s w k t 0 = _
    rw [sdbConcat, if_neg (by simp [hk, ht]), hget]
    dsimp only
    rw [h.take hn]
  rw [ArrayOp.after, hrun]
  exact hset 0 _ true (.inl rfl)

theorem Located.after_append (hn : Reported v n) (t : CStr) :
    (ArrayOp.append t 0).after k (s, w) =
      stored k v (CStr.ofBytes (v.bytesZ.take n ++ sdbRs :: t.bytesZ)) := by
  obtain ⟨c, hget, hset⟩ := h.get
  have hpos : n > 0 := by
    have hlen := mt CStr.length_eq_zero.mp h.ne
    rcases hn with rfl | rfl
    · omega
    · omega
  have hrun : ((ArrayOp.append t 0).run k (s, w)).2 = (sdbSetOwned s w k
      (CStr.ofBytes (v.bytesZ.take n ++ sdbRs :: t.bytesZ)) c).2 := by
    change (sdbArrayAppend s w k t 0).2 = _
    rw [sdbArrayAppend, hget]
    dsimp only
    rw [if_neg (by simp), if_pos ⟨h.ne, hpos⟩, h.take hn]
  rw [ArrayOp.after, hrun]
  exact hset c _ true (.inr rfl)

/-- `sdb_array_prepend` writes with the counter that it has found. -/
theorem Located.run_prepend (hn : Reported v n) (t : CStr) :
    (sdbArrayPrepend s w k t 0).2 =
      (sdbSetOwned s w k (t ++ (CStr.ofBytes [sdbRs] ++ v)) (sdbConstGetLen s w k).1.cas).2 := by
  obtain ⟨c, hget, -⟩ := h.get
  have hstr : CStr.ofBytes (t.val ++ sdbRs :: (v.bytesZ.take n ++ [0])) =
      t ++ (CStr.ofBytes [sdbRs] ++ v) := by
    refine CStr.ext ?_
    rw [CStr.val_ofBytes_append t.property, ← List.singleton_append,
      CStr.val_ofBytes_append (by decide), ofBytes_take_zero hn]
    rfl
  rw [sdbArrayPrepend, hget]
  dsimp only
  rw [if_neg (by simp), if_pos h.ne, h.take hn, hstr]

theorem Located.after_prepend (hn : Reported v n) (t : CStr) :
    (ArrayOp.prepend t 0).after k (s, w) = stored k v (t ++ (CStr.ofBytes [sdbRs] ++ v)) := by
  have hrun : ((ArrayOp.prepend t 0).run k (s, w)).2 =
      (sdbSetOwned s w k (t ++ (CStr.ofBytes [sdbRs] ++ v)) (sdbConstGetLen s w k).1.cas).2 :=
    h.run_prepend hn t
  obtain ⟨c, hget, hset⟩ := h.get
  rw [ArrayOp.after, hrun, hget]
  exact hset c _ true (.inr rfl)

/-- The rest of the string from an offset on, with a NUL behind it. -/
theorem Located.drop (hn : Reported v n) {usr : Nat} (husr : usr ≤ v.length) :
    ∃ r, ((getBlock s k v).drop usr).take (n + 1 - usr) = v.val.drop usr ++ 0 :: r := by
  obtain ⟨rest, hrest⟩ := h.block
  have hdrop : (getBlock s k v).drop usr = v.val.drop usr ++ 0 :: rest := by
    rw [hrest, CStr.bytesZ, List.append_assoc, List.drop_append_of_le_length husr]
    rfl
  have hlen : (v.val.drop usr).length = v.length - usr := List.length_drop
  refine ⟨rest.take (n - v.length), ?_⟩
  rw [hdrop, List.take_append, hlen, List.take_of_length_le]
  · have hcount : n + 1 - usr - (v.length - usr) = (n - v.length) + 1 := by
      rcases hn with rfl | rfl
      · omega
      · omega
    rw [hcount, List.take_succ_cons]
  · rw [hlen]
    rcases hn with rfl | rfl
    · omega
    · omega

theorem Located.run_insertLast (t : CStr) :
    sdbArrayInsertLast s w k t 0 = sdbSetOwned s w k (joined v t) 0 := by
  obtain ⟨c, hget, -⟩ := h.get
  rw [sdbArrayInsertLast, hget]
  dsimp only
  rw [if_neg h.ne]
  rfl

/-- `sdb_array_set` writes what `arraySetStr` says, if anything. -/
theorem Located.run_set (hn : Reported v n) (idx : Int) (t : CStr) :
    ∃ owned, (sdbArraySet s w k idx t 0).2 = writeStr (s, w) k owned (arraySetStr v idx t) := by
  obtain ⟨c, hget, -⟩ := h.get
  rw [sdbArraySet, hget, arraySetStr]
  dsimp only
  rw [if_neg h.ne]
  split
  · rw [h.run_insertLast]
    exact ⟨true, rfl⟩
  · split
    · rw [h.run_insertLast]
      exact ⟨true, rfl⟩
    · cases hdiff : aindexof v.val idx.toNat with
      | none => exact ⟨true, rfl⟩
      | some diff =>
          dsimp only [Option.map_some]
          cases husr : aindexof v.val (idx.toNat + 1) with
          | none => exact ⟨false, rfl⟩
          | some usr =>
              obtain ⟨r, hr⟩ := h.drop hn (aindexof_le husr)
              have hnul : (0 : UInt8) ∉ v.val.take diff ++ t.val ++ sdbRs :: v.val.drop usr := by
                intro h0
                rcases List.mem_append.mp h0 with h0 | h0
                · rcases List.mem_append.mp h0 with h0 | h0
                  · exact v.property (List.mem_of_mem_take h0)
                  · exact t.property h0
                · rcases List.mem_cons.mp h0 with h0 | h0
                  · exact absurd h0 (by decide)
                  · exact v.property (List.mem_of_mem_drop h0)
              dsimp only
              rw [hr, ← List.cons_append, ← List.append_assoc, CStr.ofBytes_append_zero hnul]
              exact ⟨false, rfl⟩

/-- `sdb_array_insert` writes what `arrayInsertStr` says, if anything. -/
theorem Located.run_insert (hn : Reported v n) (idx : Int) (t : CStr) :
    ∃ owned, (sdbArrayInsert s w k idx t 0).2 =
      writeStr (s, w) k owned (arrayInsertStr v idx t) := by
  obtain ⟨c, hget, -⟩ := h.get
  rw [sdbArrayInsert, arrayInsertStr]
  split
  · rw [h.run_insertLast]
    exact ⟨true, rfl⟩
  · rw [hget]
    dsimp only
    rw [if_neg h.ne]
    split
    · exact ⟨true, rfl⟩
    · cases hoff : if idx < 0 then none else aindexof v.val idx.toNat with
      | some off => exact ⟨true, rfl⟩
      | none => exact h.run_set hn idx t

/-- The value that is there after a string has been written, if any. -/
theorem Located.after_writeStr (o : Option CStr) (owned : Bool) :
    sdbGet (writeStr (s, w) k owned o).1 (writeStr (s, w) k owned o).2 k =
      match o with
      | none => some v
      | some x => stored k v x := by
  obtain ⟨c, -, hset⟩ := h.get
  cases o with
  | none => exact h.sdbGet_self
  | some x => exact hset 0 x owned (.inl rfl)

theorem Located.after_set (hn : Reported v n) (idx : Int) (t : CStr) :
    (ArrayOp.set idx t 0).after k (s, w) =
      match arraySetStr v idx t with
      | none => some v
      | some x => stored k v x := by
  obtain ⟨owned, hrun⟩ := h.run_set hn idx t
  rw [ArrayOp.after, show ((ArrayOp.set idx t 0).run k (s, w)).2 = _ from hrun]
  exact h.after_writeStr _ owned

theorem Located.after_insert (hn : Reported v n) (idx : Int) (t : CStr) :
    (ArrayOp.insert idx t 0).after k (s, w) =
      match arrayInsertStr v idx t with
      | none => some v
      | some x => stored k v x := by
  obtain ⟨owned, hrun⟩ := h.run_insert hn idx t
  rw [ArrayOp.after, show ((ArrayOp.insert idx t 0).run k (s, w)).2 = _ from hrun]
  exact h.after_writeStr _ owned

end Located

theorem stored_self {k v : CStr} (hv : v ≠ CStr.empty) : stored k v v = some v := by
  rw [stored, readAs, if_neg hv]
  split
  · rfl
  · rfl

/-- A longer string is stored unless it is too long. -/
theorem stored_eq_self_iff {k v x : CStr} (hk : k.length < 0xff) (hx : v.length < x.length) :
    stored k v x = some v ↔ 0xffffff ≤ x.length := by
  have hne : x ≠ CStr.empty := fun h ↦ by
    rw [CStr.length_eq_zero.mpr h] at hx
    exact Nat.not_lt_zero _ hx
  rw [stored]
  split
  · next h => exact ⟨fun _ ↦ by omega, fun _ ↦ rfl⟩
  · next h =>
      rw [readAs, if_neg hne]
      refine ⟨fun heq ↦ ?_, fun hlen ↦ absurd (.inr hlen) h⟩
      rw [Option.some.inj heq] at hx
      exact absurd hx (Nat.lt_irrefl _)

theorem OnDisk.key_lt {s : Sdb} {k v : CStr} (h : OnDisk s k v) : k.length < 0xff := by
  obtain ⟨recs, hholds, hlook⟩ := h.holds
  exact (hholds.fitting.length_lt (mem_of_lookup hlook).1).1

section Places

variable {mem disk : Sdb × World} {k v : CStr} (hv : v ≠ CStr.empty)
  (hmem : InMemory mem.1 k v) (hdisk : OnDisk disk.1 k v)
include hv hmem hdisk

/-- `sdb_concat` puts the new string behind the NUL of a value in the file, where it is
lost. -/
theorem concat_same_iff (t : CStr) :
    (ArrayOp.concat t 0).after k mem = (ArrayOp.concat t 0).after k disk ↔
      k = CStr.empty ∨ t = CStr.empty ∨ 0xffffff ≤ v.length + t.length := by
  have hm := hmem.located hv mem.2
  have hd := hdisk.located hv disk.2
  by_cases hkt : k = CStr.empty ∨ t = CStr.empty
  · have hsame : ∀ (st : Sdb × World), (ArrayOp.concat t 0).after k st = sdbGet st.1 st.2 k := by
      intro st
      rw [ArrayOp.after]
      change sdbGet (sdbConcat st.1 st.2 k t 0).2.1 (sdbConcat st.1 st.2 k t 0).2.2 k = _
      rw [sdbConcat, if_pos hkt]
    rw [hsame, hsame, hm.sdbGet_self, hd.sdbGet_self]
    exact ⟨fun _ ↦ or_assoc.mp (.inl hkt), fun _ ↦ rfl⟩
  · obtain ⟨hk, ht⟩ := not_or.mp hkt
    have hjoin : CStr.ofBytes (v.val ++ t.bytesZ) = v ++ t := by
      refine CStr.ext ?_
      rw [CStr.val_ofBytes_append v.property, CStr.ofBytes_bytesZ]
      rfl
    have hlen : (v ++ t).length = v.length + t.length := length_append_cstr v t
    have hpos := mt CStr.length_eq_zero.mp ht
    rw [hm.after_concat (.inl rfl) hk ht, hd.after_concat (.inr rfl) hk ht, take_bytesZ_length,
      take_bytesZ_succ, CStr.ofBytes_bytesZ_append, stored_self hv, hjoin,
      stored_eq_self_iff hdisk.key_lt (by omega), hlen]
    simp [hk, ht]

/-- `sdb_array_append` does the same. -/
theorem append_same_iff (t : CStr) :
    (ArrayOp.append t 0).after k mem = (ArrayOp.append t 0).after k disk ↔
      0xffffff ≤ v.length + 1 + t.length := by
  have hm := hmem.located hv mem.2
  have hd := hdisk.located hv disk.2
  have hlen : (CStr.ofBytes (v.val ++ sdbRs :: t.bytesZ)).length = v.length + 1 + t.length := by
    rw [CStr.length, CStr.val_ofBytes_append v.property, ← List.singleton_append,
      CStr.val_ofBytes_append (by decide), CStr.ofBytes_bytesZ, List.length_append,
      List.length_append]
    exact (Nat.add_assoc _ _ _).symm
  rw [hm.after_append (.inl rfl), hd.after_append (.inr rfl), take_bytesZ_length, take_bytesZ_succ,
    CStr.ofBytes_bytesZ_append, stored_self hv, stored_eq_self_iff hdisk.key_lt (by omega), hlen]

/-- The calls that measure the string again, or copy it to the end, do not differ. -/
theorem prepend_insert_set_same (idx : Int) (t : CStr) :
    (ArrayOp.prepend t 0).after k mem = (ArrayOp.prepend t 0).after k disk ∧
      (ArrayOp.insert idx t 0).after k mem = (ArrayOp.insert idx t 0).after k disk ∧
      (ArrayOp.set idx t 0).after k mem = (ArrayOp.set idx t 0).after k disk := by
  have hm := hmem.located hv mem.2
  have hd := hdisk.located hv disk.2
  refine ⟨?_, ?_, ?_⟩
  · exact (hm.after_prepend (.inl rfl) t).trans (hd.after_prepend (.inr rfl) t).symm
  · exact (hm.after_insert (.inl rfl) idx t).trans (hd.after_insert (.inr rfl) idx t).symm
  · exact (hm.after_set (.inl rfl) idx t).trans (hd.after_set (.inr rfl) idx t).symm

/-- **A value is not the same in memory and in the file**: its length is not, and so a string that
is put behind it is lost, unless it is empty or too long, while the other calls do not differ. -/
theorem not_transparent : ¬ Transparent mem disk k ∧
    (∀ t, (ArrayOp.concat t 0).after k mem = (ArrayOp.concat t 0).after k disk ↔
      k = CStr.empty ∨ t = CStr.empty ∨ 0xffffff ≤ v.length + t.length) ∧
    (∀ t, (ArrayOp.append t 0).after k mem = (ArrayOp.append t 0).after k disk ↔
      0xffffff ≤ v.length + 1 + t.length) ∧
    ∀ idx t, (ArrayOp.prepend t 0).after k mem = (ArrayOp.prepend t 0).after k disk ∧
      (ArrayOp.insert idx t 0).after k mem = (ArrayOp.insert idx t 0).after k disk ∧
      (ArrayOp.set idx t 0).after k mem = (ArrayOp.set idx t 0).after k disk := by
  refine ⟨?_, concat_same_iff hv hmem hdisk, append_same_iff hv hmem hdisk,
    prepend_insert_set_same hv hmem hdisk⟩
  rintro ⟨-, hlen, -⟩
  obtain ⟨kv, -, -, hget⟩ := hmem.get hv mem.2
  rw [hget, hdisk.get disk.2] at hlen
  exact absurd hlen (Nat.ne_of_lt (Nat.lt_succ_self _))

end Places

/-- The pair `x=1` in memory. -/
def memX : Sdb × World :=
  (sdbSet (sdbNew .empty .empty .empty).1 .empty (CStr.ofBytes [120]) (CStr.ofBytes [49]) 0).2

theorem inMemory_memX : InMemory memX.1 (CStr.ofBytes [120]) (CStr.ofBytes [49]) where
  sound := (Sdb.Sound.new .empty .empty .empty).setInternal _ _ _ _ _
  bare := ⟨by decide, by decide⟩
  find := ⟨⟨CStr.ofBytes [120], some (CStr.ofBytes [49]), 2, 0⟩, by decide, rfl⟩

theorem onDisk_fileX :
    OnDisk (newOn (kvImage fileX)).1 (CStr.ofBytes [120]) (CStr.ofBytes [49]) where
  sound := sound_of_htNew (newOn_ht fileX_not_text)
  empty := by rw [newOn_ht fileX_not_text, toList_htNew]
  holds := ⟨fileX, newOn_holds fileX_fitting fileX_not_text, by decide⟩

/-- The pair `x=1` in memory and in a file. -/
theorem not_transparent_x :
    InMemory memX.1 (CStr.ofBytes [120]) (CStr.ofBytes [49]) ∧
      OnDisk (newOn (kvImage fileX)).1 (CStr.ofBytes [120]) (CStr.ofBytes [49]) ∧
      ¬ Transparent memX (newOn (kvImage fileX)) (CStr.ofBytes [120]) :=
  ⟨inMemory_memX, onDisk_fileX, (not_transparent (by decide) inMemory_memX onDisk_fileX).1⟩

/-- `2` is put behind `x=1`: in memory the value is `12`, and over the file it stays `1`. -/
theorem concat_differs_x :
    (ArrayOp.concat (CStr.ofBytes [50]) 0).after (CStr.ofBytes [120]) memX ≠
      (ArrayOp.concat (CStr.ofBytes [50]) 0).after (CStr.ofBytes [120]) (newOn (kvImage fileX)) ∧
    ¬ Transparent memX (newOn (kvImage fileX)) (CStr.ofBytes [120]) := by
  have hne : (ArrayOp.concat (CStr.ofBytes [50]) 0).after (CStr.ofBytes [120]) memX ≠
      (ArrayOp.concat (CStr.ofBytes [50]) 0).after (CStr.ofBytes [120]) (newOn (kvImage fileX)) :=
    fun h ↦ absurd ((concat_same_iff (by decide) inMemory_memX onDisk_fileX _).mp h) (by decide)
  exact ⟨hne, fun h ↦ hne (h.2.2 _)⟩

end SdbStore
