import SdbStore.Io
import SdbStore.Lib.Bucket
import SdbStore.Lib.Probe

/-!
# Writing a CDB file

`cdb_make.c`, function by function.  A CDB file is a header of 256 table positions,
the records one after another, and 256 hash tables.  `cdb_make_add` appends a record
and remembers its hash and position; `cdb_make_finish` sorts these pairs by the low
byte of the hash, builds a table with linear probing for each of the 256 values,
writes the tables behind the records and then the header at the start of the file.

Allocations succeed.  The counters are natural numbers: a record takes at least six
bytes, so `cdb_make_add` fails on the file position before a counter can overflow.
-/

namespace SdbStore

open Lib

/-- `struct cdb_hp`: the hash of a key and the position of its record. -/
structure CdbHp where
  h : Nat
  p : Nat
deriving DecidableEq

/-- `struct cdb_make`.  `head` is the list of blocks of up to 1000 pairs, the newest
block first. -/
structure CdbMake where
  head : List (List CdbHp)
  numentries : Nat
  memsize : Nat
  count : Nat → Nat
  b : Buffer
  pos : Nat
  fd : CStr

/-- `sizeof (c->final)`, where the records begin. -/
def cdbFinalSize : Nat := 1024

/-- `KVLSZ`. -/
def kvlsz : Nat := 4

/-- `SDB_MAX_KEY`. -/
def sdbMaxKey : Nat := 0xff

/-- `SDB_MAX_VALUE`, and `CDB_MAX_VALUE`. -/
def sdbMaxValue : Nat := 0xffffff

/-- `CDB_HPLIST`. -/
def cdbHplist : Nat := 1000

/-- `cdb_make_start`. -/
def cdbMakeStart (fd : CStr) : Io CdbMake := do
  tmpSeek cdbFinalSize
  return { head := [], numentries := 0, memsize := 1, count := fun _ ↦ 0,
           b := bufferInitialize, pos := cdbFinalSize, fd := fd }

/-- `incpos`: the file position is a `ut32`, and must not wrap around. -/
def incpos (c : CdbMake) (len : Nat) : Io CdbMake :=
  let newpos := ut32 (c.pos + len)
  if newpos < len then throw .refused else pure { c with pos := newpos }

/-- Append a pair to the newest block, or to a new one when that is full. -/
def hplistAdd (hp : CdbHp) : List (List CdbHp) → List (List CdbHp)
  | [] => [[hp]]
  | x :: xs => if x.length ≥ cdbHplist then [hp] :: x :: xs else (x ++ [hp]) :: xs

/-- `cdb_make_addend`. -/
def cdbMakeAddend (c : CdbMake) (keylen datalen h : Nat) : Io CdbMake :=
  let count := Function.update c.count (h % 256) (c.count (h % 256) + 1)
  let u := count (h % 256) * 2
  incpos { c with
    head := hplistAdd ⟨h, c.pos⟩ c.head
    numentries := c.numentries + 1
    count := count
    memsize := if u > c.memsize then u else c.memsize } (kvlsz + keylen + datalen)

/-- The four bytes of a record header. -/
def kvlenBytes (klen vlen : Nat) : Bytes :=
  [UInt8.ofNat klen, UInt8.ofNat vlen, UInt8.ofNat (vlen / 256), UInt8.ofNat (vlen / 65536)]

/-- `pack_kvlen`. -/
def packKvlen (klen vlen : Nat) : Option Bytes :=
  if klen > sdbMaxKey then none
  else if vlen ≥ sdbMaxValue then none
  else some (kvlenBytes klen vlen)

/-- `cdb_make_addbegin`. -/
def cdbMakeAddbegin (c : CdbMake) (keylen datalen : Nat) : Io CdbMake :=
  match packKvlen keylen datalen with
  | none => throw .refused
  | some buf => do
      let b ← bufferPutalign c.fd c.b buf
      return { c with b := b }

/-- `cdb_make_add`; key and data are written with a trailing NUL. -/
def cdbMakeAdd (c : CdbMake) (key : CStr) (data : Bytes) : Io CdbMake := do
  let keylen := key.length + 1
  let datalen := data.length + 1
  let c ← cdbMakeAddbegin c keylen datalen
  let b ← bufferPutalign c.fd c.b key.bytesZ
  let b ← bufferPutalign c.fd b (data ++ [0])
  cdbMakeAddend { c with b := b } keylen datalen (sdbHash key)

/-- `255 & hp.h`: the table of a pair. -/
def cdbBucketOf (hp : CdbHp) : Nat := hp.h % 256

/-- The counting sort of `cdb_make_finish`: `c->start` begins as the ends of the
buckets, and `c->split[--c->start[255 & hp.h]] = hp` goes through the blocks, each
from its end. -/
def cdbSplit (c : CdbMake) : (Nat → Nat) × (Nat → CdbHp) :=
  c.head.foldl (fun st x ↦ x.foldr (Bucket.place cdbBucketOf) st)
    (fun i ↦ Bucket.first c.count (i + 1), fun _ ↦ ⟨0, 0⟩)

/-- A slot of a hash table is free when its position is 0. -/
def cdbFree (hp : CdbHp) : Bool := hp.p == 0

/-- `(hp->h >> 8) % len`. -/
def cdbHome (len : Nat) (hp : CdbHp) : Nat := hp.h / 256 % len

/-- The bytes of a slot. -/
def cdbSlotBytes (hp : CdbHp) : Bytes := le32 hp.h ++ le32 hp.p

/-- Write one slot. -/
def cdbMakePutSlot (c : CdbMake) (hp : CdbHp) : Io CdbMake := do
  let b ← bufferPutalign c.fd c.b (cdbSlotBytes hp)
  incpos { c with b := b } 8

/-- One round of the loop over the 256 tables: note the position of table `i`, build
it and write it. -/
def cdbMakeTable (split : (Nat → Nat) × (Nat → CdbHp)) (st : CdbMake × Bytes) (i : Nat) :
    Io (CdbMake × Bytes) :=
  let c := st.1
  let count := c.count i
  let len := count * 2
  let final := st.2 ++ le32 c.pos
  let hps := (List.range count).map fun u ↦ split.2 (split.1 i + u)
  match Probe.build cdbFree (cdbHome len) ⟨0, 0⟩ len hps with
  | none => throw .spin
  | some hash => do
      let c ← hash.foldlM cdbMakePutSlot c
      return (c, final)

/-- `cdb_make_finish`. -/
def cdbMakeFinish (c : CdbMake) : Io Unit :=
  if c.memsize + c.numentries > 4294967295 / 8 then throw .refused else do
    let st ← (List.range 256).foldlM (cdbMakeTable (cdbSplit c)) (c, [])
    let b ← bufferFlush c.fd st.1.b
    tmpSeek 0
    let _ ← bufferPutflush c.fd b st.2
    return ()

/-- A whole file: create it, add the records in order, finish. -/
def cdbMakeFile (fd : CStr) (recs : List (CStr × Bytes)) : Io Unit := do
  tmpOpen fd
  let c ← cdbMakeStart fd
  let c ← recs.foldlM (fun c r ↦ cdbMakeAdd c r.1 r.2) c
  cdbMakeFinish c

/-! ## Faults and frames

Every function above only touches its own file and stops at the first system call
that fails. -/

theorem incpos_failStop (c : CdbMake) (len : Nat) : FailStop Stop.fault (incpos c len) := by
  rw [incpos]
  split
  · exact FailStop.throw (by decide)
  · exact FailStop.pure _

theorem incpos_moves (p : CStr) {c : CdbMake} (hc : c.fd = p) (len : Nat) :
    Moves (Touches p) (·.fd = p) (incpos c len) := by
  rw [incpos]
  split
  · exact Moves.throw (Touches.refl p) _
  · exact Moves.pure (Touches.refl p) hc

theorem incpos_ends {Q : CdbMake → World → Prop} {E : Stop → Prop} {c : CdbMake} {len : Nat}
    {w : World} (hpos : c.pos < 4294967296) (hlen : len < 4294967296)
    (hQ : c.pos + len < 4294967296 → Q { c with pos := c.pos + len } w)
    (hE : ¬ c.pos + len < 4294967296 → E .refused) : Ends Q E (incpos c len w) := by
  rw [incpos]
  split
  · next hwrap =>
      refine hE fun h ↦ ?_
      rw [ut32_of_lt h] at hwrap
      omega
  · next hwrap =>
      have h : c.pos + len < 4294967296 := by
        rw [ut32] at hwrap
        omega
      rw [ut32_of_lt h]
      exact hQ h

theorem cdbMakeAdd_failStop (c : CdbMake) (key : CStr) (data : Bytes) :
    FailStop Stop.fault (cdbMakeAdd c key data) := by
  refine FailStop.bind ?_ fun c ↦ FailStop.bind (bufferPutalign_failStop _ _ _) fun _ ↦
    FailStop.bind (bufferPutalign_failStop _ _ _) fun _ ↦ incpos_failStop _ _
  rw [cdbMakeAddbegin]
  split
  · exact FailStop.throw (by decide)
  · exact FailStop.bind (bufferPutalign_failStop _ _ _) fun _ ↦ FailStop.pure _

theorem cdbMakeTable_failStop (split : (Nat → Nat) × (Nat → CdbHp)) (st : CdbMake × Bytes)
    (i : Nat) : FailStop Stop.fault (cdbMakeTable split st i) := by
  rw [cdbMakeTable]
  split
  · exact FailStop.throw (by decide)
  · refine FailStop.bind (FailStop.foldlM (fun c hp ↦ ?_) _ _) fun _ ↦ FailStop.pure _
    exact FailStop.bind (bufferPutalign_failStop _ _ _) fun _ ↦ incpos_failStop _ _

theorem cdbMakeFinish_failStop (c : CdbMake) : FailStop Stop.fault (cdbMakeFinish c) := by
  rw [cdbMakeFinish]
  split
  · exact FailStop.throw (by decide)
  · refine FailStop.bind (FailStop.foldlM (fun st i ↦ cdbMakeTable_failStop _ st i) _ _) fun _ ↦
      FailStop.bind (bufferFlush_failStop _ _) fun _ ↦
      FailStop.bind (tmpSeek_failStop 0) fun _ ↦ FailStop.bind ?_ fun _ ↦ FailStop.pure _
    exact FailStop.bind (bufferFlush_failStop _ _) fun _ ↦
      FailStop.bind (tmpWrite_failStop _ _) fun _ ↦ FailStop.pure _

theorem cdbMakeAdd_moves {p : CStr} {c : CdbMake} (hc : c.fd = p) (key : CStr) (data : Bytes) :
    Moves (Touches p) (·.fd = p) (cdbMakeAdd c key data) := by
  refine Moves.bind (P := (·.fd = p)) (Touches.trans p) ?_ fun c hc ↦ ?_
  · rw [cdbMakeAddbegin]
    split
    · exact Moves.throw (Touches.refl p) _
    · refine Moves.bind (Touches.trans p) (bufferPutalign_moves hc _ _) fun _ _ ↦ ?_
      exact Moves.pure (Touches.refl p) hc
  · refine Moves.bind (Touches.trans p) (bufferPutalign_moves hc _ _) fun _ _ ↦ ?_
    refine Moves.bind (Touches.trans p) (bufferPutalign_moves hc _ _) fun _ _ ↦ ?_
    exact incpos_moves p (by exact hc) _

theorem cdbMakeFinish_moves {p : CStr} {c : CdbMake} (hc : c.fd = p) :
    Moves (Touches p) (fun _ ↦ True) (cdbMakeFinish c) := by
  have htable : ∀ (st : CdbMake × Bytes) (i : Nat), st.1.fd = p →
      Moves (Touches p) (·.1.fd = p) (cdbMakeTable (cdbSplit c) st i) := by
    intro st i hst
    rw [cdbMakeTable]
    split
    · exact Moves.throw (Touches.refl p) _
    · refine Moves.bind (P := (·.fd = p)) (Touches.trans p) ?_ fun c' hc' ↦
        Moves.pure (Touches.refl p) hc'
      refine Moves.foldlM (Touches.refl p) (Touches.trans p) (fun c' hp hc' ↦ ?_) _ hst
      exact Moves.bind (Touches.trans p) (bufferPutalign_moves hc' _ _) fun _ _ ↦
        incpos_moves p (by exact hc') _
  rw [cdbMakeFinish]
  split
  · exact Moves.throw (Touches.refl p) _
  · refine Moves.bind (Touches.trans p)
      (Moves.foldlM (Touches.refl p) (Touches.trans p) htable _ hc) fun st _ ↦ ?_
    refine Moves.bind (Touches.trans p) (bufferFlush_moves hc _) fun b _ ↦ ?_
    refine Moves.bind (Touches.trans p) (tmpSeek_moves p 0) fun _ _ ↦ ?_
    refine Moves.bind (P := fun _ ↦ True) (Touches.trans p) ?_ fun _ _ ↦
      Moves.pure (Touches.refl p) trivial
    refine Moves.bind (Touches.trans p) (bufferFlush_moves hc _) fun _ _ ↦ ?_
    exact Moves.bind (Touches.trans p) (tmpWrite_moves hc _) fun _ _ ↦
      Moves.pure (Touches.refl p) trivial

theorem cdbMakeFile_failStop (fd : CStr) (recs : List (CStr × Bytes)) :
    FailStop Stop.fault (cdbMakeFile fd recs) := by
  refine FailStop.bind (tmpOpen_failStop fd) fun _ ↦ ?_
  refine FailStop.bind (FailStop.bind (tmpSeek_failStop _) fun _ ↦ FailStop.pure _) fun _ ↦ ?_
  exact FailStop.bind (FailStop.foldlM (fun c _ ↦ cdbMakeAdd_failStop c _ _) _ _) fun c ↦
    cdbMakeFinish_failStop c

end SdbStore
