import SdbStore.Lib.Bounded
import SdbStore.Expire

/-!
# The cached entry of a scan

`sdb_dump_next` returns a pointer to an entry that the database keeps, `tmpkv`: it scans one record
like `sdb_dump_dupnext`, copies the key into the buffer of the entry and gives the value to it.  The
buffer is nowhere allocated.  `sdb_new` leaves a null pointer, nothing else writes to it, and so the
first record that is scanned is copied through `NULL`.
-/

namespace SdbStore

open Lib

/-- `SDB_KSZ`. -/
def sdbKsz : Nat := 0xff

/-- What of `tmpkv` is used: the memory that its key points to, its value and the length. -/
structure TmpKv where
  key : Option Bytes
  value : Option Bytes
  valueLen : Nat

/-- A database that is scanned: with its files, the position of the scan and the cached entry. -/
structure Scanning where
  st : Sdb × World
  pos : Nat
  tmpkv : TmpKv

/-- A database as `sdb_new` makes it: what is not set is zero. -/
def Scanning.new (st : Sdb × World) : Scanning := ⟨st, 0, ⟨none, none, 0⟩⟩

/-- `sdb_dump_begin`. -/
def Scanning.begin (d : Scanning) : Scanning := { d with pos := sdbDumpBegin d.st.1.fd }

/-- `snprintf` of a string into a block, if it does not go through `NULL` or leave the block. -/
def snprintfBlock (str : Option Bytes) (size : Nat) (text : CStr) : Option Bytes := do
  let block ← str
  let written := fitted size text.val
  if written.length ≤ block.length then some (written ++ block.drop written.length) else none

/-- `sdb_dump_next`: the entry, with the database after it. -/
def sdbDumpNext (d : Scanning) : Option (Option TmpKv × Scanning) :=
  match sdbDumpDupnext d.st.1.db d.pos with
  | (none, pos) => some (none, { d with pos := pos })
  | (some r, pos) => do
      let vl := r.vlen - 1
      let key ← snprintfBlock d.tmpkv.key sdbKsz r.key
      let tmpkv : TmpKv := ⟨some key, r.value, vl⟩
      some (some tmpkv, { d with pos := pos, tmpkv := tmpkv })

/-- The results of `n` calls of `sdb_dump_next`, if each comes back. -/
def dumpNextTimes : Nat → Scanning → Option (List (Option TmpKv))
  | 0, _ => some []
  | n + 1, d => do
      let (kv, d) ← sdbDumpNext d
      let kvs ← dumpNextTimes n d
      some (kv :: kvs)

/-- The results of `n` calls of `sdb_dump_dupnext`. -/
def dupnextTimes (c : Cdb) : Nat → Nat → List (Option Dumped)
  | 0, _ => []
  | n + 1, pos =>
      let (r, pos) := sdbDumpDupnext c pos
      r :: dupnextTimes c n pos

/-! ## What the scans have in common -/

/-- The cached entry is the record: the key is in a buffer of the database that is large enough, and
the length is without the NUL. -/
structure TmpKv.Shows (kv : TmpKv) (r : Dumped) : Prop where
  key : ∃ buf, kv.key = some buf ∧ sdbKsz ≤ buf.length ∧ CStr.ofBytes buf = r.key
  value : kv.value = r.value
  valueLen : kv.valueLen + 1 = r.vlen

/-- From the beginning of the scan on, `sdb_dump_next` returns what `sdb_dump_dupnext` returns. -/
def Scanning.Agrees (d : Scanning) : Prop :=
  ∀ n, ∃ kvs, dumpNextTimes n d.begin = some kvs ∧
    List.Forall₂ (Option.Rel TmpKv.Shows) kvs (dupnextTimes d.st.1.db n d.begin.pos)

/-- The states of a database: it is new, any call has been made, or a step of a scan. -/
inductive ScanReachable : Scanning → Prop
  | new {st : Sdb × World} (h : Opened st) : ScanReachable (.new st)
  | call {d : Scanning} {st : Sdb × World} (op : TimedOp) (hd : ScanReachable d)
      (hop : op.run d.st = some st) (pos : Nat) : ScanReachable { d with st := st, pos := pos }
  | begin {d : Scanning} (hd : ScanReachable d) : ScanReachable d.begin
  | dupnext {d : Scanning} (hd : ScanReachable d) :
      ScanReachable { d with pos := (sdbDumpDupnext d.st.1.db d.pos).2 }
  | next {d d' : Scanning} {kv : Option TmpKv} (hd : ScanReachable d)
      (hnext : sdbDumpNext d = some (kv, d')) : ScanReachable d'

/-- **The key is never allocated.** -/
theorem ScanReachable.key {d : Scanning} (h : ScanReachable d) : d.tmpkv.key = none := by
  induction h with
  | new => rfl
  | call _ _ _ _ ih => exact ih
  | begin _ ih => exact ih
  | dupnext _ ih => exact ih
  | @next d d' kv hd hnext ih =>
      unfold sdbDumpNext at hnext
      split at hnext
      · obtain ⟨-, rfl⟩ := Prod.mk.inj (Option.some.inj hnext)
        exact ih
      · rw [ih] at hnext
        cases hnext

/-! ## A buffer for the key -/

theorem length_cdbRead {c : Cdb} {len pos : Nat} {b : Bytes} (h : cdbRead c len pos = some b) :
    b.length ≤ len := by
  have hslice : ∀ m : Bytes, (slice m pos len).length ≤ len := fun m ↦ List.length_take_le _ _
  unfold cdbRead at h
  split at h
  · split at h
    · cases h
    · obtain rfl := Option.some.inj h
      exact hslice _
  · split at h
    · cases h
    · split at h
      · cases h
      · obtain rfl := Option.some.inj h
        exact hslice _

theorem length_dupnextKey {c : Cdb} {klen pos pos' : Nat} {key : CStr}
    (h : dupnextKey c klen pos = some (key, pos')) : key.length < sdbKsz := by
  unfold dupnextKey at h
  split at h
  · next hlen =>
      obtain ⟨b, hb, heq⟩ := Option.map_eq_some_iff.mp h
      obtain ⟨rfl, -⟩ := Prod.mk.inj heq
      have hle : (CStr.ofBytes b).length ≤ b.length := (List.takeWhile_prefix _).length_le
      exact (hle.trans (length_cdbRead hb)).trans_lt hlen.2
  · obtain ⟨rfl, -⟩ := Prod.mk.inj (Option.some.inj h)
    decide

/-- A record that is handed out has a key that fits into the buffer, and a value with a NUL. -/
theorem sdbDumpDupnext_fits {c : Cdb} {pos pos' : Nat} {r : Dumped}
    (h : sdbDumpDupnext c pos = (some r, pos')) : r.key.length < sdbKsz ∧ 1 ≤ r.vlen := by
  unfold sdbDumpDupnext at h
  split at h
  · cases h
  · next klen vlen _ =>
      dsimp only at h
      split at h
      · cases h
      · next hlen =>
          have hvlen : 1 ≤ vlen := by omega
          split at h
          · cases h
          · next key pos'' hkey =>
              have hk := length_dupnextKey hkey
              split at h
              · split at h
                · cases h
                · obtain rfl := Option.some.inj (Prod.mk.inj h).1
                  exact ⟨hk, hvlen⟩
              · obtain rfl := Option.some.inj (Prod.mk.inj h).1
                exact ⟨hk, hvlen⟩

/-- A string that fits is copied. -/
theorem snprintfBlock_fits {block : Bytes} {size : Nat} (hsize : size ≤ block.length) {text : CStr}
    (htext : text.length < size) : ∃ buf, snprintfBlock (some block) size text = some buf ∧
      buf.length = block.length ∧ CStr.ofBytes buf = text := by
  have hfitted : fitted size text.val = text.bytesZ := by
    have htake : text.val.take (size - 1) = text.val :=
      List.take_of_length_le (Nat.le_pred_of_lt htext)
    rw [fitted, if_neg (by omega), htake]
    rfl
  have hlen : text.bytesZ.length ≤ block.length := by
    rw [CStr.length_bytesZ]
    omega
  refine ⟨text.bytesZ ++ block.drop text.bytesZ.length, ?_, ?_, CStr.ofBytes_bytesZ_append _ _⟩
  · rw [snprintfBlock, hfitted]
    exact if_pos hlen
  · rw [List.length_append, List.length_drop]
    omega

theorem length_snprintfBlock {str : Option Bytes} {size : Nat} {text : CStr} {buf : Bytes}
    (h : snprintfBlock str size text = some buf) : ∃ block, str = some block ∧
      buf.length = block.length := by
  obtain ⟨block, hblock, h⟩ := Option.bind_eq_some_iff.mp h
  refine ⟨block, hblock, ?_⟩
  dsimp only at h
  split at h
  · obtain rfl := Option.some.inj h
    rw [List.length_append, List.length_drop]
    omega
  · cases h

theorem sdbDumpNext_record {d : Scanning} {r : Dumped} {pos : Nat}
    (hr : sdbDumpDupnext d.st.1.db d.pos = (some r, pos)) :
    sdbDumpNext d = (snprintfBlock d.tmpkv.key sdbKsz r.key).map fun key ↦
      (some ⟨some key, r.value, r.vlen - 1⟩,
        { d with pos := pos, tmpkv := ⟨some key, r.value, r.vlen - 1⟩ }) := by
  rw [sdbDumpNext, hr]
  dsimp only
  cases snprintfBlock d.tmpkv.key sdbKsz r.key with
  | none => rfl
  | some key => rfl

/-- With a buffer for the key a step of the one scan is a step of the other. -/
theorem sdbDumpNext_of_buffer {d : Scanning} {block : Bytes} (hkey : d.tmpkv.key = some block)
    (hblock : sdbKsz ≤ block.length) :
    ∃ kv d' block', sdbDumpNext d = some (kv, d') ∧
      Option.Rel TmpKv.Shows kv (sdbDumpDupnext d.st.1.db d.pos).1 ∧ d'.st = d.st ∧
      d'.pos = (sdbDumpDupnext d.st.1.db d.pos).2 ∧ d'.tmpkv.key = some block' ∧
      sdbKsz ≤ block'.length := by
  rcases hr : sdbDumpDupnext d.st.1.db d.pos with ⟨_ | r, pos⟩
  · rw [sdbDumpNext, hr]
    exact ⟨none, _, block, rfl, .none, rfl, rfl, hkey, hblock⟩
  · obtain ⟨hlen, hvlen⟩ := sdbDumpDupnext_fits hr
    obtain ⟨buf, hbuf, hbuflen, htext⟩ := snprintfBlock_fits hblock hlen
    have hle : sdbKsz ≤ buf.length := by
      rw [hbuflen]
      exact hblock
    rw [sdbDumpNext_record hr, hkey, hbuf]
    exact ⟨_, _, buf, rfl, .some ⟨⟨buf, rfl, hle, htext⟩, rfl, Nat.sub_add_cancel hvlen⟩, rfl, rfl,
      rfl, hle⟩

theorem dumpNextTimes_of_buffer (n : Nat) {d : Scanning} {block : Bytes}
    (hkey : d.tmpkv.key = some block) (hblock : sdbKsz ≤ block.length) :
    ∃ kvs, dumpNextTimes n d = some kvs ∧
      List.Forall₂ (Option.Rel TmpKv.Shows) kvs (dupnextTimes d.st.1.db n d.pos) := by
  induction n generalizing d block with
  | zero => exact ⟨[], rfl, .nil⟩
  | succ n ih =>
      obtain ⟨kv, d', block', hnext, hrel, hst, hpos, hkey', hblock'⟩ :=
        sdbDumpNext_of_buffer hkey hblock
      obtain ⟨kvs, hkvs, hrels⟩ := ih hkey' hblock'
      rw [hst, hpos] at hrels
      refine ⟨kv :: kvs, ?_, .cons hrel hrels⟩
      rw [dumpNextTimes, hnext]
      simp only [Option.bind_eq_bind, Option.bind_some, hkvs]

/-! ## Files -/

/-- The file is open. -/
def Scanning.Opens (d : Scanning) (file : Bytes) : Prop :=
  d.st.1.fd = some file ∧ d.st.1.db = (cdbInit (some file)).2

/-- Where nothing is scanned, nothing is copied. -/
theorem dumpNextTimes_end (n : Nat) {d : Scanning}
    (hend : sdbDumpDupnext d.st.1.db d.pos = (none, d.pos)) :
    ∃ kvs, dumpNextTimes n d = some kvs ∧
      List.Forall₂ (Option.Rel TmpKv.Shows) kvs (dupnextTimes d.st.1.db n d.pos) := by
  induction n with
  | zero => exact ⟨[], rfl, .nil⟩
  | succ n ih =>
      obtain ⟨kvs, hkvs, hrels⟩ := ih
      have hnext : sdbDumpNext d = some (none, d) := by
        rw [sdbDumpNext, hend]
      refine ⟨none :: kvs, ?_, ?_⟩
      · rw [dumpNextTimes, hnext]
        simp only [Option.bind_eq_bind, Option.bind_some, hkvs]
      · rw [dupnextTimes, hend]
        exact .cons .none hrels

/-- **The scans agree** if there is nothing to scan or a buffer for the key. -/
theorem agrees_iff_buffer {recs : List CdbRec} (hfit : Fitting recs) (hk : ∀ r ∈ recs, r.Readable)
    {d : Scanning} (hopen : d.Opens (cdbImage recs)) :
    d.Agrees ↔ recs = [] ∨ ∃ block, d.tmpkv.key = some block ∧ sdbKsz ≤ block.length := by
  have hc : d.st.1.db.Over (cdbImage recs) := by
    rw [hopen.2]
    exact (cdbInit_image hfit).2
  have hpos : d.begin.pos = cdbFinalSize := by
    rw [Scanning.begin, hopen.1]
    rfl
  constructor
  · intro hagrees
    cases recs with
    | nil => exact .inl rfl
    | cons r recs =>
        right
        have hstep := sdbDumpDupnext_rec hc hfit.size (recAt_image [] r recs)
          (hfit.fits r List.mem_cons_self) (hk r List.mem_cons_self)
        obtain ⟨kvs, hkvs, hrels⟩ := hagrees 1
        have hdup : sdbDumpDupnext d.begin.st.1.db d.begin.pos =
            (some r.dumped, cdbFinalSize + (cdbBody []).length + (recBytes r).length) := by
          rw [hpos]
          exact hstep
        rw [dumpNextTimes, sdbDumpNext_record hdup] at hkvs
        cases hbuf : snprintfBlock d.begin.tmpkv.key sdbKsz r.dumped.key with
        | none =>
            rw [hbuf] at hkvs
            cases hkvs
        | some buf =>
            rw [hbuf] at hkvs
            obtain rfl := Option.some.inj hkvs
            obtain ⟨block, hblock, hlen⟩ := length_snprintfBlock hbuf
            have hdup' : dupnextTimes d.st.1.db 1 d.begin.pos = [some r.dumped] := by
              have hdup' := congrArg Prod.fst hdup
              rw [dupnextTimes]
              exact congrArg (· :: []) hdup'
            rw [hdup'] at hrels
            obtain ⟨hshows, -⟩ := List.forall₂_cons.mp hrels
            cases hshows with
            | some hshows =>
                obtain ⟨buf', hbuf', hle, -⟩ := hshows.key
                obtain rfl := Option.some.inj hbuf'
                exact ⟨block, hblock, hlen ▸ hle⟩
  · rintro (rfl | ⟨block, hkey, hblock⟩) n
    · have hgetkvlen : cdbGetkvlen d.st.1.db cdbFinalSize = none := cdbGetkvlen_end hc
      refine dumpNextTimes_end n (d := d.begin) ?_
      rw [hpos, sdbDumpDupnext]
      have hgetkvlen' : cdbGetkvlen d.begin.st.1.db cdbFinalSize = none := hgetkvlen
      rw [hgetkvlen']
    · exact dumpNextTimes_of_buffer n (d := d.begin) hkey hblock

/-- **`sdb_dump_next`** agrees with `sdb_dump_dupnext`, in whatever state the database is, exactly
on the files without records. -/
theorem dumpNext_agrees_iff {fd : CStr} {recs : List CdbRec} {w w' : World} {file : Bytes}
    (h : cdbMakeFile fd recs w = .ok () w') (hfile : w'.fs fd = some file)
    (hk : ∀ r ∈ recs, r.Readable) {d : Scanning} (hd : ScanReachable d) (hopen : d.Opens file) :
    d.Agrees ↔ recs = [] := by
  obtain ⟨hfs, hfit, -⟩ := (cdbMakeFile_ends fd recs w).of_ok h
  obtain rfl : file = cdbImage recs := Option.some.inj (hfile.symm.trans hfs)
  rw [agrees_iff_buffer hfit hk hopen, hd.key]
  constructor
  · rintro (hnil | ⟨block, hblock, -⟩)
    · exact hnil
    · cases hblock
  · exact .inl

theorem opens_newOn {file : Bytes} (htext : sdbTextCheck (some file) = false) :
    (Scanning.new (newOn file)).Opens file := by
  rw [newOn_eq htext]
  exact ⟨rfl, rfl⟩

/-- A file without records. -/
theorem dumpNext_agrees_nil : ∃ w' file,
    (cdbMakeFile CStr.empty [] .empty = .ok () w' ∧ w'.fs CStr.empty = some file ∧
      ScanReachable (.new (newOn file)) ∧ (Scanning.new (newOn file)).Opens file) ∧
    (Scanning.new (newOn file)).Agrees := by
  have hfit : Fitting [] := ⟨by decide, by rw [length_cdbImage_eq]; decide⟩
  obtain ⟨w', hw'⟩ := cdbMakeFile_eq_ok hfit (cdbRoom_of_length (by decide)) CStr.empty
    (w := .empty)
    fun _ ↦ rfl
  have hfile := ((cdbMakeFile_ends _ _ _).of_ok hw').1
  have htext : sdbTextCheck (some (cdbImage [])) = false := sdbTextCheck_cdbImage (by decide)
  have hreach : ScanReachable (.new (newOn (cdbImage []))) := .new ⟨_, _, _, rfl⟩
  have hopen := opens_newOn htext
  exact ⟨w', _, ⟨hw', hfile, hreach, hopen⟩,
    (dumpNext_agrees_iff hw' hfile (by decide) hreach hopen).mpr rfl⟩

/-- The record `x=1`. -/
theorem not_dumpNext_agrees : ∃ w' file,
    cdbMakeFile CStr.empty (fileX.map KvRec.raw) .empty = .ok () w' ∧ w'.fs CStr.empty = some file ∧
      (∀ r ∈ fileX.map KvRec.raw, r.Readable) ∧ ScanReachable (.new (newOn file)) ∧
      (Scanning.new (newOn file)).Opens file ∧ ¬ (Scanning.new (newOn file)).Agrees := by
  obtain ⟨w', hw'⟩ := cdbMakeFile_eq_ok fileX_fitting (cdbRoom_of_length (by decide)) CStr.empty
    (w := .empty) fun _ ↦ rfl
  have hfile := ((cdbMakeFile_ends _ _ _).of_ok hw').1
  have hk : ∀ r ∈ fileX.map KvRec.raw, r.Readable := by decide
  have hreach : ScanReachable (.new (newOn (kvImage fileX))) := .new ⟨_, _, _, rfl⟩
  have hopen := opens_newOn fileX_not_text
  refine ⟨w', _, hw', hfile, hk, hreach, hopen, fun hagrees ↦ ?_⟩
  rcases (agrees_iff_buffer fileX_fitting hk hopen).mp hagrees with hnil | ⟨block, hblock, -⟩
  · exact absurd hnil (by decide)
  · rw [hreach.key] at hblock
    cases hblock

end SdbStore
