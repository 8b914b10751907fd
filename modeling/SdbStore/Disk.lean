import SdbStore.Entry

/-!
# A database over a written file

What the functions of `sdb.c` read when the file behind the database is one that
`cdb_make.c` wrote.  A lookup gives the first record with the key; the scan of
`sdb_foreach_cdb` gives the records when it can step over all of them and when it
stops behind the last one, which depends on the hash that stands there.
-/

namespace SdbStore

open Lib

/-- A key with its value, as `sdb_disk_insert` takes them. -/
abbrev KvRec := CStr × CStr

/-- The record that is written for a pair. -/
def KvRec.raw (r : KvRec) : CdbRec := (r.1, r.2.val)

/-- The file that holds `recs`. -/
def kvImage (recs : List KvRec) : Bytes := cdbImage (recs.map KvRec.raw)

/-- Pairs that make a file. -/
def KvFitting (recs : List KvRec) : Prop := Fitting (recs.map KvRec.raw)

/-- The file behind the database is open and holds `recs`. -/
structure Sdb.Holds (s : Sdb) (recs : List KvRec) : Prop where
  fitting : KvFitting recs
  fd : s.fd = some (kvImage recs)
  db : s.db.Over (kvImage recs)

/-- No file is open behind the database; a mapping may be left from an earlier one. -/
structure Sdb.Bare (s : Sdb) : Prop where
  fd : s.fd = none
  dbFd : s.db.fd = none

/-- The file behind the database, if one is open, is a written one. -/
def Sdb.Backed (s : Sdb) : Prop := (∃ recs, s.Holds recs) ∨ s.Bare

theorem KvRec.raw_injective : Function.Injective KvRec.raw := by
  intro r r' h
  obtain ⟨hk, hv⟩ := Prod.mk.inj h
  exact Prod.ext hk (CStr.ext hv)

/-- The records behind a database are determined by it. -/
theorem Sdb.Holds.unique {s : Sdb} {recs recs' : List KvRec} (h : s.Holds recs)
    (h' : s.Holds recs') : recs = recs' :=
  List.map_injective_iff.mpr KvRec.raw_injective
    (cdbImage_injective h.fitting h'.fitting (Option.some.inj (h.fd.symm.trans h'.fd)))

/-! ## Lookups -/

theorem lookup_raw (recs : List KvRec) (k : CStr) :
    Keyed.lookup Prod.fst (recs.map KvRec.raw) k =
      (Keyed.lookup Prod.fst recs k).map KvRec.raw := by
  rw [Keyed.lookup, List.find?_map]
  rfl

/-- `cdb_findnext` on the file of `recs`: the value of the first record with the key. -/
theorem cdbLookup_holds {s : Sdb} {recs : List KvRec} (h : s.Holds recs) (k : CStr) :
    match Keyed.lookup Prod.fst recs k with
    | none => (cdbLookup s.db k).1 = 0
    | some r => (cdbLookup s.db k).1 = 1 ∧ (cdbLookup s.db k).2.dlen = r.2.length + 1 ∧
        slice (kvImage recs) (cdbLookup s.db k).2.dpos (r.2.length + 1) = r.2.bytesZ := by
  have hfind := cdbFindnext_image h.fitting h.db ⟨0, 0, 0, 0, 0, 0, 0⟩ k
  rw [lookup_raw] at hfind
  cases hr : Keyed.lookup Prod.fst recs k with
  | none =>
      rw [hr] at hfind
      exact hfind
  | some r =>
      rw [hr] at hfind
      obtain ⟨h₁, hlen, hslice⟩ := hfind
      refine ⟨h₁, hlen, ?_⟩
      rw [hlen] at hslice
      exact hslice

theorem cdbLookup_of_none {s : Sdb} {recs : List KvRec} (h : s.Holds recs) {k : CStr}
    (hk : Keyed.lookup Prod.fst recs k = none) : (cdbLookup s.db k).1 = 0 := by
  have hfind := cdbLookup_holds h k
  rw [hk] at hfind
  exact hfind

theorem cdbLookup_of_some {s : Sdb} {recs : List KvRec} (h : s.Holds recs) {k : CStr} {r : KvRec}
    (hk : Keyed.lookup Prod.fst recs k = some r) : (cdbLookup s.db k).1 = 1 := by
  have hfind := cdbLookup_holds h k
  rw [hk] at hfind
  exact hfind.1

/-- What a lookup gives for a record of the file: the length counts the NUL. -/
def diskGot : Option KvRec → Got
  | none => .null
  | some r => ⟨some r.2, r.2.length + 1, 0⟩

theorem mem_of_lookup {recs : List KvRec} {k : CStr} {r : KvRec}
    (h : Keyed.lookup Prod.fst recs k = some r) : r ∈ recs ∧ r.1 = k :=
  Keyed.lookup_some_mem h

theorem KvFitting.length_lt {recs : List KvRec} (h : KvFitting recs) {r : KvRec} (hr : r ∈ recs) :
    r.1.length + 1 ≤ sdbMaxKey ∧ r.2.length + 1 < sdbMaxValue :=
  h.fits r.raw (List.mem_map_of_mem hr)

theorem sdbGetDisk_holds {s : Sdb} {recs : List KvRec} (h : s.Holds recs) (k : CStr) :
    sdbGetDisk s k = diskGot (Keyed.lookup Prod.fst recs k) := by
  have hfind := cdbLookup_holds h k
  rw [sdbGetDisk, h.fd]
  dsimp only
  cases hr : Keyed.lookup Prod.fst recs k with
  | none =>
      rw [hr] at hfind
      rw [if_pos (by rw [hfind]; decide)]
      rfl
  | some r =>
      rw [hr] at hfind
      obtain ⟨h₁, hlen, hslice⟩ := hfind
      have hlt := (h.fitting.length_lt (mem_of_lookup hr).1).2
      rw [if_neg (by rw [h₁]; decide), hlen, if_neg (by omega), h.db.map, Option.getD_some]
      have hdrop : (kvImage recs).drop (cdbLookup s.db k).2.dpos = r.2.bytesZ ++
          ((kvImage recs).drop (cdbLookup s.db k).2.dpos).drop (r.2.length + 1) := by
        rw [← hslice]
        exact (List.take_append_drop _ _).symm
      rw [hdrop, CStr.ofBytes_bytesZ_append]
      rfl

theorem sdbGetDisk_bare {s : Sdb} (h : s.Bare) (k : CStr) : sdbGetDisk s k = .null := by
  rw [sdbGetDisk, h.fd]

theorem cdbLookup_bare {s : Sdb} (h : s.Bare) (k : CStr) : (cdbLookup s.db k).1 = -1 := by
  rw [cdbLookup, cdbFindnext, h.dbFd]

theorem KvFitting.over {recs : List KvRec} (h : KvFitting recs) :
    (cdbInit (some (kvImage recs))).2.Over (kvImage recs) :=
  (cdbInit_image h).2

/-- A file that is opened as a database and not as text. -/
theorem sdbOpen_file {w : World} {file : CStr} {f : Bytes} (hfile : w.fs file = some f)
    (htext : sdbTextCheck (some f) = false) (s : Sdb) :
    sdbOpen s w file =
      (true, { s with dir := some file, fd := some f, db := (cdbInit (some f)).2 }, w) := by
  rw [sdbOpen, hfile, if_neg (by rw [htext]; decide)]

theorem sdbOpen_holds {s : Sdb} {w : World} {file : CStr} {recs : List KvRec}
    (hfit : KvFitting recs) (hfile : w.fs file = some (kvImage recs))
    (htext : sdbTextCheck (some (kvImage recs)) = false) :
    (sdbOpen s w file).1 = true ∧ (sdbOpen s w file).2.1.Holds recs ∧
      (sdbOpen s w file).2.1.ht = s.ht ∧ (sdbOpen s w file).2.2 = w := by
  rw [sdbOpen_file hfile htext]
  exact ⟨rfl, ⟨hfit, rfl, hfit.over⟩, rfl, rfl⟩

theorem sdbNew_absent {w : World} {path name : CStr} (hname : FileName name)
    (hfile : w.fs (sdbNewDir path name) = none) :
    sdbNew w path name =
      ({ sdbNew0 with dir := some (sdbNewDir path name), name := some name }, w) := by
  rw [sdbNew, if_pos hname]
  dsimp only
  rw [sdbOpen, hfile, if_neg (by decide)]
  rfl

theorem sdbNew_file {w : World} {path name : CStr} {f : Bytes} (hname : FileName name)
    (hfile : w.fs (sdbNewDir path name) = some f) (htext : sdbTextCheck (some f) = false) :
    sdbNew w path name =
      ({ sdbNew0 with
          dir := some (sdbNewDir path name)
          name := some name
          fd := some f
          db := (cdbInit (some f)).2 }, w) := by
  rw [sdbNew, if_pos hname]
  dsimp only
  rw [sdbOpen_file hfile htext]

/-- A write leaves the file behind the database as it is. -/
theorem Wrote.holds {s : Sdb} {key : CStr} {e : Nat × Option SdbKv} {r : Nat × Sdb × World}
    (h : Wrote s key e r) {recs : List KvRec} (hs : s.Holds recs) : r.2.1.Holds recs := by
  rw [h.frame]
  exact ⟨hs.fitting, hs.fd, hs.db⟩

theorem Wrote.bare {s : Sdb} {key : CStr} {e : Nat × Option SdbKv} {r : Nat × Sdb × World}
    (h : Wrote s key e r) (hs : s.Bare) : r.2.1.Bare := by
  rw [h.frame]
  exact ⟨hs.fd, hs.dbFd⟩

/-! ## The first bytes of a written file -/

theorem isAscii_foldl (l : Bytes) {t : TextFlags} (h : t.isAscii = false) :
    (l.foldl textCheckStep t).isAscii = false := by
  induction l generalizing t with
  | nil => exact h
  | cons c l ih =>
      refine ih ?_
      rw [textCheckStep]
      split
      · exact h
      · split
        · exact h
        · split
          · rfl
          · exact h

/-- A file that begins with a control character is not taken for text. -/
theorem sdbTextCheck_cons {c : UInt8} (hc : c < 10) (f : Bytes) :
    sdbTextCheck (some (c :: f)) = false := by
  have hne : ¬ c = 61 ∧ ¬ c = 10 := by
    constructor
    · rintro rfl
      exact absurd hc (by decide)
    · rintro rfl
      exact absurd hc (by decide)
  by_cases h0 : c = 0
  · simp [sdbTextCheck, textFlags, h0]
  · have hflags : (textFlags (c :: f)).isAscii = false := by
      rw [textFlags, List.take_succ_cons, List.takeWhile_cons_of_pos (by simpa using h0),
        List.foldl_cons]
      refine isAscii_foldl _ ?_
      simp [textCheckStep, hne.1, hne.2, hc]
    simp [sdbTextCheck, hflags]

/-- The first bytes of a file are the position of its first table, which is where its
records end. -/
theorem cdbImage_eq_append (recs : List CdbRec) :
    cdbImage recs = le32 (cdbFinalSize + (cdbBody recs).length) ++ (cdbImage recs).drop 4 := by
  have h := slice_header recs (i := 0) (by decide)
  rw [cdbTablePos_zero] at h
  conv_lhs => rw [← List.take_append_drop 4 (cdbImage recs)]
  rw [← h]
  rfl

theorem sdbTextCheck_cdbImage {recs : List CdbRec}
    (h : UInt8.ofNat (cdbFinalSize + (cdbBody recs).length) < 10) :
    sdbTextCheck (some (cdbImage recs)) = false := by
  rw [cdbImage_eq_append, le32, List.cons_append]
  exact sdbTextCheck_cons h _

/-- Only the positions of the first sixteen tables matter. -/
theorem sdbTextCheck_header (recs : List CdbRec) :
    sdbTextCheck (some (cdbImage recs)) = sdbTextCheck (some (cdbHeader recs 16)) := by
  have hheader : cdbHeader recs 256 = cdbHeader recs 16 ++
      ((List.range 240).map (16 + ·)).flatMap fun j ↦ le32 (cdbTablePos recs j) := by
    rw [cdbHeader, show 256 = 16 + 240 from rfl, List.range_add, List.flatMap_append]
    rfl
  have hlen := length_cdbHeader recs 16
  have hflags : textFlags (cdbImage recs) = textFlags (cdbHeader recs 16) := by
    rw [textFlags, textFlags, cdbImage, hheader, List.append_assoc,
      List.take_append_of_le_length (by omega)]
  have hsize : 4 < (cdbImage recs).length ∧ 4 < (cdbHeader recs 16).length := by
    rw [length_cdbImage, cdbTablePos, cdbFinalSize]
    omega
  rw [sdbTextCheck, sdbTextCheck, hflags, decide_eq_true hsize.1, decide_eq_true hsize.2]

/-! ## The scan -/

/-- How often `sdb_foreach_cdb` can go round: every round moves on in the file. -/
def scanBound (c : Cdb) : Nat := max c.size (c.fd.getD []).length + 1

/-- The records of the open file as `sdb_foreach_cdb` reads them. -/
def Sdb.scan (s : Sdb) : List Dumped := dumpLoop s.db (scanBound s.db) (sdbDumpBegin s.fd)

/-- The bytes of a key that `sdb_dump_dupnext` steps over. -/
def keySpan (klen : Nat) : Nat := if sdbMinKey < klen ∧ klen < sdbMaxKey then klen else 0

/-- The bytes of a value that `sdb_dump_dupnext` steps over. -/
def valueSpan (vlen : Nat) : Nat := if vlen < sdbMaxValue then vlen else 0

/-- The scan stops behind the records: the first slot of the tables, taken for the
header of a record, is that of an empty key or value, or of a record that does not fit
into the tables. -/
def ScanEnds (recs : List CdbRec) : Prop :=
  ∀ h, firstSlotHash recs = some h → h % 256 = 0 ∨ h < 256 ∨
    16 * recs.length < 4 + keySpan (h % 256) + valueSpan (h / 256)

/-- A read moves on by what it reads, and stays in the file. -/
theorem cdbRead_some {c : Cdb} {len pos : Nat} {b : Bytes} (h : cdbRead c len pos = some b)
    (hlen : 0 < len) : pos + len < scanBound c := by
  rw [cdbRead] at h
  rw [scanBound]
  split at h
  · split at h
    · cases h
    · omega
  · split at h
    · cases h
    · next f hf =>
        split at h
        · cases h
        · rw [hf, Option.getD_some]
          omega

theorem cdbGetkvlen_some {c : Cdb} {pos : Nat} {kv : Nat × Nat} (h : cdbGetkvlen c pos = some kv) :
    pos + 4 < scanBound c := by
  rw [cdbGetkvlen, Option.bind_eq_bind, Option.bind_eq_some_iff] at h
  obtain ⟨buf, hbuf, -⟩ := h
  exact cdbRead_some hbuf (by decide)

/-- Every round of the scan moves on, and stays in the file. -/
theorem sdbDumpDupnext_pos {c : Cdb} (hc : scanBound c ≤ 4294967296) {pos : Nat} {d : Dumped}
    {pos' : Nat} (h : sdbDumpDupnext c pos = (some d, pos')) :
    pos < pos' ∧ pos' < scanBound c := by
  rw [sdbDumpDupnext] at h
  cases hkv : cdbGetkvlen c pos with
  | none =>
      rw [hkv] at h
      cases h
  | some kv =>
      obtain ⟨klen, vlen⟩ := kv
      have h₄ := cdbGetkvlen_some hkv
      rw [hkv] at h
      dsimp only at h
      rw [ut32_of_lt (by omega)] at h
      by_cases hz : klen < 1 ∨ vlen < 1
      · rw [if_pos hz] at h
        cases h
      rw [if_neg hz] at h
      -- the key moves the position on within the file
      have hkey : ∀ k p, dupnextKey c klen (pos + 4) = some (k, p) →
          pos + 4 ≤ p ∧ p < scanBound c := by
        intro k p hk
        rw [dupnextKey] at hk
        split at hk
        · cases hread : cdbRead c klen (pos + 4) with
          | none =>
              rw [hread] at hk
              cases hk
          | some b =>
              have hlt := cdbRead_some hread (by omega)
              rw [hread, Option.map_some, Option.some.injEq, Prod.mk.injEq,
                ut32_of_lt (by omega)] at hk
              omega
        · rw [Option.some.injEq, Prod.mk.injEq] at hk
          omega
      cases hk : dupnextKey c klen (pos + 4) with
      | none =>
          rw [hk] at h
          cases h
      | some kp =>
          obtain ⟨k, p⟩ := kp
          have hp := hkey k p hk
          rw [hk] at h
          dsimp only at h
          by_cases hv : vlen < sdbMaxValue
          · rw [if_pos hv] at h
            cases hread : cdbRead c vlen p with
            | none =>
                rw [hread] at h
                cases h
            | some b =>
                have hlt := cdbRead_some hread (by omega)
                rw [hread, Prod.mk.injEq, ut32_of_lt (by omega)] at h
                omega
          · rw [if_neg hv, Prod.mk.injEq] at h
            omega

/-- The scan ends by itself: more rounds than `scanBound` find nothing more. -/
theorem dumpLoop_scanBound {c : Cdb} (hc : scanBound c ≤ 4294967296) {n : Nat}
    (hn : scanBound c ≤ n) (pos : Nat) : dumpLoop c n pos = dumpLoop c (scanBound c) pos := by
  have key : ∀ (n m pos : Nat), scanBound c ≤ pos + n → scanBound c ≤ pos + m → 0 < n → 0 < m →
      dumpLoop c n pos = dumpLoop c m pos := by
    intro n
    induction n with
    | zero => exact fun _ _ _ _ h ↦ absurd h (Nat.lt_irrefl 0)
    | succ n ih =>
        intro m pos hn hm _ hm₀
        obtain ⟨m, rfl⟩ := Nat.exists_eq_succ_of_ne_zero (Nat.pos_iff_ne_zero.mp hm₀)
        rw [dumpLoop, dumpLoop]
        rcases hd : sdbDumpDupnext c pos with ⟨_ | d, pos'⟩
        · rfl
        · have hpos := sdbDumpDupnext_pos hc hd
          dsimp only
          rw [ih m pos' (by omega) (by omega) (by omega) (by omega)]
  have hpos : 0 < scanBound c := Nat.succ_pos _
  exact key n (scanBound c) pos (by omega) (by omega) (by omega) hpos

theorem cdbRead_over_none {c : Cdb} {f : Bytes} (hc : c.Over f) {len pos : Nat}
    (h : f.length < pos + len) : cdbRead c len pos = none := by
  rw [cdbRead, hc.map, hc.size]
  dsimp only
  rw [if_pos (by omega)]

theorem dupnextKey_over {c : Cdb} {f : Bytes} (hc : c.Over f) (klen : Nat) {pos : Nat}
    (hpos : pos ≤ f.length) (hf : f.length < 4294967296) :
    if pos + keySpan klen ≤ f.length then ∃ k, dupnextKey c klen pos = some (k, pos + keySpan klen)
      else dupnextKey c klen pos = none := by
  rw [dupnextKey, keySpan]
  split
  · next hk =>
      split
      · next hle =>
          rw [cdbRead_over hc hle, ut32_of_lt (by omega)]
          exact ⟨_, rfl⟩
      · next hle =>
          rw [cdbRead_over_none hc (by omega)]
          rfl
  · rw [if_pos (by omega)]
    exact ⟨_, rfl⟩

/-- What the scan does behind the last record. -/
theorem sdbDumpDupnext_end {recs : List CdbRec} (hfit : Fitting recs) {c : Cdb}
    (hc : c.Over (cdbImage recs)) :
    (sdbDumpDupnext c (cdbFinalSize + (cdbBody recs).length)).1 = none ↔ ScanEnds recs := by
  have hsize := hfit.size
  have hlen := length_cdbImage_eq recs
  rw [sdbDumpDupnext, cdbGetkvlen_end hc]
  cases hh : firstSlotHash recs with
  | none =>
      refine ⟨fun _ h hsome ↦ ?_, fun _ ↦ rfl⟩
      rw [hh] at hsome
      cases hsome
  | some h =>
      have hone : 1 ≤ recs.length := by
        rcases recs with _ | ⟨r, recs⟩
        · obtain ⟨i, -, hi⟩ := List.exists_of_findSome?_eq_some hh
          cases hi
        · simp
      have hends : ScanEnds recs ↔ h % 256 = 0 ∨ h < 256 ∨
          16 * recs.length < 4 + keySpan (h % 256) + valueSpan (h / 256) := by
        refine ⟨fun hall ↦ hall h hh, fun hcond h' hh' ↦ ?_⟩
        rw [hh] at hh'
        rwa [← Option.some.inj hh']
      rw [hends, Option.map_some]
      dsimp only
      rw [ut32_of_lt (by omega)]
      by_cases hz : h % 256 < 1 ∨ h / 256 < 1
      · rw [if_pos hz]
        refine iff_of_true rfl ?_
        omega
      rw [if_neg hz, valueSpan]
      have hpos : cdbFinalSize + (cdbBody recs).length + 4 ≤ (cdbImage recs).length := by omega
      have hkey := dupnextKey_over hc (h % 256) hpos hsize
      split at hkey
      · next hle =>
          obtain ⟨k, hk⟩ := hkey
          rw [hk]
          dsimp only
          by_cases hv : h / 256 < sdbMaxValue
          · rw [if_pos hv, if_pos hv]
            by_cases hr : cdbFinalSize + (cdbBody recs).length + 4 + keySpan (h % 256) + h / 256 ≤
                (cdbImage recs).length
            · rw [cdbRead_over hc hr]
              exact iff_of_false (by simp) (by omega)
            · rw [cdbRead_over_none hc (by omega)]
              exact iff_of_true rfl (by omega)
          · rw [if_neg hv, if_neg hv]
            exact iff_of_false (by simp) (by omega)
      · next hle =>
          rw [hkey]
          exact iff_of_true rfl (.inr (.inr (by omega)))

/-- The loop over the records of a file; `pre` stands before the scan. -/
theorem dumpLoop_image {c : Cdb} (pre post : List CdbRec) (hfit : Fitting (pre ++ post))
    (hc : c.Over (cdbImage (pre ++ post))) (hk : ∀ r ∈ post, r.Readable)
    (hends : ScanEnds (pre ++ post)) {n : Nat} (hn : post.length < n) :
    dumpLoop c n (cdbFinalSize + (cdbBody pre).length) = post.map CdbRec.dumped := by
  induction post generalizing pre n with
  | nil =>
      obtain ⟨n, rfl⟩ := Nat.exists_eq_succ_of_ne_zero (Nat.ne_zero_of_lt hn)
      rw [List.append_nil] at hfit hc hends
      have hend := (sdbDumpDupnext_end hfit hc).mpr hends
      rw [dumpLoop]
      rcases hd : sdbDumpDupnext c (cdbFinalSize + (cdbBody pre).length) with ⟨_ | d, pos'⟩
      · rfl
      · rw [hd] at hend
        cases hend
  | cons r post ih =>
      obtain ⟨n, rfl⟩ := Nat.exists_eq_succ_of_ne_zero (Nat.ne_zero_of_lt hn)
      have hstep := sdbDumpDupnext_rec hc hfit.size (recAt_image pre r post)
        (hfit.fits r (by simp)) (hk r (by simp))
      rw [dumpLoop, hstep]
      dsimp only
      have happ : pre ++ r :: post = (pre ++ [r]) ++ post := by simp
      rw [happ] at hfit hc hends
      have hrest := ih (pre ++ [r]) hfit hc (fun r' hr' ↦ hk r' (by simp [hr'])) hends
        (Nat.lt_of_succ_lt_succ hn)
      rw [length_cdbBody_append_singleton, ← Nat.add_assoc] at hrest
      rw [hrest]
      rfl

/-- The scan steps over each of the records and stops behind them. -/
structure Scans (recs : List KvRec) : Prop where
  readable : ∀ r ∈ recs, r.raw.Readable
  ends : ScanEnds (recs.map KvRec.raw)

theorem scan_holds {s : Sdb} {recs : List KvRec} (h : s.Holds recs) (hs : Scans recs) :
    s.scan = recs.map fun r ↦ r.raw.dumped := by
  have hc := h.db
  have hloop := dumpLoop_image (c := s.db) [] (recs.map KvRec.raw) h.fitting hc
    (fun r hr ↦ ?_) hs.ends (n := scanBound s.db) ?_
  · rw [Sdb.scan, h.fd, sdbDumpBegin]
    rw [List.map_map] at hloop
    exact hloop
  · obtain ⟨r', hr', rfl⟩ := List.mem_map.mp hr
    exact hs.readable r' hr'
  · have hlen := length_cdbImage_eq (recs.map KvRec.raw)
    rw [scanBound, hc.size, kvImage]
    omega

/-- Without a file and a mapping there is nothing to scan. -/
theorem scan_bare {s : Sdb} (h : s.Bare) (hmap : s.db.map = none) : s.scan = [] := by
  have hread : ∀ len pos, cdbRead s.db len pos = none := fun len pos ↦ by
    rw [cdbRead, hmap, h.dbFd]
  rw [Sdb.scan, scanBound, dumpLoop, sdbDumpDupnext, cdbGetkvlen, hread]
  rfl

end SdbStore
