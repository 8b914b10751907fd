import SdbStore.Disk

/-!
# Which databases look like text

`sdb_open` asks `sdb_text_check` whether a file is plain text, and that function looks at no
more than the first 63 bytes.  A file that `cdb_make_finish` wrote begins with the positions
of its tables, so these bytes are determined by the sizes of the records and the low bytes
of their hashes.  This file says which sizes make a database look like text.
-/

namespace SdbStore

open Lib

/-! ## What the check looks for -/

/-- An equal sign with nothing but plain characters before it, and a newline. -/
def TextLine (l : Bytes) : Prop :=
  ∃ pre post, l = pre ++ 61 :: post ∧ (∀ c ∈ pre, 10 ≤ c ∧ c ≤ 126) ∧ 10 ∈ pre ++ post

theorem hasEq_foldl (l : Bytes) (t : TextFlags) :
    (l.foldl textCheckStep t).hasEq = true ↔ t.hasEq = true ∨ 61 ∈ l := by
  induction l generalizing t with
  | nil => simp
  | cons c l ih =>
      have hstep : (textCheckStep t c).hasEq = true ↔ t.hasEq = true ∨ 61 = c := by
        rw [textCheckStep]
        split
        · next h => simp [h]
        · next h =>
            have hne : ¬ 61 = c := fun h' ↦ h h'.symm
            split
            · simp [hne]
            · split
              · simp [hne]
              · simp [hne]
      rw [List.foldl_cons, ih, hstep, List.mem_cons, or_assoc]

theorem hasNl_foldl (l : Bytes) (t : TextFlags) :
    (l.foldl textCheckStep t).hasNl = true ↔ t.hasNl = true ∨ 10 ∈ l := by
  induction l generalizing t with
  | nil => simp
  | cons c l ih =>
      have hstep : (textCheckStep t c).hasNl = true ↔ t.hasNl = true ∨ 10 = c := by
        rw [textCheckStep]
        split
        · next h => simp [h]
        · split
          · next h => simp [h]
          · next h =>
              have hne : ¬ 10 = c := fun h' ↦ h h'.symm
              split
              · simp [hne]
              · simp [hne]
      rw [List.foldl_cons, ih, hstep, List.mem_cons, or_assoc]

/-- Once an equal sign has been seen every byte is as good as another. -/
theorem isAscii_foldl_hasEq (l : Bytes) {t : TextFlags} (h : t.hasEq = true) :
    (l.foldl textCheckStep t).isAscii = t.isAscii := by
  induction l generalizing t with
  | nil => rfl
  | cons c l ih =>
      rw [List.foldl_cons]
      have hstep : (textCheckStep t c).hasEq = true ∧ (textCheckStep t c).isAscii = t.isAscii := by
        rw [textCheckStep, h]
        split
        · exact ⟨rfl, rfl⟩
        · split
          · exact ⟨rfl, rfl⟩
          · exact ⟨h, rfl⟩
      rw [ih hstep.1, hstep.2]

/-- Before the first equal sign the bytes have to be plain ones. -/
theorem isAscii_foldl_iff {pre : Bytes} (hpre : (61 : UInt8) ∉ pre) {t : TextFlags}
    (h : t.hasEq = false) :
    (pre.foldl textCheckStep t).isAscii = true ↔
      t.isAscii = true ∧ ∀ c ∈ pre, 10 ≤ c ∧ c ≤ 126 := by
  induction pre generalizing t with
  | nil => simp
  | cons c pre ih =>
      have hc : ¬ c = 61 := fun hc ↦ hpre (List.mem_cons.mpr (.inl hc.symm))
      have hrest : (61 : UInt8) ∉ pre := fun hmem ↦ hpre (List.mem_cons_of_mem c hmem)
      have hstep : (textCheckStep t c).hasEq = false ∧ ((textCheckStep t c).isAscii = true ↔
          t.isAscii = true ∧ 10 ≤ c ∧ c ≤ 126) := by
        rw [textCheckStep, if_neg hc]
        split
        · next h10 =>
            subst h10
            exact ⟨h, by simp⟩
        · split
          · next hbad =>
              refine ⟨h, ?_⟩
              simp only [h, Bool.not_false, Bool.true_and, Bool.or_eq_true, decide_eq_true_eq]
                at hbad
              refine iff_of_false (by simp) ?_
              rintro ⟨-, hle, hge⟩
              rcases hbad with hlt | hgt
              · exact absurd hle (UInt8.not_le.mpr hlt)
              · exact absurd hge (UInt8.not_le.mpr hgt)
          · next hok =>
              refine ⟨h, ?_⟩
              simp only [h, Bool.not_false, Bool.true_and, Bool.or_eq_true, decide_eq_true_eq,
                not_or] at hok
              simp [UInt8.not_lt.mp hok.1, UInt8.not_lt.mp hok.2]
      rw [List.foldl_cons, ih hrest hstep.1, hstep.2, List.forall_mem_cons, and_assoc]

/-- The flags say that the bytes are a line of text. -/
theorem textLine_iff (l : Bytes) :
    ((l.foldl textCheckStep ⟨true, false, false⟩).isAscii = true ∧
      (l.foldl textCheckStep ⟨true, false, false⟩).hasNl = true ∧
      (l.foldl textCheckStep ⟨true, false, false⟩).hasEq = true) ↔ TextLine l := by
  rw [hasEq_foldl, hasNl_foldl]
  constructor
  · rintro ⟨hascii, hnl, heq⟩
    have hmem : 61 ∈ l := by simpa using heq
    -- the first equal sign
    obtain ⟨pre, post, rfl, hpre⟩ := List.eq_append_cons_of_mem hmem
    refine ⟨pre, post, rfl, ?_, ?_⟩
    · rw [List.foldl_append, List.foldl_cons, isAscii_foldl_hasEq post (by simp [textCheckStep])]
        at hascii
      exact ((isAscii_foldl_iff hpre rfl).mp (by simpa [textCheckStep] using hascii)).2
    · simpa using hnl
  · rintro ⟨pre, post, rfl, hplain, hnl⟩
    refine ⟨?_, .inr (by simpa using hnl), .inr (by simp)⟩
    by_cases hpre : (61 : UInt8) ∈ pre
    · obtain ⟨pre, mid, rfl, hfirst⟩ := List.eq_append_cons_of_mem hpre
      rw [List.append_assoc, List.cons_append, List.foldl_append, List.foldl_cons,
        isAscii_foldl_hasEq _ (by simp [textCheckStep])]
      have h := (isAscii_foldl_iff hfirst (t := ⟨true, false, false⟩) rfl).mpr
        ⟨rfl, fun c hc ↦ hplain c (List.mem_append_left _ hc)⟩
      simpa [textCheckStep] using h
    · rw [List.foldl_append, List.foldl_cons, isAscii_foldl_hasEq post (by simp [textCheckStep])]
      have h := (isAscii_foldl_iff hpre (t := ⟨true, false, false⟩) rfl).mpr ⟨rfl, hplain⟩
      simpa [textCheckStep] using h

/-- `sdb_text_check` on a file of any contents. -/
theorem sdbTextCheck_eq_true_iff (f : Bytes) :
    sdbTextCheck (some f) = true ↔ 4 < f.length ∧ TextLine ((f.take 63).takeWhile (· != 0)) := by
  rw [← textLine_iff]
  simp only [sdbTextCheck, textFlags, Bool.and_eq_true, decide_eq_true_eq, and_assoc, gt_iff_lt]

/-! ## The first bytes of a database -/

/-- Where the records of a file end and its tables begin. -/
def recordsEnd (recs : List CdbRec) : Nat :=
  1024 + (recs.map fun r ↦ 6 + r.1.length + r.2.length).sum

/-- The position of a table: each record takes two slots, and the tables are in the order of
the low byte of the hash. -/
def tableStart (recs : List CdbRec) (i : Nat) : Nat :=
  recordsEnd recs + 16 * recs.countP fun r ↦ sdbHash r.1 % 256 < i

/-- The first 63 bytes of a file up to the first NUL: the positions of sixteen tables. -/
def firstBytes (recs : List CdbRec) : Bytes :=
  (((List.range 16).flatMap fun i ↦ le32 (tableStart recs i)).take 63).takeWhile (· != 0)

theorem countP_lt_succ (recs : List CdbRec) (i : Nat) :
    (recs.countP fun r ↦ sdbHash r.1 % 256 < i + 1) =
      (recs.countP fun r ↦ sdbHash r.1 % 256 < i) +
        recs.countP fun r ↦ sdbHash r.1 % 256 == i := by
  induction recs with
  | nil => rfl
  | cons r recs ih =>
      simp only [List.countP_cons, ih, decide_eq_true_eq, beq_iff_eq]
      split_ifs <;> omega

theorem cdbTablePos_eq (recs : List CdbRec) (i : Nat) : cdbTablePos recs i = tableStart recs i := by
  induction i with
  | zero => simp [cdbTablePos_zero, tableStart, recordsEnd, length_cdbBody, cdbFinalSize]
  | succ i ih =>
      rw [cdbTablePos_succ, ih, length_cdbTable, length_cdbBucket, tableStart, tableStart,
        countP_lt_succ]
      omega

theorem sdbTextCheck_cdbImage_iff (recs : List CdbRec) :
    sdbTextCheck (some (cdbImage recs)) = true ↔ TextLine (firstBytes recs) := by
  have hheader : cdbHeader recs 16 = (List.range 16).flatMap fun i ↦ le32 (tableStart recs i) := by
    simp only [cdbHeader, cdbTablePos_eq]
  have hlen := length_cdbHeader recs 16
  rw [sdbTextCheck_header, sdbTextCheck_eq_true_iff, firstBytes, ← hheader]
  exact and_iff_right (by omega)

/-- `sdb_open` takes the file for a database and maps the whole of it. -/
def OpensMapped (file : Bytes) : Prop :=
  ∀ (s : Sdb) (w : World) (name : CStr), w.fs name = some file →
    sdbOpen s w name = (true,
      { s with dir := some name, fd := some file, db := ⟨some file, some file, file.length⟩ }, w)

theorem cdbInit_cdbImage {recs : List CdbRec} (hfit : Fitting recs) :
    (cdbInit (some (cdbImage recs))).2 =
      ⟨some (cdbImage recs), some (cdbImage recs), (cdbImage recs).length⟩ := by
  have hsize := hfit.size
  have hlen := length_cdbImage_eq recs
  rw [cdbInit, if_pos (by rw [hlen, cdbFinalSize]; omega), ut32_of_lt hsize]

/-- A file that was written is taken for a database exactly when the positions of its first
tables do not spell a line of text. -/
theorem not_text_cdbMakeFile_iff {fd : CStr} {recs : List CdbRec} {w w' : World} {file : Bytes}
    (h : cdbMakeFile fd recs w = .ok () w') (hfile : w'.fs fd = some file) :
    (sdbTextCheck (some file) = false ∧ OpensMapped file) ↔ ¬ TextLine (firstBytes recs) := by
  obtain ⟨hfs, hfit, -⟩ := (cdbMakeFile_ends fd recs w).of_ok h
  obtain rfl : file = cdbImage recs := Option.some.inj (hfile.symm.trans hfs)
  rw [← sdbTextCheck_cdbImage_iff, Bool.not_eq_true]
  refine ⟨And.left, fun htext ↦ ⟨htext, ?_⟩⟩
  intro s w name hname
  rw [sdbOpen_file hname htext, cdbInit_cdbImage hfit]

/-- Below 16 MiB the position of the first table decides alone. -/
theorem firstBytes_of_lt {recs : List CdbRec} (h : recordsEnd recs < 16777216) :
    firstBytes recs = ((le32 (recordsEnd recs)).take 3).takeWhile (· != 0) := by
  have hzero : UInt8.ofNat (recordsEnd recs / 16777216) = 0 := by
    rw [Nat.div_eq_of_lt h]
    rfl
  have hstart : tableStart recs 0 = recordsEnd recs := by simp [tableStart]
  have hrange : List.range 16 = 0 :: (List.range 15).map Nat.succ := List.range_succ_eq_map
  rw [firstBytes, hrange, List.flatMap_cons, hstart, le32, hzero]
  simp only [List.cons_append, List.nil_append, List.take_succ_cons, List.take_zero,
    List.takeWhile_cons]
  simp

/-- A file of one short record. -/
theorem not_text_short : ∃ w' file,
    cdbMakeFile CStr.empty [(CStr.ofBytes [97], [49])] .empty = .ok () w' ∧
      w'.fs CStr.empty = some file ∧ sdbTextCheck (some file) = false ∧ OpensMapped file := by
  have hfit : Fitting [(CStr.ofBytes [97], [49])] :=
    ⟨by decide, by rw [length_cdbImage_eq]; decide⟩
  obtain ⟨w', hw'⟩ := cdbMakeFile_eq_ok hfit (cdbRoom_of_length (by decide)) CStr.empty
    (w := .empty)
    fun _ ↦ rfl
  have hfile := ((cdbMakeFile_ends _ _ _).of_ok hw').1
  refine ⟨w', _, hw', hfile, (not_text_cdbMakeFile_iff hw' hfile).mpr ?_⟩
  rw [firstBytes_of_lt (by decide)]
  rintro ⟨pre, post, heq, -, -⟩
  have hmem : (61 : UInt8) ∈ [8, 4] := by
    rw [show [8, 4] = pre ++ 61 :: post from heq]
    simp
  exact absurd hmem (by decide)

/-- The records of this file end at 2621, whose bytes are an equal sign and a newline. -/
theorem text_2621 : ∃ w' file,
    cdbMakeFile CStr.empty [(CStr.ofBytes [97], List.replicate 1590 49)] .empty = .ok () w' ∧
      w'.fs CStr.empty = some file ∧ ¬ (sdbTextCheck (some file) = false ∧ OpensMapped file) := by
  have hfit : Fitting [(CStr.ofBytes [97], List.replicate 1590 49)] := by
    refine ⟨?_, ?_⟩
    · simp only [List.mem_singleton, forall_eq, CdbRec.Fits, List.length_replicate]
      decide
    · rw [length_cdbImage_eq, length_cdbBody]
      simp only [List.map_cons, List.map_nil, List.length_replicate]
      decide
  obtain ⟨w', hw'⟩ := cdbMakeFile_eq_ok hfit (cdbRoom_of_length (by decide)) CStr.empty
    (w := .empty)
    fun _ ↦ rfl
  have hfile := ((cdbMakeFile_ends _ _ _).of_ok hw').1
  refine ⟨w', _, hw', hfile, ?_⟩
  have hend : recordsEnd [(CStr.ofBytes [97], List.replicate 1590 49)] = 2621 := by
    simp only [recordsEnd, List.map_cons, List.map_nil, List.length_replicate]
    decide
  have htext : TextLine (firstBytes [(CStr.ofBytes [97], List.replicate 1590 49)]) := by
    rw [firstBytes_of_lt (by rw [hend]; decide), hend]
    exact ⟨[], [10], rfl, by simp, by simp⟩
  rintro ⟨hfalse, -⟩
  rw [(sdbTextCheck_cdbImage_iff _).mpr htext] at hfalse
  cases hfalse

end SdbStore
