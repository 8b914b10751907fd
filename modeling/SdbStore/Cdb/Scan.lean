import SdbStore.Cdb.Find

/-!
# Scanning the records of a CDB file

`sdb_dump_begin`, `sdb_dump_hasnext` and `sdb_dump_dupnext` read the records of a file
one after another by their lengths alone.  On a file that `cdb_make.c` wrote this
works while the scan stands at a record with a key of 1 to 253 bytes.  The two
lengths on either side are where the writer and the reader disagree: the reader does
not step over the key of a record with an empty key or with a key of 254 bytes.

Nothing tells the scan where the records end.  What it meets there is the first slot
of the first hash table, which it takes for the header of another record.
-/

namespace SdbStore

open Lib

/-- `SDB_MIN_KEY`. -/
def sdbMinKey : Nat := 1

/-- What `sdb_dump_dupnext` hands out: the key, the bytes of the value (`NULL` for a
value that is too long) and their number. -/
structure Dumped where
  key : CStr
  value : Option Bytes
  vlen : Nat
deriving DecidableEq

/-- `sdb_dump_begin`: the first position of a scan. -/
def sdbDumpBegin (fd : Option Bytes) : Nat :=
  match fd with
  | some _ => cdbFinalSize
  | none => 0

/-- `sdb_dump_hasnext`, with the position after it. -/
def sdbDumpHasnext (c : Cdb) (pos : Nat) : Bool × Nat :=
  match cdbGetkvlen c pos with
  | none => (false, pos)
  | some (k, v) => if k < 1 ∨ v < 1 then (false, pos) else (true, ut32 (pos + (k + v + 4)))

/-- The key of `sdb_dump_dupnext`: read, if its length is within the bounds. -/
def dupnextKey (c : Cdb) (klen pos : Nat) : Option (CStr × Nat) :=
  if sdbMinKey < klen ∧ klen < sdbMaxKey then
    (cdbRead c klen pos).map fun b ↦ (CStr.ofBytes b, ut32 (pos + klen))
  else some (CStr.empty, pos)

/-- `sdb_dump_dupnext`, with the position after it. -/
def sdbDumpDupnext (c : Cdb) (pos : Nat) : Option Dumped × Nat :=
  match cdbGetkvlen c pos with
  | none => (none, pos)
  | some (klen, vlen) =>
      let pos := ut32 (pos + 4)
      if klen < 1 ∨ vlen < 1 then (none, pos) else
        match dupnextKey c klen pos with
        | none => (none, pos)
        | some (key, pos) =>
            if vlen < sdbMaxValue then
              match cdbRead c vlen pos with
              | none => (none, pos)
              | some v => (some ⟨key, some v, vlen⟩, ut32 (pos + vlen))
            else (some ⟨key, none, vlen⟩, pos)

/-- The results of `n` calls of `sdb_dump_dupnext`, if all of them return true. -/
def dumpTimes (c : Cdb) : Nat → Nat → Option (List Dumped)
  | 0, _ => some []
  | n + 1, pos =>
      match sdbDumpDupnext c pos with
      | (none, _) => none
      | (some d, pos) => (dumpTimes c n pos).map (d :: ·)

/-- The position after `n` calls of `sdb_dump_dupnext`. -/
def dumpPos (c : Cdb) : Nat → Nat → Nat
  | 0, pos => pos
  | n + 1, pos => dumpPos c n (sdbDumpDupnext c pos).2

/-- The position after `n` calls of `sdb_dump_hasnext`, if all of them return true. -/
def hasnextTimes (c : Cdb) : Nat → Nat → Option Nat
  | 0, pos => some pos
  | n + 1, pos =>
      match sdbDumpHasnext c pos with
      | (false, _) => none
      | (true, pos) => hasnextTimes c n pos

/-- The loop of `sdb_foreach_cdb` over all records; `n` bounds its rounds. -/
def dumpLoop (c : Cdb) : Nat → Nat → List Dumped
  | 0, _ => []
  | n + 1, pos =>
      match sdbDumpDupnext c pos with
      | (none, _) => []
      | (some d, pos) => d :: dumpLoop c n pos

/-- What a record should be dumped as. -/
def CdbRec.dumped (r : CdbRec) : Dumped := ⟨r.1, some (r.2 ++ [0]), r.2.length + 1⟩

/-- The keys that the scan steps over. -/
def CdbRec.Readable (r : CdbRec) : Prop := 1 ≤ r.1.length ∧ r.1.length ≤ 253

instance (r : CdbRec) : Decidable r.Readable := inferInstanceAs (Decidable (_ ∧ _))

/-! ## One record -/

section Step

variable {c : Cdb} {f : Bytes} (hc : c.Over f) (hf : f.length < 4294967296) {pos : Nat}
  {r : CdbRec} (h : RecAt f pos r) (hr : r.Fits)
include hc hf h hr

theorem sdbDumpHasnext_rec :
    sdbDumpHasnext c pos = (true, pos + (recBytes r).length) := by
  have hle := h.le
  have hsize := length_recBytes r
  rw [sdbDumpHasnext, h.getkvlen hc hr]
  simp only
  rw [if_neg (by omega), ut32_of_lt (by omega)]
  congr 1
  omega

theorem sdbDumpDupnext_rec (hk : r.Readable) :
    sdbDumpDupnext c pos = (some r.dumped, pos + (recBytes r).length) := by
  have hle := h.le
  have hsize := length_recBytes r
  obtain ⟨hk1, hk2⟩ := hk
  have hv : r.2.length + 1 < sdbMaxValue := hr.2
  have hkey : dupnextKey c (r.1.length + 1) (pos + 4) =
      some (r.1, pos + 4 + (r.1.length + 1)) := by
    rw [dupnextKey, if_pos (by rw [sdbMinKey, sdbMaxKey]; omega),
      cdbRead_over hc (by omega), ut32_of_lt (by omega)]
    have hslice : slice f (pos + 4) (r.1.length + 1) = r.1.bytesZ := h.slice_key
    rw [hslice, Option.map_some, CStr.ofBytes_bytesZ]
  have hdata : cdbRead c (r.2.length + 1) (pos + 4 + (r.1.length + 1)) = some (r.2 ++ [0]) := by
    rw [cdbRead_over hc (by omega)]
    exact congrArg some h.slice_data
  rw [sdbDumpDupnext, h.getkvlen hc hr]
  simp only
  rw [if_neg (by omega), ut32_of_lt (by omega), hkey]
  simp only
  rw [if_pos hv, hdata]
  simp only
  rw [ut32_of_lt (by omega)]
  congr 1
  omega

/-- A key that is not stepped over: the value is read from where the key begins. -/
theorem sdbDumpDupnext_unread (hk : ¬ r.Readable) :
    sdbDumpDupnext c pos = (some ⟨CStr.empty,
      some ((r.1.bytesZ ++ (r.2 ++ [0])).take (r.2.length + 1)), r.2.length + 1⟩,
      pos + 4 + (r.2.length + 1)) := by
  have hle := h.le
  have hsize := length_recBytes r
  have hkfit := hr.1
  have hv : r.2.length + 1 < sdbMaxValue := hr.2
  have hkey : dupnextKey c (r.1.length + 1) (pos + 4) = some (CStr.empty, pos + 4) := by
    rw [CdbRec.Readable] at hk
    rw [sdbMaxKey] at hkfit
    exact if_neg (by rw [sdbMinKey, sdbMaxKey]; omega)
  have hdata : cdbRead c (r.2.length + 1) (pos + 4) =
      some ((r.1.bytesZ ++ (r.2 ++ [0])).take (r.2.length + 1)) := by
    rw [cdbRead_over hc (by omega)]
    refine congrArg some (h.slice_tail ?_)
    rw [List.length_append, List.length_append, List.length_singleton]
    omega
  rw [sdbDumpDupnext, h.getkvlen hc hr]
  simp only
  rw [if_neg (by omega), ut32_of_lt (by omega), hkey]
  simp only
  rw [if_pos hv, hdata]
  simp only
  rw [ut32_of_lt (by omega)]

end Step

/-! ## All records -/

/-- The records that a scan returns as they were written: the keys are 1 to 253 bytes
long, but the last record may also have an empty key when its value is nothing but
NUL bytes. -/
def Scannable : List CdbRec → Prop
  | [] => True
  | [r] => r.Readable ∨ r.1 = CStr.empty ∧ ∀ b ∈ r.2, b = 0
  | r :: r' :: recs => r.Readable ∧ Scannable (r' :: recs)

instance : (recs : List CdbRec) → Decidable (Scannable recs)
  | [] => inferInstanceAs (Decidable True)
  | [_] => inferInstanceAs (Decidable (_ ∨ _ ∧ _))
  | _ :: r' :: recs =>
      have := instDecidableScannable (r' :: recs)
      inferInstanceAs (Decidable (_ ∧ _))

theorem zero_cons_eq_iff (l : Bytes) : 0 :: l = l ++ [0] ↔ ∀ b ∈ l, b = 0 := by
  induction l with
  | nil => simp
  | cons a l ih =>
      rw [List.cons_append, List.cons.injEq, List.forall_mem_cons]
      constructor
      · rintro ⟨rfl, h⟩
        exact ⟨rfl, ih.mp h⟩
      · rintro ⟨rfl, h⟩
        exact ⟨rfl, ih.mpr h⟩

/-- A record whose key is not stepped over comes out right only if it has no key and
nothing but NUL bytes for a value. -/
theorem unread_eq_dumped_iff (r : CdbRec) :
    (⟨CStr.empty, some ((r.1.bytesZ ++ (r.2 ++ [0])).take (r.2.length + 1)), r.2.length + 1⟩ :
      Dumped) = r.dumped ↔ r.1 = CStr.empty ∧ ∀ b ∈ r.2, b = 0 := by
  have hempty : (CStr.empty.bytesZ ++ (r.2 ++ [0])).take (r.2.length + 1) = 0 :: r.2 := by
    change 0 :: (r.2 ++ [0]).take r.2.length = _
    rw [List.take_left]
  rw [CdbRec.dumped, Dumped.mk.injEq, Option.some.injEq, ← zero_cons_eq_iff]
  constructor
  · rintro ⟨hk, hv, -⟩
    rw [← hk, hempty] at hv
    exact ⟨hk.symm, hv⟩
  · rintro ⟨hk, hv⟩
    rw [hk, hempty]
    exact ⟨rfl, hv, rfl⟩

/-- Behind a record whose empty key was not stepped over the scan ends: it stands one
byte before the next record, at a NUL. -/
theorem sdbDumpDupnext_behind {c : Cdb} {f : Bytes} (hc : c.Over f) {pos : Nat} {r : CdbRec}
    (h : RecAt f pos r) (hnext : pos + (recBytes r).length + 3 ≤ f.length) :
    (sdbDumpDupnext c (pos + (recBytes r).length - 1)).1 = none := by
  have hsize := length_recBytes r
  have hbuf : ∃ l, slice f (pos + (recBytes r).length - 1) 4 = 0 :: l := by
    obtain ⟨A, B, rfl, rfl⟩ := h
    refine ⟨B.take 3, ?_⟩
    have hsplit : A ++ (recBytes r ++ B) =
        (A ++ kvlenBytes (r.1.length + 1) (r.2.length + 1) ++ r.1.bytesZ ++ r.2) ++ (0 :: B) := by
      simp [recBytes]
    rw [hsplit, slice_append_right' 0 4]
    · rfl
    · simp only [List.length_append, kvlenBytes, List.length_cons, List.length_nil,
        CStr.length_bytesZ]
      omega
  obtain ⟨l, hl⟩ := hbuf
  have hkv : ∀ klen vlen, cdbGetkvlen c (pos + (recBytes r).length - 1) = some (klen, vlen) →
      klen = 0 := by
    intro klen vlen hkv
    rw [cdbGetkvlen, cdbRead_over hc (by omega), hl, Option.bind_eq_bind, Option.bind_some] at hkv
    dsimp only at hkv
    split at hkv
    · cases hkv
    · exact (Prod.mk.inj (Option.some.inj hkv)).1.symm
  rw [sdbDumpDupnext]
  split
  · rfl
  · next klen vlen hkl =>
      rw [if_pos (.inl (by rw [hkv klen vlen hkl]; decide))]

/-- **The scan returns the records** exactly when they are scannable; `pre` stands
before the scan. -/
theorem dumpTimes_eq_iff {c : Cdb} (pre post : List CdbRec) (hfit : Fitting (pre ++ post))
    (hc : c.Over (cdbImage (pre ++ post))) :
    dumpTimes c post.length (cdbFinalSize + (cdbBody pre).length) =
      some (post.map CdbRec.dumped) ↔ Scannable post := by
  induction post generalizing pre with
  | nil => exact ⟨fun _ ↦ trivial, fun _ ↦ rfl⟩
  | cons r post ih =>
      have hrec := recAt_image pre r post
      have hr := hfit.fits r (by simp)
      have hpos : cdbFinalSize + (cdbBody pre).length + (recBytes r).length =
          cdbFinalSize + (cdbBody (pre ++ [r])).length := by
        rw [length_cdbBody_append_singleton, Nat.add_assoc]
      have ih := ih (pre ++ [r])
      rw [List.append_assoc, ← hpos] at ih
      have ih := ih hfit hc
      by_cases hread : r.Readable
      · have hstep : dumpTimes c (r :: post).length (cdbFinalSize + (cdbBody pre).length) =
            some ((r :: post).map CdbRec.dumped) ↔ Scannable post := by
          rw [List.length_cons, dumpTimes, sdbDumpDupnext_rec hc hfit.size hrec hr hread, ← ih]
          simp
        rw [hstep]
        cases post with
        | nil => exact ⟨fun _ ↦ .inl hread, fun _ ↦ trivial⟩
        | cons r' post => exact ⟨fun h ↦ ⟨hread, h⟩, fun h ↦ h.2⟩
      · rw [List.length_cons, dumpTimes, sdbDumpDupnext_unread hc hfit.size hrec hr hread]
        cases post with
        | nil =>
            have hone : ∀ d, (some [d] = some ([r].map CdbRec.dumped)) ↔ d = r.dumped := by simp
            rw [Scannable, ← unread_eq_dumped_iff, or_iff_right hread]
            exact hone _
        | cons r' post =>
            refine ⟨fun h ↦ ?_, fun h ↦ absurd h.1 hread⟩
            obtain ⟨ds, hds, hcons⟩ := Option.map_eq_some_iff.mp h
            obtain ⟨hempty, -⟩ := (unread_eq_dumped_iff r).mp (List.cons.inj hcons).1
            have hsize := length_recBytes r
            have hnext := (recAt_image (pre ++ [r]) r' post).le
            rw [List.append_assoc, ← hpos, length_recBytes r'] at hnext
            have hnone := sdbDumpDupnext_behind hc hrec (by
              change _ ≤ (cdbImage (pre ++ ([r] ++ r' :: post))).length
              omega)
            rw [hsize, CStr.length_eq_zero.mpr hempty, show cdbFinalSize + (cdbBody pre).length +
              (6 + 0 + r.2.length) - 1 = cdbFinalSize + (cdbBody pre).length + 4 +
              (r.2.length + 1) by omega] at hnone
            rw [List.length_cons, dumpTimes] at hds
            split at hds
            · cases hds
            · next hsome =>
                rw [hsome] at hnone
                cases hnone

theorem hasnextTimes_image {c : Cdb} (pre post : List CdbRec) (hfit : Fitting (pre ++ post))
    (hc : c.Over (cdbImage (pre ++ post))) {i : Nat} (hi : i ≤ post.length) :
    hasnextTimes c i (cdbFinalSize + (cdbBody pre).length) =
      some (cdbFinalSize + (cdbBody (pre ++ post.take i)).length) := by
  induction i generalizing pre post with
  | zero => rw [List.take_zero, List.append_nil]; rfl
  | succ i ih =>
      cases post with
      | nil => exact absurd hi (by simp)
      | cons r post =>
          have hrec := recAt_image pre r post
          have hr := hfit.fits r (by simp)
          have hih := ih (pre ++ [r]) post
          rw [List.append_assoc, List.append_assoc, length_cdbBody_append_singleton,
            ← Nat.add_assoc] at hih
          rw [hasnextTimes, sdbDumpHasnext_rec hc hfit.size hrec hr, List.take_succ_cons]
          exact hih hfit hc (by simpa using hi)

/-- A scan of `file` returns `recs`, in order, and counts them. -/
def ScanReturns (file : Bytes) (recs : List CdbRec) : Prop :=
  dumpTimes (cdbInit (some file)).2 recs.length (sdbDumpBegin (some file)) =
      some (recs.map CdbRec.dumped) ∧
    ∀ i ≤ recs.length, hasnextTimes (cdbInit (some file)).2 i (sdbDumpBegin (some file)) =
      some (cdbFinalSize + (cdbBody (recs.take i)).length)

theorem scanReturns_image_iff {recs : List CdbRec} (hfit : Fitting recs) :
    ScanReturns (cdbImage recs) recs ↔ Scannable recs := by
  have hc := (cdbInit_image hfit).2
  rw [← dumpTimes_eq_iff [] recs hfit hc]
  refine ⟨fun h ↦ h.1, fun h ↦ ⟨h, fun i hi ↦ ?_⟩⟩
  exact hasnextTimes_image [] recs hfit hc hi

/-- A scan of a file returns the records it was made from exactly when these are
scannable. -/
theorem scanReturns_cdbMakeFile_iff {fd : CStr} {recs : List CdbRec} {w w' : World} {file : Bytes}
    (h : cdbMakeFile fd recs w = .ok () w') (hfile : w'.fs fd = some file) :
    ScanReturns file recs ↔ Scannable recs := by
  obtain ⟨hfs, hfit, -⟩ := (cdbMakeFile_ends fd recs w).of_ok h
  obtain rfl : file = cdbImage recs := Option.some.inj (hfile.symm.trans hfs)
  exact scanReturns_image_iff hfit

/-- A key of `n` letters. -/
def letters (n : Nat) : CStr := ⟨List.replicate n 65, by simp [List.mem_replicate]⟩

@[simp] theorem length_letters (n : Nat) : (letters n).length = n := List.length_replicate

theorem scanReturns_two : ∃ w' file,
    cdbMakeFile CStr.empty [(letters 253, [49]), (CStr.empty, [])] .empty = .ok () w' ∧
      w'.fs CStr.empty = some file ∧ ScanReturns file [(letters 253, [49]), (CStr.empty, [])] := by
  have hfit : Fitting [(letters 253, [49]), (CStr.empty, [])] := by
    constructor
    · simp [CdbRec.Fits, sdbMaxKey, sdbMaxValue, CStr.length_eq_zero.mpr]
    · simp [length_cdbImage_eq, length_cdbBody, cdbFinalSize, CStr.length_eq_zero.mpr]
  obtain ⟨w', hw'⟩ := cdbMakeFile_eq_ok hfit (cdbRoom_of_length (by decide)) CStr.empty
    (w := .empty)
    fun _ ↦ rfl
  have hfile := ((cdbMakeFile_ends _ _ _).of_ok hw').1
  refine ⟨w', _, hw', hfile, (scanReturns_cdbMakeFile_iff hw' hfile).mpr ⟨?_, .inr ⟨rfl, ?_⟩⟩⟩
  · simp [CdbRec.Readable]
  · simp

/-- A key of 254 bytes is written and not read back. -/
theorem not_scanReturns_letters_254 : ∃ w' file,
    cdbMakeFile CStr.empty [(letters 254, [49]), (letters 1, [49])] .empty = .ok () w' ∧
      w'.fs CStr.empty = some file ∧
      ¬ ScanReturns file [(letters 254, [49]), (letters 1, [49])] := by
  have hfit : Fitting [(letters 254, [49]), (letters 1, [49])] := by
    constructor
    · simp [CdbRec.Fits, sdbMaxKey, sdbMaxValue]
    · simp [length_cdbImage_eq, length_cdbBody, cdbFinalSize]
  obtain ⟨w', hw'⟩ := cdbMakeFile_eq_ok hfit (cdbRoom_of_length (by decide)) CStr.empty
    (w := .empty)
    fun _ ↦ rfl
  have hfile := ((cdbMakeFile_ends _ _ _).of_ok hw').1
  refine ⟨w', _, hw', hfile, fun h ↦ ?_⟩
  have hread := ((scanReturns_image_iff hfit).mp h).1
  simp [CdbRec.Readable] at hread

/-! ## Behind the last record -/

/-- The hashes that go into table `i`. -/
def tableHashes (recs : List CdbRec) (i : Nat) : List Nat :=
  (recs.map fun r ↦ sdbHash r.1).filter (· % 256 == i)

/-- The hash in slot 0 of a table for `hs`: of the first key that is at home there, or
that finds no room at the end of the table; 0 when the slot stays free. -/
def slotZero (hs : List Nat) : Nat :=
  (Probe.firstCrowding (fun h ↦ h / 256 % (hs.length * 2)) (hs.length * 2) [] hs).getD 0

/-- The hash in slot 0 of the lowest table that is not empty. -/
def firstSlotHash (recs : List CdbRec) : Option Nat :=
  (List.range 256).findSome? fun i ↦
    if tableHashes recs i = [] then none else some (slotZero (tableHashes recs i))

theorem tableHashes_eq (recs : List CdbRec) (i : Nat) :
    tableHashes recs i = (cdbBucket recs i).map CdbHp.h := by
  have hmap : ∀ pos, recs.map (fun r ↦ sdbHash r.1) = (hpsFrom pos recs).map CdbHp.h := by
    induction recs with
    | nil => exact fun _ ↦ rfl
    | cons r recs ih => exact fun pos ↦ congrArg (sdbHash r.1 :: ·) (ih _)
  rw [tableHashes, hmap cdbFinalSize, List.filter_map]
  rfl

theorem head?_cdbTable (recs : List CdbRec) (i : Nat) :
    (cdbTable recs i).head?.map CdbHp.h =
      if tableHashes recs i = [] then none else some (slotZero (tableHashes recs i)) := by
  obtain ⟨hbuild, hlen, -⟩ := build_cdbTable recs i
  rw [tableHashes_eq]
  split
  · next hnil =>
      rw [List.map_eq_nil_iff.mp hnil] at hlen
      rw [List.eq_nil_of_length_eq_zero hlen]
      rfl
  · next hne =>
      have hpos := List.length_pos_iff.mpr fun h ↦ hne (List.map_eq_nil_iff.mpr h)
      have hfree : cdbFree ⟨0, 0⟩ = true := rfl
      rw [Probe.head_build hfree (by omega) (by omega)
        (fun hp h ↦ ⟨(of_mem_cdbBucket h).1, (of_mem_cdbBucket h).2.1⟩) hbuild, Option.map_some,
        slotZero, List.length_map]
      have hmap := Probe.firstCrowding_map (fun h ↦ h / 256 % ((cdbBucket recs i).length * 2))
        CdbHp.h ((cdbBucket recs i).length * 2) [] (cdbBucket recs i)
      rw [List.map_nil] at hmap
      rw [hmap]
      congr 1
      change _ = (Option.map CdbHp.h (Probe.firstCrowding
        (cdbHome ((cdbBucket recs i).length * 2)) _ _ _)).getD 0
      cases Probe.firstCrowding (cdbHome ((cdbBucket recs i).length * 2))
        ((cdbBucket recs i).length * 2) [] (cdbBucket recs i) with
      | none => rfl
      | some hp => rfl

theorem head?_cdbSlots (recs : List CdbRec) :
    (cdbSlots recs 256).head?.map CdbHp.h = firstSlotHash recs := by
  rw [cdbSlots, List.head?_flatMap, List.map_findSome?, firstSlotHash]
  congr 1
  funext i
  exact head?_cdbTable recs i

theorem firstSlotHash_lt {recs : List CdbRec} {h : Nat} (hh : firstSlotHash recs = some h) :
    h < 4294967296 := by
  obtain ⟨i, -, hi⟩ := List.exists_of_findSome?_eq_some hh
  split at hi
  · cases hi
  · obtain rfl := Option.some.inj hi
    rw [slotZero]
    cases hc : Probe.firstCrowding _ _ _ (tableHashes recs i) with
    | none => decide
    | some h =>
        obtain ⟨r, -, rfl⟩ := List.mem_map.mp (List.mem_filter.mp (Probe.mem_of_firstCrowding hc)).1
        exact sdbHash_lt r.1

/-- The header that the scan reads behind the records is the hash of the first slot. -/
theorem cdbGetkvlen_end {recs : List CdbRec} {c : Cdb} (hc : c.Over (cdbImage recs)) :
    cdbGetkvlen c (cdbFinalSize + (cdbBody recs).length) =
      (firstSlotHash recs).map fun h ↦ (h % 256, h / 256) := by
  have hlen := length_cdbImage_eq recs
  have hslots := length_cdbSlots recs
  have hlt := @firstSlotHash_lt recs
  rw [← head?_cdbSlots] at hlt ⊢
  cases hs : cdbSlots recs 256 with
  | nil =>
      rw [hs, List.length_nil] at hslots
      have hin : cdbFinalSize + (cdbBody recs).length > c.size ∨
          c.size - (cdbFinalSize + (cdbBody recs).length) < 4 := by
        rw [hc.size]
        omega
      rw [cdbGetkvlen, cdbRead, hc.map]
      simp only [if_pos hin]
      rfl
  | cons hp rest =>
      rw [hs] at hlt
      have hh : hp.h < 4294967296 := hlt rfl
      rw [hs, List.length_cons] at hslots
      have hbuf : slice (cdbImage recs) (cdbFinalSize + (cdbBody recs).length) 4 = le32 hp.h := by
        have hsplit : cdbImage recs = cdbHeader recs 256 ++ cdbBody recs ++
            (le32 hp.h ++ (le32 hp.p ++ rest.flatMap cdbSlotBytes)) := by
          simp only [cdbImage, hs, List.flatMap_cons, cdbSlotBytes, List.append_assoc]
        rw [hsplit]
        refine slice_mid ?_ rfl
        rw [List.length_append, length_cdbHeader, cdbFinalSize]
      rw [cdbGetkvlen, cdbRead_over hc (by omega), hbuf]
      simp only [le32, Option.bind_eq_bind, Option.bind_some, List.getD_cons_zero,
        List.getD_cons_succ, UInt8.toNat_ofNat', Nat.reducePow, List.head?_cons, Option.map_some]
      have hvlen : hp.h / 256 % 256 + 256 * (hp.h / 65536 % 256) +
          65536 * (hp.h / 16777216 % 256) = hp.h / 256 := by omega
      rw [hvlen, if_neg (by rw [sdbMaxValue]; omega)]

theorem dumpPos_image {c : Cdb} (pre post : List CdbRec) (hfit : Fitting (pre ++ post))
    (hc : c.Over (cdbImage (pre ++ post))) (hk : ∀ r ∈ post, r.Readable) :
    dumpPos c post.length (cdbFinalSize + (cdbBody pre).length) =
      cdbFinalSize + (cdbBody (pre ++ post)).length := by
  induction post generalizing pre with
  | nil => rw [List.append_nil]; rfl
  | cons r post ih =>
      have hrec := recAt_image pre r post
      have hr := hfit.fits r (by simp)
      have hih := ih (pre ++ [r])
      rw [List.append_assoc, length_cdbBody_append_singleton, ← Nat.add_assoc] at hih
      rw [List.length_cons, dumpPos, sdbDumpDupnext_rec hc hfit.size hrec hr (hk r (by simp))]
      exact hih hfit hc fun r' hr' ↦ hk r' (by simp [hr'])

/-- After `n` records a scan of `file` is at its end. -/
def ScanStops (file : Bytes) (n : Nat) : Prop :=
  let c := (cdbInit (some file)).2
  let pos := dumpPos c n (sdbDumpBegin (some file))
  (sdbDumpDupnext c pos).1 = none ∧ (sdbDumpHasnext c pos).1 = false

theorem scanStops_image_iff {recs : List CdbRec} (hfit : Fitting recs)
    (hk : ∀ r ∈ recs, r.Readable) : ScanStops (cdbImage recs) recs.length ↔
      ∀ h, firstSlotHash recs = some h → h % 256 = 0 ∨ h < 256 := by
  have hc := (cdbInit_image hfit).2
  have hpos := dumpPos_image [] recs hfit hc hk
  have hend := cdbGetkvlen_end hc
  rw [List.nil_append] at hpos
  simp only [ScanStops, sdbDumpBegin]
  rw [show cdbFinalSize = cdbFinalSize + (cdbBody []).length from rfl, hpos, sdbDumpDupnext,
    sdbDumpHasnext, hend]
  cases hslot : firstSlotHash recs with
  | none => simp
  | some h =>
      simp only [Option.map_some, Option.some.injEq, forall_eq']
      constructor
      · rintro ⟨-, hno⟩
        split at hno
        · next hlt => omega
        · cases hno
      · intro hlt
        rw [if_pos (by omega), if_pos (by omega)]
        exact ⟨rfl, rfl⟩

/-- The scan of a file stops behind its records exactly when the hash in the first slot
of the tables has a zero low byte or nothing above it. -/
theorem scanStops_cdbMakeFile_iff {fd : CStr} {recs : List CdbRec} {w w' : World} {file : Bytes}
    (h : cdbMakeFile fd recs w = .ok () w') (hfile : w'.fs fd = some file)
    (hk : ∀ r ∈ recs, r.Readable) :
    ScanStops file recs.length ↔ ∀ h, firstSlotHash recs = some h → h % 256 = 0 ∨ h < 256 := by
  obtain ⟨hfs, hfit, -⟩ := (cdbMakeFile_ends fd recs w).of_ok h
  obtain rfl : file = cdbImage recs := Option.some.inj (hfile.symm.trans hfs)
  exact scanStops_image_iff hfit hk

theorem scanStops_a : ∃ w' file,
    cdbMakeFile CStr.empty [(CStr.ofBytes [97], [49])] .empty = .ok () w' ∧
      w'.fs CStr.empty = some file ∧ ScanStops file 1 := by
  have hfit : Fitting [(CStr.ofBytes [97], [49])] :=
    ⟨by decide, by rw [length_cdbImage_eq]; decide⟩
  obtain ⟨w', hw'⟩ := cdbMakeFile_eq_ok hfit (cdbRoom_of_length (by decide)) CStr.empty
    (w := .empty)
    fun _ ↦ rfl
  have hfile := ((cdbMakeFile_ends _ _ _).of_ok hw').1
  refine ⟨w', _, hw', hfile, (scanStops_cdbMakeFile_iff hw' hfile (by decide)).mpr ?_⟩
  have hslot : firstSlotHash [(CStr.ofBytes [97], [49])] = some 0 := by decide
  rintro h hh
  rw [hslot] at hh
  obtain rfl := Option.some.inj hh
  exact .inl rfl

/-- The key `aa` has its home in slot 0, and the scan goes on into the table. -/
theorem not_scanStops_aa : ∃ w' file,
    cdbMakeFile CStr.empty [(CStr.ofBytes [97, 97], [49])] .empty = .ok () w' ∧
      w'.fs CStr.empty = some file ∧ ¬ ScanStops file 1 := by
  have hfit : Fitting [(CStr.ofBytes [97, 97], [49])] :=
    ⟨by decide, by rw [length_cdbImage_eq]; decide⟩
  obtain ⟨w', hw'⟩ := cdbMakeFile_eq_ok hfit (cdbRoom_of_length (by decide)) CStr.empty
    (w := .empty)
    fun _ ↦ rfl
  have hfile := ((cdbMakeFile_ends _ _ _).of_ok hw').1
  refine ⟨w', _, hw', hfile, fun h ↦ ?_⟩
  have hslot : firstSlotHash [(CStr.ofBytes [97, 97], [49])] = some 5860901 := by decide
  have := (scanStops_image_iff hfit (by decide)).mp h 5860901 hslot
  omega

end SdbStore
