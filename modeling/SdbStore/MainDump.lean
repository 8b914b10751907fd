import SdbStore.Createdb
import SdbStore.TextSave

/-!
# Printed databases

`sdb_dump` of `main.c` prints the pairs of a database, and `createdb` makes a database out of such a
text.  What is printed is not escaped, and so what comes back is the database only for keys and
values that would not have been escaped.
-/

namespace SdbStore

open Lib

/-- `sdb_dump_cb`, in the default format.  A null pointer is not printed. -/
def sdbDumpCb (k : CStr) (v : Option CStr) : Option Bytes :=
  v.map fun v ↦ k.val ++ [61] ++ v.val ++ [10]

/-- `sdb_dump`, in the default format and without `-g`: what is printed. -/
def sdbDump (s : Sdb) : Option Bytes :=
  let calls : List Call :=
    match s.fd with
    | none => sdbForeachList s true
    | some _ => s.scan.map fun d ↦ (d.key, d.value.map CStr.ofBytes)
  (calls.mapM fun c ↦ sdbDumpCb c.1 c.2).map List.flatten

/-- A pair that `sdb_text_save` would write as `sdb_dump` prints it. -/
structure PlainPair (r : KvRec) : Prop where
  key_ne : r.1 ≠ CStr.empty
  val_ne : r.2 ≠ CStr.empty
  key : writeKey r.1 = r.1.val
  val : writeValue r.2 = r.2.val

instance (r : KvRec) : Decidable (PlainPair r) :=
  decidable_of_iff (r.1 ≠ CStr.empty ∧ r.2 ≠ CStr.empty ∧ writeKey r.1 = r.1.val ∧
    writeValue r.2 = r.2.val)
    ⟨fun h ↦ ⟨h.1, h.2.1, h.2.2.1, h.2.2.2⟩, fun h ↦ ⟨h.key_ne, h.val_ne, h.key, h.val⟩⟩

/-- What is printed for a pair. -/
def printedPair (r : KvRec) : Bytes := r.1.val ++ [61] ++ r.2.val ++ [10]

theorem PlainPair.saves {r : KvRec} (h : PlainPair r) : Saves (printedPair r) [.set r.1 r.2] := by
  have hpair := Saves.pair h.key_ne h.val_ne
  rwa [h.key, h.val] at hpair

/-- What is printed is read as the pairs. -/
theorem sdbTextLoadBuf_printedPair {recs : List KvRec} (h : ∀ r ∈ recs, PlainPair r) :
    sdbTextLoadBuf (recs.flatMap printedPair) = recs.map fun r ↦ ⟨[], r.1, r.2⟩ := by
  have hsaves : Saves (recs.flatMap printedPair) (recs.flatMap fun r ↦ [.set r.1 r.2]) :=
    Saves.flatMap fun r hr ↦ (h r hr).saves
  have hgrammar := hsaves.grammar []
  rw [List.append_nil, show textGrammar [] = [] from rfl, List.append_nil] at hgrammar
  rw [sdbTextLoadBuf, loadCalls_eq 0 hsaves.noNul, hgrammar]
  clear hsaves hgrammar h
  induction recs with
  | nil => rfl
  | cons r recs ih =>
      rw [List.map_cons, ← ih]
      rfl

/-- The records of a file, as they are dumped. -/
theorem scan_calls {s : Sdb} {recs : List KvRec} (h : s.Holds recs) (hs : Scans recs) :
    s.scan.map (fun d ↦ (d.key, d.value.map CStr.ofBytes)) = recs.map fun r ↦ (r.1, some r.2) := by
  have hval (v : CStr) : CStr.ofBytes (v.val ++ [0]) = v :=
    (CStr.ofBytes_append_zero v.property []).trans v.ofBytes_val
  rw [scan_holds h hs, List.map_map]
  refine List.map_congr_left fun r _ ↦ ?_
  change (r.1, some (CStr.ofBytes (r.2.val ++ [0]))) = _
  rw [hval]

/-- A database on a file prints the records of the file. -/
theorem sdbDump_holds {s : Sdb} {recs : List KvRec} (h : s.Holds recs) (hs : Scans recs) :
    sdbDump s = some (recs.flatMap printedPair) := by
  have hcalls := scan_calls h hs
  rw [sdbDump, h.fd]
  dsimp only
  rw [hcalls]
  clear hcalls h hs
  induction recs with
  | nil => rfl
  | cons r recs ih =>
      obtain ⟨ls, hls, hflat⟩ := Option.map_eq_some_iff.mp ih
      rw [List.map_cons, List.mapM_cons, hls, List.flatMap_cons, ← hflat]
      rfl

/-- The values of pairs in the root, when no two of them have a key in common. -/
theorem textValue_pairs {g : CStr} {recs : List KvRec} (hd : Keyed.Distinct Prod.fst recs)
    (hkept : ∀ r ∈ recs, TextSet.Kept g ⟨[], r.1, r.2⟩ ∧ r.2 ≠ CStr.empty) (k : CStr) :
    textValue g (recs.map fun r ↦ ⟨[], r.1, r.2⟩) k =
      (diskGot (Keyed.lookup Prod.fst recs k)).value := by
  induction recs using List.reverseRecOn with
  | nil => rfl
  | append_singleton recs r ih =>
      obtain ⟨hr, hne⟩ := hkept r (List.mem_append_right recs (List.mem_singleton_self r))
      have hd' : Keyed.Distinct Prod.fst recs :=
        List.Nodup.sublist ((List.sublist_append_left recs [r]).map _) hd
      have hfresh : Keyed.lookup Prod.fst recs r.1 = none := by
        refine Keyed.lookup_eq_none_iff.mpr fun e he hkey ↦ ?_
        rw [Keyed.Distinct, List.map_append, List.nodup_append] at hd
        exact hd.2.2 _ (List.mem_map_of_mem he) _ (List.mem_singleton_self _) hkey
      rw [List.map_append, List.map_singleton, textValue_concat, Keyed.lookup_append,
        Keyed.lookup_cons]
      by_cases hk : r.1 = k
      · subst hk
        rw [if_pos ⟨hr, rfl⟩, if_pos rfl, hfresh, readAs, if_neg hne]
        rfl
      · rw [if_neg fun hno ↦ hk hno.2, if_neg hk,
          ih hd' fun r hr ↦ hkept r (List.mem_append_left _ hr)]
        cases Keyed.lookup Prod.fst recs k with
        | none => rfl
        | some r => rfl

theorem holds_sdbNew {w : World} {f : CStr} {recs : List KvRec} (hf : FileName f)
    (hfile : w.fs f = some (kvImage recs)) (htext : sdbTextCheck (some (kvImage recs)) = false)
    (hfit : KvFitting recs) : (sdbNew w .empty f).1.Holds recs := by
  have hdir : sdbNewDir .empty f = f := if_neg fun hno ↦ hno rfl
  rw [← hdir] at hfile
  rw [sdbNew_file hf hfile htext]
  exact ⟨hfit, rfl, hfit.over⟩

/-- The database `d` with `x=1`. -/
def worldX : World := World.empty.setFile (CStr.ofBytes [100]) (some (kvImage fileX))

end SdbStore
