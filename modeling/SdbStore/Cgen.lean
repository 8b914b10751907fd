import SdbStore.Lib.CTable
import SdbStore.MainDump

/-!
# Databases as C source

`sdb -C -t` prints a database as the source of a C program: an array of keys and values, and
functions that look a key up in it.  The array is read here as a C compiler reads it.  It has a row
for every record of the database, in their order and with the same values, but a comma in a key has
become `_`; so the function that looks up a key gives what `sdb_get` gives for it, if its name is
not that of another key too.
-/

namespace SdbStore

open Lib

/-! ## What is printed -/

/-- One character of `escape` in `main.c`; `ch` is printed as `_`. -/
def escapeByte (ch c : UInt8) : Bytes :=
  if c = ch then [95]
  else if c = 34 then [92, 34]
  else if c = 92 then [92, 92]
  else if c = 13 then [92, 114]
  else if c = 10 then [92, 110]
  else if c = 9 then [92, 116]
  else [c]

/-- `escape` of `main.c`. -/
def cgenEscape (b : CStr) (ch : UInt8) : Bytes := b.val.flatMap (escapeByte ch)

/-- The name behind the last `/` that is not the first character. -/
def baseName (name : Bytes) : Bytes :=
  if 47 ∈ name.drop 1 then (name.reverse.takeWhile (· ≠ 47)).reverse else name

/-- `get_name`, of a name that is not empty. -/
def getName (name : CStr) : Bytes := (baseName name.val).takeWhile (· ≠ 46)

/-- `get_cname`, of a name that is not empty. -/
def getCname (name : CStr) : Bytes :=
  ((baseName name.val).takeWhile (· ≠ 46)).map fun c ↦ if c = 47 ∨ c = 45 then 95 else c

/-- What the text mode of `sdb_cgen_header` begins with, up to the first brace of the array. -/
def cgenFront (version : Bytes) : Bytes :=
  ascii "// SDB-CGEN V" ++ version ++
    ascii "\n#include <ctype.h>\n#include <stdio.h>\n#include <string.h>\n\n" ++
    ascii "struct kv \x7b const char *name; const char *value; \x7d;\n" ++
    ascii "static const struct kv kvs[] = \x7b"

/-- The comment at its end. -/
def cgenComment (cname : Bytes) : Bytes :=
  ascii "// gcc -DMAIN=1 " ++ cname ++ ascii ".c ; ./a.out > " ++ cname ++ ascii ".h"

/-- `sdb_cgen_header`, in text mode. -/
def sdbCgenHeader (version cname : Bytes) : Bytes :=
  cgenFront version ++ 10 :: (cgenComment cname ++ [10])

/-- The end of the array. -/
def cgenEnd : Bytes := ascii "  \x7bNULL, NULL\x7d\n\x7d;"

/-- The function that calls a callback for every row. -/
def cgenForeachCode (cname : Bytes) : Bytes :=
  ascii "\ntypedef int (*GperfForeachCallback)(void *user, const char *k, const char *v);\n" ++
    ascii "int gperf_" ++ cname ++ ascii "_foreach(GperfForeachCallback cb, void *user) \x7b\n" ++
    ascii "  int i = 0; while (kvs[i].name) \x7b\n" ++
    ascii "  cb (user, kvs[i].name, kvs[i].value);\n  i++;\x7d\n" ++
    ascii "  return 0;\n\x7d\n"

/-- The function that looks up a key. -/
def cgenGetCode (cname : Bytes) : Bytes :=
  ascii "const char *gperf_" ++ cname ++ ascii "_get(const char *s) \x7b\n" ++
    ascii "  int i = 0; while (kvs[i].name) \x7b\n" ++
    ascii "  if (!strcmp (s, kvs[i].name)) return kvs[i].value;\n  i++;\x7d\n" ++
    ascii "  return NULL;\n\x7d\n"

/-- The function that hashes a key, and the rest of the program. -/
def cgenHashCode (name cname : Bytes) : Bytes :=
  ascii "#define sdb_hash_c_" ++ cname ++ ascii "(x,y) gperf_" ++ cname ++ ascii "_hash(x)\n" ++
    ascii "const unsigned int gperf_" ++ cname ++ ascii "_hash(const char *s) \x7b\n" ++
    ascii "  int sum = strlen (s);\n  while (*s) \x7b sum += *s; s++; \x7d\n" ++
    ascii "  return sum;\n\x7d\n" ++
    ascii "struct \x7bconst char *name;void *get;void *hash;void *foreach;\x7d gperf_" ++ cname ++
    ascii " = \x7b\n" ++
    ascii "  .name = \"" ++ name ++ ascii "\",\n" ++
    ascii "  .get = &gperf_" ++ cname ++ ascii "_get,\n" ++
    ascii "  .hash = &gperf_" ++ cname ++ ascii "_hash,\n" ++
    ascii "  .foreach = &gperf_" ++ cname ++ ascii "_foreach\n\x7d;\n\n" ++
    ascii "#if MAIN\nint main () \x7b\n" ++
    ascii "\tconst char *s = ((char*(*)(char*))gperf_" ++ cname ++ ascii ".get)(\"foo\");\n" ++
    ascii "\tprintf (\"%s\\n\", s);\n\x7d\n#endif\n"

/-- The functions of the program. -/
def cgenCode (name cname : Bytes) : Bytes :=
  cgenForeachCode cname ++ (cgenGetCode cname ++ cgenHashCode name cname)

/-- `sdb_cgen_footer`, in text mode. -/
def sdbCgenFooter (name cname : Bytes) : Bytes := cgenEnd ++ cgenCode name cname

/-- `sdb_dump_cb`, in the format `CGEN` and in text mode.  The length of a null pointer is asked
for. -/
def sdbDumpCbCgen (k : CStr) (v : Option CStr) : Option Bytes :=
  v.map fun v ↦ 32 :: 32 :: 123 :: 34 :: (cgenEscape k 44 ++ 34 :: 44 :: 34 ::
    (cgenEscape v 0 ++ [34, 125, 44, 32, 10]))

/-- `sdb_dump`, in the format `CGEN`, in text mode and without `-g`: what is printed. -/
def sdbDumpCgen (version : Bytes) (db : CStr) (s : Sdb) : Option Bytes :=
  let calls : List Call :=
    match s.fd with
    | none => sdbForeachList s true
    | some _ => s.scan.map fun d ↦ (d.key, d.value.map CStr.ofBytes)
  (calls.mapM fun c ↦ sdbDumpCbCgen c.1 c.2).map fun rows ↦
    sdbCgenHeader version (getCname db) ++ rows.flatten ++
      sdbCgenFooter (getName db) (getCname db) ++ [10]

/-! ## The program that is printed -/

/-- The array of the program. -/
def readKvs (version text : Bytes) : Option (List (Bytes × Bytes)) :=
  if (cgenFront version).isPrefixOf text then
    cPairs text.length (text.drop (cgenFront version).length)
  else none

/-- What the function of `cgenGetCode` returns: it goes through the rows, up to the one without a
name. -/
def gperfGet : List (Bytes × Bytes) → Bytes → Option Bytes
  | [], _ => none
  | kv :: kvs, s => if s = kv.1 then some kv.2 else gperfGet kvs s

/-- The name that a key has in the array. -/
def cgenKey (k : CStr) : Bytes := k.val.map fun c ↦ if c = 44 then 95 else c

/-- The row of a record. -/
def cgenRow (r : KvRec) : Bytes × Bytes := (cgenKey r.1, r.2.val)

/-! ## Literals -/

/-- A character is read as it was, or as `_`. -/
theorem cLiteral_escapeByte (ch c : UInt8) (l : Bytes) :
    cLiteral (escapeByte ch c ++ l) =
      (cLiteral l).map fun r ↦ ((if c = ch then 95 else c) :: r.1, r.2) := by
  rw [escapeByte]
  by_cases hch : c = ch
  · rw [if_pos hch, if_pos hch]
    exact cLiteral_cons (by decide) (by decide) (by decide) l
  · rw [if_neg hch, if_neg hch]
    by_cases hquote : c = 34
    · rw [if_pos hquote, hquote]
      exact cLiteral_escape rfl l
    · rw [if_neg hquote]
      by_cases hesc : c = 92
      · rw [if_pos hesc, hesc]
        exact cLiteral_escape rfl l
      · rw [if_neg hesc]
        by_cases hret : c = 13
        · rw [if_pos hret, hret]
          exact cLiteral_escape rfl l
        · rw [if_neg hret]
          by_cases hline : c = 10
          · rw [if_pos hline, hline]
            exact cLiteral_escape rfl l
          · rw [if_neg hline]
            by_cases htab : c = 9
            · rw [if_pos htab, htab]
              exact cLiteral_escape rfl l
            · rw [if_neg htab]
              exact cLiteral_cons hquote hline hesc l

theorem readsLiteral_escape (ch : UInt8) (b : Bytes) :
    ReadsLiteral (b.flatMap (escapeByte ch)) (b.map fun c ↦ if c = ch then 95 else c) := by
  intro l
  induction b with
  | nil => exact cLiteral_quote l
  | cons c b ih =>
      rw [List.flatMap_cons, List.append_assoc, cLiteral_escapeByte, ih]
      rfl

theorem readsLiteral_key (k : CStr) : ReadsLiteral (cgenEscape k 44) (cgenKey k) :=
  readsLiteral_escape 44 k.val

/-- There is no null character in a value. -/
theorem readsLiteral_value (v : CStr) : ReadsLiteral (cgenEscape v 0) v.val := by
  have hread := readsLiteral_escape 0 v.val
  have hsame : (v.val.map fun c ↦ if c = 0 then 95 else c) = v.val := by
    refine (List.map_congr_left fun c hc ↦ ?_).trans (List.map_id v.val)
    exact if_neg fun hzero : c = 0 ↦ v.property (hzero ▸ hc)
  rwa [hsame] at hread

/-! ## The rows -/

/-- The row that is printed for a record. -/
def printedRow (r : KvRec) : Bytes :=
  32 :: 32 :: 123 :: 34 ::
    (cgenEscape r.1 44 ++ 34 :: 44 :: 34 :: (cgenEscape r.2 0 ++ [34, 125, 44, 32, 10]))

theorem cPairs_printedRow (n : Nat) (r : KvRec) (l : Bytes) :
    cPairs (n + 1) (printedRow r ++ l) = (cPairs n l).map (cgenRow r :: ·) := by
  have hpair := cPair_of_reads (readsLiteral_key r.1) (readsLiteral_value r.2) (44 :: 32 :: 10 :: l)
  have hrow : printedRow r ++ l = 32 :: 32 :: 123 :: 34 :: (cgenEscape r.1 44 ++ 34 :: 44 :: 34 ::
      (cgenEscape r.2 0 ++ 34 :: 125 :: 44 :: 32 :: 10 :: l)) := by
    simp only [printedRow, List.cons_append, List.append_assoc, List.nil_append]
  have hspace : cSkip false (32 :: 10 :: l) = cSkip false l :=
    (cSkip_space (.inl rfl) _).trans (cSkip_space (.inr (by decide)) _)
  have hindent (t : Bytes) : cSkip false (32 :: 32 :: t) = cSkip false t :=
    (cSkip_space (.inl rfl) _).trans (cSkip_space (.inl rfl) _)
  rw [hrow, cPairs_congr (hindent _), cPairs_cons hpair, cPairs_congr hspace]
  rfl

theorem cPairs_cgenEnd (n : Nat) (l : Bytes) : cPairs (n + 1) (cgenEnd ++ l) = some [] := by
  have hend : cgenEnd =
      [32, 32, 123, 78, 85, 76, 76, 44, 32, 78, 85, 76, 76, 125, 10, 125, 59] := by decide
  rw [hend]
  exact cPairs_end rfl rfl

/-- The rows that are printed for the records of a file are read as these. -/
theorem cPairs_rows {recs : List KvRec} {n : Nat} (hn : recs.length < n) (l : Bytes) :
    cPairs n (recs.flatMap printedRow ++ (cgenEnd ++ l)) = some (recs.map cgenRow) := by
  induction recs generalizing n with
  | nil =>
      obtain ⟨n, rfl⟩ : ∃ m, n = m + 1 := Nat.exists_eq_add_one_of_ne_zero (Nat.ne_zero_of_lt hn)
      exact cPairs_cgenEnd n l
  | cons r recs ih =>
      obtain ⟨n, rfl⟩ : ∃ m, n = m + 1 := Nat.exists_eq_add_one_of_ne_zero (Nat.ne_zero_of_lt hn)
      rw [List.flatMap_cons, List.append_assoc, cPairs_printedRow, ih (Nat.lt_of_succ_lt_succ hn)]
      rfl

/-! ## The whole program -/

theorem notMem_getCname {db : CStr} (h : 10 ∉ db.val) : 10 ∉ getCname db := by
  have hbase : 10 ∉ baseName db.val := by
    rw [baseName]
    split
    · exact fun hmem ↦ h
        (List.mem_reverse.mp ((List.takeWhile_sublist _).subset (List.mem_reverse.mp hmem)))
    · exact h
  intro hmem
  obtain ⟨c, hc, heq⟩ := List.mem_map.mp hmem
  have hc' := hbase ((List.takeWhile_sublist _).subset
      (?_ : 10 ∈ (baseName db.val).takeWhile (· ≠ 46)))
  · exact hc'
  · by_cases hsub : c = 47 ∨ c = 45
    · rw [if_pos hsub] at heq
      cases heq
    · rw [if_neg hsub] at heq
      exact heq ▸ hc

theorem cgenComment_eq {cname : Bytes} (h : 10 ∉ cname) :
    ∃ t, cgenComment cname = 47 :: 47 :: t ∧ 10 ∉ t := by
  have hfirst : ascii "// gcc -DMAIN=1 " = 47 :: 47 :: ascii " gcc -DMAIN=1 " := by decide
  have hline : 10 ∉ ascii " gcc -DMAIN=1 " := by decide
  have hmiddle : 10 ∉ ascii ".c ; ./a.out > " := by decide
  have hlast : 10 ∉ ascii ".h" := by decide
  rw [cgenComment, hfirst]
  generalize ascii " gcc -DMAIN=1 " = a at hline ⊢
  generalize ascii ".c ; ./a.out > " = b at hmiddle ⊢
  generalize ascii ".h" = c at hlast ⊢
  refine ⟨a ++ cname ++ b ++ cname ++ c, rfl, ?_⟩
  simp only [List.mem_append, not_or]
  exact ⟨⟨⟨⟨hline, h⟩, hmiddle⟩, h⟩, hlast⟩

/-- A comment on a line of its own. -/
theorem cSkip_line {t : Bytes} (ht : 10 ∉ t) (l : Bytes) :
    cSkip false (10 :: 47 :: 47 :: (t ++ 10 :: l)) = cSkip false l := by
  rw [cSkip_space (.inr (by decide)), cSkip, if_neg Bool.false_ne_true, if_neg (by decide),
    if_pos ⟨rfl, rfl⟩]
  exact cSkip_comment (t := 47 :: t) (List.not_mem_cons_of_ne_of_not_mem (by decide) ht) l

theorem length_printedRows (recs : List KvRec) :
    recs.length ≤ (recs.flatMap printedRow).length := by
  induction recs with
  | nil => exact Nat.le_refl _
  | cons r recs ih =>
      rw [List.flatMap_cons, List.length_append, List.length_cons, Nat.add_comm]
      exact Nat.add_le_add (Nat.succ_pos _) ih

/-- What is printed for a database on a file is read as its records, and it has the function that
looks up a key. -/
theorem readKvs_sdbDumpCgen {s : Sdb} {recs : List KvRec} (h : s.Holds recs) (hs : Scans recs)
    {db : CStr} (hline : 10 ∉ db.val) (version : Bytes) :
    ∃ out, sdbDumpCgen version db s = some out ∧
      readKvs version out = some (recs.map cgenRow) ∧ cgenGetCode (getCname db) <:+: out := by
  have hrows : (recs.map fun r ↦ (r.1, some r.2)).mapM (fun c : Call ↦ sdbDumpCbCgen c.1 c.2) =
      some (recs.map printedRow) := by
    clear h hs
    induction recs with
    | nil => rfl
    | cons r recs ih =>
        rw [List.map_cons, List.mapM_cons, ih]
        rfl
  have hcalls := scan_calls h hs
  obtain ⟨t, ht, hcomment⟩ := cgenComment_eq (notMem_getCname hline)
  have hout : sdbDumpCgen version db s = some (cgenFront version ++ 10 :: 47 :: 47 :: (t ++ 10 ::
      (recs.flatMap printedRow ++
        (cgenEnd ++ (cgenCode (getName db) (getCname db) ++ [10]))))) := by
    rw [sdbDumpCgen, h.fd]
    dsimp only
    rw [hcalls, hrows, Option.map_some, sdbCgenHeader, sdbCgenFooter, ht, List.flatMap]
    simp only [List.append_assoc, List.cons_append, List.nil_append]
  have hget : cgenGetCode (getCname db) <:+: cgenCode (getName db) (getCname db) :=
    List.infix_append' _ _ _
  have hlen := length_printedRows recs
  generalize cgenCode (getName db) (getCname db) = code at hout hget
  refine ⟨_, hout, ?_, hget.trans ⟨cgenFront version ++ 10 :: 47 :: 47 :: (t ++ 10 ::
    (recs.flatMap printedRow ++ cgenEnd)), [10], ?_⟩⟩
  · rw [readKvs, if_pos (List.isPrefixOf_iff_prefix.mpr (List.prefix_append _ _)), List.drop_left,
      cPairs_congr (cSkip_line hcomment _), cPairs_rows]
    simp only [List.length_append, List.length_cons]
    omega
  · simp only [List.append_assoc, List.cons_append]

/-- The function that looks up a key finds the record of the key, if its name stands for no other
key. -/
theorem gperfGet_rows {recs : List KvRec} {k : CStr}
    (hk : ∀ r ∈ recs, cgenKey r.1 = k.val ↔ r.1 = k) :
    gperfGet (recs.map cgenRow) k.val =
      (diskGot (Keyed.lookup Prod.fst recs k)).value.map (·.val) := by
  induction recs with
  | nil => rfl
  | cons r recs ih =>
      have hhead : k.val = cgenKey r.1 ↔ r.1 = k := eq_comm.trans (hk r List.mem_cons_self)
      rw [Keyed.lookup_cons, List.map_cons, gperfGet, cgenRow]
      by_cases hr : r.1 = k
      · rw [if_pos (hhead.mpr hr), if_pos hr]
        rfl
      · rw [if_neg (mt hhead.mp hr), if_neg hr]
        exact ih fun r' hr' ↦ hk r' (List.mem_cons_of_mem _ hr')

/-- **The program that `sdb -C -t` prints** for a database on a file has the records of the file in
its array, in their order, with `_` for the commas in the keys; and its function `gperf_%s_get`
gives for a key what `sdb_get` gives, if the key and no other one has its name there. -/
theorem cgen_get {w : World} {db : CStr} {recs : List KvRec} (hdb : FileName db)
    (hline : 10 ∉ db.val) (hfile : w.fs db = some (kvImage recs))
    (htext : sdbTextCheck (some (kvImage recs)) = false) (hfit : KvFitting recs)
    (hscan : Scans recs) (version : Bytes) :
    ∃ out, sdbDumpCgen version db (sdbNew w .empty db).1 = some out ∧
      readKvs version out = some (recs.map cgenRow) ∧ cgenGetCode (getCname db) <:+: out ∧
      ∀ k, (∀ r ∈ recs, cgenKey r.1 = k.val ↔ r.1 = k) →
        gperfGet (recs.map cgenRow) k.val =
          (sdbGet (sdbNew w .empty db).1 (sdbNew w .empty db).2 k).map (·.val) := by
  obtain ⟨out, hout, hread, hcode⟩ :=
    readKvs_sdbDumpCgen (holds_sdbNew hdb hfile htext hfit) hscan hline version
  refine ⟨out, hout, hread, hcode, fun k hk ↦ ?_⟩
  have hdir : sdbNewDir .empty db = db := if_neg fun hno ↦ hno rfl
  rw [← hdir] at hfile
  rw [sdbGet_new hdb hfit hfile htext, gperfGet_rows hk]

/-- The program for the database `d` with `x=1`. -/
theorem cgen_get_x :
    ∃ out, sdbDumpCgen [49] (CStr.ofBytes [100]) (sdbNew worldX .empty (CStr.ofBytes [100])).1 =
      some out ∧ readKvs [49] out = some [([120], [49])] ∧ cgenGetCode [100] <:+: out ∧
        gperfGet [([120], [49])] [120] = (sdbGet (sdbNew worldX .empty (CStr.ofBytes [100])).1
        (sdbNew worldX .empty (CStr.ofBytes [100])).2 (CStr.ofBytes [120])).map (·.val) := by
  have hfile : worldX.fs (CStr.ofBytes [100]) = some (kvImage fileX) := by
    rw [worldX, setFile_fs, if_pos rfl]
  have hrows : fileX.map cgenRow = [([120], [49])] := by decide
  obtain ⟨out, hout, hread, hcode, hget⟩ :=
    @cgen_get worldX (CStr.ofBytes [100]) fileX (by decide) (by decide) hfile
    fileX_not_text fileX_fitting fileX_scans [49]
  rw [hrows] at hread hget
  refine ⟨out, hout, hread, hcode, hget (CStr.ofBytes [120]) fun r hr ↦ ?_⟩
  rw [List.mem_singleton.mp hr]
  exact iff_of_true (by decide) rfl

end SdbStore
