import SdbStore.Cdb.Scan
import SdbStore.Ht
import SdbStore.Text

/-!
# The database

`sdb.c`: a database is a hash table in memory over an optional CDB file.  A key is
looked up in memory first; an entry whose value is `NULL` or the empty string hides
the key of the file.  The two kinds of empty entry are different states: storing the
empty string under a new key leaves `NULL`, storing it over a value leaves the empty
string.

Hooks, namespaces, the compiled-in tables (`gp`) and locks are left out, and so is
the time stamp of the last change, which nothing here reads.
-/

namespace SdbStore

open Lib

/-- `SdbKv`; `value_len` is the length of the value. -/
structure SdbKv where
  key : CStr
  value : Option CStr
  cas : Nat
  expire : Nat
deriving DecidableEq

/-- The options of `sdb_ht_new`. -/
def sdbHtOpt : HtOpt CStr SdbKv where
  cmp := some fun a b ↦ decide (a = b)
  hashfn := sdbHash
  calcsizeK := CStr.length
  key := SdbKv.key
  keyLen kv := kv.key.length

theorem sdbHtOpt_lawful : sdbHtOpt.Lawful where
  eq_of_cmp cmp h a b _ hab := by
    cases h
    simpa using hab
  keyLen_eq _ := rfl

/-- `Sdb`.  `fd` is the file behind the descriptor and `journal` the path of the open
journal. -/
structure Sdb where
  dir : Option CStr
  name : Option CStr
  fd : Option Bytes
  db : Cdb
  ht : Ht SdbKv
  journal : Option CStr
  timestamped : Bool

/-- `nextcas`. -/
def nextcas (kv : SdbKv) : Nat := if kv.cas = 0 then 1 else ut32 (kv.cas + 1)

/-- `sdb_ht_find_kvp`. -/
def sdbHtFindKvp (s : Sdb) (key : CStr) : Option SdbKv := htFindKv sdbHtOpt s.ht key

/-! ## Writing -/

/-- `sdb_journal_log`: the line is cut to the size of its buffer. -/
def sdbJournalLog (s : Sdb) (w : World) (key val : CStr) : World :=
  match s.journal with
  | none => w
  | some j =>
      w.setFile j (some ((w.fs j).getD [] ++ (key.val ++ 61 :: val.val ++ [10]).take 255))

/-- `sdbkv_new2`, and the value that an owned string leaves in its place. -/
def sdbkvNew2 (key val : CStr) (owned : Bool) : SdbKv :=
  { key := key
    value := if owned then some val else if val = CStr.empty then none else some val
    cas := nextcas ⟨key, none, 0, 0⟩
    expire := 0 }

/-- The end of `sdb_set_internal`: a new entry takes the place of any other. -/
def sdbSetNew (s : Sdb) (w : World) (key val : CStr) (owned : Bool) : Nat × Sdb × World :=
  let kv := sdbkvNew2 key val owned
  let kv := { kv with cas := nextcas kv }
  (kv.cas, { s with ht := (htInsertKv sdbHtOpt s.ht kv true).2 }, w)

/-- `sdb_set_internal`: what it returns, and the state after it.  `NULL` for a value is
the empty string. -/
def sdbSetInternal (s : Sdb) (w : World) (key val : CStr) (owned : Bool) (cas : Nat) :
    Nat × Sdb × World :=
  if key.length ≥ 0xff ∨ val.length ≥ 0xffffff then (0, s, w) else
    let w := sdbJournalLog s w key val
    match sdbHtFindKvp s key with
    | none => sdbSetNew s w key val owned
    | some kv =>
        match kv.value with
        | none => sdbSetNew s w key val owned
        | some old =>
            -- `cdb_findnext` is used as a boolean: -1, no file, counts as found
            if (cdbLookup s.db key).1 ≠ 0 then
              if cas ≠ 0 ∧ kv.cas ≠ cas then (0, s, w)
              else if val = old then (kv.cas, s, w)
              else
                let kv := { kv with cas := nextcas kv, value := some val }
                (kv.cas, { s with ht := htWriteKv sdbHtOpt s.ht kv }, w)
            else (nextcas kv, { s with ht := (htDelete sdbHtOpt s.ht key).2 }, w)

/-- `sdb_set`. -/
def sdbSet (s : Sdb) (w : World) (key val : CStr) (cas : Nat) : Bool × Sdb × World :=
  let r := sdbSetInternal s w key val false cas
  (r.1 ≠ 0, r.2)

/-- `sdb_set_owned`. -/
def sdbSetOwned (s : Sdb) (w : World) (key val : CStr) (cas : Nat) : Bool × Sdb × World :=
  let r := sdbSetInternal s w key val true cas
  (r.1 ≠ 0, r.2)

/-- `sdb_unset`. -/
def sdbUnset (s : Sdb) (w : World) (key : CStr) (cas : Nat) : Bool × Sdb × World :=
  sdbSet s w key CStr.empty cas

/-! ## Reading -/

/-- What a lookup hands out: the value, its length and its counter. -/
structure Got where
  value : Option CStr
  vlen : Nat
  cas : Nat
deriving DecidableEq

/-- `NULL`. -/
def Got.null : Got := ⟨none, 0, 0⟩

/-- The part of `sdb_const_get_len` that searches the file. -/
def sdbGetDisk (s : Sdb) (key : CStr) : Got :=
  match s.fd with
  | none => .null
  | some _ =>
      let r := cdbLookup s.db key
      if r.1 < 1 then .null
      else if r.2.dlen < 1 ∨ r.2.dlen ≥ sdbMaxValue then .null
      else ⟨some (CStr.ofBytes ((s.db.map.getD []).drop r.2.dpos)), r.2.dlen, 0⟩

/-- `sdb_const_get_len`; an expired entry is unset on the way. -/
def sdbConstGetLen (s : Sdb) (w : World) (key : CStr) : Got × Sdb × World :=
  match sdbHtFindKvp s key with
  | none => (sdbGetDisk s key, s, w)
  | some kv =>
      match kv.value with
      | none => (.null, s, w)
      | some v =>
          if v = CStr.empty then (.null, s, w)
          else if s.timestamped ∧ kv.expire ≠ 0 ∧ w.now > kv.expire then
            (.null, (sdbUnset s w key 0).2)
          else (⟨some v, v.length, kv.cas⟩, s, w)

/-- `sdb_get`: the value alone. -/
def sdbGet (s : Sdb) (w : World) (key : CStr) : Option CStr := (sdbConstGetLen s w key).1.value

/-! ## Opening and closing -/

/-- The check of `sdb_ns_new`: the path of a namespace fits into its buffer. -/
def nsFits (s : Sdb) (name : CStr) : Bool :=
  match s.dir with
  | none => true
  | some dir => dir = CStr.empty ∨ dir.length + name.length + 3 ≤ 256

/-- The pair is set in the root: it stands under no path, or under one whose first namespace
cannot be made. -/
def TextSet.inRoot (s : Sdb) (t : TextSet) : Bool :=
  match t.ns with
  | [] => true
  | name :: _ => !nsFits s name

/-- The pairs of a text file that belong to the root are set one after another. -/
def sdbTextSets (s : Sdb) (w : World) (sets : List TextSet) : Sdb × World :=
  sets.foldl (fun st t ↦ if t.inRoot st.1 then (sdbSet st.1 st.2 t.key t.val 0).2 else st) (s, w)

/-- `sdb_open`: whether it returns a descriptor, and the state after it.  When the file
cannot be opened the old mapping stays in place. -/
def sdbOpen (s : Sdb) (w : World) (file : CStr) : Bool × Sdb × World :=
  if sdbTextCheck (w.fs file) then
    let r := sdbTextSets s w (sdbTextLoadBuf ((w.fs file).getD []))
    (r.1.fd.isSome, r)
  else
    match w.fs file with
    | none => (false, { s with dir := some file, fd := none, db := { s.db with fd := none } }, w)
    | some f => (true, { s with dir := some file, fd := some f, db := (cdbInit (some f)).2 }, w)

/-- A database with nothing in it. -/
def sdbNew0 : Sdb :=
  { dir := none, name := none, fd := none, db := .closed, ht := htNew, journal := none,
    timestamped := false }

/-- A name that stands for a file. -/
def FileName (name : CStr) : Prop := name ≠ CStr.empty ∧ name ≠ CStr.ofBytes [45]

instance (name : CStr) : Decidable (FileName name) := inferInstanceAs (Decidable (_ ∧ _))

/-- The file that `sdb_new` opens for a path and a name. -/
def sdbNewDir (path name : CStr) : CStr :=
  if path ≠ CStr.empty then path ++ (CStr.ofBytes [47] ++ name) else name

/-- `sdb_new`, without a lock. -/
def sdbNew (w : World) (path name : CStr) : Sdb × World :=
  if FileName name then
    let dir := sdbNewDir path name
    let r := (sdbOpen { sdbNew0 with dir := some dir } w dir).2
    ({ r.1 with name := some name, db := (cdbInit r.1.fd).2 }, r.2)
  else (sdbNew0, w)

/-- `sdb_close`: the mapping stays in place. -/
def sdbClose (s : Sdb) : Sdb :=
  match s.fd with
  | none => { s with dir := none }
  | some _ => { s with dir := none, fd := none, db := { s.db with fd := none } }

/-- `sdb_reset`. -/
def sdbReset (s : Sdb) : Sdb := { sdbClose s with ht := htNew }

/-- `sdb_journal_filename`. -/
def sdbJournalFilename (name : CStr) : CStr :=
  name ++ CStr.ofBytes [46, 106, 111, 117, 114, 110, 97, 108]

/-- `sdb_journal_open`. -/
def sdbJournalOpen (s : Sdb) (w : World) : Bool × Sdb × World :=
  match s.name with
  | none => (false, s, w)
  | some name =>
      let filename := sdbJournalFilename name
      if filename.length ≥ 256 then (false, s, w)
      else (true, { s with journal := some filename },
        w.setFile filename (some ((w.fs filename).getD [])))

/-- `sdb_journal_clear`. -/
def sdbJournalClear (s : Sdb) (w : World) : World :=
  match s.journal with
  | none => w
  | some j => w.setFile j (some [])

end SdbStore
