import SdbStore.Createdb
import SdbStore.Lib.AtomicRun
import SdbStore.Processes
import SdbStore.QueryValues

/-!
# Command lines

`sdb_main` of `main.c` for a database and queries: the lock is taken, the database is opened, each
of the queries is made, if there is something to save the database is written back, and the lock is
given back.  The queries here are those that read or write one key, `k` and `k=v`.

Each command line has with it what the operating system answers to its calls on the lock file and to
its `open` of the database.  A command line that finds the lock file waits until somebody removes
it, so that it does not return; one that cannot open the database begins with an empty one.

What a command line does is said by a store with two levels, the file and what is in memory over it.
It is a map, but for a key that is written a second time before the database is saved: if the file
is there and has no value for the key, the second write takes the first one away and is not kept
either.
-/

namespace SdbStore

open Lib

/-! ## The command line -/

/-- The queries, on the database `0`: whether there is something to save, what is printed, and the
state. -/
def mainQueries {σ : Type} (api : QueryApi σ Ref) : List CStr → σ → Bool × Bytes × σ
  | [], st => (false, [], st)
  | arg :: args, st =>
      let r := sdbQuery api 0 arg st
      let t := mainQueries api args r.2.2
      (r.1 || t.1, r.2.1 ++ t.2.1, t.2.2)

/-- `terminate`, after no error, up to the lock: the status of the process, and the files. -/
def terminate (save : Bool) (s : Sdb) (w : World) : Nat × World :=
  if save then
    let r := sdbSync s w
    (if r.1 then 0 else 1, r.2.2)
  else (0, w)

/-- What the operating system answers to a command line: `open`, the two `write` and the `unlink` of
`sdb_lock`, the `open` of the database, and the `unlink` of `sdb_unlock`. -/
structure MainCalls where
  pid : Nat
  lockOpen : Bool
  writePid : Option Nat
  writeNewline : Option Nat
  undo : Bool
  dbOpen : Bool
  unlock : Bool

namespace MainCalls

variable (c : MainCalls)

/-- The next call on the lock file, with its answer. -/
def answer : LockPc → Option LockEvent
  | .open _ => some (.open c.lockOpen)
  | .pid _ => some (.write c.writePid)
  | .newline _ => some (.write c.writeNewline)
  | .undo => some (.unlink c.undo)
  | .unlink _ => some (.unlink c.unlock)
  | .idle | .gone => none

/-- The handle goes on until its call returns. -/
def drive : Nat → LockSys → Option LockSys
  | 0, _ => none
  | n + 1, st =>
      match c.answer (st.handles 0).pc with
      | none => some st
      | some e => (st.step (0, e)).bind (drive n)

/-- A call of `lock.c`.  It returns after at most four system calls, or it waits for the lock. -/
def lockCall (call : LockCall) (st : LockSys) : Option LockSys :=
  (st.step (0, .call call)).bind (c.drive 5)

end MainCalls

/-- The files, none of them made by a handle. -/
def World.lockFiles (w : World) : CStr → Option LockFile :=
  fun p ↦ (w.fs p).map fun text ↦ ⟨text, none⟩

/-- The files, whoever made them. -/
def LockSys.fs (locks : LockSys) : CStr → Option Bytes := fun p ↦ (locks.files p).map LockFile.text

/-- `sdb_new` up to the lock, which only a database with a name has: whether it goes on, and the
lock files. -/
def newLock (c : MainCalls) (w : World) (name : CStr) : Option (Bool × LockSys) :=
  let locks : LockSys :=
    ⟨w.lockFiles, fun _ ↦ ⟨if FileName name then some name else none, 0, c.pid, .idle⟩⟩
  if FileName name then
    (c.lockCall (.lockDb 2) locks).map fun locks ↦ (decide ((locks.handles 0).lock ≠ 0), locks)
  else some (true, locks)

/-- What `sdb_open` sees of the files: an `open` that fails finds none. -/
def MainCalls.seen (c : MainCalls) (w : World) (db : CStr) : World :=
  if c.dbOpen then w else w.setFile db none

/-- `sdb_main`, for a database and at least one query: the status, what is printed, and the files;
nothing if it waits for the lock. -/
def sdbMain (texts : QueryTexts) (rest : QueryApi (Heap × World) Ref) (c : MainCalls) (w : World)
    (db : CStr) (journal : Bool) (args : List CStr) : Option (Nat × Bytes × World) :=
  (newLock c w db).bind fun lock ↦
    let w := { w with fs := lock.2.fs }
    if lock.1 then
      let s := (sdbNew (c.seen w db) .empty db).1
      let st := sdbConfig s w journal
      let r := mainQueries (heapApi texts rest) args ([{ sdbNode0 with sdb := st.1 }], st.2)
      let t := terminate r.1 (r.2.2.1.head?.getD sdbNode0).sdb r.2.2.2
      (c.lockCall .unlockDb { lock.2 with files := t.2.lockFiles }).map fun locks ↦
        (t.1, r.2.1, { t.2 with fs := locks.fs })
    else some (1, [], w)

/-- A query that reads or writes one key. -/
inductive KvQuery where
  | get (k : CStr)
  | put (k v : CStr)

/-- The text of the query. -/
def KvQuery.text : KvQuery → CStr
  | .get k => k
  | .put k v => k ++ (CStr.ofBytes [61] ++ v)

def KvQuery.isPut : KvQuery → Bool
  | .get _ => false
  | .put _ _ => true

/-- The key that a query writes. -/
def KvQuery.writtenKey : KvQuery → Option CStr
  | .get _ => none
  | .put k _ => some (CStr.ofBytes (trimEnd k.val))

/-- The value is a text of its own, and not quoted. -/
structure PlainValue (v : Bytes) : Prop where
  start : ∀ c ∈ v.head?, c ≠ 36 ∧ c ≠ 34
  noEnd : 59 ∉ v

/-- There is nothing of the language of queries in the key or the value. -/
def KvQuery.Plain : KvQuery → Prop
  | .get k => PlainKey k.val
  | .put k v => PlainKey k.val ∧ PlainValue v.val

/-! ## The store with two levels -/

/-- The values of the keys. -/
abbrev Values := CStr → Option CStr

/-- What is in the file, if there is one, and the entries in memory; an entry can be without a
value. -/
structure Staged where
  file : Option Values
  mem : CStr → Option (Option CStr)

namespace Staged

variable (a : Staged)

def disk : Values := a.file.getD fun _ ↦ none

/-- The value that is read. -/
def get (k : CStr) : Option CStr :=
  match a.mem k with
  | none => a.disk k
  | some none => none
  | some (some v) => readAs v

/-- The entry of a key after it is written. -/
def putEntry (k v : CStr) : Option (Option CStr) :=
  match a.mem k with
  | some (some _) => if a.file.isSome ∧ a.disk k = none then none else some (some v)
  | _ => some (readAs v)

/-- A write; the ones that are too long are refused. -/
def put (k v : CStr) : Staged :=
  if k.length ≥ 0xff ∨ v.length ≥ 0xffffff then a
  else { a with mem := Function.update a.mem k (a.putEntry k v) }

/-- What is in the file after it is saved. -/
def commit : Values := fun k ↦
  match a.mem k with
  | none => a.disk k
  | some none => none
  | some (some v) => if v = CStr.empty then (a.disk k).map fun _ ↦ v else some v

/-- A query.  The white space at the end of a key that is written and at the beginning of its value
is cut. -/
def query : KvQuery → Bytes × Staged
  | .get k => (printed (qPuts ((a.get k).map (·.val))), a)
  | .put k v => ([], a.put (CStr.ofBytes (trimEnd k.val)) (CStr.ofBytes (v.val.dropWhile isSpace)))

def queries (a : Staged) : List KvQuery → Bytes × Staged
  | [] => ([], a)
  | q :: qs =>
      let r := a.query q
      let t := queries r.2 qs
      (r.1 ++ t.1, t.2)

end Staged

/-- A command line, with what the operating system answers to it. -/
structure MainLine where
  calls : MainCalls
  queries : List KvQuery

/-- What is read of the file, which is nothing if it cannot be opened. -/
def MainLine.reads (l : MainLine) (file : Option Values) : Option Values :=
  if l.calls.dbOpen then file else none

/-- A command line: what is printed, and the file after it.  It is written if there is a write in
it. -/
def commandLine (file : Option Values) (l : MainLine) : Bytes × Option Values :=
  let r := Staged.queries ⟨l.reads file, fun _ ↦ none⟩ l.queries
  (r.1, if l.queries.any KvQuery.isPut then some r.2.commit else file)

/-- The file has these values. -/
def FileHas (c : Option Bytes) : Option Values → Prop
  | none => c = none
  | some vals => ∃ recs, KvFitting recs ∧ c = some (kvImage recs) ∧
      ∀ k, vals k = (Keyed.lookup Prod.fst recs k).map Prod.snd

/-- A file that is not taken for text, and that can be read from its beginning to its end. -/
def CleanFile (c : Option Bytes) : Prop :=
  ∀ recs, KvFitting recs → c = some (kvImage recs) → sdbTextCheck c = false ∧ Scans recs

/-- The command line, without a journal. -/
def mainLine (texts : QueryTexts) (rest : QueryApi (Heap × World) Ref) (db : CStr) (w : World)
    (l : MainLine) : Option (Nat × Bytes × World) :=
  sdbMain texts rest l.calls w db false (l.queries.map KvQuery.text)

/-! ## The text of a query -/

section Text

variable {σ ρ : Type} (api : QueryApi σ ρ) {k : CStr} (hk : PlainKey k.val)
include hk

theorem PlainKey.head {c : UInt8} {l : Bytes} (h : k.val = c :: l) : c ∉ [9, 32, 35, 37] := fun hc ↦
  hk.start c (by rw [h]; rfl) ((by decide : [9, 32, 35, 37] ⊆ querySigns) hc)

theorem sdbQuerys_get (st : σ) (r : ρ) : sdbQuerys api r k st =
    (qPuts (api.sdbConstGet st r k.val).1, (api.sdbConstGet st r k.val).2) := by
  obtain ⟨c, l, hcl⟩ := List.exists_cons_of_ne_nil hk.ne
  have hc := hk.head hcl
  have hblank : ¬ (c = 32 ∨ c = 9) := by
    rintro (rfl | rfl)
    · exact hc (by decide)
    · exact hc (by decide)
  have hdrop : k.val.dropWhile (fun c ↦ c = 32 ∨ c = 9) = k.val := by
    rw [hcl]
    exact List.dropWhile_cons_of_neg (by simpa using hblank)
  have hseg : qSegment api r k.val st =
      ((.next, qPuts (api.sdbConstGet st r k.val).1, (api.sdbConstGet st r k.val).2), none) := by
    rw [qSegment_plain api r st hdrop, qParse_of_notMem hk.noEq, cutAt_of_notMem hk.noEnd, qExec]
    · dsimp only
      rw [qWalk_noPath api hk.noPath, qDispatch_plain api hk, qKv, qKvGet]
      dsimp only
      rw [if_neg Bool.false_ne_true]
    · rw [hcl]
      intro h
      cases Option.some.inj h
      exact hc (by decide)
    · rw [hcl]
      intro h
      cases Option.some.inj h
      exact hc (by decide)
  rw [sdbQuerys, querysLoop_last api (by rw [hseg]), hseg]
  rfl

omit hk in
theorem qParseEq_value {v : Bytes} (hv : PlainValue v) (cmd : Bytes) :
    qParseEq cmd v = ⟨cmd, some v, .text v, none⟩ := by
  cases v with
  | nil => rfl
  | cons c v =>
      obtain ⟨href, hquote⟩ := hv.start c rfl
      exact qParseEq_plain href hquote hv.noEnd

theorem sdbQuerys_put {v : CStr} (hv : PlainValue v.val) (st : σ) (r : ρ) :
    sdbQuerys api r (KvQuery.put k v).text st =
      (none, api.sdbSet st r (trimEnd k.val) (v.val.dropWhile isSpace)) := by
  obtain ⟨c, l, hcl⟩ := List.exists_cons_of_ne_nil hk.ne
  have hseg := qSegment_eq api r st (hk.head hcl) (hcl ▸ hk.noEq) v.val
  rw [← hcl, qParseEq_value hv, qExec] at hseg
  dsimp only at hseg
  rw [qWalk_noPath api hk.noPath, qDispatch_plain api hk, qKv] at hseg
  dsimp only at hseg
  rw [if_neg hk.ne] at hseg
  have htext : (KvQuery.put k v).text.val = k.val ++ 61 :: v.val := rfl
  rw [sdbQuerys, htext, querysLoop_last api (by rw [hseg]), hseg]
  rfl

end Text

/-! ## The database as a store with two levels -/

/-- The file that is open, if there is one, has these values, and it can be read to its end. -/
def Behind (s : Sdb) : Option Values → Prop
  | none => s.Bare ∧ s.db.map = none
  | some vals =>
      ∃ recs, s.Holds recs ∧ Scans recs ∧ ∀ k, vals k = (Keyed.lookup Prod.fst recs k).map Prod.snd

/-- The database `s`, of the file `db`, is the store `a`. -/
structure Stages (db : CStr) (s : Sdb) (a : Staged) : Prop where
  writtenTo : WrittenTo db s
  behind : Behind s a.file
  mem : ∀ k, (sdbHtFindKvp s k).map SdbKv.value = a.mem k

theorem diskGot_value (o : Option KvRec) : (diskGot o).value = o.map Prod.snd := by
  cases o with
  | none => rfl
  | some r => rfl

theorem Behind.disk {s : Sdb} {a : Staged} (h : Behind s a.file) (k : CStr) :
    (sdbGetDisk s k).value = a.disk k := by
  rw [Staged.disk]
  cases hf : a.file with
  | none =>
      rw [hf] at h
      rw [sdbGetDisk_bare h.1]
      rfl
  | some vals =>
      rw [hf] at h
      obtain ⟨recs, hholds, -, hvals⟩ := h
      rw [sdbGetDisk_holds hholds, diskGot_value, Option.getD_some, hvals]

theorem Behind.lookup {s : Sdb} {a : Staged} (h : Behind s a.file) (k : CStr) :
    (cdbLookup s.db k).1 = 0 ↔ a.file.isSome ∧ a.disk k = none := by
  rw [Staged.disk]
  cases hf : a.file with
  | none =>
      rw [hf] at h
      rw [cdbLookup_bare h.1]
      exact iff_of_false (by decide) fun hno ↦ absurd hno.1 (by decide)
  | some vals =>
      rw [hf] at h
      obtain ⟨recs, hholds, -, hvals⟩ := h
      have hfind := cdbLookup_holds hholds k
      rw [Option.getD_some, hvals]
      cases hr : Keyed.lookup Prod.fst recs k with
      | none =>
          rw [hr] at hfind
          exact iff_of_true hfind ⟨rfl, rfl⟩
      | some r =>
          rw [hr] at hfind
          rw [hfind.1]
          exact iff_of_false (by decide) fun hno ↦ absurd hno.2 (Option.some_ne_none _)

theorem Behind.frame {s s' : Sdb} {file : Option Values} (h : Behind s file) (hf : s.Frame s') :
    Behind s' file := by
  rw [hf]
  cases file with
  | none => exact ⟨⟨h.1.fd, h.1.dbFd⟩, h.2⟩
  | some vals =>
      obtain ⟨recs, hholds, hrest⟩ := h
      exact ⟨recs, ⟨hholds.fitting, hholds.fd, hholds.db⟩, hrest⟩

section Stages

variable {db : CStr} {s : Sdb} {a : Staged} (h : Stages db s a)
include h

/-- A read. -/
theorem Stages.get (w : World) (k : CStr) :
    (sdbConstGetLen s w k).1.value = a.get k ∧ (sdbConstGetLen s w k).2 = (s, w) := by
  rw [sdbConstGetLen_eq h.writtenTo.sound.noExpire]
  refine ⟨?_, rfl⟩
  rw [Staged.get, ← h.mem k]
  cases sdbHtFindKvp s k with
  | none => exact h.behind.disk k
  | some kv =>
      rw [Option.map_some, entryGet]
      cases kv.value with
      | none => rfl
      | some v =>
          dsimp only
          rw [readAs]
          split
          · rfl
          · rfl

/-- The entry after a write. -/
theorem Stages.setEntry {k v : CStr} (hlen : ¬(k.length ≥ 0xff ∨ v.length ≥ 0xffffff)) :
    (SdbStore.setEntry (sdbHtFindKvp s k) (cdbLookup s.db k).1 k v false 0).2.map SdbKv.value =
      a.putEntry k v := by
  have hnew : (newEntry k v false).value = readAs v := by
    rw [newEntry, readAs]
    rfl
  unfold SdbStore.setEntry
  rw [if_neg hlen, Staged.putEntry, ← h.mem k]
  cases sdbHtFindKvp s k with
  | none => exact congrArg some hnew
  | some kv =>
      rw [Option.map_some]
      dsimp only
      cases hv : kv.value with
      | none => exact congrArg some hnew
      | some old =>
          dsimp only
          by_cases hdisk : (cdbLookup s.db k).1 = 0
          · rw [if_neg (not_not_intro hdisk), if_pos ((h.behind.lookup k).mp hdisk)]
            rfl
          · rw [if_pos hdisk, if_neg (mt (h.behind.lookup k).mpr hdisk), if_neg fun hno ↦ hno.1 rfl]
            split
            · next hsame => rw [Option.map_some, hv, hsame]
            · rfl

/-- A write. -/
theorem Stages.put (w : World) (k v : CStr) :
    Stages db (sdbSet s w k v 0).2.1 (a.put k v) ∧ (sdbSet s w k v 0).2.2 = w := by
  have hwritten : WrittenTo db (sdbSet s w k v 0).2.1 := h.writtenTo.set ⟨k, v, 0⟩ w
  have hworld : (sdbSet s w k v 0).2.2 = w := SetCall.run_world ⟨k, v, 0⟩ h.writtenTo.journal w
  refine ⟨?_, hworld⟩
  rw [Staged.put]
  split
  · next hlen =>
      -- a pair that is too long is refused
      have hsame : (sdbSet s w k v 0).2.1 = s :=
        congrArg (fun r ↦ r.2.1) (if_pos hlen : sdbSetInternal s w k v false 0 = (0, s, w))
      rw [hsame]
      exact h
  · next hlen =>
      have hspec := sdbSetInternal_spec h.writtenTo.sound.wf w k v false 0
      refine ⟨hwritten, h.behind.frame hspec.frame, fun k' ↦ ?_⟩
      rw [show sdbHtFindKvp (sdbSet s w k v 0).2.1 k' = _ from hspec.find k']
      dsimp only
      rw [Function.update_apply]
      split
      · next hk =>
          subst hk
          exact h.setEntry hlen
      · exact h.mem k'

/-- What a sync writes. -/
theorem Stages.commit {p : Plan} (hp : syncPlan s = some p) (k : CStr) :
    a.commit k = (Keyed.lookup Prod.fst p.1 k).map Prod.snd := by
  obtain ⟨recs, hreads, hdisk⟩ : ∃ recs, s.Reads recs ∧
      ∀ k, a.disk k = (Keyed.lookup Prod.fst recs k).map Prod.snd := by
    have hbehind := h.behind
    have hvalue := h.behind.disk
    cases hf : a.file with
    | none =>
        rw [hf] at hbehind
        refine ⟨[], hbehind.1.reads hbehind.2, fun k ↦ ?_⟩
        rw [← hvalue, sdbGetDisk_bare hbehind.1]
        rfl
    | some vals =>
        rw [hf] at hbehind
        obtain ⟨recs, hholds, hscan, -⟩ := hbehind
        refine ⟨recs, hholds.reads hscan, fun k ↦ ?_⟩
        rw [← hvalue, sdbGetDisk_holds hholds, diskGot_value]
  obtain ⟨p', hp', hspec⟩ := syncPlan_spec h.writtenTo.sound.wf hreads
  obtain rfl : p' = p := Option.some.inj (hp'.symm.trans hp)
  rw [(hspec k).2, Staged.commit, ← h.mem k, hdisk, mergedRec]
  cases hf : sdbHtFindKvp s k with
  | none =>
      rw [Option.map_none, Option.bind_none, Option.map_none, Option.or_none]
  | some kv =>
      have hexp := h.writtenTo.sound.noExpire k kv hf
      rw [Option.map_some, Option.bind_some, memValue]
      dsimp only
      cases kv.value with
      | none => rfl
      | some v =>
          dsimp only
          cases Keyed.lookup Prod.fst recs k with
          | none =>
              by_cases hv : v = CStr.empty
              · rw [if_pos hv, if_neg fun hno ↦ hno.1 hv]
                rfl
              · rw [if_neg hv, if_pos ⟨hv, hexp⟩]
                rfl
          | some r =>
              have hset : (if v = CStr.empty then some v else some v) = some v := ite_id _
              exact hset

end Stages

/-! ## The lock of a command line -/

theorem LockSys.fs_lockFiles (w : World) (handles : Nat → LockHandle) :
    LockSys.fs ⟨w.lockFiles, handles⟩ = w.fs := by
  funext p
  have hfs : LockSys.fs ⟨w.lockFiles, handles⟩ p =
      ((w.fs p).map fun text ↦ ⟨text, none⟩).map LockFile.text := rfl
  rw [hfs, Option.map_map]
  exact Option.map_id'

/-- The handle of the command line. -/
def MainCalls.handle (c : MainCalls) (db : CStr) (lock : Int) (pc : LockPc) : LockHandle :=
  ⟨some db, lock, c.pid, pc⟩

/-- The lock is taken, or it is not and the lock file is not there, unless the removal has
failed. -/
def MainCalls.Ended (c : MainCalls) (db p : CStr) (locks : LockSys) : Prop :=
  locks.handles 0 = c.handle db 2 .idle ∨ (locks.handles 0).lock = 0 ∧
    (c.undo = true → locks.files p = none)

/-- No file but the lock file is another one. -/
def OnlyLock (p : CStr) (fs fs' : CStr → Option Bytes) : Prop := ∀ q, q ≠ p → fs' q = fs q

theorem OnlyLock.update {p : CStr} {fs : CStr → Option Bytes} (locks : LockSys)
    (h : OnlyLock p fs locks.fs) (f : Option LockFile) (handles : Nat → LockHandle) :
    OnlyLock p fs (LockSys.fs ⟨Function.update locks.files p f, handles⟩) := by
  intro q hq
  rw [← h q hq]
  exact congrArg (Option.map LockFile.text) (Function.update_of_ne hq f locks.files)

section Open

variable {locks : LockSys} {i : Nat} {p : CStr} (mode : Int)

theorem LockSys.open_false :
    locks.open i mode p false = locks.put i { locks.handles i with pc := .idle } := rfl

theorem LockSys.open_there (h : locks.files p ≠ none) : locks.open i 2 p true = locks := by
  obtain ⟨f, hf⟩ := Option.ne_none_iff_exists'.mp h
  unfold LockSys.open
  rw [hf]
  rfl

theorem LockSys.open_make (h : locks.files p = none) : locks.open i mode p true =
    { locks with files := Function.update locks.files p (some ⟨[], some i⟩) }.put i
      { locks.handles i with pc := .pid mode } := by
  unfold LockSys.open
  rw [h]

end Open

section Lock

variable {db p : CStr} (c : MainCalls)

section Drive

variable {locks locks' : LockSys}

theorem MainCalls.drive_idle (n : Nat) (h : (locks.handles 0).pc = .idle) :
    c.drive (n + 1) locks = some locks := by
  rw [drive, h]
  rfl

theorem MainCalls.drive_step (n : Nat) {e : LockEvent} (he : c.answer (locks.handles 0).pc = some e)
    (hstep : locks.step (0, e) = some locks') : c.drive (n + 1) locks = c.drive n locks' := by
  rw [drive, he]
  exact congrArg (Option.bind · (c.drive n)) hstep

end Drive

variable (locks : LockSys) (hp : sdbLockFile (some db) = some p)
include hp

theorem MainCalls.drive_open (n : Nat) (h : locks.handles 0 = c.handle db 0 (.open 2)) :
    c.drive (n + 1) locks = c.drive n (locks.open 0 2 p c.lockOpen) := by
  refine c.drive_step n (e := .open c.lockOpen) (by rw [h]; rfl) ?_
  rw [LockSys.step, h, show (c.handle db 0 (.open 2)).path = some p from hp]
  rfl

/-- A write to the lock file has failed, and the file is removed. -/
theorem MainCalls.drive_undo (n : Nat) (h : locks.handles 0 = c.handle db 0 .undo) :
    ∃ locks', c.drive (n + 2) locks = some locks' ∧ OnlyLock p locks.fs locks'.fs ∧
      c.Ended db p locks' := by
  have hstep : locks.step (0, .unlink c.undo) =
      some ((locks.unlink p c.undo).put 0 (c.handle db 0 .idle)) := by
    rw [LockSys.step, h, show (c.handle db 0 .undo).path = some p from hp]
    rfl
  refine ⟨_, (c.drive_step (n + 1) (by rw [h]; rfl) hstep).trans (c.drive_idle n rfl), ?_,
    .inr ⟨rfl, fun hundo ↦ ?_⟩⟩
  · rw [LockSys.unlink]
    split
    · exact OnlyLock.update _ (fun _ _ ↦ rfl) _ _
    · exact fun _ _ ↦ rfl
  · rw [hundo]
    exact Function.update_self p none locks.files

/-- The newline is to be written. -/
theorem MainCalls.drive_newline (n : Nat) (h : locks.handles 0 = c.handle db 0 (.newline 2)) :
    ∃ locks', c.drive (n + 3) locks = some locks' ∧ OnlyLock p locks.fs locks'.fs ∧
      c.Ended db p locks' := by
  have hpath : (c.handle db 0 (.newline 2)).path = some p := hp
  have hanswer : c.answer (locks.handles 0).pc = some (.write c.writeNewline) := by
    rw [h]
    rfl
  cases hwrite : c.writeNewline with
  | none =>
      rw [hwrite] at hanswer
      have hstep : locks.step (0, .write none) = some (locks.put 0 (c.handle db 0 .undo)) := by
        rw [LockSys.step, h, hpath]
        rfl
      rw [c.drive_step (n + 2) hanswer hstep]
      exact c.drive_undo _ hp n rfl
  | some m =>
      rw [hwrite] at hanswer
      have hstep : locks.step (0, .write (some m)) =
          some ((locks.append p ([10].take m)).put 0 (c.handle db 2 .idle)) := by
        rw [LockSys.step, h, hpath]
        rfl
      exact ⟨_, (c.drive_step (n + 2) hanswer hstep).trans (c.drive_idle (n + 1) rfl),
        OnlyLock.update _ (fun _ _ ↦ rfl) _ _, .inl rfl⟩

/-- The process id is to be written. -/
theorem MainCalls.drive_pid (h : locks.handles 0 = c.handle db 0 (.pid 2)) :
    ∃ locks', c.drive 4 locks = some locks' ∧ OnlyLock p locks.fs locks'.fs ∧
      c.Ended db p locks' := by
  have hpath : (c.handle db 0 (.pid 2)).path = some p := hp
  have hanswer : c.answer (locks.handles 0).pc = some (.write c.writePid) := by
    rw [h]
    rfl
  cases hwrite : c.writePid with
  | none =>
      rw [hwrite] at hanswer
      have hstep : locks.step (0, .write none) = some (locks.put 0 (c.handle db 0 .undo)) := by
        rw [LockSys.step, h, hpath]
        rfl
      rw [c.drive_step 3 hanswer hstep]
      exact c.drive_undo _ hp 1 rfl
  | some m =>
      rw [hwrite] at hanswer
      have hstep : locks.step (0, .write (some m)) =
          some ((locks.append p ((digits 10 c.pid).take m)).put 0
            (c.handle db 0 (.newline 2))) := by
        rw [LockSys.step, h, hpath]
        rfl
      obtain ⟨locks', hdrive, hothers, hended⟩ := c.drive_newline
        ((locks.append p ((digits 10 c.pid).take m)).put 0 (c.handle db 0 (.newline 2))) hp 0 rfl
      refine ⟨locks', (c.drive_step 3 hanswer hstep).trans hdrive, fun q hq ↦ ?_, hended⟩
      rw [hothers q hq]
      exact OnlyLock.update locks (fun _ _ ↦ rfl) _ _ q hq

/-- As long as the lock file is there `sdb_lock_wait` goes round. -/
theorem MainCalls.drive_waits (h : locks.handles 0 = c.handle db 0 (.open 2))
    (hopen : c.lockOpen = true) (hthere : locks.files p ≠ none) (n : Nat) :
    c.drive n locks = none := by
  induction n with
  | zero => rfl
  | succ n ih =>
      rw [c.drive_open locks hp n h, hopen, LockSys.open_there hthere]
      exact ih

/-- `sdb_lock` waits for the lock file, or it returns. -/
theorem MainCalls.drive_lock (h : locks.handles 0 = c.handle db 0 (.open 2)) :
    (c.drive 5 locks = none ∧ locks.files p ≠ none) ∨
      ∃ locks', c.drive 5 locks = some locks' ∧ OnlyLock p locks.fs locks'.fs ∧
        (locks'.handles 0 = c.handle db 2 .idle ∨
          (locks'.handles 0).lock = 0 ∧
          (c.undo = true → locks.files p = none → locks'.files p = none)) := by
  rw [c.drive_open locks hp 4 h]
  cases hopen : c.lockOpen with
  | false =>
      -- `open` fails with another error
      right
      rw [LockSys.open_false, h]
      exact ⟨_, c.drive_idle 3 rfl, fun _ _ ↦ rfl, .inr ⟨rfl, fun _ ↦ id⟩⟩
  | true =>
      by_cases hnone : locks.files p = none
      · right
        rw [LockSys.open_make 2 hnone, h]
        obtain ⟨locks', hdrive, hothers, hended⟩ := c.drive_pid
          (.put ⟨Function.update locks.files p (some ⟨[], some 0⟩), locks.handles⟩ 0
            (c.handle db 0 (.pid 2))) hp rfl
        refine ⟨locks', hdrive, fun q hq ↦ ?_,
          hended.imp_right fun hno ↦ ⟨hno.1, fun hundo _ ↦ hno.2 hundo⟩⟩
        rw [hothers q hq]
        exact OnlyLock.update _ (fun _ _ ↦ rfl) _ _ q hq
      · rw [LockSys.open_there hnone]
        exact .inl ⟨c.drive_waits locks hp h hopen hnone 4, hnone⟩

/-- `sdb_lock_db` of the command line. -/
theorem MainCalls.lockDb_eq (h : locks.handles 0 = c.handle db 0 .idle) :
    c.lockCall (.lockDb 2) locks = c.drive 5 (locks.put 0 (c.handle db 0 (.open 2))) := by
  have hpath : (c.handle db 0 .idle).path = some p := hp
  have hlock : sdbLockDb (c.handle db 0 .idle) 2 = c.handle db 0 (.open 2) :=
    if_neg (not_or_intro (by decide) (by rw [hpath]; exact Option.some_ne_none p))
  have hstep : locks.step (0, .call (.lockDb 2)) =
      some (locks.put 0 (c.handle db 0 (.open 2))) := by
    rw [LockSys.step, h, ← hlock]
    rfl
  rw [lockCall, hstep]
  rfl

/-- `sdb_unlock_db` returns, and has removed the lock file unless that has failed. -/
theorem MainCalls.unlockDb_spec (h : locks.handles 0 = c.handle db 2 .idle) :
    ∃ locks', c.lockCall .unlockDb locks = some locks' ∧ OnlyLock p locks.fs locks'.fs ∧
      (c.unlock = true → locks'.files p = none) := by
  have hpath : (c.handle db 2 .idle).path = some p := hp
  have hcall : c.lockCall .unlockDb locks =
      c.drive 5 (locks.put 0 (c.handle db 2 (.unlink .done))) := by
    have hunlock : sdbUnlockDb (c.handle db 2 .idle) .done = c.handle db 2 (.unlink .done) :=
      if_pos ⟨two_ne_zero, by rw [hpath]; exact Option.some_ne_none p⟩
    have hstep : locks.step (0, .call .unlockDb) =
        some (locks.put 0 (c.handle db 2 (.unlink .done))) := by
      rw [LockSys.step, h, ← hunlock]
      rfl
    rw [lockCall, hstep]
    rfl
  have hstep : (locks.put 0 (c.handle db 2 (.unlink .done))).step (0, .unlink c.unlock) =
      some (((locks.put 0 (c.handle db 2 (.unlink .done))).unlink p c.unlock).put 0
        (c.handle db 0 .idle)) := by
    rw [LockSys.step, show (locks.put 0 (c.handle db 2 (.unlink .done))).handles 0 =
      c.handle db 2 (.unlink .done) from rfl,
        show (c.handle db 2 (.unlink .done)).path = some p from hp]
    rfl
  refine ⟨_, (hcall.trans (c.drive_step 4 rfl hstep)).trans (c.drive_idle 3 rfl), ?_,
    fun hunlock ↦ ?_⟩
  · rw [LockSys.unlink]
    split
    · exact OnlyLock.update _ (fun _ _ ↦ rfl) _ _
    · exact fun _ _ ↦ rfl
  · rw [hunlock]
    exact Function.update_self p none locks.files

/-- `sdb_new` up to the lock. -/
theorem newLock_spec (hdb : FileName db) (w : World) :
    (newLock c w db = none ∧ w.fs p ≠ none) ∨
      ∃ lock, newLock c w db = some lock ∧ OnlyLock p w.fs lock.2.fs ∧
        (lock.1 = true ∧ lock.2.handles 0 = c.handle db 2 .idle ∨
          lock.1 = false ∧ (c.undo = true → w.fs p = none → lock.2.fs p = none)) := by
  have hnew : newLock c w db =
      (c.drive 5 (LockSys.put ⟨w.lockFiles, fun _ ↦ c.handle db 0 .idle⟩ 0
        (c.handle db 0 (.open 2)))).map
        fun locks ↦ (decide ((locks.handles 0).lock ≠ 0), locks) := by
    rw [newLock, if_pos hdb, if_pos hdb, ← c.lockDb_eq _ hp rfl]
    rfl
  have hfs : LockSys.fs ⟨w.lockFiles, fun _ ↦ c.handle db 0 .idle⟩ = w.fs :=
    LockSys.fs_lockFiles w _
  have hfiles : w.lockFiles p = none ↔ w.fs p = none := Option.map_eq_none_iff
  rw [hnew]
  rcases c.drive_lock (.put ⟨w.lockFiles, fun _ ↦ c.handle db 0 .idle⟩ 0 (c.handle db 0 (.open 2)))
    hp rfl with ⟨hwaits, hthere⟩ | ⟨locks, hdrive, hothers, hended⟩
  · left
    rw [hwaits]
    exact ⟨rfl, mt hfiles.mpr hthere⟩
  · right
    rw [hdrive]
    refine ⟨_, rfl, fun q hq ↦ (hothers q hq).trans (congrFun hfs q), ?_⟩
    rcases hended with hheld | ⟨hzero, hundo⟩
    · exact .inl ⟨decide_eq_true (by rw [hheld]; exact two_ne_zero), hheld⟩
    · refine .inr ⟨decide_eq_false (not_not_intro hzero), fun hok hnone ↦ ?_⟩
      exact Option.map_eq_none_iff.mpr (hundo hok (hfiles.mpr hnone))

end Lock

/-- The lock file is not the database, but for one length of its path. -/
theorem sdbLockFile_ne {db p : CStr} (hp : sdbLockFile (some db) = some p)
    (hlen : db.length ≠ 255) : p ≠ db := by
  rintro rfl
  rw [sdbLockFile] at hp
  split at hp
  · cases hp
  · have hno : (0 : UInt8) ∉ (p.val ++ [46, 108, 111, 99, 107]).take 255 := fun h0 ↦ by
      rcases List.mem_append.mp (List.mem_of_mem_take h0) with hmem | hmem
      · exact p.property hmem
      · exact absurd hmem (by decide)
    have hval := CStr.val_ofBytes hno
    rw [Option.some.inj hp] at hval
    have hlength := congrArg List.length hval
    simp only [List.length_append, List.length_take, List.length_cons, List.length_nil] at hlength
    have hp' : p.val.length ≠ 255 := hlen
    omega

/-! ## One command line -/

/-- The database that the queries are about. -/
def mainHeap (s : Sdb) : Heap := [{ sdbNode0 with sdb := s }]

section Line

variable {db : CStr} {s : Sdb} {a : Staged} (texts : QueryTexts)
    (rest : QueryApi (Heap × World) Ref)

theorem mustSave_get {k : CStr} (hk : PlainKey k.val) :
    decide (k.val.head? = some 126 ∨ 61 ∈ k.val) = false := by
  refine decide_eq_false ?_
  rintro (hhead | heq)
  · exact hk.start 126 hhead (by decide)
  · exact hk.noEq heq

theorem heapGet_mainHeap (s : Sdb) (w : World) (k : CStr) : heapGet (mainHeap s, w) 0 k.val =
    ((sdbConstGetLen s w k).1.value.map (·.val), mainHeap (sdbConstGetLen s w k).2.1,
      (sdbConstGetLen s w k).2.2) := by
  rw [heapGet, CStr.ofBytes_val]
  rfl

/-- A query whose texts are known. -/
theorem sdbQuery_of_querys {σ : Type} {api : QueryApi σ Ref} {cmd : CStr} {st st' : σ}
    {out : StrBuf} {save : Bool} (hsave : decide (cmd.val.head? = some 126 ∨ 61 ∈ cmd.val) = save)
    (h : sdbQuerys api 0 cmd st = (out, st')) :
    sdbQuery api 0 cmd st = (save, printed out, st') := by
  rw [sdbQuery, h, ← hsave]

theorem sdbQuery_put {k v : CStr} (hk : PlainKey k.val) (hv : PlainValue v.val) (s : Sdb)
    (w : World) :
    let r := sdbSet s w (CStr.ofBytes (trimEnd k.val)) (CStr.ofBytes (v.val.dropWhile isSpace)) 0
    sdbQuery (heapApi texts rest) 0 (KvQuery.put k v).text (mainHeap s, w) =
      (true, [], mainHeap r.2.1, r.2.2) := by
  have heq : 61 ∈ (KvQuery.put k v).text.val := List.mem_append_right _ List.mem_cons_self
  exact sdbQuery_of_querys (decide_eq_true (.inr heq))
    (sdbQuerys_put (heapApi texts rest) hk hv (mainHeap s, w) 0)

/-- **One query.** -/
theorem Stages.query (h : Stages db s a) (w : World) {q : KvQuery} (hq : q.Plain) :
    ∃ s', sdbQuery (heapApi texts rest) 0 q.text (mainHeap s, w) =
      (q.isPut, (a.query q).1, mainHeap s', w) ∧ Stages db s' (a.query q).2 := by
  cases q with
  | get k =>
      obtain ⟨hvalue, hstate⟩ := h.get w k
      refine ⟨s, ?_, h⟩
      have hheap : (heapApi texts rest).sdbConstGet (mainHeap s, w) 0 k.val =
          ((a.get k).map (·.val), mainHeap s, w) := by
        rw [← hvalue]
        exact (heapGet_mainHeap s w k).trans (by rw [hstate])
      have hout := sdbQuerys_get (heapApi texts rest) hq (mainHeap s, w) 0
      rw [hheap] at hout
      exact sdbQuery_of_querys (mustSave_get hq) hout
  | put k v =>
      obtain ⟨hk, hv⟩ := hq
      obtain ⟨hput, hworld⟩ :=
        h.put w (CStr.ofBytes (trimEnd k.val)) (CStr.ofBytes (v.val.dropWhile isSpace))
      refine ⟨_, ?_, hput⟩
      exact (sdbQuery_put texts rest hk hv s w).trans
        (congrArg (fun w' ↦ (true, [], mainHeap _, w')) hworld)

/-- All of them. -/
theorem Stages.queries (h : Stages db s a) (w : World) {qs : List KvQuery}
    (hqs : ∀ q ∈ qs, q.Plain) :
    ∃ s', mainQueries (heapApi texts rest) (qs.map KvQuery.text) (mainHeap s, w) =
      (qs.any KvQuery.isPut, (a.queries qs).1, mainHeap s', w) ∧ Stages db s' (a.queries qs).2 := by
  induction qs generalizing s a with
  | nil => exact ⟨s, rfl, h⟩
  | cons q qs ih =>
      obtain ⟨s₁, hone, h₁⟩ := h.query texts rest w (hqs q List.mem_cons_self)
      obtain ⟨s', hall, h'⟩ := ih h₁ fun q hq ↦ hqs q (List.mem_cons_of_mem _ hq)
      refine ⟨s', ?_, h'⟩
      rw [List.map_cons, mainQueries, hone]
      dsimp only
      rw [hall]
      rfl

/-- The database when it has been opened. -/
theorem stages_sdbNew (hdb : FileName db) {w : World} {file : Option Values}
    (hfile : FileHas (w.fs db) file) (hclean : CleanFile (w.fs db)) :
    Stages db (sdbNew w .empty db).1 ⟨file, fun _ ↦ none⟩ := by
  have hwritten : WrittenTo db (sdbNew w .empty db).1 := Tx.start_writtenTo hdb false w
  have hdir := sdbNewDir_empty db
  cases file with
  | none =>
      have hnew := sdbNew_absent hdb (by rw [hdir]; exact hfile)
      refine ⟨hwritten, ?_, fun k ↦ ?_⟩
      · rw [hnew]
        exact ⟨⟨rfl, rfl⟩, rfl⟩
      · rw [sdbHtFindKvp_of_htNew (by rw [hnew]; rfl)]
        rfl
  | some vals =>
      obtain ⟨recs, hfit, himage, hvals⟩ := hfile
      obtain ⟨htext, hscan⟩ := hclean recs hfit himage
      have hnew := sdbNew_file hdb (by rw [hdir]; exact himage) (himage ▸ htext)
      refine ⟨hwritten, ⟨recs, ?_, hscan, hvals⟩, fun k ↦ ?_⟩
      · rw [hnew]
        exact ⟨hfit, rfl, hfit.over⟩
      · rw [sdbHtFindKvp_of_htNew (by rw [hnew]; rfl)]
        rfl

theorem cleanFile_none : CleanFile none := fun _ _ h ↦ absurd h.symm (Option.some_ne_none _)

/-- The database of a command line when it has been opened, or not. -/
theorem stages_seen (hdb : FileName db) {w : World} {file : Option Values}
    (hfile : FileHas (w.fs db) file) {l : MainLine}
    (hclean : l.calls.dbOpen = true → CleanFile (w.fs db)) :
    Stages db (sdbNew (l.calls.seen w db) .empty db).1 ⟨l.reads file, fun _ ↦ none⟩ := by
  rw [MainCalls.seen, MainLine.reads]
  cases hopen : l.calls.dbOpen with
  | true => exact stages_sdbNew hdb hfile (hclean hopen)
  | false =>
      have hnone : FileHas ((w.setFile db none).fs db) none := if_pos rfl
      have hclean' : CleanFile ((w.setFile db none).fs db) := by
        rw [show (w.setFile db none).fs db = none from hnone]
        exact cleanFile_none
      exact stages_sdbNew hdb hnone hclean'

theorem WrittenTo.config (h : WrittenTo db s) (w : World) : sdbConfig s w false = (s, w) := by
  rw [sdbConfig, if_neg Bool.false_ne_true, sdbJournalClose, h.journal]

/-- The end: the file is saved, or an error is reported and the file is as it was or is saved all
the same. -/
theorem Stages.terminate (h : Stages db s a) (w : World) :
    (FileHas ((sdbSync s w).2.2.fs db) (some a.commit) ∨
      (sdbSync s w).1 = false ∧ (sdbSync s w).2.2.fs db = w.fs db) ∧
      ∀ q, q ≠ db → q ≠ tmpPath db → (sdbSync s w).2.2.fs q = w.fs q := by
  have htarget := h.writtenTo.target
  obtain ⟨hfile, hothers⟩ := sdbSync_files h.writtenTo.sound h.writtenTo.journal w
  rw [htarget] at hfile hothers
  refine ⟨?_, hothers⟩
  have hhas {p : Plan} (hp : Writable (syncDir s) p)
      (hsaved : (sdbSync s w).2.2.fs db = some (kvImage p.1)) :
      FileHas ((sdbSync s w).2.2.fs db) (some a.commit) :=
    ⟨p.1, hp.fitting, hsaved, h.commit ((syncPlan_syncDir s).symm.trans hp.plan)⟩
  cases hret : (sdbSync s w).1 with
  | false =>
      rcases hfile with hsame | ⟨p, hp, hsaved⟩
      · exact .inr ⟨rfl, hsame⟩
      · exact .inl (hhas hp hsaved)
  | true =>
      obtain ⟨p, hp⟩ := sdbSync_true h.writtenTo.sound.wf hret
      have hsaved := hp.file (by rw [h.writtenTo.journal]; exact (Option.some_ne_none _).symm)
      rw [htarget] at hsaved
      exact .inl (hhas hp.writable hsaved)

/-- The command line that gets the lock. -/
theorem mainLine_eq (hdb : FileName db) {w : World} {l : MainLine} {lock : Bool × LockSys}
    (hlock : newLock l.calls w db = some lock) (hheld : lock.1 = true) {out : Bytes} {save : Bool}
    (hall : mainQueries (heapApi texts rest) (l.queries.map KvQuery.text)
      (mainHeap (sdbNew (l.calls.seen { w with fs := lock.2.fs } db) .empty db).1,
        { w with fs := lock.2.fs }) =
      (save, out, mainHeap s, { w with fs := lock.2.fs })) :
    mainLine texts rest db w l =
      let t := SdbStore.terminate save s { w with fs := lock.2.fs }
      (l.calls.lockCall .unlockDb { lock.2 with files := t.2.lockFiles }).map fun locks ↦
        (t.1, out, { t.2 with fs := locks.fs }) := by
  have hwritten : WrittenTo db (sdbNew (l.calls.seen { w with fs := lock.2.fs } db) .empty db).1 :=
    Tx.start_writtenTo hdb false _
  rw [mainLine, sdbMain, hlock, Option.bind_some, hheld, if_pos rfl]
  dsimp only
  rw [hwritten.config]
  dsimp only
  rw [← mainHeap, hall]
  rfl

/-- The command line finds a clean file, if it can open it, and its queries are plain. -/
def GoodLine (db : CStr) (w : World) (l : MainLine) : Prop :=
  (l.calls.dbOpen = true → CleanFile (w.fs db)) ∧ ∀ q ∈ l.queries, q.Plain

/-- The file is saved if there is something to save, or an error is reported and it is as it was. -/
theorem Stages.ends (h : Stages db s a) {w : World} {file : Option Values}
    (hfile : FileHas (w.fs db) file) (save : Bool) :
    let t := SdbStore.terminate save s w
    (FileHas (t.2.fs db) (if save then some a.commit else file) ∨ t.1 ≠ 0 ∧
      FileHas (t.2.fs db) file) ∧ ∀ q, q ≠ db → q ≠ tmpPath db → t.2.fs q = w.fs q := by
  cases save with
  | false => exact ⟨.inl hfile, fun _ _ _ ↦ rfl⟩
  | true =>
      obtain ⟨hsaved, hothers⟩ := h.terminate w
      refine ⟨hsaved.imp_right fun hlost ↦ ?_, hothers⟩
      obtain ⟨hret, hsame⟩ := hlost
      rw [SdbStore.terminate, if_pos rfl]
      dsimp only
      rw [hret, hsame]
      exact ⟨Nat.one_ne_zero, hfile⟩

/-- **One command line** is refused the lock, or it prints what the store gives, and saves it or
reports an error. -/
theorem mainLine_spec (hdb : FileName db) {p : CStr} (hp : sdbLockFile (some db) = some p)
    (hne : p ≠ db) {w : World} {file : Option Values} (hfile : FileHas (w.fs db) file)
    {l : MainLine} (hgood : GoodLine db w l) {r : Nat × Bytes × World}
    (hr : mainLine texts rest db w l = some r) :
    StepDone commandLine [] (fun w' file' ↦ FileHas (w'.fs db) file') file l r ∧
      ∀ q, q ≠ db → q ≠ tmpPath db → q ≠ p → r.2.2.fs q = w.fs q := by
  obtain ⟨hclean, hqs⟩ := hgood
  rcases newLock_spec l.calls hp hdb w with ⟨hwaits, -⟩
    | ⟨lock, hlock, honly, ⟨hheld, hhandle⟩ | ⟨hno, -⟩⟩
  · rw [mainLine, sdbMain, hwaits] at hr
    cases hr
  · -- the lock changes nothing of the database
    let w' : World := { w with fs := lock.2.fs }
    have hsame : w'.fs db = w.fs db := honly db hne.symm
    have hfile' : FileHas (w'.fs db) file := hsame.symm ▸ hfile
    have hclean' : l.calls.dbOpen = true → CleanFile (w'.fs db) :=
      fun hopen ↦ hsame.symm ▸ hclean hopen
    obtain ⟨s', hall, h'⟩ := (stages_seen hdb hfile' hclean').queries texts rest w' hqs
    obtain ⟨hsaved, hothers⟩ := h'.ends hfile' (l.queries.any KvQuery.isPut)
    have hmain := mainLine_eq texts rest hdb hlock hheld hall
    generalize SdbStore.terminate (l.queries.any KvQuery.isPut) s' w' = t at hsaved hothers hmain
    obtain ⟨locks, hunlock, hlast, -⟩ :=
      l.calls.unlockDb_spec { lock.2 with files := t.2.lockFiles } hp hhandle
    rw [LockSys.fs_lockFiles] at hlast
    dsimp only at hmain
    rw [hunlock, Option.map_some, hr] at hmain
    obtain rfl := Option.some.inj hmain
    refine ⟨?_, fun q hq htmp hqp ↦ (hlast q hqp).trans ((hothers q hq htmp).trans (honly q hqp))⟩
    have hdb' : locks.fs db = t.2.fs db := hlast db hne.symm
    rw [← hdb'] at hsaved
    rcases hsaved with hkept | ⟨hret, hlost⟩
    · exact .kept hkept
    · exact .lost hret hlost
  · rw [mainLine, sdbMain, hlock, Option.bind_some, hno, if_neg Bool.false_ne_true] at hr
    obtain rfl := Option.some.inj hr
    have hfile' : FileHas (lock.2.fs db) file := by
      rw [honly db hne.symm]
      exact hfile
    exact ⟨.refused Nat.one_ne_zero hfile', fun q _ _ hqp ↦ honly q hqp⟩

/-- The lock file is removed whenever it should be. -/
def MainLine.Unlocks (l : MainLine) : Prop := l.calls.undo = true ∧ l.calls.unlock = true

/-- A command line waits for the lock file, or it returns, and leaves none behind unless the removal
fails. -/
theorem mainLine_lock (hdb : FileName db) {p : CStr} (hp : sdbLockFile (some db) = some p)
    (w : World) (l : MainLine) :
    (mainLine texts rest db w l = none ∧ w.fs p ≠ none) ∨
      ∃ r, mainLine texts rest db w l = some r ∧
        (l.Unlocks → w.fs p = none → r.2.2.fs p = none) := by
  rcases newLock_spec l.calls hp hdb w with ⟨hwaits, hthere⟩
    | ⟨lock, hlock, -, ⟨hheld, hhandle⟩ | ⟨hno, hundo⟩⟩
  · left
    rw [mainLine, sdbMain, hwaits]
    exact ⟨rfl, hthere⟩
  · right
    rw [mainLine, sdbMain, hlock, Option.bind_some, hheld, if_pos rfl]
    dsimp only
    generalize SdbStore.terminate _ _ _ = t
    obtain ⟨locks, hunlock, -, hgone⟩ :=
      l.calls.unlockDb_spec { lock.2 with files := t.2.lockFiles } hp hhandle
    rw [hunlock]
    exact ⟨_, rfl, fun hok _ ↦ Option.map_eq_none_iff.mpr (hgone hok.2)⟩
  · right
    rw [mainLine, sdbMain, hlock, Option.bind_some, hno, if_neg Bool.false_ne_true]
    exact ⟨_, rfl, fun hok hnone ↦ hundo hok.1 hnone⟩

end Line

/-! ## Command lines one after another -/

/-- The values are kept in the file of the database, and all other files but the temporary one and
the lock file are as they were. -/
structure KeptIn (db : CStr) (w₀ w : World) (file : Option Values) : Prop where
  has : FileHas (w.fs db) file
  others : ∀ q, q ≠ db → q ≠ tmpPath db → sdbLockFile (some db) ≠ some q → w.fs q = w₀.fs q

/-- The lock file is not there. -/
def Unlocked (db : CStr) (w : World) : Prop := ∀ p, sdbLockFile (some db) = some p → w.fs p = none

/-- What is seen of command lines, where `step` is what one of them does to the values.  All of them
return, or they stop at a lock file, and if none is there at the beginning and each removal succeeds
there is none. -/
structure Served (step : Option Values → MainLine → Bytes × Option Values) (db : CStr) (w : World)
    (file : Option Values) (lines : List MainLine) (r : List (Nat × Bytes) × World) : Prop where
  atomic : ∃ file', AtomicRun step [] file lines r.1 file' ∧ KeptIn db w r.2 file'
  waits : r.1.length = lines.length ∨ ¬ Unlocked db r.2
  ends : Unlocked db w → (∀ l ∈ lines, l.Unlocks) → r.1.length = lines.length ∧ Unlocked db r.2

section Served

variable (texts : QueryTexts) (rest : QueryApi (Heap × World) Ref) {db : CStr} (hdb : FileName db)
include hdb

theorem FileName.sdbLockFile : ∃ p, SdbStore.sdbLockFile (some db) = some p := ⟨_, if_neg hdb.1⟩

theorem KeptIn.step (hlen : db.length ≠ 255) {w₀ w : World} {file : Option Values}
    (h : KeptIn db w₀ w file) {l : MainLine} (hgood : GoodLine db w l) {r : Nat × Bytes × World}
    (hr : mainLine texts rest db w l = some r) :
    StepDone commandLine [] (KeptIn db w₀) file l r := by
  obtain ⟨p, hp⟩ := hdb.sdbLockFile
  obtain ⟨hdone, hothers⟩ := mainLine_spec texts rest hdb hp (sdbLockFile_ne hp hlen) h.has hgood hr
  have hkeep (q : CStr) (hq : q ≠ db) (htmp : q ≠ tmpPath db)
      (hlock : sdbLockFile (some db) ≠ some q) :
      r.2.2.fs q = w₀.fs q :=
    (hothers q hq htmp fun hqp ↦ hlock (hqp ▸ hp)).trans (h.others q hq htmp hlock)
  cases hdone with
  | kept hhas => exact .kept ⟨hhas, hkeep⟩
  | lost hret hhas => exact .lost hret ⟨hhas, hkeep⟩
  | refused hret hhas => exact .refused hret ⟨hhas, hkeep⟩

/-- The lock file, along command lines. -/
theorem mainLines_lock (w : World) (lines : List MainLine) :
    let r := runSteps (mainLine texts rest db) w lines
    (r.1.length = lines.length ∨ ¬ Unlocked db r.2) ∧
      (Unlocked db w → (∀ l ∈ lines, l.Unlocks) → r.1.length = lines.length ∧ Unlocked db r.2) := by
  obtain ⟨p, hp⟩ := hdb.sdbLockFile
  refine ⟨(runSteps_stops (mainLine texts rest db) w lines).imp_right ?_, fun hun hok ↦ ?_⟩
  · rintro ⟨l, -, hwaits⟩ hun
    rcases mainLine_lock texts rest hdb hp (runSteps (mainLine texts rest db) w lines).2 l with
      ⟨-, hthere⟩ | ⟨r, hr, -⟩
    · exact hthere (hun p hp)
    · exact Option.some_ne_none r (hr.symm.trans hwaits)
  · refine runSteps_complete (fun w' hun' l hl ↦ ?_) hun
    rcases mainLine_lock texts rest hdb hp w' l with ⟨-, hthere⟩ | ⟨r, hr, hnone⟩
    · exact absurd (hun' p hp) hthere
    · refine ⟨r, hr, fun q hq ↦ ?_⟩
      obtain rfl : p = q := Option.some.inj (hp.symm.trans hq)
      exact hnone (hok l hl) (hun' p hp)

end Served

/-- A file with these records is clean if it is not taken for text and can be read to its end. -/
theorem cleanFile_of_scans {recs : List KvRec} (hfit : KvFitting recs)
    (htext : sdbTextCheck (some (kvImage recs)) = false) (hscan : Scans recs) :
    CleanFile (some (kvImage recs)) := by
  intro recs' hfit' himage
  obtain rfl : recs = recs' := List.map_injective_iff.mpr KvRec.raw_injective
    (cdbImage_injective hfit hfit' (Option.some.inj himage))
  exact ⟨htext, hscan⟩

/-- The query `x=1`. -/
def putX : KvQuery := .put (CStr.ofBytes [120]) (CStr.ofBytes [49])

theorem putX_plain : putX.Plain := by
  refine ⟨⟨by decide, ?_, by decide, by decide, by decide, by decide⟩, ?_, by decide⟩
  · intro c hc
    obtain rfl : c = 120 := (Option.some.inj hc).symm
    decide
  · intro c hc
    obtain rfl : c = 49 := (Option.some.inj hc).symm
    decide

theorem fileHas_none : FileHas (World.empty.fs (CStr.ofBytes [100])) none := rfl

/-- The operating system answers as it should. -/
def calmCalls : MainCalls := ⟨1, true, some 1, some 1, true, true, true⟩

/-- The lock of the new database `d`. -/
def lockD : Bool × LockSys := (newLock calmCalls .empty (CStr.ofBytes [100])).get (by decide)

/-- The new database `d` after it. -/
theorem mainLine_putX {r : Nat × Bytes × World}
    (hr : mainLine default default (CStr.ofBytes [100]) .empty ⟨calmCalls, [putX]⟩ = some r) :
    r.2.2.fs (CStr.ofBytes [100]) = some (kvImage fileX) := by
  have hdb : FileName (CStr.ofBytes [100]) := by decide
  have hp : sdbLockFile (some (CStr.ofBytes [100])) =
      some (CStr.ofBytes [100, 46, 108, 111, 99, 107]) := by decide
  have hlock : newLock calmCalls .empty (CStr.ofBytes [100]) = some lockD :=
    (Option.some_get _).symm
  let w : World := { World.empty with fs := lockD.2.fs }
  have hnone : w.fs (CStr.ofBytes [100]) = none := by decide
  have hhas : FileHas (w.fs (CStr.ofBytes [100])) none := hnone
  have hstart := stages_sdbNew hdb hhas (by rw [hnone]; exact cleanFile_none)
  obtain ⟨hput, hworld⟩ := hstart.put w (CStr.ofBytes [120]) (CStr.ofBytes [49])
  have hquery := sdbQuery_put default default putX_plain.1 putX_plain.2
      (sdbNew w .empty (CStr.ofBytes [100])).1 w
  dsimp only at hquery
  rw [show CStr.ofBytes (trimEnd (CStr.ofBytes [120]).val) = CStr.ofBytes [120] by decide,
    show CStr.ofBytes ((CStr.ofBytes [49]).val.dropWhile isSpace) =
        CStr.ofBytes [49] by decide, hworld] at hquery
  have hall : mainQueries (heapApi default default) ([putX].map KvQuery.text)
      (mainHeap (sdbNew w .empty (CStr.ofBytes [100])).1, w) =
        (true, [], mainHeap (sdbSet (sdbNew w .empty (CStr.ofBytes [100])).1 w (CStr.ofBytes [120])
          (CStr.ofBytes [49]) 0).2.1, w) := by
    rw [List.map_singleton, mainQueries, putX, hquery]
    rfl
  have hmain := mainLine_eq default default hdb (l := ⟨calmCalls, [putX]⟩) hlock (by decide) hall
  have hsaved := (sdbSync_noFault_file hput.writtenTo.sound.wf (w := w) (fun _ ↦ rfl)
    (by rw [hput.writtenTo.journal]; exact (Option.some_ne_none _).symm)).2
      (fileX, [CStr.ofBytes [120]])
    ⟨by decide, by decide, fileX_fitting, cdbRoom_of_length (by decide)⟩
  rw [hput.writtenTo.target] at hsaved
  rw [terminate, if_pos rfl] at hmain
  dsimp only at hmain
  obtain ⟨locks, hunlock, honly, -⟩ := calmCalls.unlockDb_spec { lockD.2 with files :=
    (sdbSync (sdbSet (sdbNew w .empty (CStr.ofBytes [100])).1 w (CStr.ofBytes [120])
      (CStr.ofBytes [49]) 0).2.1 w).2.2.lockFiles } hp rfl
  rw [hunlock, hr] at hmain
  rw [LockSys.fs_lockFiles] at honly
  obtain rfl := Option.some.inj hmain
  exact (honly (CStr.ofBytes [100]) (by decide)).trans hsaved.2

/-- `x=1` and then `x`. -/
def linesX : List MainLine := [⟨calmCalls, [putX]⟩, ⟨calmCalls, [.get (CStr.ofBytes [120])]⟩]

/-- They can be made in a new database, and write no key twice. -/
theorem linesX_good : AllAlong (fun w l ↦ GoodLine (CStr.ofBytes [100]) w l ∧
    (l.queries.filterMap KvQuery.writtenKey).Nodup)
      (mainLine default default (CStr.ofBytes [100])) .empty linesX := by
  refine ⟨⟨⟨fun _ ↦ cleanFile_none, fun q hq ↦ ?_⟩, List.nodup_singleton _⟩, fun r hr ↦
    ⟨⟨⟨fun _ ↦ ?_, fun q hq ↦ ?_⟩, List.nodup_nil⟩, fun _ _ ↦ trivial⟩⟩
  · rw [List.mem_singleton.mp hq]
    exact putX_plain
  · rw [mainLine_putX hr]
    exact cleanFile_of_scans fileX_fitting fileX_not_text fileX_scans
  · rw [List.mem_singleton.mp hq]
    exact putX_plain.1

/-- A query on a map. -/
def Values.query (m : Values) : KvQuery → Bytes × Values
  | .get k => (printed (qPuts ((m k).map (·.val))), m)
  | .put k v =>
      let k := CStr.ofBytes (trimEnd k.val)
      let v := CStr.ofBytes (v.val.dropWhile isSpace)
      ([], if k.length ≥ 0xff ∨ v.length ≥ 0xffffff then m else Function.update m k (readAs v))

def Values.queries (m : Values) : List KvQuery → Bytes × Values
  | [] => ([], m)
  | q :: qs =>
      let r := m.query q
      let t := Values.queries r.2 qs
      (r.1 ++ t.1, t.2)

/-- A command line on a map that is kept in a file. -/
def mapLine (file : Option Values) (l : MainLine) : Bytes × Option Values :=
  let r := Values.queries ((l.reads file).getD fun _ ↦ none) l.queries
  (r.1, if l.queries.any KvQuery.isPut then some r.2 else file)

/-- The store has the values of the map, and none of the keys has an entry. -/
structure OverMap (a : Staged) (m : Values) (keys : List CStr) : Prop where
  disk : ∀ k, a.mem k = none → m k = a.disk k
  entry : ∀ k o, a.mem k = some o → o ≠ some CStr.empty ∧ m k = o
  fresh : ∀ k ∈ keys, a.mem k = none

section OverMap

variable {a : Staged} {m : Values} {keys : List CStr}

theorem OverMap.get (h : OverMap a m keys) (k : CStr) : a.get k = m k := by
  rw [Staged.get]
  cases hk : a.mem k with
  | none => exact (h.disk k hk).symm
  | some o =>
      obtain ⟨hne, hm⟩ := h.entry k o hk
      rw [hm]
      cases o with
      | none => rfl
      | some v => exact if_neg fun hv ↦ hne (congrArg some hv)

theorem OverMap.commit (h : OverMap a m keys) : a.commit = m := by
  funext k
  rw [Staged.commit]
  cases hk : a.mem k with
  | none => exact (h.disk k hk).symm
  | some o =>
      obtain ⟨hne, hm⟩ := h.entry k o hk
      rw [hm]
      cases o with
      | none => rfl
      | some v => exact if_neg fun hv ↦ hne (congrArg some hv)

theorem OverMap.query {q : KvQuery} {qs : List KvQuery}
    (h : OverMap a m ((q :: qs).filterMap KvQuery.writtenKey))
    (hd : ((q :: qs).filterMap KvQuery.writtenKey).Nodup) :
    (a.query q).1 = (m.query q).1 ∧
      OverMap (a.query q).2 (m.query q).2 (qs.filterMap KvQuery.writtenKey) := by
  cases q with
  | get k =>
      refine ⟨?_, h⟩
      rw [Staged.query, Values.query, h.get]
  | put k v =>
      rw [Staged.query, Values.query]
      generalize hkey : CStr.ofBytes (trimEnd k.val) = key
      generalize CStr.ofBytes (v.val.dropWhile isSpace) = val
      refine ⟨rfl, ?_⟩
      have hwritten : (KvQuery.put k v :: qs).filterMap KvQuery.writtenKey =
          key :: qs.filterMap KvQuery.writtenKey := by
        rw [← hkey]
        rfl
      rw [hwritten] at h hd
      obtain ⟨hnot, -⟩ := List.nodup_cons.mp hd
      dsimp only
      rw [Staged.put]
      split
      · exact ⟨h.disk, h.entry, fun k hk ↦ h.fresh k (List.mem_cons_of_mem _ hk)⟩
      · have hput : a.putEntry key val = some (readAs val) := by
          rw [Staged.putEntry, h.fresh key List.mem_cons_self]
        have hval : readAs val ≠ some CStr.empty := by
          rw [readAs]
          split
          · exact (Option.some_ne_none _).symm
          · next hne => exact fun hno ↦ hne (Option.some.inj hno)
        rw [hput]
        refine ⟨fun k' hk ↦ ?_, fun k' o hk ↦ ?_, fun k' hk ↦ ?_⟩
        · by_cases hkk : k' = key
          · rw [hkk] at hk
            exact absurd hk (by simp)
          · dsimp only at hk
            rw [Function.update_of_ne hkk] at hk ⊢
            exact h.disk k' hk
        · by_cases hkk : k' = key
          · subst hkk
            dsimp only at hk
            rw [Function.update_self] at hk ⊢
            exact ⟨Option.some.inj hk ▸ hval, Option.some.inj hk⟩
          · dsimp only at hk
            rw [Function.update_of_ne hkk] at hk ⊢
            exact h.entry k' o hk
        · have hkk : k' ≠ key := fun hno ↦ hnot (hno ▸ hk)
          dsimp only
          rw [Function.update_of_ne hkk]
          exact h.fresh k' (List.mem_cons_of_mem _ hk)

theorem OverMap.queries {qs : List KvQuery} (h : OverMap a m (qs.filterMap KvQuery.writtenKey))
    (hd : (qs.filterMap KvQuery.writtenKey).Nodup) :
    (a.queries qs).1 = (m.queries qs).1 ∧ (a.queries qs).2.commit = (m.queries qs).2 := by
  induction qs generalizing a m with
  | nil => exact ⟨rfl, h.commit⟩
  | cons q qs ih =>
      obtain ⟨hout, hnext⟩ := h.query hd
      have hrest : (qs.filterMap KvQuery.writtenKey).Nodup :=
        List.Nodup.sublist ((List.sublist_cons_self q qs).filterMap KvQuery.writtenKey) hd
      obtain ⟨houts, hend⟩ := ih hnext hrest
      refine ⟨?_, hend⟩
      rw [Staged.queries, Values.queries]
      rw [hout, houts]

end OverMap

/-- Without a second write of a key the store is a map. -/
theorem commandLine_eq_mapLine {l : MainLine} (hd : (l.queries.filterMap KvQuery.writtenKey).Nodup)
    (file : Option Values) : commandLine file l = mapLine file l := by
  have hstart : OverMap ⟨l.reads file, fun _ ↦ none⟩ ((l.reads file).getD fun _ ↦ none)
      (l.queries.filterMap KvQuery.writtenKey) :=
    ⟨fun _ _ ↦ rfl, fun _ _ h ↦ absurd h.symm (Option.some_ne_none _), fun _ _ ↦ rfl⟩
  obtain ⟨hout, hend⟩ := hstart.queries hd
  rw [commandLine, mapLine, hout, hend]

theorem stepDone_map {w₀ : World} {db : CStr} {file : Option Values} {l : MainLine}
    (hd : (l.queries.filterMap KvQuery.writtenKey).Nodup) {r : Nat × Bytes × World}
    (h : StepDone commandLine [] (KeptIn db w₀) file l r) :
    StepDone mapLine [] (KeptIn db w₀) file l r := by
  have hline := commandLine_eq_mapLine hd file
  cases h with
  | kept h =>
      rw [hline] at h ⊢
      exact .kept h
  | lost hret h =>
      rw [hline]
      exact .lost hret h
  | refused hret h => exact .refused hret h

end SdbStore
