import SdbStore.Journal

/-!
# Recovery from the journal

A database that is opened with `SDB_OPTION_JOURNAL` is meant to survive a crash: what has
been written since the last sync is in the journal, and opening the database again loads
it.  The question is whether at every moment the files alone, which are all that a crash
leaves, give every key the value that the process sees.

The live table and the replayed one are not equal: a sync leaves entries in memory that
the replay does not have.  `Agrees` is what the two have in common at every key.
-/

namespace SdbStore

open Lib

/-- `sdb_journal_close`. -/
def sdbJournalClose (s : Sdb) (w : World) : Sdb × World :=
  match s.journal with
  | none => (s, w)
  | some _ =>
      match s.name with
      | none => ({ s with journal := none }, w)
      | some name =>
          let filename := sdbJournalFilename name
          ({ s with journal := none },
            if filename.length ≥ 256 then w else w.setFile filename none)

/-- `sdb_config`, for the option `SDB_OPTION_JOURNAL`: the journal is loaded, and then
cleared. -/
def sdbConfig (s : Sdb) (w : World) (journal : Bool) : Sdb × World :=
  if journal then
    let st := (sdbJournalOpen s w).2
    let st := (sdbJournalLoad st.1 st.2).2
    (st.1, sdbJournalClear st.1 st.2)
  else sdbJournalClose s w

/-- A database is opened with a journal. -/
def openJournal (w : World) (path name : CStr) : Sdb × World :=
  let st := sdbNew w path name
  sdbConfig st.1 st.2 true

/-- The steps of a process with a journal; after a crash the database is opened again. -/
inductive JournalOp where
  | set (key val : CStr) (cas : Nat)
  | unset (key : CStr) (cas : Nat)
  | sync
  | crash

/-- One step. -/
def JournalOp.run (path name : CStr) (op : JournalOp) (st : Sdb × World) : Sdb × World :=
  match op with
  | .set key val cas => (sdbSet st.1 st.2 key val cas).2
  | .unset key cas => (sdbUnset st.1 st.2 key cas).2
  | .sync => (sdbSync st.1 st.2).2
  | .crash => openJournal st.2 path name

/-- The states of the runs that begin in a world in `start` and whose steps all satisfy `ok` in
the state before them. -/
inductive JournalReach (path name : CStr) (start : World → Prop)
    (ok : JournalOp → Sdb × World → Prop) : Sdb × World → Prop
  | start {w : World} (h : start w) : JournalReach path name start ok (openJournal w path name)
  | step {st : Sdb × World} (op : JournalOp) (hst : JournalReach path name start ok st)
      (hop : ok op st) : JournalReach path name start ok (op.run path name st)

/-- The files give every key the value that the process sees. -/
def Recovers (path name : CStr) (st : Sdb × World) : Prop :=
  ∀ k, sdbGet (recovered st.2 path name).1 (recovered st.2 path name).2 k = sdbGet st.1 st.2 k

/-- The steps of a run without faults: pairs that can be logged are written. -/
def JournalOp.Plain (op : JournalOp) (st : Sdb × World) : Prop :=
  match op with
  | .set key val _ => Loggable key val
  | .unset key _ => Loggable key CStr.empty
  | .sync => ∀ j, st.2.fails j = false
  | .crash => True

/-! ## Steps after which the journal is right -/

/-- The name of the database is that of a file, and the path of its journal fits into its
buffer. -/
def JournalName (name : CStr) : Prop := FileName name ∧ (sdbJournalFilename name).length < 256

/-- The journal that is found when the database is opened holds no change: every pair in it
sets a key to the value that the database file gives for it. -/
def NoChange (path name : CStr) (w : World) : Prop :=
  ∀ r ∈ journalChanges ((w.fs (sdbJournalFilename name)).getD []),
    sdbGet (sdbNew w path name).1 (sdbNew w path name).2 r.1 = readAs r.2

/-- A write that is carried out as its line in the journal says: it is not refused for its
counter, it does not find the empty string under a key that the open file does not have
(which a sync leaves in memory, and a write deletes), and there is room in the journal. -/
structure SafeSet (st : Sdb × World) (key val : CStr) (cas : Nat) : Prop where
  cas : ∀ kv old, sdbHtFindKvp st.1 key = some kv → kv.value = some old →
    (cdbLookup st.1.db key).1 ≠ 0 → cas = 0 ∨ kv.cas = cas
  blank : ∀ kv, sdbHtFindKvp st.1 key = some kv → kv.value = some CStr.empty →
    (cdbLookup st.1.db key).1 ≠ 0
  room : ∀ j, st.1.journal = some j →
    ((st.2.fs j).getD []).length + lineLength (key, val) < 0x80000000

/-- The steps that keep the journal right: safe writes, syncs whose file is not taken for
text, and crashes that leave no change in the journal. -/
def JournalOp.Safe (path name : CStr) (op : JournalOp) (st : Sdb × World) : Prop :=
  match op with
  | .set key val cas => SafeSet st key val cas
  | .unset key cas => SafeSet st key CStr.empty cas
  | .sync => ∀ p, Writable (syncDir st.1) p → sdbTextCheck (some (kvImage p.1)) = false
  | .crash => NoChange path name st.2

/-! ## Paths -/

theorem count_slash_journal (name : CStr) :
    (sdbJournalFilename name).val.count 47 = name.val.count 47 := by
  show (name.val ++ _).count 47 = _
  rw [List.count_append]
  rfl

theorem journal_ne_dir (path name : CStr) : sdbJournalFilename name ≠ sdbNewDir path name := by
  rw [sdbNewDir]
  split
  · intro h
    have hcount := count_slash_journal name
    rw [h] at hcount
    have hdir : (path ++ (CStr.ofBytes [47] ++ name)).val.count 47 =
        path.val.count 47 + (1 + name.val.count 47) := by
      show (path.val ++ ([47] ++ name.val)).count 47 = _
      rw [List.count_append, List.count_append]
      rfl
    omega
  · intro h
    have hlen := congrArg CStr.length h
    rw [sdbJournalFilename, length_append_cstr] at hlen
    have height : (CStr.ofBytes [46, 106, 111, 117, 114, 110, 97, 108]).length = 8 := rfl
    omega

theorem journal_ne_tmp (path name : CStr) :
    sdbJournalFilename name ≠ tmpPath (sdbNewDir path name) := by
  have htmp : ∀ dir : CStr, (tmpPath dir).val.count 47 = dir.val.count 47 := by
    intro dir
    show (dir.val ++ _).count 47 = _
    rw [List.count_append]
    rfl
  rw [sdbNewDir]
  split
  · intro h
    have hcount := count_slash_journal name
    rw [h, htmp] at hcount
    have hdir : (path ++ (CStr.ofBytes [47] ++ name)).val.count 47 =
        path.val.count 47 + (1 + name.val.count 47) := by
      show (path.val ++ ([47] ++ name.val)).count 47 = _
      rw [List.count_append, List.count_append]
      rfl
    omega
  · intro h
    have hlen := congrArg CStr.length h
    rw [sdbJournalFilename, tmpPath, length_append_cstr, length_append_cstr] at hlen
    exact absurd (Nat.add_left_cancel hlen) (by decide)

/-! ## The live table and the replayed one -/

/-- The entry has a value, which may be the empty string. -/
def HasValue (e : Option SdbKv) : Prop := ∃ kv v, e = some kv ∧ kv.value = some v

/-- What the entry `e` of a key in the live table has in common with its entry `e'` in the
replayed one: both give the same value, and a write to one of them is dropped only if a
write to the other is, unless the live entry is a blank that a sync has left. -/
structure Agrees (disk : Int) (d : Got) (e e' : Option SdbKv) : Prop where
  get : (entryGet e d).value = (entryGet e' d).value
  back : disk = 0 → HasValue e' → HasValue e
  forth : disk = 0 → HasValue e → HasValue e' ∨ ∃ kv, e = some kv ∧ kv.value = some CStr.empty

theorem Agrees.refl (disk : Int) (d : Got) (e : Option SdbKv) : Agrees disk d e e :=
  ⟨rfl, fun _ h ↦ h, fun _ h ↦ .inl h⟩

section Agrees

variable {disk : Int} {d : Got} {e e' : Option SdbKv} {key val : CStr} {cas : Nat}

theorem setEntry_of_not_hasValue (he : ¬ HasValue e)
    (hlen : ¬ (key.length ≥ 0xff ∨ val.length ≥ 0xffffff)) (owned : Bool) :
    setEntry e disk key val owned cas = (2, some (newEntry key val owned)) := by
  unfold setEntry
  rw [if_neg hlen]
  cases e with
  | none => rfl
  | some kv =>
      cases hv : kv.value with
      | none => simp only [hv]
      | some v => exact absurd ⟨kv, v, rfl, hv⟩ he

/-- A counter that is not refused does not matter. -/
theorem setEntry_cas
    (hcas : ∀ kv old, e = some kv → kv.value = some old → disk ≠ 0 → cas = 0 ∨ kv.cas = cas)
    (owned : Bool) : setEntry e disk key val owned cas = setEntry e disk key val owned 0 := by
  unfold setEntry
  split
  · rfl
  · cases e with
    | none => rfl
    | some kv =>
        cases hv : kv.value with
        | none => simp only [hv]
        | some old =>
            simp only [hv]
            by_cases hdisk : disk ≠ 0
            · have hno : ¬ (cas ≠ 0 ∧ kv.cas ≠ cas) := by
                rintro ⟨h₁, h₂⟩
                rcases hcas kv old rfl hv hdisk with h | h
                · exact h₁ h
                · exact h₂ h
              have hzero : ¬ ((0 : Nat) ≠ 0 ∧ kv.cas ≠ 0) := fun h ↦ h.1 rfl
              rw [if_pos hdisk, if_pos hdisk, if_neg hno, if_neg hzero]
            · rw [if_neg hdisk, if_neg hdisk]

/-- A write that is carried out on both. -/
theorem Agrees.set (h : Agrees disk d e e')
    (hlen : ¬ (key.length ≥ 0xff ∨ val.length ≥ 0xffffff))
    (hcas : ∀ kv old, e = some kv → kv.value = some old → disk ≠ 0 → cas = 0 ∨ kv.cas = cas)
    (hblank : ∀ kv, e = some kv → kv.value = some CStr.empty → disk ≠ 0) :
    Agrees disk d (setEntry e disk key val false cas).2 (setEntry e' disk key val false 0).2 := by
  rw [setEntry_cas hcas]
  by_cases hdisk : disk = 0
  · by_cases he : HasValue e
    · -- both entries are dropped
      have he' : HasValue e' := by
        rcases h.forth hdisk he with he' | ⟨kv, hkv, hv⟩
        · exact he'
        · exact absurd hdisk (hblank kv hkv hv)
      obtain ⟨kv, v, rfl, hv⟩ := he
      obtain ⟨kv', v', rfl, hv'⟩ := he'
      rw [hdisk, setEntry_dropped hv hlen, setEntry_dropped hv' hlen]
      exact .refl _ _ _
    · have he' : ¬ HasValue e' := fun he' ↦ he (h.back hdisk he')
      rw [setEntry_of_not_hasValue he hlen, setEntry_of_not_hasValue he' hlen]
      exact .refl _ _ _
  · refine ⟨?_, fun h ↦ absurd h hdisk, fun h ↦ absurd h hdisk⟩
    rw [entryGet_setEntry hlen fun _ _ _ _ ↦ hdisk, entryGet_setEntry hlen fun _ _ _ _ ↦ hdisk]

/-- A write on the live side that sets what is there already. -/
theorem Agrees.set_left (h : Agrees disk d e e') (hdisk : disk = 0 → e' = none ∧ d.value = none)
    (hval : (entryGet e' d).value = readAs val) :
    Agrees disk d (setEntry e disk key val false 0).2 e' := by
  by_cases hlen : key.length ≥ 0xff ∨ val.length ≥ 0xffffff
  · unfold setEntry
    rw [if_pos hlen]
    exact h
  · by_cases hzero : disk = 0
    · obtain ⟨rfl, hd⟩ := hdisk hzero
      by_cases he : HasValue e
      · obtain ⟨kv, v, rfl, hv⟩ := he
        rw [hzero, setEntry_dropped hv hlen]
        exact .refl _ _ _
      · -- the file has no value for the key, so none is set
        rw [setEntry_of_not_hasValue he hlen]
        have hnone : (entryGet none d).value = none := hd
        refine ⟨(entryGet_newEntry key val d).trans hval.symm, fun _ hno ↦ ?_, fun _ hyes ↦ ?_⟩
        · obtain ⟨kv, v, hkv, -⟩ := hno
          cases hkv
        · obtain ⟨kv, v, hkv, hv⟩ := hyes
          rw [hnone, readAs] at hval
          split at hval
          · next hempty =>
              rw [← Option.some.inj hkv] at hv
              simp [newEntry, hempty] at hv
          · cases hval
    · refine ⟨?_, fun h ↦ absurd h hzero, fun h ↦ absurd h hzero⟩
      rw [entryGet_setEntry hlen fun _ _ _ _ ↦ hzero, hval]

end Agrees

/-! ## A new database -/

/-- What is set depends on the database alone. -/
theorem sdbSetInternal_fst (s : Sdb) (w w' : World) (key val : CStr) (owned : Bool) (cas : Nat) :
    (sdbSetInternal s w key val owned cas).2.1 = (sdbSetInternal s w' key val owned cas).2.1 := by
  unfold sdbSetInternal
  split
  · rfl
  · dsimp only
    split
    · rfl
    · split
      · rfl
      · split
        · split
          · rfl
          · split
            · rfl
            · rfl
        · rfl

theorem sdbTextSets_fst (s : Sdb) (w w' : World) (sets : List TextSet) :
    (sdbTextSets s w sets).1 = (sdbTextSets s w' sets).1 := by
  have key : ∀ st st' : Sdb × World, st.1 = st'.1 →
      (sets.foldl (fun st t ↦
        if t.inRoot st.1 then (sdbSet st.1 st.2 t.key t.val 0).2 else st) st).1 =
      (sets.foldl (fun st t ↦
        if t.inRoot st.1 then (sdbSet st.1 st.2 t.key t.val 0).2 else st) st').1 := by
    induction sets with
    | nil => exact fun _ _ h ↦ h
    | cons t sets ih =>
        intro st st' h
        rw [List.foldl_cons, List.foldl_cons]
        apply ih
        rw [h]
        split
        · exact sdbSetInternal_fst st'.1 st.2 st'.2 t.key t.val false 0
        · exact h
  exact key _ _ rfl

/-- A new database depends on its file alone. -/
theorem sdbNew_congr {w w' : World} {path name : CStr}
    (h : w'.fs (sdbNewDir path name) = w.fs (sdbNewDir path name)) :
    (sdbNew w' path name).1 = (sdbNew w path name).1 := by
  unfold sdbNew
  split
  · unfold sdbOpen
    dsimp only
    rw [h]
    split
    · dsimp only
      rw [sdbTextSets_fst _ w' w]
    · split
      · rfl
      · rfl
  · rfl

/-- Without a journal nothing is written. -/
theorem sdbTextSets_snd {s : Sdb} (hw : s.WF) (hj : s.journal = none) (w : World)
    (sets : List TextSet) : (sdbTextSets s w sets).2 = w := by
  rw [sdbTextSets]
  induction sets generalizing s with
  | nil => rfl
  | cons t sets ih =>
      rw [List.foldl_cons]
      split
      · have hspec := sdbSetInternal_spec hw w t.key t.val false 0
        have hworld : (sdbSet s w t.key t.val 0).2.2 = w := by
          rcases sdbSetInternal_world s w t.key t.val false 0 with h | h
          · exact h
          · refine h.trans ?_
            rw [sdbJournalLog, hj]
        have h := ih hspec.wf (hspec.frame.journal.trans hj)
        rw [show (sdbSet s w t.key t.val 0).2 = ((sdbSet s w t.key t.val 0).2.1, w) from
          Prod.ext rfl hworld]
        exact h
      · exact ih hw hj

/-- The parts of a new database. -/
theorem sdbNew_spec (w : World) (path : CStr) {name : CStr} (hname : FileName name) :
    (sdbNew w path name).2 = w ∧ (sdbNew w path name).1.dir = some (sdbNewDir path name) ∧
      (sdbNew w path name).1.name = some name ∧
      ∀ k, (cdbLookup (sdbNew w path name).1.db k).1 = 0 →
        sdbHtFindKvp (sdbNew w path name).1 k = none := by
  have hzero : Sdb.WF { sdbNew0 with dir := some (sdbNewDir path name) } := htNew_wf
  unfold sdbNew
  rw [if_pos hname]
  unfold sdbOpen
  dsimp only
  split
  · have hframe := sdbTextSets_frame hzero w (sdbTextLoadBuf ((w.fs (sdbNewDir path name)).getD []))
    refine ⟨sdbTextSets_snd hzero rfl w _, ?_, rfl, fun k hk ↦ ?_⟩
    · rw [hframe]
    · -- a text has no file behind it
      rw [hframe.fd] at hk
      cases hk
  · split
    · exact ⟨rfl, rfl, rfl, fun k _ ↦ sdbHtFindKvp_of_htNew rfl k⟩
    · exact ⟨rfl, rfl, rfl, fun k _ ↦ sdbHtFindKvp_of_htNew rfl k⟩

/-! ## Sets one after another -/

theorem TableInv.setAll {P : Sdb → Prop} (h : TableInv P) {st : Sdb × World} (hst : P st.1)
    (pairs : List KvRec) : P (sdbSetAll st pairs).1 := by
  induction pairs generalizing st with
  | nil => exact hst
  | cons r pairs ih => exact ih (h.set hst st.2 r.1 r.2 false 0)

theorem sdbSetAll_frame {st : Sdb × World} (hw : st.1.WF) (pairs : List KvRec) :
    st.1.Frame (sdbSetAll st pairs).1 := by
  induction pairs generalizing st with
  | nil => rfl
  | cons r pairs ih =>
      have hspec := sdbSetInternal_spec hw st.2 r.1 r.2 false 0
      exact hspec.frame.trans (ih hspec.wf)

theorem sdbSetAll_append (st : Sdb × World) (pairs : List KvRec) (r : KvRec) :
    sdbSetAll st (pairs ++ [r]) =
      (sdbSet (sdbSetAll st pairs).1 (sdbSetAll st pairs).2 r.1 r.2 0).2 := by
  rw [sdbSetAll, List.foldl_append]
  rfl

/-- The entries after the sets depend on the entries before them and on the file. -/
theorem sdbHtFindKvp_setAll {st st' : Sdb × World} (hw : st.1.WF) (hw' : st'.1.WF)
    (hfind : ∀ k, sdbHtFindKvp st'.1 k = sdbHtFindKvp st.1 k) (hdb : st'.1.db = st.1.db)
    (pairs : List KvRec) (k : CStr) :
    sdbHtFindKvp (sdbSetAll st' pairs).1 k = sdbHtFindKvp (sdbSetAll st pairs).1 k := by
  induction pairs generalizing st st' with
  | nil => exact hfind k
  | cons r pairs ih =>
      have hspec := sdbSetInternal_spec hw st.2 r.1 r.2 false 0
      have hspec' := sdbSetInternal_spec hw' st'.2 r.1 r.2 false 0
      refine ih hspec.wf hspec'.wf (fun k ↦ ?_) ?_
      · refine (hspec'.find k).trans (Eq.trans ?_ (hspec.find k).symm)
        rw [hfind, hfind, hdb]
      · exact hspec'.frame.db.trans (hdb.trans hspec.frame.db.symm)

/-- The files other than the journal stay as they are. -/
theorem fs_sdbSetAll {st : Sdb × World} (hw : st.1.WF) {j : CStr} (hj : st.1.journal = some j)
    (pairs : List KvRec) {q : CStr} (hq : q ≠ j) :
    (sdbSetAll st pairs).2.fs q = st.2.fs q := by
  induction pairs generalizing st with
  | nil => rfl
  | cons r pairs ih =>
      have hspec := sdbSetInternal_spec hw st.2 r.1 r.2 false 0
      refine (@ih (sdbSet st.1 st.2 r.1 r.2 0).2 hspec.wf (hspec.frame.journal.trans hj)).trans ?_
      rcases sdbSetInternal_world st.1 st.2 r.1 r.2 false 0 with h | h
      · exact congrArg (fun w : World ↦ w.fs q) h
      · refine (congrArg (fun w : World ↦ w.fs q) h).trans ?_
        rw [sdbJournalLog, hj]
        exact if_neg hq

/-! ## The invariant -/

/-- The state of a process whose journal is right: the database file is the one that is open,
and the journal holds pairs whose replay over that file agrees with the live table. -/
structure Journaled (path name : CStr) (st : Sdb × World) : Prop where
  sound : st.1.Sound
  dir : st.1.dir = some (sdbNewDir path name)
  journal : st.1.journal = some (sdbJournalFilename name)
  fd : st.1.fd = (sdbNew st.2 path name).1.fd
  db : st.1.db = (sdbNew st.2 path name).1.db
  replay : ∃ pairs, st.2.fs (sdbJournalFilename name) = some (journalText pairs) ∧
    (∀ r ∈ pairs, Loggable r.1 r.2) ∧ (journalText pairs).length < 0x80000000 ∧
    ∀ k, Agrees (cdbLookup st.1.db k).1 (sdbGetDisk st.1 k) (sdbHtFindKvp st.1 k)
      (sdbHtFindKvp (sdbSetAll (sdbNew st.2 path name) pairs).1 k)

/-- A new database whose journal has been opened. -/
def reopened (w : World) (path name : CStr) : Sdb × World :=
  ({ (sdbNew w path name).1 with journal := some (sdbJournalFilename name) },
    w.setFile (sdbJournalFilename name) (some ((w.fs (sdbJournalFilename name)).getD [])))

theorem reopened_sound (w : World) (path name : CStr) : (reopened w path name).1.Sound :=
  (Sdb.Sound.new w path name).of_ht rfl

section Journaled

variable {path name : CStr} (hname : JournalName name)
include hname

theorem sdbJournalOpen_new (w : World) :
    (sdbJournalOpen (sdbNew w path name).1 (sdbNew w path name).2).2 = reopened w path name := by
  obtain ⟨hworld, -, hn, -⟩ := sdbNew_spec w path hname.1
  rw [reopened, sdbJournalOpen, hworld]
  split
  · next hnone =>
      rw [hn] at hnone
      cases hnone
  · next name' hname' =>
      obtain rfl : name' = name := Option.some.inj (hname'.symm.trans hn)
      dsimp only
      rw [if_neg (Nat.not_le.mpr hname.2)]

/-- **The files recover the state** of such a process. -/
theorem Journaled.recovers {st : Sdb × World} (h : Journaled path name st) :
    Recovers path name st := by
  obtain ⟨pairs, hfile, hlog, hsize, hagree⟩ := h.replay
  have hsound := Sdb.Sound.new st.2 path name
  have hsound' := reopened_sound st.2 path name
  have hrec : recovered st.2 path name = sdbSetAll (reopened st.2 path name) pairs := by
    rw [recovered, sdbJournalOpen_new hname]
    apply sdbJournalLoad_eq rfl _ hlog hsize
    rw [reopened, hfile]
    rw [setFile_fs, if_pos rfl, Option.getD_some, Option.getD_some]
  have hframe := sdbSetAll_frame hsound'.wf pairs
  intro k
  have hfind := sdbHtFindKvp_setAll hsound.wf hsound'.wf (fun _ ↦ rfl) rfl pairs k
  have hdisk : sdbGetDisk (sdbSetAll (reopened st.2 path name) pairs).1 k = sdbGetDisk st.1 k := by
    rw [sdbGetDisk, sdbGetDisk, hframe.fd, hframe.db, h.fd, h.db]
    rfl
  rw [hrec, sdbGet_eq (tableInv_sound.setAll hsound' pairs).noExpire, sdbGet_eq h.sound.noExpire,
    hfind, hdisk]
  exact (hagree k).get.symm

omit hname in
/-- Sets that change nothing leave the table in agreement with the one before them. -/
theorem agrees_setAll {disk : CStr → Int} (d : CStr → Got) {st : Sdb × World} {s₀ : Sdb}
    (hw : st.1.WF) (hdisk : ∀ k, disk k = (cdbLookup st.1.db k).1)
    (hzero : ∀ k, disk k = 0 → sdbHtFindKvp s₀ k = none ∧ (d k).value = none)
    (hagree : ∀ k, Agrees (disk k) (d k) (sdbHtFindKvp st.1 k) (sdbHtFindKvp s₀ k))
    {pairs : List KvRec}
    (hval : ∀ r ∈ pairs, (entryGet (sdbHtFindKvp s₀ r.1) (d r.1)).value = readAs r.2) (k : CStr) :
    Agrees (disk k) (d k) (sdbHtFindKvp (sdbSetAll st pairs).1 k) (sdbHtFindKvp s₀ k) := by
  induction pairs generalizing st with
  | nil => exact hagree k
  | cons r pairs ih =>
      have hspec := sdbSetInternal_spec hw st.2 r.1 r.2 false 0
      refine @ih (sdbSet st.1 st.2 r.1 r.2 0).2 hspec.wf (fun k ↦ ?_) (fun k ↦ ?_)
        fun r' hr' ↦ hval r' (List.mem_cons_of_mem _ hr')
      · rw [hdisk k]
        exact congrArg (fun c ↦ (cdbLookup c k).1) hspec.frame.db.symm
      · rw [show sdbHtFindKvp (sdbSet st.1 st.2 r.1 r.2 0).2.1 k = _ from hspec.find k]
        split
        · next hk =>
            subst hk
            rw [← hdisk]
            exact (hagree _).set_left (hzero _) (hval r List.mem_cons_self)
        · exact hagree k

/-- Opening replays the journal and then clears it. -/
theorem openJournal_eq {w : World} {pairs : List KvRec}
    (hpairs : journalChanges ((w.fs (sdbJournalFilename name)).getD []) = pairs) :
    openJournal w path name = ((sdbSetAll (reopened w path name) pairs).1,
      (sdbSetAll (reopened w path name) pairs).2.setFile (sdbJournalFilename name) (some [])) := by
  have hload : (sdbJournalLoad (reopened w path name).1 (reopened w path name).2).2 =
      sdbSetAll (reopened w path name) pairs := by
    rw [sdbJournalLoad, reopened]
    dsimp only
    rw [setFile_fs, if_pos rfl, Option.getD_some, hpairs]
  rw [openJournal, sdbConfig]
  dsimp only
  rw [if_pos rfl, sdbJournalOpen_new hname, hload, sdbJournalClear,
    (sdbSetAll_frame (reopened_sound w path name).wf pairs).journal]
  rfl

/-- Opening a database whose journal holds no change. -/
theorem Journaled.open {w : World} (hno : NoChange path name w) :
    Journaled path name (openJournal w path name) := by
  obtain ⟨hworld, hdir, hn, hzero⟩ := sdbNew_spec w path hname.1
  have hsound := Sdb.Sound.new w path name
  have hsound' := reopened_sound w path name
  have hne : sdbNewDir path name ≠ sdbJournalFilename name := (journal_ne_dir path name).symm
  generalize hpairs : journalChanges ((w.fs (sdbJournalFilename name)).getD []) = pairs
  rw [NoChange, hpairs] at hno
  have hframe := sdbSetAll_frame hsound'.wf pairs
  have hopen := @openJournal_eq path name hname w pairs hpairs
  -- the file of the database is the one that was opened
  have hfile : (openJournal w path name).2.fs (sdbNewDir path name) =
      w.fs (sdbNewDir path name) := by
    rw [hopen]
    dsimp only
    rw [setFile_fs, if_neg hne, fs_sdbSetAll hsound'.wf rfl pairs hne]
    exact if_neg hne
  have hnew := sdbNew_congr hfile
  have hfd : (openJournal w path name).1.fd = (sdbNew w path name).1.fd := by
    rw [hopen]
    exact hframe.fd
  have hdb : (openJournal w path name).1.db = (sdbNew w path name).1.db := by
    rw [hopen]
    exact hframe.db
  refine ⟨?_, ?_, ?_, ?_, ?_, [], ?_, fun r hr ↦ absurd hr (by simp), by decide, fun k ↦ ?_⟩
  · rw [hopen]
    exact tableInv_sound.setAll hsound' pairs
  · rw [hopen]
    exact (congrArg Sdb.dir hframe).trans hdir
  · rw [hopen]
    exact hframe.journal
  · rw [hfd, hnew]
  · rw [hdb, hnew]
  · rw [hopen]
    exact if_pos rfl
  · have hdisk : sdbGetDisk (openJournal w path name).1 k =
        sdbGetDisk (sdbNew w path name).1 k := by
      rw [sdbGetDisk, sdbGetDisk, hfd, hdb]
    rw [show (sdbSetAll (sdbNew (openJournal w path name).2 path name) []).1 =
      (sdbNew w path name).1 from hnew, hdb, hdisk, hopen]
    refine agrees_setAll (sdbGetDisk (sdbNew w path name).1) hsound'.wf (fun _ ↦ rfl)
      (fun k hk ↦ ?_) (fun k ↦ .refl _ _ _) (fun r hr ↦ ?_) k
    · exact ⟨hzero k hk, congrArg Got.value (sdbGetDisk_of_lookup hk)⟩
    · rw [← hno r hr, sdbGet_eq hsound.noExpire]
      rfl

omit hname in
theorem journalText_append (pairs : List KvRec) (r : KvRec) :
    journalText (pairs ++ [r]) = journalText pairs ++ journalLine r.1 r.2 := by
  rw [journalText, List.flatMap_append, List.flatMap_singleton]
  rfl

omit hname in
/-- A write appends its line to the journal. -/
theorem Journaled.set_world {st : Sdb × World} (h : Journaled path name st) {pairs : List KvRec}
    (hfile : st.2.fs (sdbJournalFilename name) = some (journalText pairs)) {key val : CStr}
    (hlen : ¬ (key.length ≥ 0xff ∨ val.length ≥ 0xffffff)) (cas : Nat) :
    (sdbSet st.1 st.2 key val cas).2.2 = st.2.setFile (sdbJournalFilename name)
      (some (journalText (pairs ++ [(key, val)]))) := by
  refine (sdbSetInternal_log hlen st.1 st.2 false cas).trans ?_
  rw [sdbJournalLog, h.journal, journalText_append]
  dsimp only
  rw [hfile, Option.getD_some]
  rfl

omit hname in
/-- A safe write. -/
theorem Journaled.set {st : Sdb × World} (h : Journaled path name st) {key val : CStr} {cas : Nat}
    (hpair : Loggable key val) (hsafe : SafeSet st key val cas) :
    Journaled path name (sdbSet st.1 st.2 key val cas).2 := by
  obtain ⟨pairs, hfile, hlog, hsize, hagree⟩ := h.replay
  have hlen : ¬ (key.length ≥ 0xff ∨ val.length ≥ 0xffffff) := by
    have hle := hpair.length
    omega
  have hspec := sdbSetInternal_spec h.sound.wf st.2 key val false cas
  have hworld := h.set_world hfile hlen cas
  have hnew : (sdbNew (sdbSet st.1 st.2 key val cas).2.2 path name).1 =
      (sdbNew st.2 path name).1 := by
    apply sdbNew_congr
    rw [hworld, setFile_fs, if_neg (journal_ne_dir path name).symm]
  refine ⟨h.sound.setInternal st.2 key val false cas, ?_, ?_, ?_, ?_, pairs ++ [(key, val)],
    ?_, fun r hr ↦ ?_, ?_, fun k ↦ ?_⟩
  · exact (congrArg Sdb.dir hspec.frame).trans h.dir
  · exact hspec.frame.journal.trans h.journal
  · rw [hnew]
    exact hspec.frame.fd.trans h.fd
  · rw [hnew]
    exact hspec.frame.db.trans h.db
  · rw [hworld]
    exact if_pos rfl
  · rcases List.mem_append.mp hr with hr | hr
    · exact hlog r hr
    · rw [List.mem_singleton.mp hr]
      exact hpair
  · have hroom := hsafe.room _ h.journal
    rw [hfile, Option.getD_some] at hroom
    rw [journalText_append, List.length_append, length_journalLine]
    have hmin := Nat.min_le_right 255 (key.length + val.length + 2)
    exact Nat.lt_of_le_of_lt (Nat.add_le_add_left hmin _) hroom
  · have hsound := Sdb.Sound.new st.2 path name
    have hsound' := Sdb.Sound.new (sdbSet st.1 st.2 key val cas).2.2 path name
    have hframe := sdbSetAll_frame hsound.wf pairs
    have hreplay := sdbHtFindKvp_setAll hsound.wf hsound'.wf (by rw [hnew]; exact fun _ ↦ rfl)
      (by rw [hnew]) (pairs ++ [(key, val)]) k
    have hspec' := sdbSetInternal_spec (tableInv_wf.setAll hsound.wf pairs)
      (sdbSetAll (sdbNew st.2 path name) pairs).2 key val false 0
    have hdb : (sdbSetAll (sdbNew st.2 path name) pairs).1.db = st.1.db := hframe.db.trans h.db.symm
    have hlook : (cdbLookup (sdbSet st.1 st.2 key val cas).2.1.db k).1 =
        (cdbLookup st.1.db k).1 := congrArg (fun c ↦ (cdbLookup c k).1) hspec.frame.db
    rw [hreplay, sdbSetAll_append, hlook,
      show sdbGetDisk (sdbSet st.1 st.2 key val cas).2.1 k = _ from hspec.disk k,
      show sdbHtFindKvp (sdbSet st.1 st.2 key val cas).2.1 k = _ from hspec.find k,
      show sdbHtFindKvp (sdbSet (sdbSetAll (sdbNew st.2 path name) pairs).1
        (sdbSetAll (sdbNew st.2 path name) pairs).2 key val 0).2.1 k = _ from hspec'.find k, hdb]
    by_cases hk : k = key
    · subst hk
      rw [if_pos rfl, if_pos rfl]
      exact (hagree k).set hlen hsafe.cas hsafe.blank
    · rw [if_neg hk, if_neg hk]
      exact hagree k

omit hname in
theorem Journaled.syncDir {st : Sdb × World} (h : Journaled path name st) :
    SdbStore.syncDir st.1 = st.1 ∧ st.1.target = sdbNewDir path name := by
  have hdir : SdbStore.syncDir st.1 = st.1 := by
    rw [SdbStore.syncDir, if_neg (by rw [h.dir]; exact Option.some_ne_none _)]
  refine ⟨hdir, ?_⟩
  rw [Sdb.target, hdir, h.dir]
  rfl

omit hname in
/-- A step that leaves the process and its files as they are. -/
theorem Journaled.of_fs {st : Sdb × World} (h : Journaled path name st) {w : World}
    (hdir : w.fs (sdbNewDir path name) = st.2.fs (sdbNewDir path name))
    (hj : w.fs (sdbJournalFilename name) = st.2.fs (sdbJournalFilename name)) :
    Journaled path name (st.1, w) := by
  obtain ⟨pairs, hfile, hlog, hsize, hagree⟩ := h.replay
  have hnew : (sdbNew w path name).1 = (sdbNew st.2 path name).1 := sdbNew_congr hdir
  refine ⟨h.sound, h.dir, h.journal, ?_, ?_, pairs, hj.trans hfile, hlog, hsize, fun k ↦ ?_⟩
  · rw [hnew]
    exact h.fd
  · rw [hnew]
    exact h.db
  · rw [sdbHtFindKvp_setAll (Sdb.Sound.new st.2 path name).wf (Sdb.Sound.new w path name).wf
      (by rw [hnew]; exact fun _ ↦ rfl) (by rw [hnew]) pairs k]
    exact hagree k

omit hname in
/-- What stays in memory after a sync has no value, and no record in the file. -/
theorem agrees_of_not_mem {s : Sdb} (hs : s.Sound) {p : Plan} (hp : syncPlan s = some p) {k : CStr}
    (hk : k ∉ p.2) {d : Got} (hd : Keyed.lookup Prod.fst p.1 k = none → d.value = none)
    (disk : Int) :
    Agrees disk d (sdbHtFindKvp s k) none := by
  obtain ⟨hmem, hlook⟩ := syncPlan_of_some hs.wf hp k
  cases hf : sdbHtFindKvp s k with
  | none => exact .refl _ _ _
  | some kv =>
      have hnone : d.value = none := by
        apply hd
        by_contra hrec
        rcases hlook (Option.isSome_iff_ne_none.mpr hrec) with hin | ⟨hno, -⟩
        · exact hk hin
        · rw [hf] at hno
          cases hno
      have hblank : ∀ v, kv.value = some v → v = CStr.empty := by
        intro v hv
        by_contra hne
        apply hk
        apply hmem.mpr
        right
        rw [hf, Option.bind_some, memValue, hv]
        dsimp only
        rw [if_pos ⟨hne, hs.noExpire k kv hf⟩]
        rfl
      refine ⟨?_, fun _ h ↦ ?_, fun _ h ↦ .inr ?_⟩
      · show (entryGet (some kv) d).value = d.value
        rw [hnone, entryGet]
        split
        · rfl
        · next v hv =>
            rw [if_pos (hblank v hv)]
            rfl
      · obtain ⟨_, _, hno, -⟩ := h
        cases hno
      · obtain ⟨kv', v, hkv, hv⟩ := h
        obtain rfl := Option.some.inj hkv
        exact ⟨kv, rfl, hv.trans (congrArg some (hblank v hv))⟩

/-- A sync without faults whose file is not taken for text. -/
theorem Journaled.sync {st : Sdb × World} (h : Journaled path name st)
    (hfails : ∀ j, st.2.fails j = false)
    (hsafe : ∀ p, Writable (SdbStore.syncDir st.1) p → sdbTextCheck (some (kvImage p.1)) = false) :
    Journaled path name (sdbSync st.1 st.2).2 := by
  obtain ⟨hdir, htarget⟩ := h.syncDir
  rcases sdbSync_noFault h.sound.wf hfails with ⟨-, w₂, htouch, hres⟩ | ⟨p, -, hp, -⟩
  · -- nothing but the temporary file has been touched
    have hkeep : ∀ q, q ≠ tmpPath (sdbNewDir path name) →
        (w₂.setFile (tmpPath st.1.target) none).fs q = st.2.fs q := by
      intro q hq
      rw [htarget] at htouch ⊢
      rw [setFile_fs, if_neg hq, htouch.fs q hq]
    rw [hres, hdir]
    exact h.of_fs (hkeep _ (tmpPath_ne _).symm) (hkeep _ (journal_ne_tmp path name))
  · obtain ⟨p', hrep⟩ := sdbSync_true h.sound.wf (sdbSync_eq_true h.sound.wf hfails hp (hsafe p hp))
    obtain ⟨w₃, hw₃, hfile, hother⟩ := hrep.world
    have hworld : (sdbSync st.1 st.2).2.2 = w₃.setFile (sdbJournalFilename name) (some []) := by
      rw [hw₃, sdbJournalClear, h.journal]
    have hnew : sdbNew (sdbSync st.1 st.2).2.2 path name =
        ({ sdbNew0 with
            dir := some (sdbNewDir path name)
            name := some name
            fd := some (kvImage p'.1)
            db := (cdbInit (some (kvImage p'.1))).2 }, (sdbSync st.1 st.2).2.2) := by
      apply sdbNew_file hname.1 _ hrep.not_text
      rw [hworld, setFile_fs, if_neg (journal_ne_dir path name).symm, ← htarget, hfile]
    refine ⟨h.sound.sync st.2, ?_, ?_, ?_, ?_, [], ?_, fun r hr ↦ absurd hr (by simp), by decide,
      fun k ↦ ?_⟩
    · rw [hrep.sdb, htarget]
    · rw [hrep.sdb, hdir]
      exact h.journal
    · rw [hrep.sdb, hnew]
    · rw [hrep.sdb, hnew]
    · rw [hworld]
      exact if_pos rfl
    · have hnone : sdbHtFindKvp (sdbSetAll (sdbNew (sdbSync st.1 st.2).2.2 path name) []).1 k =
          none := by
        rw [hnew]
        exact sdbHtFindKvp_of_htNew rfl k
      rw [hnone, hrep.find h.sound.wf]
      split
      · exact .refl _ _ _
      · next hk =>
          apply agrees_of_not_mem h.sound hrep.plan hk
          intro hrec
          rw [sdbGetDisk_holds hrep.holds, hrec]
          rfl

end Journaled

/-! ## Runs -/

/-- **The files recover the state** at every moment of a run whose steps are all safe. -/
theorem recovers_of_safe {path name : CStr} (hname : JournalName name) {st : Sdb × World}
    (h : JournalReach path name (NoChange path name)
      (fun op st ↦ op.Plain st ∧ op.Safe path name st) st) : Recovers path name st := by
  refine Journaled.recovers hname ?_
  induction h with
  | start hno => exact .open hname hno
  | step op _ hop ih =>
      obtain ⟨hplain, hsafe⟩ := hop
      cases op with
      | set key val cas => exact ih.set hplain hsafe
      | unset key cas => exact ih.set hplain hsafe
      | sync => exact ih.sync hname hplain hsafe
      | crash => exact .open hname hsafe

/-- The database `d` is opened where there are no files, and `a` is set to `1`. -/
def journaledA : Sdb × World :=
  JournalOp.run .empty (CStr.ofBytes [100]) (.set (CStr.ofBytes [97]) (CStr.ofBytes [49]) 0)
    (openJournal World.empty .empty (CStr.ofBytes [100]))

/-- The value is recovered, before a sync and after it. -/
theorem recovers_a :
    sdbGet journaledA.1 journaledA.2 (CStr.ofBytes [97]) = some (CStr.ofBytes [49]) ∧
    Recovers .empty (CStr.ofBytes [100]) journaledA ∧
    Recovers .empty (CStr.ofBytes [100])
      (JournalOp.run .empty (CStr.ofBytes [100]) .sync journaledA) := by
  have hname : JournalName (CStr.ofBytes [100]) := ⟨by decide, by decide⟩
  have hloggable : Loggable (CStr.ofBytes [97]) (CStr.ofBytes [49]) := by decide
  have hempty : sdbHtFindKvp (openJournal World.empty .empty (CStr.ofBytes [100])).1
      (CStr.ofBytes [97]) = none := by decide
  have hset : JournalReach .empty (CStr.ofBytes [100]) (NoChange .empty (CStr.ofBytes [100]))
      (fun op st ↦ op.Plain st ∧ op.Safe .empty (CStr.ofBytes [100]) st) journaledA := by
    refine .step _ (.start fun r hr ↦ ?_) ⟨hloggable, ?_, ?_, ?_⟩
    · have hno : journalChanges ((World.empty.fs (sdbJournalFilename (CStr.ofBytes [100]))).getD [])
          = [] := by decide
      rw [hno] at hr
      cases hr
    · intro kv old hkv
      rw [hempty] at hkv
      cases hkv
    · intro kv hkv
      rw [hempty] at hkv
      cases hkv
    · intro j hj
      obtain rfl := Option.some.inj hj
      decide
  refine ⟨by decide, recovers_of_safe hname hset,
    recovers_of_safe hname (.step .sync hset ⟨?_, ?_⟩)⟩
  · exact fun _ ↦ rfl
  · intro p hp
    have hplan : syncPlan (syncDir journaledA.1) =
        some ([(CStr.ofBytes [97], CStr.ofBytes [49])], [CStr.ofBytes [97]]) := by decide
    obtain rfl := Option.some.inj (hp.plan.symm.trans hplan)
    exact sdbTextCheck_cdbImage (by decide)

/-- The database is opened again after a crash: the journal is loaded and cleared, so that
another crash loses the pair. -/
theorem not_recovers_crash : ∃ path name st, JournalName name ∧
    JournalReach path name (fun _ ↦ True) (fun op st ↦ op.Plain st) st ∧
    ¬ Recovers path name st := by
  have hloggable : Loggable (CStr.ofBytes [97]) (CStr.ofBytes [49]) := by decide
  refine ⟨.empty, CStr.ofBytes [100], JournalOp.run .empty (CStr.ofBytes [100]) .crash journaledA,
    ⟨by decide, by decide⟩, .step _ (.step _ (.start trivial) hloggable) trivial, fun h ↦ ?_⟩
  exact absurd (h (CStr.ofBytes [97])) (by decide)

end SdbStore
