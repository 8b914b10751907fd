import SdbStore.Expire

/-!
# A sync that fails

A system call on the temporary file can fail anywhere in `sdb_sync`.  Up to the rename
nothing but the temporary file has been touched, and that is removed.  When the rename
fails the database has been closed, and `sdb_open` has to bring back the state before:
it does when the database was attached to the file at its path, which is the invariant
of runs here.
-/

namespace SdbStore

open Lib

/-! ## What a failed sync leaves -/

/-- The same world without faults. -/
def World.calm (w : World) : World := { w with fails := fun _ ↦ false }

/-- Nothing is changed by a sync that ended in `r`.  A temporary file is left only if
there was one before that could not be opened; and a sync without faults writes what it
would have written the first time. -/
structure Unchanged (st : Sdb × World) (r : Bool × Sdb × World) : Prop where
  ret : r.1 = false
  ht : r.2.1.ht = st.1.ht
  file : r.2.2.fs st.1.target = st.2.fs st.1.target
  journal : r.2.1.journal = st.1.journal ∧
    ∀ j, st.1.journal = some j → r.2.2.fs j = st.2.fs j
  tmp : r.2.2.fs (tmpPath st.1.target) =
    if st.2.fails st.2.calls then st.2.fs (tmpPath st.1.target) else none
  get : ∀ k, sdbGet r.2.1 r.2.2 k = sdbGet st.1 st.2 k
  retry : (sdbSync r.2.1 r.2.2.calm).1 = (sdbSync st.1 st.2.calm).1 ∧
    (sdbSync r.2.1 r.2.2.calm).2.2.fs st.1.target = (sdbSync st.1 st.2.calm).2.2.fs st.1.target

/-- If one of the system calls of a sync fails, the sync changes nothing. -/
def SyncAtomic (st : Sdb × World) : Prop :=
  Hit st.2 (sdbSync st.1 st.2).2.2 → Unchanged st (sdbSync st.1 st.2)

/-! ## The journal -/

theorem sdbJournalLog_fs {s : Sdb} {q : CStr} (hq : s.journal ≠ some q) (w : World)
    (key val : CStr) : (sdbJournalLog s w key val).fs q = w.fs q := by
  rw [sdbJournalLog]
  split
  · rfl
  · next j hj =>
      have hne : q ≠ j := fun h ↦ hq (by rw [hj, h])
      rw [setFile_fs, if_neg hne]

theorem sdbSetInternal_fs {s : Sdb} {q : CStr} (hq : s.journal ≠ some q) (w : World)
    (key val : CStr) (owned : Bool) (cas : Nat) :
    (sdbSetInternal s w key val owned cas).2.2.fs q = w.fs q := by
  rcases sdbSetInternal_world s w key val owned cas with h | h
  · rw [h]
  · rw [h, sdbJournalLog_fs hq]

theorem sdbSetInternal_calls (s : Sdb) (w : World) (key val : CStr) (owned : Bool) (cas : Nat) :
    (sdbSetInternal s w key val owned cas).2.2.calls = w.calls := by
  rcases sdbSetInternal_world s w key val owned cas with h | h
  · rw [h]
  · rw [h, sdbJournalLog]
    split
    · rfl
    · rfl

/-- Loading a text writes to no file but the journal, and makes no system call on the
temporary file. -/
theorem sdbTextSets_world {s : Sdb} (hs : s.WF) (w : World) (sets : List TextSet) :
    (sdbTextSets s w sets).2.calls = w.calls ∧
      ∀ q, s.journal ≠ some q → (sdbTextSets s w sets).2.fs q = w.fs q := by
  rw [sdbTextSets]
  induction sets generalizing s w with
  | nil => exact ⟨rfl, fun _ _ ↦ rfl⟩
  | cons t sets ih =>
      rw [List.foldl_cons]
      split
      · have hframe := (sdbSetInternal_spec hs w t.key t.val false 0).frame
        obtain ⟨hcalls, hfs⟩ := ih (tableInv_wf.set hs w t.key t.val false 0)
          (sdbSetInternal s w t.key t.val false 0).2.2
        refine ⟨hcalls.trans (sdbSetInternal_calls _ _ _ _ _ _), fun q hq ↦ ?_⟩
        refine (hfs q ?_).trans (sdbSetInternal_fs hq _ _ _ _ _)
        rw [hframe]
        exact hq
      · exact ih hs w

theorem sdbOpen_world {s : Sdb} (hs : s.WF) (w : World) (file : CStr) :
    (sdbOpen s w file).2.2.calls = w.calls ∧
      ∀ q, s.journal ≠ some q → (sdbOpen s w file).2.2.fs q = w.fs q := by
  rw [sdbOpen]
  split
  · exact sdbTextSets_world hs w _
  · split
    · exact ⟨rfl, fun _ _ ↦ rfl⟩
    · exact ⟨rfl, fun _ _ ↦ rfl⟩

theorem sdbJournalClear_calls (s : Sdb) (w : World) : (sdbJournalClear s w).calls = w.calls := by
  rw [sdbJournalClear]
  split
  · rfl
  · rfl

theorem sdbJournalClear_fs {s : Sdb} {q : CStr} (hq : s.journal ≠ some q) (w : World) :
    (sdbJournalClear s w).fs q = w.fs q := by
  rw [sdbJournalClear]
  split
  · rfl
  · next j hj =>
      have hne : q ≠ j := fun h ↦ hq (by rw [hj, h])
      rw [setFile_fs, if_neg hne]

theorem sdbOpen_journal {s : Sdb} (hs : s.WF) (w : World) (file : CStr) :
    (sdbOpen s w file).2.1.journal = s.journal := by
  rw [sdbOpen]
  split
  · exact (sdbTextSets_frame hs w _).journal
  · split
    · rfl
    · rfl

/-! ## Trying again -/

theorem closed_wf {s : Sdb} (hs : s.WF) : (closeCurrentDatabase (syncDir s)).WF :=
  tableInv_wf.of_ht (tableInv_wf.syncDir hs) rfl rfl

theorem syncPlan_congr {s s' : Sdb} (hht : s'.ht = s.ht) (hscan : s'.scan = s.scan) :
    syncPlan s' = syncPlan s := by
  have hplan : cdbPlan s' = cdbPlan s := by
    unfold cdbPlan sdbHtFindKvp
    rw [hht]
  rw [syncPlan, syncPlan, hscan, hplan, hht]

/-- What a sync without faults leaves at the path. -/
theorem sdbSync_noFault_file {s : Sdb} (hs : s.WF) {w : World} (hw : ∀ j, w.fails j = false)
    (hj : s.journal ≠ some s.target) :
    ((∀ p, ¬ Writable (syncDir s) p) → (sdbSync s w).1 = false ∧
      (sdbSync s w).2.2.fs s.target = w.fs s.target) ∧
    ∀ p, Writable (syncDir s) p →
      (sdbSync s w).1 = !sdbTextCheck (some (kvImage p.1)) ∧
      (sdbSync s w).2.2.fs s.target = some (kvImage p.1) := by
  rcases sdbSync_noFault hs hw with ⟨hno, w₂, htouch, hres⟩ | ⟨p, w₃, hp, hfile, hres⟩
  · refine ⟨fun _ ↦ ?_, fun p hp ↦ absurd hp (hno p)⟩
    rw [hres]
    refine ⟨rfl, ?_⟩
    rw [setFile_fs, if_neg (tmpPath_ne s.target).symm, htouch.fs _ (tmpPath_ne s.target).symm]
  · refine ⟨fun hno ↦ absurd hp (hno p), fun p' hp' ↦ ?_⟩
    obtain rfl : p' = p := Option.some.inj (hp'.plan.symm.trans hp.plan)
    have hclosed := closed_wf hs
    have hj' : (closeCurrentDatabase (syncDir s)).journal ≠ some s.target := by
      rw [closeCurrentDatabase, journal_syncDir]
      exact hj
    have hopened := (sdbOpen_world hclosed w₃ s.target).2 _ hj'
    have hjournal := sdbOpen_journal hclosed w₃ s.target
    rw [hres, syncReopen]
    cases htext : sdbTextCheck (some (kvImage p'.1)) with
    | false =>
        rw [sdbOpen_file hfile htext] at hopened hjournal ⊢
        refine ⟨rfl, ?_⟩
        dsimp only
        rw [if_pos rfl]
        exact (sdbJournalClear_fs hj' w₃).trans hfile
    | true =>
        have hret : (sdbOpen (closeCurrentDatabase (syncDir s)) w₃ s.target).1 = false := by
          rw [sdbOpen, hfile, if_pos htext]
          dsimp only
          rw [sdbTextSets_frame hclosed]
          rfl
        dsimp only
        rw [hret, if_neg (by decide)]
        exact ⟨rfl, hopened.trans hfile⟩

/-- Two databases with the same plan and path write the same file. -/
theorem sdbSync_retry {s s' : Sdb} {w w' : World} (hs : s.WF) (hs' : s'.WF)
    (hwrite : ∀ p, Writable (syncDir s') p ↔ Writable (syncDir s) p)
    (htarget : s'.target = s.target) (hfile : w'.fs s.target = w.fs s.target)
    (hj : s.journal ≠ some s.target) (hj' : s'.journal ≠ some s.target) :
    (sdbSync s' w'.calm).1 = (sdbSync s w.calm).1 ∧
      (sdbSync s' w'.calm).2.2.fs s.target = (sdbSync s w.calm).2.2.fs s.target := by
  obtain ⟨hno, hyes⟩ := sdbSync_noFault_file hs (w := w.calm) (fun _ ↦ rfl) hj
  obtain ⟨hno', hyes'⟩ := sdbSync_noFault_file hs' (w := w'.calm) (fun _ ↦ rfl)
    (by rw [htarget]; exact hj')
  rw [htarget] at hno' hyes'
  by_cases h : ∃ p, Writable (syncDir s) p
  · obtain ⟨p, hp⟩ := h
    obtain ⟨h₁, h₂⟩ := hyes p hp
    obtain ⟨h₁', h₂'⟩ := hyes' p ((hwrite p).mpr hp)
    rw [h₁, h₂, h₁', h₂']
    exact ⟨rfl, rfl⟩
  · obtain ⟨h₁, h₂⟩ := hno fun p hp ↦ h ⟨p, hp⟩
    obtain ⟨h₁', h₂'⟩ := hno' fun p hp ↦ h ⟨p, (hwrite p).mp hp⟩
    rw [h₁, h₂, h₁', h₂']
    exact ⟨rfl, hfile⟩

/-! ## Faults before the rename -/

theorem syncDir_syncDir (s : Sdb) : syncDir (syncDir s) = syncDir s := by
  by_cases h : s.dir = none
  · have hdir : syncDir s = { s with dir := s.name } := if_pos h
    rw [hdir, syncDir]
    split
    · rfl
    · rfl
  · have hdir : syncDir s = s := if_neg h
    rw [hdir, hdir]

theorem target_syncDir (s : Sdb) : (syncDir s).target = s.target := by
  rw [Sdb.target, syncDir_syncDir, Sdb.target]

theorem sdbHtFindKvp_congr {s s' : Sdb} (hht : s'.ht = s.ht) (k : CStr) :
    sdbHtFindKvp s' k = sdbHtFindKvp s k := by
  unfold sdbHtFindKvp
  rw [hht]

theorem sdbGet_syncDir (s : Sdb) {w w' : World} (hnow : w'.now = w.now) (k : CStr) :
    sdbGet (syncDir s) w' k = sdbGet s w k := by
  refine sdbGet_congr (sdbHtFindKvp_congr (syncDir_ht s) k) ?_ (timestamped_syncDir s) hnow
  rw [syncDir]
  split
  · rfl
  · rfl

/-- A sync that gave up before the rename: only the temporary file can differ. -/
theorem Unchanged.of_touches {st : Sdb × World} (hs : st.1.WF) {w' : World}
    (htouch : Touches (tmpPath st.1.target) st.2 w')
    (htmp : w'.fs (tmpPath st.1.target) =
      if st.2.fails st.2.calls then st.2.fs (tmpPath st.1.target) else none)
    (hj : st.1.journal ≠ some st.1.target) (hj' : st.1.journal ≠ some (tmpPath st.1.target)) :
    Unchanged st (false, syncDir st.1, w') where
  ret := rfl
  ht := syncDir_ht st.1
  file := htouch.fs _ (tmpPath_ne st.1.target).symm
  journal := ⟨journal_syncDir st.1, fun j hj₁ ↦ htouch.fs j fun h ↦ hj' (by rw [hj₁, h])⟩
  tmp := htmp
  get := sdbGet_syncDir st.1 htouch.now
  retry := sdbSync_retry hs (tableInv_wf.syncDir hs) (fun p ↦ by rw [syncDir_syncDir])
    (target_syncDir st.1) (htouch.fs _ (tmpPath_ne st.1.target).symm) hj
    (by rw [journal_syncDir]; exact hj)

/-! ## Attached databases -/

/-- The database is attached to the file at its path: that file is the one behind the
descriptor and in the mapping, or there is none and nothing is mapped.  It is not taken
for text, and the journal is another file. -/
structure Attached (st : Sdb × World) : Prop where
  fd : st.1.fd = st.2.fs st.1.target
  not_text : sdbTextCheck st.1.fd = false
  db : match st.1.fd with
    | none => st.1.db.map = none ∧ st.1.db.fd = none
    | some f => st.1.db = (cdbInit (some f)).2
  journal : st.1.journal ≠ some st.1.target ∧ st.1.journal ≠ some (tmpPath st.1.target)

/-- What the functions of the database read of its file is the same in `s` and `s'`. -/
structure SameFile (s s' : Sdb) : Prop where
  scan : s'.scan = s.scan
  get : ∀ k, sdbGetDisk s' k = sdbGetDisk s k

/-- Opening the file at the path again brings the database back. -/
theorem Attached.reopen {st : Sdb × World} (h : Attached st) {w' : World}
    (hfile : w'.fs st.1.target = st.2.fs st.1.target) :
    ∃ s', sdbOpen (closeCurrentDatabase (syncDir st.1)) w' st.1.target =
        (st.1.fd.isSome, s', w') ∧
      s'.ht = st.1.ht ∧ s'.timestamped = st.1.timestamped ∧ s'.dir = some st.1.target ∧
      s'.journal = st.1.journal ∧
      SameFile st.1 s' ∧ Attached (s', w') := by
  have htext := h.not_text
  have hdb := h.db
  have hj := h.journal
  have hfd : w'.fs st.1.target = st.1.fd := hfile.trans h.fd.symm
  rw [sdbOpen, hfd, if_neg (by rw [htext]; decide)]
  cases hf : st.1.fd with
  | none =>
      rw [hf] at hdb
      have hbare : st.1.Bare := ⟨hf, hdb.2⟩
      refine ⟨_, rfl, syncDir_ht st.1, timestamped_syncDir st.1, rfl, journal_syncDir st.1,
        ⟨?_, ?_⟩, ?_⟩
      · rw [scan_bare hbare hdb.1]
        exact scan_bare ⟨rfl, rfl⟩ rfl
      · intro k
        rw [sdbGetDisk_bare hbare]
        exact sdbGetDisk_bare ⟨rfl, rfl⟩ k
      · refine ⟨(hfd.trans hf).symm, rfl, ⟨rfl, rfl⟩, ?_⟩
        dsimp only [closeCurrentDatabase]
        rw [journal_syncDir]
        exact hj
  | some f =>
      rw [hf] at hdb htext
      refine ⟨_, rfl, syncDir_ht st.1, timestamped_syncDir st.1, rfl, journal_syncDir st.1,
        ⟨?_, ?_⟩, ?_⟩
      · rw [Sdb.scan, Sdb.scan, hdb, hf]
      · intro k
        rw [sdbGetDisk, sdbGetDisk, hdb, hf]
      · refine ⟨(hfd.trans hf).symm, htext, rfl, ?_⟩
        dsimp only [closeCurrentDatabase]
        rw [journal_syncDir]
        exact hj

/-- A sync whose rename failed, on an attached database. -/
theorem Unchanged.of_reopen {st : Sdb × World} (hs : st.1.WF) (h : Attached st) {w' : World}
    (htouch : Touches (tmpPath st.1.target) st.2 w')
    (htmp : w'.fs (tmpPath st.1.target) =
      if st.2.fails st.2.calls then st.2.fs (tmpPath st.1.target) else none)
    (hdir : (syncDir st.1).dir ≠ none) :
    Unchanged st
      (false, (sdbOpen (closeCurrentDatabase (syncDir st.1)) w' st.1.target).2) := by
  have hfile := htouch.fs _ (tmpPath_ne st.1.target).symm
  obtain ⟨s', hopen, hht, hstamp, hdir', hjournal, hsame, hatt⟩ := h.reopen hfile
  rw [hopen]
  have hs' : s'.WF := tableInv_wf.of_ht hs hht hstamp
  have htarget : s'.target = st.1.target := by
    rw [Sdb.target, syncDir, hdir', if_neg (by simp), hdir']
    rfl
  refine ⟨rfl, hht, hfile, ⟨hjournal, fun j hj ↦ htouch.fs j fun hc ↦ ?_⟩, htmp, fun k ↦ ?_, ?_⟩
  · exact h.journal.2 (by rw [hj, hc])
  · exact sdbGet_congr (sdbHtFindKvp_congr hht k) (hsame.get k) hstamp htouch.now
  · refine sdbSync_retry hs hs' (fun p ↦ ?_) htarget hfile h.journal.1 (by
      rw [hjournal]
      exact h.journal.1)
    have hplan : syncPlan (syncDir s') = syncPlan (syncDir st.1) := by
      rw [syncPlan_syncDir, syncPlan_syncDir, syncPlan_congr hht hsame.scan]
    have hdir'' : (syncDir s').dir ≠ none := by
      rw [syncDir, hdir', if_neg (by simp), hdir']
      simp
    exact ⟨fun hp ↦ ⟨hplan ▸ hp.plan, hdir, hp.fitting, hp.room⟩,
      fun hp ↦ ⟨hplan ▸ hp.plan, hdir'', hp.fitting, hp.room⟩⟩

/-- A sync that put its file in place, or tried to, met no fault. -/
theorem not_hit_of_rename {s : Sdb} {w w₁ w₂ w₃ : World} {per : List CStr}
    (hopen : tmpOpen (tmpPath s.target) w = .ok () w₁)
    (hwrite : syncWrite (syncDir s) (tmpPath s.target) w₁ = .ok per w₂)
    (hrename : tmpRename (tmpPath s.target) s.target w₂ = .ok () w₃) : ¬ Hit w w₃ := by
  have hstop : FailStop Stop.fault (do
      tmpOpen (tmpPath s.target)
      let _ ← syncWrite (syncDir s) (tmpPath s.target)
      tmpRename (tmpPath s.target) s.target : Io Unit) :=
    FailStop.bind (tmpOpen_failStop _) fun _ ↦ FailStop.bind (syncWrite_failStop _ _) fun _ ↦
      tmpRename_failStop _ _
  refine hstop.not_hit_of_ok (a := ()) ?_
  rw [bind_of_ok hopen, bind_of_ok hwrite, hrename]

theorem hit_of_calls_eq {w w' w'' : World} (h : Hit w w') (hcalls : w'.calls = w''.calls) :
    Hit w w'' := by
  obtain ⟨j, hlo, hhi, hj⟩ := h
  exact ⟨j, hlo, Nat.lt_of_lt_of_eq hhi hcalls, hj⟩

/-- **A failed sync changes nothing** when the database is attached. -/
theorem Attached.syncAtomic {st : Sdb × World} (h : Attached st) (hs : st.1.WF) :
    SyncAtomic st := by
  intro hhit
  have hclosed := closed_wf hs
  have hsync := sdbSync_synced st.1 st.2
  generalize sdbSync st.1 st.2 = res at hsync hhit ⊢
  cases hsync with
  | noCreate hopen =>
      obtain ⟨hfail, rfl⟩ := sysCall_eq_error hopen
      exact .of_touches hs ⟨fun _ _ ↦ rfl, rfl⟩ (if_pos hfail).symm h.journal.1 h.journal.2
  | @noWrite w₁ w₂ e hopen hwrite =>
      have h₁ := (tmpOpen_moves (tmpPath st.1.target) st.2).1
      have h₂ := (syncWrite_moves (syncDir st.1) (tmpPath st.1.target) w₁).1
      rw [hopen] at h₁
      rw [hwrite] at h₂
      have htouch := h₁.trans _ _ _ _ h₂
      have hok := (sysCall_eq_ok.mp hopen).1
      refine .of_touches hs ⟨fun q hq ↦ ?_, htouch.now⟩ ?_ h.journal.1 h.journal.2
      · rw [setFile_fs, if_neg hq]
        exact htouch.fs q hq
      · rw [setFile_fs, if_pos rfl, if_neg (by rw [hok]; decide)]
  | @noRename w₁ w₂ w₃ per e hopen hwrite hrename =>
      obtain ⟨p, hp, -, -, htouch⟩ := written_of_syncWrite hs hopen hwrite
      have hok := (sysCall_eq_ok.mp hopen).1
      obtain ⟨-, rfl⟩ := sysCall_eq_error hrename
      refine .of_reopen hs h ⟨fun q hq ↦ ?_, htouch.now⟩ ?_ hp.dir
      · rw [setFile_fs, if_neg hq]
        exact htouch.fs q hq
      · rw [setFile_fs, if_pos rfl, if_neg (by rw [hok]; decide)]
  | noReopen hopen hwrite hrename hr hret =>
      refine absurd (hit_of_calls_eq hhit ?_) (not_hit_of_rename hopen hwrite hrename)
      rw [hr]
      exact (sdbOpen_world hclosed _ _).1
  | done hopen hwrite hrename hr hret =>
      refine absurd (hit_of_calls_eq hhit ?_) (not_hit_of_rename hopen hwrite hrename)
      rw [hr]
      exact (sdbJournalClear_calls _ _).trans (sdbOpen_world hclosed _ _).1

/-! ## Runs that keep the database attached -/

/-- `sdb_new` on a path, where there is no file or one that is not taken for text. -/
def PathOpened (st : Sdb × World) : Prop :=
  ∃ w path name, FileName name ∧ sdbTextCheck (w.fs (sdbNewDir path name)) = false ∧
    st = sdbNew w path name

/-- The calls that leave the database attached to the file at its path.  `sdb_open` and
`sdb_reset` leave a mapping behind if there is one and no file is opened in its place;
`sdb_reset` goes back to the name, where there must be no file; the file that `sdb_sync`
writes must not be taken for text; and the journal is not the database. -/
def KeepsAttached (op : Op) (st : Sdb × World) : Prop :=
  match op with
  | .set _ _ _ => True
  | .unset _ _ => True
  | .sync => ∀ p, Writable (syncDir st.1) p → sdbTextCheck (some (kvImage p.1)) = false
  | .open file => sdbTextCheck (st.2.fs file) = false →
      st.1.journal ≠ some file ∧ (st.2.fs file = none → st.1.db.map = none)
  | .reset => st.1.db.map = none ∧ st.2.fs (sdbReset st.1).target = none ∧
      st.1.journal ≠ some (sdbReset st.1).target
  | .journalOpen => ∀ name, st.1.name = some name → sdbJournalFilename name ≠ st.1.target

/-- The name of the journal. -/
def Sdb.JournalNamed (s : Sdb) : Prop :=
  ∀ j, s.journal = some j → ∃ name, j = sdbJournalFilename name

theorem sdbJournalFilename_ne_tmpPath (name dir : CStr) :
    sdbJournalFilename name ≠ tmpPath dir := by
  intro h
  have hlast := congrArg (fun s : CStr ↦ s.val.getLast?) h
  change (name.val ++ [46, 106, 111, 117, 114, 110, 97, 108]).getLast? =
    (dir.val ++ [46, 116, 109, 112]).getLast? at hlast
  simp at hlast

theorem Sdb.JournalNamed.ne_tmpPath {s : Sdb} (h : s.JournalNamed) (dir : CStr) :
    s.journal ≠ some (tmpPath dir) := by
  intro hj
  obtain ⟨name, hname⟩ := h _ hj
  exact sdbJournalFilename_ne_tmpPath name dir hname.symm

theorem target_congr {s s' : Sdb} (hdir : s'.dir = s.dir) (hname : s'.name = s.name) :
    s'.target = s.target := by
  have h : ∀ s : Sdb, (syncDir s).dir = if s.dir = none then s.name else s.dir := by
    intro s
    rw [syncDir]
    split
    · rfl
    · rfl
  rw [Sdb.target, Sdb.target, h, h, hdir, hname]

theorem Sdb.Frame.target {s s' : Sdb} (h : s.Frame s') : s'.target = s.target :=
  target_congr (by rw [h]) (by rw [h])

/-- An attached database with another table, and another world that has the same file at
the path. -/
theorem Attached.of_frame {st : Sdb × World} (h : Attached st) {s' : Sdb} {w' : World}
    (hf : st.1.Frame s') (hfile : w'.fs st.1.target = st.2.fs st.1.target) :
    Attached (s', w') := by
  refine ⟨?_, ?_, ?_, ?_⟩
  · rw [hf.fd, hf.target, h.fd, hfile]
  · rw [hf.fd]
    exact h.not_text
  · rw [hf.fd, hf.db]
    exact h.db
  · rw [hf.journal, hf.target]
    exact h.journal

theorem Attached.new {w : World} {path name : CStr} (hname : FileName name)
    (htext : sdbTextCheck (w.fs (sdbNewDir path name)) = false) :
    Attached (sdbNew w path name) ∧ (sdbNew w path name).1.journal = none := by
  cases hfile : w.fs (sdbNewDir path name) with
  | none =>
      rw [sdbNew_absent hname hfile]
      exact ⟨⟨hfile.symm, rfl, ⟨rfl, rfl⟩, ⟨nofun, nofun⟩⟩, rfl⟩
  | some f =>
      rw [hfile] at htext
      rw [sdbNew_file hname hfile htext]
      exact ⟨⟨hfile.symm, htext, rfl, ⟨nofun, nofun⟩⟩, rfl⟩

theorem Attached.set {st : Sdb × World} (h : Attached st) (hs : st.1.WF) (key val : CStr)
    (owned : Bool) (cas : Nat) : Attached (sdbSetInternal st.1 st.2 key val owned cas).2 :=
  h.of_frame (sdbSetInternal_spec hs st.2 key val owned cas).frame
    (sdbSetInternal_fs h.journal.1 st.2 key val owned cas)

theorem Attached.open {st : Sdb × World} (h : Attached st) (hs : st.1.WF)
    (hn : st.1.JournalNamed) {file : CStr} (hop : KeepsAttached (.open file) st) :
    Attached (sdbOpen st.1 st.2 file).2 := by
  rw [sdbOpen]
  by_cases htext : sdbTextCheck (st.2.fs file) = true
  · rw [if_pos htext]
    exact h.of_frame (sdbTextSets_frame hs st.2 _)
      ((sdbTextSets_world hs st.2 _).2 _ h.journal.1)
  · rw [if_neg htext]
    have htext' : sdbTextCheck (st.2.fs file) = false := by simpa using htext
    obtain ⟨hj, hmap⟩ := hop htext'
    cases hfile : st.2.fs file with
    | none => exact ⟨hfile.symm, rfl, ⟨hmap hfile, rfl⟩, hj, hn.ne_tmpPath _⟩
    | some f =>
        rw [hfile] at htext'
        exact ⟨hfile.symm, htext', rfl, hj, hn.ne_tmpPath _⟩

theorem Attached.reset {st : Sdb × World} (h : Attached st) (hn : st.1.JournalNamed)
    (hop : KeepsAttached .reset st) : Attached (sdbReset st.1, st.2) := by
  obtain ⟨hmap, hfile, hj⟩ := hop
  have hdb := h.db
  have hfd : (sdbReset st.1).fd = none := by
    rw [sdbReset, sdbClose]
    split
    · next hfd => exact hfd
    · rfl
  have hjournal : (sdbReset st.1).journal = st.1.journal := by
    rw [sdbReset, sdbClose]
    split
    · rfl
    · rfl
  have hdb' : (sdbReset st.1).db.map = none ∧ (sdbReset st.1).db.fd = none := by
    rw [sdbReset, sdbClose]
    split
    · next hnone =>
        rw [hnone] at hdb
        exact hdb
    · exact ⟨hmap, rfl⟩
  refine ⟨hfd.trans hfile.symm, ?_, ?_, ?_⟩
  · rw [hfd]
    rfl
  · rw [hfd]
    exact hdb'
  · rw [hjournal]
    exact ⟨hj, hn.ne_tmpPath _⟩

theorem Attached.journalOpen {st : Sdb × World} (h : Attached st)
    (hop : KeepsAttached .journalOpen st) : Attached (sdbJournalOpen st.1 st.2).2 := by
  rw [sdbJournalOpen]
  split
  · exact h
  · next name hname =>
      dsimp only
      split
      · exact h
      · have hne := hop name hname
        have htarget : ∀ j, Sdb.target { st.1 with journal := j } = st.1.target := fun _ ↦
          target_congr rfl rfl
        refine ⟨?_, h.not_text, h.db, ?_⟩
        · rw [htarget, setFile_fs, if_neg hne.symm]
          exact h.fd
        · rw [htarget]
          refine ⟨fun hj ↦ hne (Option.some.inj hj), fun hj ↦ ?_⟩
          exact sdbJournalFilename_ne_tmpPath _ _ (Option.some.inj hj)

theorem Attached.syncDir {st : Sdb × World} (h : Attached st) {w' : World}
    (hfile : w'.fs st.1.target = st.2.fs st.1.target) : Attached (syncDir st.1, w') := by
  have hfields : (SdbStore.syncDir st.1).fd = st.1.fd ∧ (SdbStore.syncDir st.1).db = st.1.db := by
    rw [SdbStore.syncDir]
    split
    · exact ⟨rfl, rfl⟩
    · exact ⟨rfl, rfl⟩
  refine ⟨?_, ?_, ?_, ?_⟩
  · rw [hfields.1, target_syncDir, h.fd, hfile]
  · rw [hfields.1]
    exact h.not_text
  · rw [hfields.1, hfields.2]
    exact h.db
  · rw [journal_syncDir, target_syncDir]
    exact h.journal

theorem Attached.sync {st : Sdb × World} (h : Attached st) (hs : st.1.WF)
    (hop : KeepsAttached .sync st) : Attached (sdbSync st.1 st.2).2 := by
  have hne := (tmpPath_ne st.1.target).symm
  have hsync := sdbSync_synced st.1 st.2
  have htrue := fun hret ↦ sdbSync_true hs (w := st.2) hret
  generalize sdbSync st.1 st.2 = res at hsync htrue ⊢
  cases hsync with
  | noCreate hopen =>
      obtain ⟨-, rfl⟩ := sysCall_eq_error hopen
      exact h.syncDir rfl
  | @noWrite w₁ w₂ e hopen hwrite =>
      have h₁ := (tmpOpen_moves (tmpPath st.1.target) st.2).1
      have h₂ := (syncWrite_moves (SdbStore.syncDir st.1) (tmpPath st.1.target) w₁).1
      rw [hopen] at h₁
      rw [hwrite] at h₂
      refine h.syncDir ?_
      rw [setFile_fs, if_neg hne]
      exact (h₁.trans _ _ _ _ h₂).fs _ hne
  | @noRename w₁ w₂ w₃ per e hopen hwrite hrename =>
      obtain ⟨p, hp, -, -, htouch⟩ := written_of_syncWrite hs hopen hwrite
      obtain ⟨-, rfl⟩ := sysCall_eq_error hrename
      have hfile : (World.setFile { w₂ with calls := w₂.calls + 1 } (tmpPath st.1.target)
          none).fs st.1.target = st.2.fs st.1.target := by
        rw [setFile_fs, if_neg hne]
        exact htouch.fs _ hne
      obtain ⟨s', hres, -, -, -, -, -, hatt⟩ := h.reopen hfile
      rw [hres]
      exact hatt
  | @noReopen w₁ w₂ w₃ per r hopen hwrite hrename hr hret =>
      -- the new file is not taken for text, so it is opened
      obtain ⟨p, hp, -, hfile, -⟩ := written_of_syncWrite hs hopen hwrite
      rw [sdbOpen_file (target_of_tmpRename hrename hfile) (hop p hp)] at hr
      rw [hr] at hret
      cases hret
  | done =>
      obtain ⟨p, hp⟩ := htrue rfl
      have htarget : Sdb.target _ = st.1.target := (congrArg Sdb.target hp.sdb).trans rfl
      have hfile := hp.file h.journal.1
      refine ⟨?_, ?_, ?_, ?_⟩
      · rw [htarget, hfile, hp.sdb]
      · rw [hp.sdb]
        exact hp.not_text
      · rw [hp.sdb]
      · rw [htarget, hp.sdb]
        dsimp only
        rw [journal_syncDir]
        exact h.journal

theorem sdbSync_journal {s : Sdb} (hs : s.WF) (w : World) :
    (sdbSync s w).2.1.journal = s.journal := by
  have hclosed := closed_wf hs
  have hopen := fun w' ↦ (sdbOpen_journal hclosed w' s.target).trans (journal_syncDir s)
  have hsync := sdbSync_synced s w
  generalize sdbSync s w = res at hsync ⊢
  cases hsync with
  | noCreate => exact journal_syncDir s
  | noWrite => exact journal_syncDir s
  | noRename => exact hopen _
  | noReopen _ _ _ hr => exact hr ▸ hopen _
  | done _ _ _ hr => exact (congrArg (fun r ↦ r.2.1.journal) hr).trans (hopen _)

theorem sdbReset_journal (s : Sdb) : (sdbReset s).journal = s.journal := by
  rw [sdbReset, sdbClose]
  split
  · rfl
  · rfl

theorem Sdb.JournalNamed.run {st : Sdb × World} (h : st.1.JournalNamed) (hs : st.1.WF)
    (op : Op) : (op.run st).1.JournalNamed := by
  have hsame : ∀ s' : Sdb, s'.journal = st.1.journal → s'.JournalNamed := by
    intro s' hs' j hj
    exact h j (hs'.symm.trans hj)
  cases op with
  | set key val cas =>
      exact hsame _ (sdbSetInternal_spec hs st.2 key val false cas).frame.journal
  | unset key cas =>
      exact hsame _ (sdbSetInternal_spec hs st.2 key .empty false cas).frame.journal
  | sync => exact hsame _ (sdbSync_journal hs st.2)
  | «open» file => exact hsame _ (sdbOpen_journal hs st.2 file)
  | reset => exact hsame _ (sdbReset_journal st.1)
  | journalOpen =>
      change (sdbJournalOpen st.1 st.2).2.1.JournalNamed
      rw [sdbJournalOpen]
      split
      · exact h
      · next name _ =>
          dsimp only
          split
          · exact h
          · intro j hj
            exact ⟨name, (Option.some.inj hj).symm⟩

/-- One call of a run without time. -/
theorem Attached.run {st : Sdb × World} (h : Attached st) (hs : st.1.WF)
    (hn : st.1.JournalNamed) {op : Op} (hop : KeepsAttached op st) : Attached (op.run st) := by
  cases op with
  | set key val cas => exact h.set hs key val false cas
  | unset key cas => exact h.set hs key .empty false cas
  | sync => exact h.sync hs hop
  | «open» file => exact h.open hs hn hop
  | reset => exact h.reset hn hop
  | journalOpen => exact h.journalOpen hop

/-- Looking a key up, which may unset it. -/
theorem Attached.get {st : Sdb × World} (h : Attached st) (hs : st.1.WF) (key : CStr) :
    Attached (sdbConstGetLen st.1 st.2 key).2 ∧
      (sdbConstGetLen st.1 st.2 key).2.1.journal = st.1.journal := by
  rw [sdbConstGetLen]
  split
  · exact ⟨h, rfl⟩
  · split
    · exact ⟨h, rfl⟩
    · split
      · exact ⟨h, rfl⟩
      · split
        · exact ⟨h.set hs key .empty false 0,
            (sdbSetInternal_spec hs st.2 key .empty false 0).frame.journal⟩
        · exact ⟨h, rfl⟩

/-- Setting a time, for which the value of the file may be copied to memory. -/
theorem Attached.expireSet {st : Sdb × World} (h : Attached st) (hs : st.1.WF) {t : CdbFind}
    {key : CStr} {expire cas : Nat} {r : Bool × Sdb × World}
    (hr : sdbExpireSet st.1 st.2 t key expire cas = some r) :
    Attached r.2 ∧ r.2.1.journal = st.1.journal := by
  have h' : Attached ({ st.1 with timestamped := true }, st.2) := by
    have htarget : Sdb.target { st.1 with timestamped := true } = st.1.target :=
      target_congr rfl rfl
    refine ⟨?_, h.not_text, h.db, ?_⟩
    · rw [htarget]
      exact h.fd
    · rw [htarget]
      exact h.journal
  have hkv : ∀ {st' : Sdb × World} {kv : SdbKv}, Attached st' → st'.1.WF →
      sdbHtFindKvp st'.1 key = some kv → sdbExpireSetKv st'.1 st'.2 kv expire cas = some r →
      Attached r.2 ∧ r.2.1.journal = st'.1.journal := by
    intro st' kv hst' hwf hf hrun
    obtain ⟨hworld, hframe, -⟩ := sdbExpireSetKv_spec hwf hf hrun
    exact ⟨hst'.of_frame hframe (by rw [hworld]), hframe.journal⟩
  cases sdbExpireSet_ends hr with
  | nothing => exact ⟨h', rfl⟩
  | entry hf hrun =>
      have hentry := hkv h' hs hf hrun
      exact hentry
  | @copied buf kv _ hf hrun =>
      have hwf : Sdb.WF { st.1 with timestamped := true } := hs
      have hspec := sdbSetInternal_spec hwf st.2 key buf true cas
      obtain ⟨hatt, hjournal⟩ := hkv (h'.set hs key _ true cas) hspec.wf hf hrun
      exact ⟨hatt, hjournal.trans hspec.frame.journal⟩

/-- The calls of runs with time that leave the database attached: a key that is written, looked
up or given a time does, and so does time that passes. -/
def TimedKeepsAttached (op : TimedOp) (st : Sdb × World) : Prop :=
  match op with
  | .call op => KeepsAttached op st
  | _ => True

/-- One call. -/
theorem Attached.timedRun {st st' : Sdb × World} (h : Attached st) (hs : st.1.WF)
    (hn : st.1.JournalNamed) {op : TimedOp} (hop : TimedKeepsAttached op st)
    (hrun : op.run st = some st') : st'.1.JournalNamed ∧ Attached st' := by
  have hsame : ∀ {s' : Sdb}, s'.journal = st.1.journal → s'.JournalNamed := by
    intro s' hs' j hj
    exact hn j (hs'.symm.trans hj)
  cases op with
  | call op =>
      cases hrun
      exact ⟨hn.run hs op, h.run hs hn hop⟩
  | setOwned key val cas =>
      cases hrun
      exact ⟨hsame (sdbSetInternal_spec hs st.2 key val true cas).frame.journal,
        h.set hs key val true cas⟩
  | get key =>
      cases hrun
      obtain ⟨hatt, hjournal⟩ := h.get hs key
      exact ⟨hsame hjournal, hatt⟩
  | expireSet t key expire cas =>
      obtain ⟨r, hr, rfl⟩ := Option.map_eq_some_iff.mp hrun
      obtain ⟨hatt, hjournal⟩ := h.expireSet hs hr
      exact ⟨hsame hjournal, hatt⟩
  | wait n =>
      cases hrun
      exact ⟨hn, ⟨h.fd, h.not_text, h.db, h.journal⟩⟩

theorem PathOpened.opened {st : Sdb × World} (h : PathOpened st) : Opened st := by
  obtain ⟨w, path, name, -, -, rfl⟩ := h
  exact ⟨w, path, name, rfl⟩

/-- In every state of a run whose calls keep the database attached, it is attached. -/
theorem TimedReach.attached {st : Sdb × World} (h : TimedReach PathOpened TimedKeepsAttached st) :
    st.1.JournalNamed ∧ Attached st := by
  induction h with
  | start h =>
      obtain ⟨w, path, name, hname, htext, rfl⟩ := h
      obtain ⟨hatt, hj⟩ := Attached.new hname htext
      refine ⟨fun j hj' ↦ ?_, hatt⟩
      rw [hj] at hj'
      cases hj'
  | step op hst hop hrun ih =>
      have hs := (hst.reachable fun _ ↦ PathOpened.opened).timed.wf
      exact ih.2.timedRun hs ih.1 hop hrun

/-- **A failed sync is atomic** in every state of a run that keeps the database attached
to its file, entries that expire included. -/
theorem syncAtomic_of_reach {st : Sdb × World} (h : TimedReach PathOpened TimedKeepsAttached st) :
    SyncAtomic st :=
  h.attached.2.syncAtomic (h.reachable fun _ ↦ PathOpened.opened).timed.wf

/-! ## A rename that fails -/

theorem cdbMakeTable_empty (split : (Nat → Nat) × (Nat → CdbHp)) {c : CdbMake} {i : Nat}
    (hc : c.count i = 0) (final : Bytes) :
    cdbMakeTable split (c, final) i = pure (c, final ++ le32 c.pos) := by
  simp [cdbMakeTable, hc, Probe.build]

theorem cdbMakeTables_empty (split : (Nat → Nat) × (Nat → CdbHp)) {c : CdbMake}
    (hc : ∀ i, c.count i = 0) (is : List Nat) (final : Bytes) :
    ∃ final', is.foldlM (cdbMakeTable split) (c, final) = pure (c, final') := by
  induction is generalizing final with
  | nil => exact ⟨final, rfl⟩
  | cons i is ih =>
      obtain ⟨final', h⟩ := ih (final ++ le32 c.pos)
      exact ⟨final', by rw [List.foldlM_cons, cdbMakeTable_empty split (hc i), pure_bind, h]⟩

theorem sysCall_takes {act : World → World}
    (h : ∀ w, (act w).calls = w.calls ∧ (act w).fails = w.fails) : Takes 1 () (sysCall act) := by
  intro w hw
  have hact := h { w with calls := w.calls + 1 }
  exact ⟨_, sysCall_eq_ok.mpr ⟨hw _ (Nat.lt_succ_self _), rfl⟩, hact.1, hact.2⟩

theorem bufferFlush_takes (tmp : CStr) :
    Takes 0 bufferInitialize (bufferFlush tmp bufferInitialize) := Takes.pure _

/-- An empty database has only its header to write. -/
theorem cdbMakeFinish_empty {c : CdbMake} (hc : ∀ i, c.count i = 0) (hb : c.b = bufferInitialize)
    (hsize : c.memsize + c.numentries ≤ 1) : Takes 2 () (cdbMakeFinish c) := by
  rw [cdbMakeFinish, if_neg (by omega)]
  obtain ⟨final, hfinal⟩ := cdbMakeTables_empty (cdbSplit c) hc (List.range 256) []
  rw [hfinal, pure_bind]
  dsimp only
  rw [hb]
  refine Takes.bind (bufferFlush_takes _) ?_ (rfl : 0 + 2 = 2)
  refine Takes.bind (sysCall_takes fun _ ↦ ⟨rfl, rfl⟩) ?_ (rfl : 1 + 1 = 2)
  refine Takes.bind (a := bufferInitialize) ?_ (Takes.pure ()) (rfl : 1 + 0 = 1)
  refine Takes.bind (bufferFlush_takes _) ?_ (rfl : 0 + 1 = 1)
  exact Takes.bind (sysCall_takes fun _ ↦ ⟨rfl, rfl⟩) (Takes.pure bufferInitialize) rfl

/-- Writing an empty database takes five system calls. -/
theorem syncWrite_empty {s : Sdb} (hscan : s.scan = []) (hht : s.ht.toList = [])
    (hdir : s.dir ≠ none) (tmp : CStr) : Takes 5 [] (syncWrite s tmp) := by
  rw [syncWrite, hscan, hht]
  refine Takes.bind (a := ⟨[], 0, 1, fun _ ↦ 0, bufferInitialize, cdbFinalSize, tmp⟩) ?_ ?_
    (rfl : 1 + 4 = 5)
  · exact Takes.bind (sysCall_takes fun _ ↦ ⟨rfl, rfl⟩) (Takes.pure _) (rfl : 1 + 0 = 1)
  refine Takes.bind (Takes.pure _) ?_ (rfl : 0 + 4 = 4)
  refine Takes.bind (Takes.pure _) ?_ (rfl : 0 + 4 = 4)
  dsimp only
  rw [if_neg hdir]
  refine Takes.bind (cdbMakeFinish_empty (fun _ ↦ rfl) rfl (Nat.le_refl 1)) ?_ (rfl : 2 + 2 = 4)
  refine Takes.bind (sysCall_takes fun _ ↦ ⟨rfl, rfl⟩) ?_ (rfl : 1 + 1 = 2)
  exact Takes.bind (sysCall_takes fun _ ↦ ⟨rfl, rfl⟩) (Takes.pure []) rfl

/-- The sync of an empty database whose seventh system call fails, which is the rename. -/
theorem sdbSync_empty {s : Sdb} (hbare : s.Bare) (hmap : s.db.map = none) (hht : s.ht = htNew)
    (hdir : (syncDir s).dir ≠ none) {w : World} (hw : ∀ j, w.fails j = decide (j = w.calls + 6)) :
    Hit w (sdbSync s w).2.2 ∧ ∃ w₃, w₃.fs s.target = w.fs s.target ∧
      (sdbSync s w).2 = (sdbOpen (closeCurrentDatabase (syncDir s)) w₃ s.target).2 := by
  have hs : s.WF := tableInv_wf.new hht
  have hclosed := closed_wf hs
  have hopen : tmpOpen (tmpPath s.target) w = .ok () _ :=
    sysCall_eq_ok.mpr ⟨by rw [hw]; exact decide_eq_false (by omega), rfl⟩
  have hscan' : (syncDir s).scan = [] := by
    rw [← scan_bare hbare hmap, syncDir]
    split
    · rfl
    · rfl
  have hlist : (syncDir s).ht.toList = [] := by rw [syncDir_ht, hht, toList_htNew]
  obtain ⟨w₂, hwrite, hcalls, hfails⟩ := syncWrite_empty hscan' hlist hdir (tmpPath s.target)
    { World.setFile { w with calls := w.calls + 1 } (tmpPath s.target) (some []) with off := 0 }
    fun j hj ↦ (hw j).trans (decide_eq_false (Nat.ne_of_lt hj))
  have hcalls₂ : w₂.calls = w.calls + 6 := hcalls
  have hfails₂ : w₂.fails = w.fails := hfails
  have hrename : tmpRename (tmpPath s.target) s.target w₂ =
      .error .fault { w₂ with calls := w₂.calls + 1 } := by
    rw [tmpRename, sysCall, if_pos]
    rw [hfails₂, hcalls₂]
    exact (hw _).trans (decide_eq_true rfl)
  obtain ⟨-, -, -, -, htouch⟩ := written_of_syncWrite hs hopen hwrite
  have hsync : sdbSync s w = (false, (sdbOpen (closeCurrentDatabase (syncDir s))
      (World.setFile { w₂ with calls := w₂.calls + 1 } (tmpPath s.target) none) s.target).2) := by
    rw [sdbSync]
    dsimp only
    rw [hopen]
    dsimp only
    rw [hwrite]
    dsimp only
    rw [hrename]
  rw [hsync]
  refine ⟨⟨w.calls + 6, Nat.le_add_right _ _, ?_, (hw _).trans (decide_eq_true rfl)⟩, _, ?_, rfl⟩
  · have hworld := (sdbOpen_world hclosed
      (World.setFile { w₂ with calls := w₂.calls + 1 } (tmpPath s.target) none) s.target).1
    refine Nat.lt_of_lt_of_eq ?_ hworld.symm
    change w.calls + 6 < w₂.calls + 1
    omega
  · rw [setFile_fs, if_neg (tmpPath_ne s.target).symm]
    exact htouch.fs _ (tmpPath_ne s.target).symm

/-- An empty database that is not attached to the file at its path: when the rename
fails, the keys of the file appear. -/
theorem not_syncAtomic_of_file {st : Sdb × World} (hbare : st.1.Bare) (hmap : st.1.db.map = none)
    (hht : st.1.ht = htNew) (hdir : (syncDir st.1).dir ≠ none)
    (hw : ∀ j, st.2.fails j = decide (j = st.2.calls + 6)) {recs : List KvRec}
    (hfit : KvFitting recs) (hfile : st.2.fs st.1.target = some (kvImage recs))
    (htext : sdbTextCheck (some (kvImage recs)) = false) (hne : recs ≠ []) : ¬ SyncAtomic st := by
  intro h
  obtain ⟨r, hr⟩ := List.exists_mem_of_ne_nil recs hne
  obtain ⟨r', hr'⟩ := Option.isSome_iff_exists.mp (Keyed.lookup_isSome_of_mem Prod.fst hr)
  obtain ⟨hhit, w₃, hfile₃, hres⟩ := sdbSync_empty hbare hmap hht hdir hw
  have hget := (h hhit).get r.1
  obtain ⟨-, hholds, hht', -⟩ := sdbOpen_holds (s := closeCurrentDatabase (syncDir st.1)) hfit
    (hfile₃.trans hfile) htext
  have hht₃ : (sdbSync st.1 st.2).2.1.ht = htNew := by
    rw [hres]
    exact hht'.trans ((syncDir_ht st.1).trans hht)
  rw [← hres] at hholds
  rw [sdbGet_eq (sound_of_htNew hht₃).noExpire, sdbGet_eq (sound_of_htNew hht).noExpire,
    sdbHtFindKvp_of_htNew hht₃, sdbHtFindKvp_of_htNew hht, sdbGetDisk_holds hholds,
    sdbGetDisk_bare hbare, hr'] at hget
  cases hget

/-- A world with a file `d` in which the seventh system call fails. -/
def noRename (f : Option Bytes) : World :=
  { World.empty.setFile (CStr.ofBytes [100]) f with fails := fun j ↦ decide (j = 6) }

theorem noRename_fs {q : CStr} (hq : q ≠ CStr.ofBytes [100]) (f : Option Bytes) :
    (noRename f).fs q = none := if_neg hq

theorem noRename_fs_self (f : Option Bytes) : (noRename f).fs (CStr.ofBytes [100]) = f := by
  rw [noRename]
  dsimp only
  rw [setFile_fs, if_pos rfl]

/-- What `sdb_new` makes on the path `p/d`, where there is no file. -/
def newPD : Sdb :=
  { sdbNew0 with
    dir := some (CStr.ofBytes [112, 47, 100])
    name := some (CStr.ofBytes [100]) }

theorem pathOpened_newPD (f : Option Bytes) : PathOpened (newPD, noRename f) := by
  have hdir : sdbNewDir (CStr.ofBytes [112]) (CStr.ofBytes [100]) =
      CStr.ofBytes [112, 47, 100] := by
    decide
  refine ⟨noRename f, CStr.ofBytes [112], CStr.ofBytes [100], by decide, ?_, ?_⟩
  · rw [noRename_fs (by decide)]
    rfl
  · rw [sdbNew_absent (by decide) (noRename_fs (by decide) f), hdir]
    rfl

/-- The second system call of a sync, which moves behind the header, fails. -/
theorem hit_of_seek {s : Sdb} {w : World} (h₀ : w.fails w.calls = false)
    (h₁ : w.fails (w.calls + 1) = true) : Hit w (sdbSync s w).2.2 := by
  obtain ⟨w₁, hopen, hcalls, hfails⟩ : ∃ w₁, tmpOpen (tmpPath s.target) w = .ok () w₁ ∧
      w₁.calls = w.calls + 1 ∧ w₁.fails = w.fails :=
    ⟨_, sysCall_eq_ok.mpr ⟨h₀, rfl⟩, rfl, rfl⟩
  have hseek : tmpSeek cdbFinalSize w₁ = .error .fault { w₁ with calls := w₁.calls + 1 } := by
    rw [tmpSeek, sysCall, hfails, hcalls, if_pos h₁]
  have hwrite : syncWrite (syncDir s) (tmpPath s.target) w₁ =
      .error .fault { w₁ with calls := w₁.calls + 1 } := by
    rw [syncWrite]
    exact bind_of_error (bind_of_error hseek)
  rw [sdbSync]
  dsimp only
  rw [hopen]
  dsimp only
  rw [hwrite]
  refine ⟨w.calls + 1, Nat.le_succ _, ?_, h₁⟩
  change w.calls + 1 < w₁.calls + 1
  omega

/-- The file `x=1` is open, `a=1` is in memory with 100 seconds to live, and the second system
call of the sync fails. -/
theorem syncAtomic_overX : ∃ st, TimedReach PathOpened TimedKeepsAttached st ∧
    st.1.fd = some (kvImage fileX) ∧
    sdbHtFindKvp st.1 (CStr.ofBytes [97]) =
      some ⟨CStr.ofBytes [97], some (CStr.ofBytes [49]), 2, 100⟩ ∧
    Hit st.2 (sdbSync st.1 st.2).2.2 ∧ Unchanged st (sdbSync st.1 st.2) := by
  obtain ⟨w, hfile, hcalls, hfails, hnow⟩ : ∃ w : World,
      w.fs (CStr.ofBytes [100]) = some (kvImage fileX) ∧ w.calls = 0 ∧
      (w.fails = fun j ↦ decide (j = 1)) ∧ w.now = 0 := by
    refine ⟨{ World.empty.setFile (CStr.ofBytes [100]) (some (kvImage fileX)) with
      fails := fun j ↦ decide (j = 1) }, ?_, rfl, rfl, rfl⟩
    dsimp only
    rw [setFile_fs, if_pos rfl]
  have hdir : sdbNewDir .empty (CStr.ofBytes [100]) = CStr.ofBytes [100] := by decide
  rw [← hdir] at hfile
  have hnew := sdbNew_file (by decide) hfile fileX_not_text
  have hstart : PathOpened (sdbNew w .empty (CStr.ofBytes [100])) :=
    ⟨w, .empty, CStr.ofBytes [100], by decide, by rw [hfile]; exact fileX_not_text, rfl⟩
  have hsound := Sdb.Sound.new w .empty (CStr.ofBytes [100])
  generalize sdbNew w .empty (CStr.ofBytes [100]) = st₀ at hnew hstart hsound
  obtain ⟨hht, hfd, hjournal, hw⟩ : st₀.1.ht = htNew ∧ st₀.1.fd = some (kvImage fileX) ∧
      st₀.1.journal = none ∧ st₀.2 = w := by
    rw [hnew]
    exact ⟨rfl, rfl, rfl, rfl⟩
  -- the entry is made
  have hset := @sdbHtFindKvp_set_new st₀ hsound (CStr.ofBytes [97]) (CStr.ofBytes [49]) (by decide)
    (sdbHtFindKvp_of_htNew hht _) 0
  have hspec := sdbSetInternal_spec hsound.wf st₀.2 (CStr.ofBytes [97]) (CStr.ofBytes [49]) false 0
  have hworld : (Op.run (.set (CStr.ofBytes [97]) (CStr.ofBytes [49]) 0) st₀).2 = w := by
    rcases sdbSetInternal_world st₀.1 st₀.2 (CStr.ofBytes [97])
      (CStr.ofBytes [49]) false 0 with h | h
    · exact h.trans hw
    · refine h.trans ?_
      rw [sdbJournalLog, hjournal]
      exact hw
  have hreach : TimedReach PathOpened TimedKeepsAttached
      (Op.run (.set (CStr.ofBytes [97]) (CStr.ofBytes [49]) 0) st₀) :=
    .step (.call (.set (CStr.ofBytes [97]) (CStr.ofBytes [49]) 0)) (.start hstart) trivial rfl
  -- and given its time
  obtain ⟨s, hrun, hframe, hfind⟩ :=
    sdbExpireSet_entry hspec.wf hset (v := CStr.ofBytes [49]) (by decide)
    (by decide) w .zero 100
  have hst : TimedReach PathOpened TimedKeepsAttached (s, w) :=
    .step (.expireSet .zero (CStr.ofBytes [97]) 100 0) hreach trivial (by
      have hstep : Op.run (.set (CStr.ofBytes [97]) (CStr.ofBytes [49]) 0) st₀ =
          ((sdbSetInternal st₀.1 st₀.2 (CStr.ofBytes [97]) (CStr.ofBytes [49]) false 0).2.1, w) :=
        Prod.ext rfl hworld
      rw [hstep]
      exact hrun)
  have hhit : Hit w (sdbSync s w).2.2 :=
    hit_of_seek (by rw [hfails, hcalls]; rfl) (by rw [hfails, hcalls]; rfl)
  refine ⟨(s, w), hst, ?_, ?_, hhit, syncAtomic_of_reach hst hhit⟩
  · rw [hframe.fd]
    exact hspec.frame.fd.trans hfd
  · rw [hfind, if_pos rfl, hnow]
    rfl

/-- `sdb_new` on `p/d` where there is no file, with `x=1` in a file `d`; then `sdb_reset`
and a sync whose rename fails: the key `x` appears. -/
theorem not_syncAtomic_reset :
    ∃ st, TimedReach PathOpened (fun _ _ ↦ True) st ∧ ¬ SyncAtomic st := by
  have htarget : (sdbReset newPD).target = CStr.ofBytes [100] := rfl
  have hfile : ∀ f, (noRename f).fs (sdbReset newPD).target = f := by
    intro f
    rw [htarget, noRename_fs_self]
  exact ⟨(sdbReset newPD, noRename (some (kvImage fileX))),
    .step (.call .reset) (.start (pathOpened_newPD _)) trivial rfl,
    not_syncAtomic_of_file ⟨rfl, rfl⟩ rfl rfl (by decide) (fun _ ↦ rfl) fileX_fitting
      (hfile _) fileX_not_text (by decide)⟩

end SdbStore
