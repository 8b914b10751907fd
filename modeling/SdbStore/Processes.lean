import SdbStore.Atomic
import SdbStore.Durable
import SdbStore.Lock

/-!
# Updates from several processes

`sdb_main` of `main.c`: a process that updates a database takes its lock, opens it, makes its
queries, writes it back and gives the lock back.  Any number of processes interleave, at their
system calls on the lock file and on the temporary file, and each may crash or meet an error at any
of these.  A process that makes a new database out of a text starts from nothing, but takes the lock
all the same (`createdb`).

The order in which the processes have replaced the file is kept in `log`, with the writes that each
of them has made.  There is no other reading of the file but when it is opened, and what comes of
the process may depend on what it has read, so that `Tx.apply` is what one process on its own does
to the file.
-/

namespace SdbStore

open Lib

/-- What a process does: it opens the database, or starts a new one, and makes its writes. -/
structure Tx where
  fresh : Bool
  calls : List SetCall

/-- The database when it has been opened, or started. -/
def Tx.start (fresh : Bool) (name : CStr) (w : World) : Sdb :=
  if fresh then { sdbNew0 with dir := some name } else (sdbNew w .empty name).1

/-- The database after the writes. -/
def Tx.state (tx : Tx) (name : CStr) (w : World) : Sdb × World :=
  runSets (Tx.start tx.fresh name w, w) tx.calls

/-- One file, and no errors. -/
def World.only (name : CStr) (c : Option Bytes) : World := World.empty.setFile name c

/-- What one process on its own makes of the file. -/
def Tx.apply (tx : Tx) (name : CStr) (c : Option Bytes) : Option Bytes :=
  let st := tx.state name (.only name c)
  (sdbSync st.1 st.2).2.2.fs name

/-- The place in the code: in front of `sdb_new`; with the database open; with the temporary file
created; with it written; and behind `sdb_sync`. -/
inductive ProcessPc where
  | start
  | opened (s : Sdb)
  | created (s : Sdb)
  | written (s : Sdb)
  | finished

/-- A process.  The files in `io` are not used: they are those of the system. -/
structure Process where
  pc : ProcessPc
  io : World
  tx : Tx

/-- The lock files and the handles of the processes, the other files, and what has been written to
the database. -/
structure UpdateSys where
  lock : LockSys
  fs : CStr → Option Bytes
  procs : Nat → Process
  log : List Tx

/-- A step of a process. -/
inductive UpdateEvent where
  | lock (e : LockEvent)
  | open (fresh : Bool)
  | set (c : SetCall)
  | create
  | write
  | rename
  | finish

/-- The lock is taken before the database is opened, and given back at the end. -/
def ProcessPc.mayLock : ProcessPc → LockEvent → Bool
  | .start, .call (.lockDb _) => true
  | .finished, .call .unlockDb => true
  | _, .call _ => false
  | _, _ => true

namespace UpdateSys

variable (sys : UpdateSys) (i : Nat)

/-- What the process sees of the operating system. -/
def world : World := { (sys.procs i).io with fs := sys.fs }

/-- The process has made a step, which has led to the world `w`. -/
def put (w : World) (pc : ProcessPc) : UpdateSys :=
  { sys with
    fs := w.fs
    procs := Function.update sys.procs i { sys.procs i with pc := pc, io := w } }

def setTx (tx : Tx) : UpdateSys :=
  { sys with procs := Function.update sys.procs i { sys.procs i with tx := tx } }

/-- The process has not crashed. -/
def alive : Bool :=
  match (sys.lock.handles i).pc with
  | .gone => false
  | _ => true

/-- `sdb_lock_db` has returned true. -/
def locked : Bool :=
  match (sys.lock.handles i).pc with
  | .idle => (sys.lock.handles i).lock ≠ 0
  | _ => false

/-- A step of `sdb_main` or of `sdb_sync`, after the lock is taken. -/
def work (name : CStr) (e : UpdateEvent) : Option UpdateSys :=
  let tx := (sys.procs i).tx
  let w := sys.world i
  match (sys.procs i).pc, e with
  | .start, .open fresh =>
      if sys.locked i then
        some ((sys.put i w (.opened (Tx.start fresh name w))).setTx i ⟨fresh, []⟩)
      else none
  | .opened s, .set c =>
      let r := c.run (s, w)
      some ((sys.put i r.2 (.opened r.1)).setTx i { tx with calls := tx.calls ++ [c] })
  | .opened s, .create =>
      match tmpOpen (tmpPath s.target) w with
      | .ok _ w => some (sys.put i w (.created s))
      | .error _ w => some (sys.put i w .finished)
  | .opened _, .finish => some (sys.put i w .finished)
  | .created s, .write =>
      match syncWrite (syncDir s) (tmpPath s.target) w with
      | .ok _ w => some (sys.put i w (.written s))
      | .error _ w => some (sys.put i (w.setFile (tmpPath s.target) none) .finished)
  | .written s, .rename =>
      match tmpRename (tmpPath s.target) s.target w with
      | .ok _ w => some { sys.put i w .finished with log := sys.log ++ [tx] }
      | .error _ w => some (sys.put i (w.setFile (tmpPath s.target) none) .finished)
  | _, _ => none

/-- One step. -/
def step (name : CStr) (sys : UpdateSys) (e : Nat × UpdateEvent) : Option UpdateSys :=
  match e.2 with
  | .lock l =>
      if (sys.procs e.1).pc.mayLock l then
        (sys.lock.step (e.1, l)).map fun lock ↦ { sys with lock := lock }
      else none
  | ev => if sys.alive e.1 then sys.work e.1 name ev else none

/-- No process has begun.  There may be a database, and there may be files that are left from
before. -/
structure Start (name : CStr) : Prop where
  lock : sys.lock.Start
  dir : ∀ i, (sys.lock.handles i).dir = some name
  pc : ∀ i, (sys.procs i).pc = .start
  log : sys.log = []

end UpdateSys

/-! ## One process on its own -/

theorem runSets_append (st : Sdb × World) (calls : List SetCall) (c : SetCall) :
    runSets st (calls ++ [c]) = c.run (runSets st calls) := by
  rw [runSets, List.foldl_append]
  rfl

/-- Without a journal a write changes no file. -/
theorem SetCall.run_world (c : SetCall) {s : Sdb} (hj : s.journal = none) (w : World) :
    (c.run (s, w)).2 = w := by
  have hlog : sdbJournalLog s w c.key c.val = w := by
    rw [sdbJournalLog, hj]
  rcases sdbSetInternal_world s w c.key c.val false c.cas with h | h
  · exact h
  · exact h.trans hlog

/-- A database that is written to the file `name`. -/
structure WrittenTo (name : CStr) (s : Sdb) : Prop where
  sound : s.Sound
  dir : s.dir = some name
  journal : s.journal = none

theorem WrittenTo.set {name : CStr} {s : Sdb} (h : WrittenTo name s) (c : SetCall) (w : World) :
    WrittenTo name (c.run (s, w)).1 := by
  have hframe := (sdbSetInternal_spec h.sound.wf w c.key c.val false c.cas).frame
  exact ⟨h.sound.setInternal w c.key c.val false c.cas, (congrArg Sdb.dir hframe).trans h.dir,
    hframe.journal.trans h.journal⟩

theorem WrittenTo.target {name : CStr} {s : Sdb} (h : WrittenTo name s) : s.target = name := by
  rw [Sdb.target, syncDir, if_neg (by rw [h.dir]; exact Option.some_ne_none _), h.dir]
  rfl

theorem sdbNewDir_empty (name : CStr) : sdbNewDir .empty name = name := if_neg (fun h ↦ h rfl)

section Tx

variable {name : CStr} (hname : FileName name)
include hname

theorem Tx.start_writtenTo (fresh : Bool) (w : World) : WrittenTo name (Tx.start fresh name w) := by
  rw [Tx.start]
  split
  · exact ⟨tableInv_sound.new rfl, rfl, rfl⟩
  · obtain ⟨-, hdir, -⟩ := sdbNew_spec w .empty hname
    rw [sdbNewDir_empty] at hdir
    refine ⟨Sdb.Sound.new w .empty name, hdir, ?_⟩
    have hopened : Sdb.Sound { sdbNew0 with dir := some (sdbNewDir .empty name) } :=
      tableInv_sound.new rfl
    rw [sdbNew, if_pos hname]
    exact sdbOpen_journal hopened.wf w (sdbNewDir .empty name)

omit hname in
/-- The file is all that matters. -/
theorem Tx.start_congr (fresh : Bool) {w w' : World} (h : w'.fs name = w.fs name) :
    Tx.start fresh name w' = Tx.start fresh name w := by
  rw [Tx.start, Tx.start, sdbNew_congr]
  rw [sdbNewDir_empty]
  exact h

theorem Tx.state_spec (tx : Tx) (w : World) :
    WrittenTo name (tx.state name w).1 ∧ (tx.state name w).2 = w := by
  obtain ⟨fresh, calls⟩ := tx
  induction calls using List.reverseRecOn with
  | nil => exact ⟨Tx.start_writtenTo hname fresh w, rfl⟩
  | append_singleton calls c ih =>
      rw [Tx.state, runSets_append]
      exact ⟨ih.1.set c _, (c.run_world ih.1.journal _).trans ih.2⟩

/-- What a process makes of the file, when its plan can be carried out. -/
theorem Tx.apply_eq (tx : Tx) (c : Option Bytes) {p : Plan}
    (hp : Writable (syncDir (tx.state name (.only name c)).1) p) :
    tx.apply name c = some (kvImage p.1) := by
  obtain ⟨hspec, hworld⟩ := tx.state_spec hname (.only name c)
  have hno : (tx.state name (.only name c)).1.journal ≠
      some (tx.state name (.only name c)).1.target := by
    rw [hspec.journal]
    exact nofun
  have hcalm : ∀ j, (tx.state name (.only name c)).2.fails j = false := by
    rw [hworld]
    exact fun _ ↦ rfl
  have h := ((sdbSync_noFault_file hspec.sound.wf hcalm hno).2 p hp).2
  rwa [hspec.target] at h

end Tx

/-! ## The invariant -/

/-- The process holds the lock, and `s` is what it has made of the file as it is. -/
structure UpdateSys.Working (sys : UpdateSys) (name : CStr) (i : Nat) (s : Sdb) : Prop where
  idle : (sys.lock.handles i).pc = .idle
  lock : (sys.lock.handles i).lock ≠ 0
  state : s = ((sys.procs i).tx.state name (.only name (sys.fs name))).1

/-- What holds at a place in the code. -/
def UpdateSys.GoodAt (sys : UpdateSys) (name : CStr) (i : Nat) : ProcessPc → Prop
  | .start | .finished => True
  | .opened s => sys.Working name i s
  | .created s => sys.Working name i s ∧ sys.fs (tmpPath name) = some []
  | .written s => sys.Working name i s ∧
      ∃ p, Writable (syncDir s) p ∧ sys.fs (tmpPath name) = some (kvImage p.1)

/-- What holds of a process that has not crashed. -/
def UpdateSys.Good (sys : UpdateSys) (name : CStr) (i : Nat) : Prop :=
  sys.GoodAt name i (sys.procs i).pc

/-- A handle that another path is not given to. -/
def LockHandle.Stays (dir : Option CStr) (s : LockHandle) : Prop :=
  s.dir = dir ∧ ∀ d lock, s.pc ≠ .unlink (.file d lock)

/-- The file is what the processes have made of it, one after the other. -/
structure UpdateSys.Serial (name : CStr) (c : Option Bytes) (sys : UpdateSys) : Prop where
  lock : sys.lock.Inv
  handle : ∀ i, (sys.lock.handles i).Stays (some name)
  content : sys.fs name = sys.log.foldl (fun c tx ↦ tx.apply name c) c
  good : ∀ i, (sys.lock.handles i).pc ≠ .gone → sys.Good name i

section Work

variable {name : CStr} {sys sys' : UpdateSys} {i : Nat}

@[simp] theorem UpdateSys.procs_put (w : World) (pc : ProcessPc) :
    (sys.put i w pc).procs i = { sys.procs i with pc := pc, io := w } := Function.update_self _ _ _

@[simp] theorem UpdateSys.world_put (w : World) (pc : ProcessPc) :
    (sys.put i w pc).world i = w := by
  rw [UpdateSys.world, UpdateSys.procs_put]
  rfl

@[simp] theorem UpdateSys.procs_setTx (tx : Tx) :
    (sys.setTx i tx).procs i = { sys.procs i with tx := tx } :=
  Function.update_self _ _ _

/-- What a step of a process does to the rest of the system, if the file is not replaced. -/
structure UpdateSys.Worked (name : CStr) (sys : UpdateSys) (i : Nat) (sys' : UpdateSys) : Prop where
  lock : sys'.lock = sys.lock
  other : ∀ j, j ≠ i → sys'.procs j = sys.procs j
  content : (sys'.fs name = sys.fs name ∧ sys'.log = sys.log) ∨
    ∃ tx : Tx, sys'.fs name = tx.apply name (sys.fs name) ∧ sys'.log = sys.log ++ [tx]
  good : sys'.Good name i

/-- A step that ends the work of a process, and touches the temporary file only. -/
theorem UpdateSys.Worked.finished {w : World} (h : w.fs name = sys.fs name) :
    sys.Worked name i (sys.put i w .finished) := by
  refine ⟨rfl, fun j hj ↦ Function.update_of_ne hj _ _, .inl ⟨h, rfl⟩, ?_⟩
  rw [UpdateSys.Good, UpdateSys.procs_put]
  trivial

/-- The process has read or written nothing but its own temporary file. -/
theorem UpdateSys.Working.put {s : Sdb} (h : sys.Working name i s) {w : World}
    (hw : w.fs name = sys.fs name) (pc : ProcessPc) : (sys.put i w pc).Working name i s := by
  refine ⟨h.idle, h.lock, ?_⟩
  rw [UpdateSys.procs_put]
  dsimp only [UpdateSys.put]
  rw [hw]
  exact h.state

variable (hname : FileName name)
include hname

theorem UpdateSys.Working.writtenTo {s : Sdb} (h : sys.Working name i s) : WrittenTo name s := by
  rw [h.state]
  exact ((sys.procs i).tx.state_spec hname _).1

omit hname in
/-- The database is opened. -/
theorem UpdateSys.Worked.open (hidle : (sys.lock.handles i).pc = .idle)
    (hlock : (sys.lock.handles i).lock ≠ 0) (fresh : Bool) : sys.Worked name i
      ((sys.put i (sys.world i) (.opened (Tx.start fresh name (sys.world i)))).setTx i
        ⟨fresh, []⟩) := by
  refine ⟨rfl, fun j hj ↦ ?_, .inl ⟨rfl, rfl⟩, ?_⟩
  · exact (Function.update_of_ne hj _ _).trans (Function.update_of_ne hj _ _)
  · rw [UpdateSys.Good, UpdateSys.procs_setTx, UpdateSys.procs_put]
    refine ⟨hidle, hlock, ?_⟩
    rw [UpdateSys.procs_setTx]
    exact Tx.start_congr fresh (if_pos rfl).symm

/-- A write. -/
theorem UpdateSys.Worked.set {s : Sdb} (h : sys.Working name i s) (c : SetCall) : sys.Worked name i
    ((sys.put i (c.run (s, sys.world i)).2 (.opened (c.run (s, sys.world i)).1)).setTx i
      { (sys.procs i).tx with calls := (sys.procs i).tx.calls ++ [c] }) := by
  have hworld := c.run_world (h.writtenTo hname).journal (sys.world i)
  refine ⟨rfl, fun j hj ↦ ?_, .inl ⟨?_, rfl⟩, ?_⟩
  · exact (Function.update_of_ne hj _ _).trans (Function.update_of_ne hj _ _)
  · exact congrArg (fun w : World ↦ w.fs name) hworld
  · rw [UpdateSys.Good, UpdateSys.procs_setTx, UpdateSys.procs_put]
    refine ⟨h.idle, h.lock, ?_⟩
    rw [UpdateSys.procs_setTx]
    dsimp only [UpdateSys.setTx, UpdateSys.put]
    rw [hworld, Tx.state, runSets_append]
    have hstate := h.state
    rw [Tx.state] at hstate
    refine Eq.trans ?_ (sdbSetInternal_fst _ (sys.world i) _ c.key c.val false c.cas)
    exact congrArg (fun s ↦ (sdbSetInternal s (sys.world i) c.key c.val false c.cas).2.1) hstate

/-- The temporary file is created. -/
theorem UpdateSys.Worked.create {s : Sdb} (h : sys.Working name i s) {w : World}
    (hw : tmpOpen (tmpPath s.target) (sys.world i) = .ok () w) :
    sys.Worked name i (sys.put i w (.created s)) := by
  rw [(h.writtenTo hname).target] at hw
  have hfs := (sysCall_eq_ok.mp hw).2
  have hsame : w.fs name = sys.fs name := by
    rw [hfs]
    exact if_neg (tmpPath_ne name).symm
  refine ⟨rfl, fun j hj ↦ Function.update_of_ne hj _ _, .inl ⟨hsame, rfl⟩, ?_⟩
  rw [UpdateSys.Good, UpdateSys.procs_put]
  refine ⟨h.put hsame _, ?_⟩
  dsimp only [UpdateSys.put]
  rw [hfs]
  exact if_pos rfl

/-- The temporary file is written. -/
theorem UpdateSys.Worked.write {s : Sdb} (h : sys.Working name i s)
    (htmp : sys.fs (tmpPath name) = some []) {w : World} {per : List CStr}
    (hw : syncWrite (syncDir s) (tmpPath s.target) (sys.world i) = .ok per w) :
    sys.Worked name i (sys.put i w (.written s)) := by
  have hs := h.writtenTo hname
  rw [hs.target] at hw
  have hmoves := (syncWrite_moves (syncDir s) (tmpPath name) (sys.world i)).1
  have hends := syncWrite_ends (syncDir_sound hs.sound).wf (w := sys.world i) htmp
  rw [hw] at hmoves hends
  obtain ⟨p, hp, -, hfile⟩ := hends
  have hsame : w.fs name = sys.fs name := hmoves.fs name (tmpPath_ne name).symm
  refine ⟨rfl, fun j hj ↦ Function.update_of_ne hj _ _, .inl ⟨hsame, rfl⟩, ?_⟩
  rw [UpdateSys.Good, UpdateSys.procs_put]
  exact ⟨h.put hsame _, p, hp, hfile⟩

/-- The file is replaced. -/
theorem UpdateSys.Worked.rename {s : Sdb} (h : sys.Working name i s) {p : Plan}
    (hp : Writable (syncDir s) p) (htmp : sys.fs (tmpPath name) = some (kvImage p.1)) {w : World}
    (hw : tmpRename (tmpPath s.target) s.target (sys.world i) = .ok () w) :
    sys.Worked name i { sys.put i w .finished with log := sys.log ++ [(sys.procs i).tx] } := by
  have hs := h.writtenTo hname
  have hfile := target_of_tmpRename hw (by rw [hs.target]; exact htmp)
  rw [hs.target] at hfile
  refine ⟨rfl, fun j hj ↦ Function.update_of_ne hj _ _, .inr ⟨(sys.procs i).tx, ?_, rfl⟩, ?_⟩
  · rw [h.state] at hp
    exact hfile.trans ((sys.procs i).tx.apply_eq hname _ hp).symm
  · rw [UpdateSys.Good]
    dsimp only [UpdateSys.put]
    rw [Function.update_self]
    trivial

omit hname in
theorem UpdateSys.locked_spec (h : sys.locked i) :
    (sys.lock.handles i).pc = .idle ∧ (sys.lock.handles i).lock ≠ 0 := by
  rw [UpdateSys.locked] at h
  split at h
  · next hpc => exact ⟨hpc, of_decide_eq_true h⟩
  · cases h

/-- A step after the lock is taken. -/
theorem UpdateSys.Good.worked (hgood : sys.Good name i) {e : UpdateEvent}
    (h : sys.work i name e = some sys') :
    sys.Worked name i sys' ∧ (sys.lock.handles i).pc = .idle ∧ (sys.lock.handles i).lock ≠ 0 := by
  have hat {pc : ProcessPc} (hpc : (sys.procs i).pc = pc) : sys.GoodAt name i pc := by
    rw [← hpc]
    exact hgood
  have hremoved {w : World} (hw : w.fs name = sys.fs name) :
      (w.setFile (tmpPath name) none).fs name = sys.fs name := by
    rw [setFile_fs, if_neg (tmpPath_ne name).symm]
    exact hw
  unfold UpdateSys.work at h
  dsimp only at h
  split at h
  · next fresh hpc =>
      split at h
      · next hlocked =>
          cases h
          obtain ⟨hidle, hlock⟩ := sys.locked_spec hlocked
          exact ⟨.open hidle hlock fresh, hidle, hlock⟩
      · cases h
  · next s c hpc =>
      cases h
      exact ⟨.set hname (hat hpc) c, (hat hpc).idle, (hat hpc).lock⟩
  · next s hpc =>
      split at h
      · next hw =>
          cases h
          exact ⟨.create hname (hat hpc) hw, (hat hpc).idle, (hat hpc).lock⟩
      · next hw =>
          cases h
          refine ⟨.finished ?_, (hat hpc).idle, (hat hpc).lock⟩
          rw [(sysCall_eq_error hw).2]
          rfl
  · next s hpc =>
      cases h
      exact ⟨.finished rfl, (hat hpc).idle, (hat hpc).lock⟩
  · next s hpc =>
      obtain ⟨hwork, htmp⟩ := hat hpc
      split at h
      · next hw =>
          cases h
          exact ⟨.write hname hwork htmp hw, hwork.idle, hwork.lock⟩
      · next hw =>
          cases h
          have hmoves := (syncWrite_moves (syncDir s) (tmpPath s.target) (sys.world i)).1
          rw [hw, (hwork.writtenTo hname).target] at hmoves
          refine ⟨.finished ?_, hwork.idle, hwork.lock⟩
          rw [(hwork.writtenTo hname).target]
          exact hremoved (hmoves.fs name (tmpPath_ne name).symm)
  · next s hpc =>
      obtain ⟨hwork, p, hp, htmp⟩ := hat hpc
      split at h
      · next hw =>
          cases h
          exact ⟨.rename hname hwork hp htmp hw, hwork.idle, hwork.lock⟩
      · next hw =>
          cases h
          refine ⟨.finished ?_, hwork.idle, hwork.lock⟩
          rw [(hwork.writtenTo hname).target, (sysCall_eq_error hw).2]
          exact hremoved rfl
  · cases h

end Work

/-! ## Steps and runs -/

theorem LockSys.handles_put (st : LockSys) (i : Nat) (s : LockHandle) :
    (st.put i s).handles i = s :=
  Function.update_self _ _ _

theorem LockSys.handles_open (st : LockSys) (i : Nat) (mode : Int) (p : CStr) (ok : Bool) :
    (st.open i mode p ok).handles i = st.handles i ∨
      ∃ pc, (st.open i mode p ok).handles i = { st.handles i with pc := pc } ∧
        (pc = .idle ∨ pc = .pid mode) := by
  unfold LockSys.open
  dsimp only
  split
  · exact .inr ⟨_, st.handles_put i _, .inl rfl⟩
  · split
    · exact .inl rfl
    · exact .inr ⟨_, st.handles_put i _, .inl rfl⟩
  · exact .inr ⟨_, Function.update_self _ _ _, .inr rfl⟩

theorem sdbLockDb_stays {dir : Option CStr} {s : LockHandle} (h : s.dir = dir) (mode : Int) :
    (sdbLockDb s mode).Stays dir := by
  rw [sdbLockDb]
  split
  · exact ⟨h, fun _ _ hpc ↦ LockPc.noConfusion hpc⟩
  · exact ⟨h, fun _ _ hpc ↦ LockPc.noConfusion hpc⟩

theorem sdbUnlockDb_stays {dir : Option CStr} {s : LockHandle} (h : s.dir = dir) :
    (sdbUnlockDb s .done).Stays dir := by
  rw [sdbUnlockDb]
  split
  · exact ⟨h, fun _ _ hpc ↦ LockNext.noConfusion (LockPc.unlink.inj hpc)⟩
  · exact ⟨h, fun _ _ hpc ↦ LockPc.noConfusion hpc⟩

/-- A step on the lock file leaves the path of the handle as it is, unless it is another path that
is given. -/
theorem LockSys.step_stays {st st' : LockSys} {i : Nat} {l : LockEvent} {dir : Option CStr}
    (h : st.step (i, l) = some st')
    (hcall : ∀ c, l = .call c → c = .unlockDb ∨ ∃ mode, c = .lockDb mode)
    (hs : (st.handles i).Stays dir) : (st'.handles i).Stays dir := by
  have hput {st : LockSys} {pc : LockPc} {lock : Int} (hpc : ∀ d l, pc ≠ .unlink (.file d l)) :
      ((st.put i { st.handles i with pc := pc, lock := lock }).handles i).Stays
      (st.handles i).dir := by
    rw [LockSys.handles_put]
    exact ⟨rfl, hpc⟩
  obtain ⟨rfl, hpc⟩ := hs
  unfold LockSys.step at h
  dsimp only at h
  split at h
  · cases h
  · cases h
    exact hput fun _ _ hpc ↦ LockPc.noConfusion hpc
  · next c _ =>
      cases h
      rw [LockSys.handles_put]
      rcases hcall c rfl with rfl | ⟨mode, rfl⟩
      · exact sdbUnlockDb_stays rfl
      · exact sdbLockDb_stays rfl mode
  · next mode ok p _ _ =>
      cases h
      rcases st.handles_open i mode p ok with hs | ⟨pc, hs, rfl | rfl⟩
      · rw [hs]
        exact ⟨rfl, hpc⟩
      · rw [hs]
        exact ⟨rfl, fun _ _ hpc ↦ LockPc.noConfusion hpc⟩
      · rw [hs]
        exact ⟨rfl, fun _ _ hpc ↦ LockPc.noConfusion hpc⟩
  · cases h
    rw [LockSys.handles_put]
    exact ⟨rfl, fun _ _ hpc ↦ LockPc.noConfusion hpc⟩
  · cases h
    rw [LockSys.handles_put]
    exact ⟨rfl, fun _ _ hpc ↦ LockPc.noConfusion hpc⟩
  · cases h
    exact hput fun _ _ hpc ↦ LockPc.noConfusion hpc
  · cases h
    exact hput fun _ _ hpc ↦ LockPc.noConfusion hpc
  · cases h
    rw [LockSys.handles_put]
    exact ⟨rfl, fun _ _ hpc ↦ LockPc.noConfusion hpc⟩
  · next rest ok p hrest _ =>
      cases h
      rw [LockSys.handles_put]
      cases rest with
      | done => exact ⟨rfl, fun _ _ hpc ↦ LockPc.noConfusion hpc⟩
      | file d lock => exact absurd hrest (hpc d lock)
  · cases h

/-- A handle that holds its lock makes calls only, or crashes. -/
theorem LockSys.step_idle {st st' : LockSys} {i : Nat} {l : LockEvent}
    (h : st.step (i, l) = some st') (hidle : (st.handles i).pc = .idle) (hcall : ∀ c, l ≠ .call c) :
    (st'.handles i).pc = .gone := by
  unfold LockSys.step at h
  dsimp only at h
  rw [hidle] at h
  cases l with
  | call c => exact absurd rfl (hcall c)
  | «open» ok => cases h
  | write n => cases h
  | unlink ok => cases h
  | crash =>
      cases h
      rw [LockSys.handles_put]

section Steps

variable {name : CStr} {c : Option Bytes} {sys sys' : UpdateSys} {i j : Nat}

theorem ProcessPc.call_of_mayLock {pc : ProcessPc} {call : LockCall} (h : pc.mayLock (.call call)) :
    (pc = .start ∧ ∃ mode, call = .lockDb mode) ∨ (pc = .finished ∧ call = .unlockDb) := by
  cases pc with
  | start =>
      cases call with
      | lockDb mode => exact .inl ⟨rfl, mode, rfl⟩
      | unlockDb => cases h
      | file dir => cases h
      | dir dir => cases h
  | finished =>
      cases call with
      | unlockDb => exact .inr ⟨rfl, rfl⟩
      | lockDb mode => cases h
      | file dir => cases h
      | dir dir => cases h
  | opened s => cases h
  | created s => cases h
  | written s => cases h

/-- A process that is at work holds the lock. -/
theorem UpdateSys.Good.holds (h : sys.Good name i) (hgone : (sys.lock.handles i).pc ≠ .gone) :
    (sys.procs i).pc = .start ∨ (sys.procs i).pc = .finished ∨
      ((sys.lock.handles i).pc = .idle ∧ sys.lock.Holds i) := by
  rw [UpdateSys.Good] at h
  cases hpc : (sys.procs i).pc with
  | start => exact .inl rfl
  | finished => exact .inr (.inl rfl)
  | opened s =>
      rw [hpc] at h
      exact .inr (.inr ⟨h.idle, hgone, h.lock⟩)
  | created s =>
      rw [hpc] at h
      exact .inr (.inr ⟨h.1.idle, hgone, h.1.lock⟩)
  | written s =>
      rw [hpc] at h
      exact .inr (.inr ⟨h.1.idle, hgone, h.1.lock⟩)

theorem UpdateSys.good_of_idle (h : (sys.procs i).pc = .start ∨ (sys.procs i).pc = .finished) :
    sys.Good name i := by
  rw [UpdateSys.Good]
  rcases h with h | h
  · rw [h]
    trivial
  · rw [h]
    trivial

/-- The lock of another handle does not matter. -/
theorem UpdateSys.Good.of_handle (h : sys.Good name j) {lock : LockSys}
    (hj : lock.handles j = sys.lock.handles j) :
    UpdateSys.Good { sys with lock := lock } name j := by
  have hworking {s : Sdb} (h : sys.Working name j s) : UpdateSys.Working
      { sys with lock := lock } name j s := by
    refine ⟨?_, ?_, h.state⟩
    · dsimp only
      rw [hj]
      exact h.idle
    · dsimp only
      rw [hj]
      exact h.lock
  rw [UpdateSys.Good] at h ⊢
  dsimp only
  cases hpc : (sys.procs j).pc with
  | start => trivial
  | finished => trivial
  | opened s =>
      rw [hpc] at h
      exact hworking h
  | created s =>
      rw [hpc] at h
      exact ⟨hworking h.1, h.2⟩
  | written s =>
      rw [hpc] at h
      exact ⟨hworking h.1, h.2⟩

/-- The lock is held by one process, and the others are not at work. -/
theorem UpdateSys.Serial.alone (h : sys.Serial name c) (hi : sys.lock.Holds i) (hj : j ≠ i)
    (hgone : (sys.lock.handles j).pc ≠ .gone) :
    (sys.procs j).pc = .start ∨ (sys.procs j).pc = .finished := by
  rcases (h.good j hgone).holds hgone with hpc | hpc | ⟨-, hholds⟩
  · exact .inl hpc
  · exact .inr hpc
  · obtain ⟨p, f, hp, -, -, hone⟩ := h.lock.exclusive hi
    have hpj : (sys.lock.handles j).path = some p := by
      rw [LockHandle.path, (h.handle j).1, ← (h.handle i).1]
      exact hp
    exact absurd (hone j hholds hpj) hj

/-- A step on the lock file. -/
theorem UpdateSys.Serial.lockStep (h : sys.Serial name c) {l : LockEvent}
    (hmay : (sys.procs i).pc.mayLock l) {lock : LockSys}
    (hstep : sys.lock.step (i, l) = some lock) :
    UpdateSys.Serial name c { sys with lock := lock } := by
  have hok : sys.lock.Allowed (i, l) := by
    rintro dir rfl
    rcases ProcessPc.call_of_mayLock hmay with ⟨-, mode, hcall⟩ | ⟨-, hcall⟩
    · cases hcall
    · cases hcall
  have hstepped := h.lock.stepped hok hstep
  have hstays : (lock.handles i).Stays (some name) := by
    refine LockSys.step_stays hstep ?_ (h.handle i)
    rintro call rfl
    rcases ProcessPc.call_of_mayLock hmay with ⟨-, hcall⟩ | ⟨-, hcall⟩
    · exact .inr hcall
    · exact .inl hcall
  refine ⟨h.lock.step hok hstep, fun j ↦ ?_, h.content, fun j hgone ↦ ?_⟩
  · rcases eq_or_ne j i with rfl | hj
    · exact hstays
    · dsimp only
      rw [hstepped.handle hj]
      exact h.handle j
  · rcases eq_or_ne j i with rfl | hj
    · -- a process that is at work does nothing with the lock but crash
      have halive := LockSys.not_gone hstep
      rcases (h.good j halive).holds halive with hpc | hpc | ⟨hidle, -⟩
      · exact UpdateSys.good_of_idle (.inl hpc)
      · exact UpdateSys.good_of_idle (.inr hpc)
      · refine UpdateSys.good_of_idle ?_
        by_cases hcall : ∃ call, l = .call call
        · obtain ⟨call, rfl⟩ := hcall
          rcases ProcessPc.call_of_mayLock hmay with ⟨hpc, -⟩ | ⟨hpc, -⟩
          · exact .inl hpc
          · exact .inr hpc
        · exact absurd (LockSys.step_idle hstep hidle fun call hl ↦ hcall ⟨call, hl⟩) hgone
    · have hhandle := hstepped.handle hj
      dsimp only at hgone
      rw [hhandle] at hgone
      exact (h.good j hgone).of_handle hhandle

variable (hname : FileName name)
include hname

/-- A step of a process that holds the lock. -/
theorem UpdateSys.Serial.work (h : sys.Serial name c) (halive : (sys.lock.handles i).pc ≠ .gone)
    {e : UpdateEvent} (hstep : sys.work i name e = some sys') : sys'.Serial name c := by
  obtain ⟨hworked, hidle, hlock⟩ := (h.good i halive).worked hname hstep
  refine ⟨?_, fun j ↦ ?_, ?_, fun j hgone ↦ ?_⟩
  · rw [hworked.lock]
    exact h.lock
  · rw [hworked.lock]
    exact h.handle j
  · rcases hworked.content with ⟨hfs, hlog⟩ | ⟨tx, hfs, hlog⟩
    · rw [hfs, hlog]
      exact h.content
    · rw [hfs, hlog, List.foldl_append, ← h.content]
      rfl
  · rcases eq_or_ne j i with rfl | hj
    · exact hworked.good
    · rw [hworked.lock] at hgone
      refine UpdateSys.good_of_idle ?_
      rw [hworked.other j hj]
      exact h.alone ⟨halive, hlock⟩ hj hgone

theorem UpdateSys.Serial.step (h : sys.Serial name c) {e : Nat × UpdateEvent}
    (hstep : sys.step name e = some sys') : sys'.Serial name c := by
  obtain ⟨i, e⟩ := e
  have hwork (hstep : (if sys.alive i then sys.work i name e else none) = some sys') :
      sys'.Serial name c := by
    split at hstep
    · next halive =>
        refine h.work hname ?_ hstep
        intro hgone
        rw [UpdateSys.alive, hgone] at halive
        cases halive
    · cases hstep
  cases e with
  | lock l =>
      change (if (sys.procs i).pc.mayLock l
          then (sys.lock.step (i, l)).map fun lock ↦ { sys with lock := lock }
        else none) = some sys' at hstep
      split at hstep
      · next hmay =>
          obtain ⟨lock, hlock, rfl⟩ := Option.map_eq_some_iff.mp hstep
          exact h.lockStep hmay hlock
      · cases hstep
  | «open» fresh => exact hwork hstep
  | set call => exact hwork hstep
  | create => exact hwork hstep
  | write => exact hwork hstep
  | rename => exact hwork hstep
  | finish => exact hwork hstep

omit hname in
theorem UpdateSys.Start.serial (h : sys.Start name) : sys.Serial name (sys.fs name) := by
  refine ⟨h.lock.inv, fun i ↦ ⟨h.dir i, fun dir lock ↦ ?_⟩, ?_,
    fun i _ ↦ UpdateSys.good_of_idle (.inl (h.pc i))⟩
  · rw [(h.lock.idle i).1]
    exact nofun
  · rw [h.log]
    rfl

theorem UpdateSys.Serial.runs (h : sys.Serial name c)
    (hruns : Runs (UpdateSys.step name) (fun _ _ ↦ True) sys sys') : sys'.Serial name c :=
  hruns.keeps (P := fun sys ↦ sys.Serial name c) (fun _ _ _ hs _ hstep ↦ hs.step hname hstep) h

/-- Without errors a process gets to the end of `sdb_sync`. -/
theorem UpdateSys.Serial.commit (h : sys.Serial name c) (halive : sys.alive i) {s : Sdb}
    (hpc : (sys.procs i).pc = .opened s) {p : Plan} (hp : Writable (syncDir s) p)
    (hcalm : ∀ j, (sys.procs i).io.fails j = false) :
    ∃ sys', Runs (UpdateSys.step name) (fun _ _ ↦ True) sys sys' ∧
      sys'.log = sys.log ++ [(sys.procs i).tx] := by
  have hwrite {w : World} (hcalm : ∀ j, w.fails j = false)
      (htmp : w.fs (tmpPath s.target) = some []) :
      ∃ per w', syncWrite (syncDir s) (tmpPath s.target) w = .ok per w' ∧
        ∀ j, w'.fails j = false := by
    have hsound : s.Sound := by
      have hgone : (sys.lock.handles i).pc ≠ .gone := by
        intro hgone
        rw [UpdateSys.alive, hgone] at halive
        cases halive
      have hgood := h.good i hgone
      rw [UpdateSys.Good, hpc] at hgood
      exact (hgood.writtenTo hname).sound
    have hends := syncWrite_ends (syncDir_sound hsound).wf htmp
    have hsame := (syncWrite_failStop (syncDir s) (tmpPath s.target) w).same
    cases hres : syncWrite (syncDir s) (tmpPath s.target) w with
    | ok per w' =>
        rw [hres] at hsame
        exact ⟨per, w', rfl, fun j ↦ (congrFun hsame j).trans (hcalm j)⟩
    | error e w' =>
        rw [hres] at hends
        rcases hends with rfl | ⟨-, hno⟩
        · exact absurd hres ((syncWrite_failStop _ _).not_error hcalm)
        · exact absurd hp (hno p)
  -- the temporary file is created, written and put in place
  obtain ⟨w₁, hopen, hcalm₁, htmp⟩ : ∃ w, tmpOpen (tmpPath s.target) (sys.world i) = .ok () w ∧
      (∀ j, w.fails j = false) ∧ w.fs (tmpPath s.target) = some [] :=
    ⟨_, sysCall_eq_ok.mpr ⟨hcalm _, rfl⟩, hcalm, if_pos rfl⟩
  obtain ⟨per, w₂, hw, hcalm₂⟩ := hwrite hcalm₁ htmp
  obtain ⟨w₃, hrename⟩ : ∃ w, tmpRename (tmpPath s.target) s.target w₂ = .ok () w :=
    ⟨_, sysCall_eq_ok.mpr ⟨hcalm₂ _, rfl⟩⟩
  have hcreate : sys.work i name .create = some (sys.put i w₁ (.created s)) := by
    unfold UpdateSys.work
    dsimp only
    rw [hpc]
    dsimp only
    rw [hopen]
  have hwritten : (sys.put i w₁ (.created s)).work i name .write =
      some ((sys.put i w₁ (.created s)).put i w₂ (.written s)) := by
    unfold UpdateSys.work
    rw [UpdateSys.world_put, UpdateSys.procs_put]
    dsimp only
    rw [hw]
  have hreplaced : ((sys.put i w₁ (.created s)).put i w₂ (.written s)).work i name .rename =
      some { ((sys.put i w₁ (.created s)).put i w₂ (.written s)).put i w₃ .finished with
        log := sys.log ++ [(sys.procs i).tx] } := by
    unfold UpdateSys.work
    rw [UpdateSys.world_put, UpdateSys.procs_put]
    dsimp only
    rw [hrename, UpdateSys.procs_put]
    rfl
  have hrun₁ : Runs (UpdateSys.step name) (fun _ _ ↦ True) sys _ :=
    .single ⟨(i, .create), trivial, (if_pos halive).trans hcreate⟩
  have hrun₂ := hrun₁.tail ⟨(i, .write), trivial, (if_pos halive).trans hwritten⟩
  exact ⟨_, hrun₂.tail ⟨(i, .rename), trivial, (if_pos halive).trans hreplaced⟩, rfl⟩

end Steps

/-! ## Two processes -/

/-- The database `d` is not there yet, and nothing goes wrong. -/
def updatesD : UpdateSys :=
  ⟨.fresh (CStr.ofBytes [100]), fun _ ↦ none, fun _ ↦ ⟨.start, .empty, ⟨false, []⟩⟩, []⟩

theorem updatesD_start : updatesD.Start (CStr.ofBytes [100]) :=
  ⟨LockSys.start_fresh _, fun _ ↦ rfl, fun _ ↦ rfl, rfl⟩

/-- The first process takes the lock and sets `x` to `1`, while the second one waits. -/
def eventsX : List (Nat × UpdateEvent) :=
  [(0, .lock (.call (.lockDb 2))), (0, .lock (.open true)), (1, .lock (.call (.lockDb 2))),
    (0, .lock (.write (some 1))), (0, .lock (.write (some 1))), (1, .lock (.open true)),
    (0, .open false), (0, .set ⟨CStr.ofBytes [120], CStr.ofBytes [49], 0⟩)]

/-- What the first process has to do. -/
def txX : Tx := ⟨false, [⟨CStr.ofBytes [120], CStr.ofBytes [49], 0⟩]⟩

/-- The system after these events. -/
def updatesX : UpdateSys :=
  (exec (UpdateSys.step (CStr.ofBytes [100])) (fun _ _ ↦ True) eventsX updatesD).getD updatesD

theorem updatesX_runs :
    Runs (UpdateSys.step (CStr.ofBytes [100])) (fun _ _ ↦ True) updatesD updatesX :=
  runs_of_exec (show exec _ _ eventsX updatesD = some updatesX from rfl)

theorem updatesX_pc :
    (updatesX.procs 0).pc =
      .opened (txX.state (CStr.ofBytes [100]) (.only (CStr.ofBytes [100]) none)).1 := rfl

theorem writable_txX :
    Writable (syncDir (txX.state (CStr.ofBytes [100]) (.only (CStr.ofBytes [100]) none)).1)
      (fileX, [CStr.ofBytes [120]]) where
  plan := by decide
  dir := by decide
  fitting := fileX_fitting
  room := cdbRoom_of_length (by decide)

end SdbStore
