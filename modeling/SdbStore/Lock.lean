import Mathlib.Logic.Function.Basic
import SdbStore.Lib.Runs
import SdbStore.Num

/-!
# Lock files

`lock.c`: a database is locked by the file `<dir>.lock`, which is made with `O_EXCL` and removed by
whoever made it.  Any number of handles in any number of processes interleave at their system calls:
a step is one system call of one handle, and what the call returns is given to it.  A process may
crash anywhere, and what it has made stays there.

Each file has with it the handle that it was made by, which the code does not know.  There may be
lock files from before, which were made by none of the handles.

A handle that gets another `dir` while it holds a lock removes a file that is not its own, so that
the runs are those in which `sdb_open` and `sdb_close` do not do that to it; `sdb_file` gives the
lock back before.
-/

namespace SdbStore

open Lib

/-- `sdb_lock_file`, with a buffer of `SDB_MAX_PATH` bytes. -/
def sdbLockFile (f : Option CStr) : Option CStr :=
  match f with
  | none => none
  | some f =>
      if f = CStr.empty then none
      else some (CStr.ofBytes ((f.val ++ [46, 108, 111, 99, 107]).take 255))

/-- A lock file, with the handle that has made it. -/
structure LockFile where
  text : Bytes
  owner : Option Nat

/-- What follows the removal of a lock file: nothing, or the rest of `sdb_file`. -/
inductive LockNext where
  | done
  | file (dir : Option CStr) (lock : Int)

/-- The place in the code: in front of the `open` of `sdb_lock`, of its two `write`, of the removal
when one of them has failed, and of the `unlink` of `sdb_unlock`. -/
inductive LockPc where
  | idle
  | open (mode : Int)
  | pid (mode : Int)
  | newline (mode : Int)
  | undo
  | unlink (next : LockNext)
  | gone

/-- What `lock.c` uses of a handle, and the process that it is in. -/
structure LockHandle where
  dir : Option CStr
  lock : Int
  pid : Nat
  pc : LockPc

/-- The lock file of a handle. -/
def LockHandle.path (s : LockHandle) : Option CStr := sdbLockFile s.dir

/-- The files and the handles. -/
structure LockSys where
  files : CStr → Option LockFile
  handles : Nat → LockHandle

/-- The calls that are made with a handle.  `dir` is what `sdb_new`, `sdb_open` and `sdb_close` do
to the path. -/
inductive LockCall where
  | lockDb (mode : Int)
  | unlockDb
  | file (dir : Option CStr)
  | dir (dir : Option CStr)

/-- A step of a handle: a call, a system call with what it returns, or a crash. -/
inductive LockEvent where
  | call (c : LockCall)
  | open (ok : Bool)
  | write (n : Option Nat)
  | unlink (ok : Bool)
  | crash

/-- `sdb_lock_db`, up to the `open` of `sdb_lock`. -/
def sdbLockDb (s : LockHandle) (mode : Int) : LockHandle :=
  if mode = 0 ∨ s.path = none then { s with pc := .idle } else { s with pc := .open mode }

/-- What follows `sdb_unlock_db`: nothing, or the rest of `sdb_file`. -/
def LockNext.resume (next : LockNext) (s : LockHandle) : LockHandle :=
  match next with
  | .done => { s with pc := .idle }
  | .file dir lock => sdbLockDb { s with dir := dir.filter (· ≠ CStr.empty) } lock

/-- `sdb_unlock_db`, up to the `unlink` of `sdb_unlock` if there is one. -/
def sdbUnlockDb (s : LockHandle) (next : LockNext) : LockHandle :=
  if s.lock ≠ 0 ∧ s.path ≠ none then { s with pc := .unlink next }
  else next.resume { s with lock := 0 }

/-- The beginning of a call. -/
def LockCall.run (c : LockCall) (s : LockHandle) : LockHandle :=
  match c with
  | .lockDb mode => sdbLockDb s mode
  | .unlockDb => sdbUnlockDb s .done
  | .file d => sdbUnlockDb s (.file d s.lock)
  | .dir d => { s with dir := d }

/-- Bytes at the end of a file. -/
def LockSys.append (st : LockSys) (p : CStr) (bs : Bytes) : LockSys :=
  { st with files := Function.update st.files p ((st.files p).map fun f ↦ { f with
    text := f.text ++ bs }) }

def LockSys.put (st : LockSys) (i : Nat) (s : LockHandle) : LockSys :=
  { st with handles := Function.update st.handles i s }

/-- `open` with `O_CREAT | O_EXCL`, which may fail.  `sdb_lock_wait` tries again when there is a
file. -/
def LockSys.open (st : LockSys) (i : Nat) (mode : Int) (p : CStr) (ok : Bool) : LockSys :=
  let s := st.handles i
  match ok, st.files p with
  | false, _ => st.put i { s with pc := .idle }
  | true, some _ => if mode = 2 then st else st.put i { s with pc := .idle }
  | true, none =>
      { st with files := Function.update st.files p (some ⟨[], some i⟩) }.put i
      { s with pc := .pid mode }

/-- `sdb_file_unlink`, which may fail. -/
def LockSys.unlink (st : LockSys) (p : CStr) (ok : Bool) : LockSys :=
  if ok then { st with files := Function.update st.files p none } else st

/-- One step. -/
def LockSys.step (st : LockSys) (e : Nat × LockEvent) : Option LockSys :=
  let s := st.handles e.1
  match s.pc, e.2, s.path with
  | .gone, _, _ => none
  | _, .crash, _ => some (st.put e.1 { s with pc := .gone })
  | .idle, .call c, _ => some (st.put e.1 (c.run s))
  | .open mode, .open ok, some p => some (st.open e.1 mode p ok)
  | .pid mode, .write (some n), some p =>
      some ((st.append p ((digits 10 s.pid).take n)).put e.1 { s with pc := .newline mode })
  | .newline mode, .write (some n), some p =>
      some ((st.append p ([10].take n)).put e.1 { s with pc := .idle, lock := mode })
  | .pid _, .write none, _ => some (st.put e.1 { s with pc := .undo })
  | .newline _, .write none, _ => some (st.put e.1 { s with pc := .undo })
  | .undo, .unlink ok, some p => some ((st.unlink p ok).put e.1 { s with pc := .idle })
  | .unlink next, .unlink ok, some p =>
      some ((st.unlink p ok).put e.1 (next.resume { s with lock := 0 }))
  | _, _, _ => none

/-- The path of a handle that holds a lock stays, except in `sdb_file`. -/
def LockSys.Allowed (st : LockSys) (e : Nat × LockEvent) : Prop :=
  ∀ dir, e.2 = .call (.dir dir) → (st.handles e.1).lock = 0 ∨ dir = (st.handles e.1).dir

theorem LockSys.allowed_dir {st : LockSys} {i : Nat} {dir : Option CStr} :
    st.Allowed (i, .call (.dir dir)) ↔ (st.handles i).lock = 0 ∨ dir = (st.handles i).dir := by
  constructor
  · exact fun h ↦ h dir rfl
  · rintro h _ ⟨⟩
    exact h

instance (st : LockSys) (e : Nat × LockEvent) : Decidable (st.Allowed e) :=
  match e with
  | (_, .call (.dir _)) => decidable_of_iff' _ LockSys.allowed_dir
  | (_, .call (.lockDb _)) | (_, .call .unlockDb) | (_, .call (.file _)) => .isTrue nofun
  | (_, .open _) | (_, .write _) | (_, .unlink _) | (_, .crash) => .isTrue nofun

/-- Nothing has been locked by any of the handles. -/
structure LockSys.Start (st : LockSys) : Prop where
  idle : ∀ i, (st.handles i).pc = .idle ∧ (st.handles i).lock = 0
  files : ∀ p f, st.files p = some f → f.owner = none

/-- The handle holds its lock. -/
def LockSys.Holds (st : LockSys) (i : Nat) : Prop :=
  (st.handles i).pc ≠ .gone ∧ (st.handles i).lock ≠ 0

/-! ## The invariant -/

/-- The lock file of the handle is there, and the handle has made it. -/
def LockSys.Owns (st : LockSys) (i : Nat) : Prop :=
  ∃ p f, (st.handles i).path = some p ∧ st.files p = some f ∧ f.owner = some i

/-- The lock file is made, and the lock not yet taken. -/
def LockPc.Making : LockPc → Prop
  | .pid _ => True
  | .newline _ => True
  | .undo => True
  | _ => False

def LockPc.Unlinking : LockPc → Prop
  | .unlink _ => True
  | _ => False

/-- What holds of a handle that has not crashed. -/
structure LockSys.Good (st : LockSys) (i : Nat) : Prop where
  held : (st.handles i).lock ≠ 0 → st.Owns i
  making : (st.handles i).pc.Making → (st.handles i).lock = 0 ∧ st.Owns i
  unlinking : (st.handles i).pc.Unlinking → (st.handles i).lock ≠ 0

/-- Every handle that has not crashed is good. -/
def LockSys.Inv (st : LockSys) : Prop := ∀ i, (st.handles i).pc ≠ .gone → st.Good i

/-- What a step of the handle `i` does to the files: they stay, or one is made where there is none,
or one is written to or removed that the handle has made. -/
inductive LockSys.Touches (st : LockSys) (i : Nat) : (CStr → Option LockFile) → Prop where
  | stay : st.Touches i st.files
  | make {p : CStr} (h : st.files p = none) : st.Touches i
      (Function.update st.files p (some ⟨[], some i⟩))
  | write {p : CStr} {f f' : LockFile} (h : st.files p = some f) (hf : f.owner = some i)
      (hf' : f'.owner = f.owner) : st.Touches i (Function.update st.files p (some f'))
  | remove {p : CStr} {f : LockFile} (h : st.files p = some f) (hf : f.owner = some i) :
      st.Touches i (Function.update st.files p none)

section Touches

variable {st : LockSys} {i : Nat} {files' : CStr → Option LockFile}

/-- A file that another has made stays. -/
theorem LockSys.Touches.file (h : st.Touches i files') {p : CStr} {f : LockFile}
    (hf : st.files p = some f) (hi : f.owner ≠ some i) : files' p = some f := by
  have hne : ∀ {q : CStr} {g : LockFile}, st.files q = some g → g.owner = some i → p ≠ q := by
    rintro q g hq hg rfl
    cases hf.symm.trans hq
    exact hi hg
  cases h with
  | stay => exact hf
  | @make q hq =>
      have hpq : p ≠ q := by
        rintro rfl
        cases hf.symm.trans hq
      rw [Function.update_of_ne hpq]
      exact hf
  | @write q g g' hq hg =>
      rw [Function.update_of_ne (hne hq hg)]
      exact hf
  | @remove q g hq hg =>
      rw [Function.update_of_ne (hne hq hg)]
      exact hf

end Touches

/-! ## One step -/

section Step

variable {st st' : LockSys} {i : Nat}

/-- A handle without a lock that is in front of no system call that touches a file. -/
theorem LockSys.Good.of_zero (hlock : (st.handles i).lock = 0)
    (hmaking : ¬ (st.handles i).pc.Making) (hunlinking : ¬ (st.handles i).pc.Unlinking) :
    st.Good i where
  held h := absurd hlock h
  making h := absurd h hmaking
  unlinking h := absurd h hunlinking

theorem sdbLockDb_spec (s : LockHandle) (mode : Int) : (sdbLockDb s mode).lock = s.lock ∧
    (sdbLockDb s mode).dir = s.dir ∧ ¬ (sdbLockDb s mode).pc.Making ∧
      ¬ (sdbLockDb s mode).pc.Unlinking := by
  rw [sdbLockDb]
  split
  · exact ⟨rfl, rfl, id, id⟩
  · exact ⟨rfl, rfl, id, id⟩

theorem LockNext.resume_spec (next : LockNext) (s : LockHandle) :
    (next.resume s).lock = s.lock ∧ ¬ (next.resume s).pc.Making ∧
      ¬ (next.resume s).pc.Unlinking := by
  cases next with
  | done => exact ⟨rfl, id, id⟩
  | file dir lock =>
      obtain ⟨hlock, -, hpc⟩ := sdbLockDb_spec { s with dir := dir.filter (· ≠ CStr.empty) } lock
      exact ⟨hlock, hpc⟩

/-- The handle `i` is put in place over files that it has touched. -/
def LockSys.Stepped (st : LockSys) (i : Nat) (st' : LockSys) : Prop :=
  ∃ files' s', st' = ⟨files', Function.update st.handles i s'⟩ ∧ st.Touches i files' ∧
    (s'.pc ≠ .gone → st'.Good i)

/-- Files that are not touched, and a handle whose lock is as it was. -/
theorem LockSys.Stepped.of_stay {s : LockHandle} (hgood : st.Good i)
    (hlock : s.lock = (st.handles i).lock) (hdir : s.dir = (st.handles i).dir)
    (hmaking : s.pc.Making → (st.handles i).pc.Making) (hunlinking : s.pc.Unlinking → s.lock ≠ 0) :
    st.Stepped i (st.put i s) := by
  refine ⟨st.files, s, rfl, .stay, fun _ ↦ ?_⟩
  have hs : (st.put i s).handles i = s := Function.update_self _ _ _
  have howns : st.Owns i → (st.put i s).Owns i := by
    rintro ⟨p, f, hp, hf⟩
    refine ⟨p, f, ?_, hf⟩
    rw [hs, LockHandle.path, hdir]
    exact hp
  constructor
  · rw [hs, hlock]
    exact fun h ↦ howns (hgood.held h)
  · rw [hs, hlock]
    exact fun h ↦ ⟨(hgood.making (hmaking h)).1, howns (hgood.making (hmaking h)).2⟩
  · rw [hs]
    exact hunlinking

/-- A handle that has no lock any more. -/
theorem LockSys.Stepped.of_zero {s : LockHandle} {files' : CStr → Option LockFile}
    (h : st.Touches i files') (hlock : s.lock = 0) (hpc : ¬ s.pc.Making ∧ ¬ s.pc.Unlinking) :
    st.Stepped i ⟨files', Function.update st.handles i s⟩ := by
  have hs : (LockSys.mk files' (Function.update st.handles i s)).handles i = s :=
    Function.update_self _ _ _
  refine ⟨files', s, rfl, h, fun _ ↦ .of_zero ?_ ?_ ?_⟩
  · rw [hs]
    exact hlock
  · rw [hs]
    exact hpc.1
  · rw [hs]
    exact hpc.2

/-- A handle whose file is there. -/
theorem LockSys.Stepped.of_owns {s : LockHandle} {files' : CStr → Option LockFile} {p : CStr}
    {f : LockFile} (h : st.Touches i files') (hdir : sdbLockFile s.dir = some p)
    (hf : files' p = some f) (hi : f.owner = some i) (hpc : s.pc.Making → s.lock = 0)
    (hunlinking : ¬ s.pc.Unlinking) :
    st.Stepped i ⟨files', Function.update st.handles i s⟩ := by
  have hs : (LockSys.mk files' (Function.update st.handles i s)).handles i = s :=
    Function.update_self _ _ _
  have howns : (LockSys.mk files' (Function.update st.handles i s)).Owns i := by
    refine ⟨p, f, ?_, hf, hi⟩
    rw [hs]
    exact hdir
  refine ⟨files', s, rfl, h, fun _ ↦ ⟨fun _ ↦ howns, ?_, ?_⟩⟩
  · rw [hs]
    exact fun hmaking ↦ ⟨hpc hmaking, howns⟩
  · rw [hs]
    exact fun h ↦ absurd h hunlinking

/-- The beginning of a call. -/
theorem LockSys.Stepped.of_call (hgood : st.Good i) (hpc : (st.handles i).pc = .idle) (c : LockCall)
    (hok : ∀ d, c = .dir d → (st.handles i).lock = 0 ∨ d = (st.handles i).dir) :
    st.Stepped i (st.put i (c.run (st.handles i))) := by
  have hunlock : ∀ next : LockNext, st.Stepped i (st.put i (sdbUnlockDb (st.handles i) next)) := by
    intro next
    rw [sdbUnlockDb]
    split
    · next h => exact .of_stay hgood rfl rfl False.elim fun _ ↦ h.1
    · obtain ⟨hlock, hpc⟩ := next.resume_spec { st.handles i with lock := 0 }
      exact .of_zero .stay hlock hpc
  cases c with
  | lockDb mode =>
      obtain ⟨hlock, hdir, hmaking, hunlinking⟩ := sdbLockDb_spec (st.handles i) mode
      exact .of_stay hgood hlock hdir (fun h ↦ absurd h hmaking) fun h ↦ absurd h hunlinking
  | unlockDb => exact hunlock .done
  | file d => exact hunlock (.file d (st.handles i).lock)
  | dir d =>
      have hmaking : ¬ (st.handles i).pc.Making := by
        rw [hpc]
        exact id
      have hunlinking : ¬ (st.handles i).pc.Unlinking := by
        rw [hpc]
        exact id
      rcases hok d rfl with hlock | rfl
      · exact .of_zero .stay hlock ⟨hmaking, hunlinking⟩
      · exact .of_stay hgood rfl rfl (fun h ↦ absurd h hmaking) fun h ↦ absurd h hunlinking

/-- `open` in `sdb_lock`: whoever makes the file has no lock, since the file would be there. -/
theorem LockSys.Stepped.of_open (hgood : st.Good i) {mode : Int}
    (hpc : (st.handles i).pc = .open mode) {p : CStr} (hp : (st.handles i).path = some p)
    (ok : Bool) : st.Stepped i (st.open i mode p ok) := by
  have hstay : st.Stepped i (st.put i { st.handles i with pc := .idle }) :=
    .of_stay hgood rfl rfl False.elim False.elim
  have hsame : st.Stepped i (st.put i (st.handles i)) := by
    refine .of_stay hgood rfl rfl id ?_
    rw [hpc]
    exact False.elim
  cases ok with
  | false => exact hstay
  | true =>
      unfold LockSys.open
      cases hf : st.files p with
      | some f =>
          dsimp only
          split
          · rwa [LockSys.put, Function.update_eq_self] at hsame
          · exact hstay
      | none =>
          refine .of_owns (.make hf) hp (Function.update_self _ _ _) rfl (fun _ ↦ ?_) id
          by_contra hlock
          obtain ⟨q, f, hq, hqf, -⟩ := hgood.held hlock
          cases hp.symm.trans hq
          cases hf.symm.trans hqf

/-- Bytes are written to the file that the handle has made. -/
theorem LockSys.Stepped.of_append (howns : st.Owns i) {p : CStr} (hp : (st.handles i).path = some p)
    (bs : Bytes) {s : LockHandle} (hdir : s.dir = (st.handles i).dir)
    (hpc : s.pc.Making → s.lock = 0) (hunlinking : ¬ s.pc.Unlinking) :
    st.Stepped i ((st.append p bs).put i s) := by
  obtain ⟨q, f, hq, hf, hi⟩ := howns
  cases hp.symm.trans hq
  have hfiles : (st.append p bs).files =
      Function.update st.files p (some { f with text := f.text ++ bs }) := by
    rw [LockSys.append, hf]
    rfl
  have hput : (st.append p bs).put i s = ⟨(st.append p bs).files, Function.update st.handles i s⟩ :=
    rfl
  rw [hput, hfiles]
  refine .of_owns (.write hf hi rfl) ?_ (Function.update_self _ _ _) hi hpc hunlinking
  rw [hdir]
  exact hp

/-- The file that the handle has made is removed, or that fails. -/
theorem LockSys.Stepped.of_unlink (howns : st.Owns i) {p : CStr} (hp : (st.handles i).path = some p)
    (ok : Bool) {s : LockHandle} (hlock : s.lock = 0) (hpc : ¬ s.pc.Making ∧ ¬ s.pc.Unlinking) :
    st.Stepped i ((st.unlink p ok).put i s) := by
  obtain ⟨q, f, hq, hf, hi⟩ := howns
  cases hp.symm.trans hq
  cases ok with
  | false => exact .of_zero .stay hlock hpc
  | true => exact .of_zero (.remove hf hi) hlock hpc

/-- Every step of a good handle. -/
theorem LockSys.Good.stepped {e : LockEvent} (hgood : st.Good i) (hok : st.Allowed (i, e))
    (h : st.step (i, e) = some st') : st.Stepped i st' := by
  have hmaking {pc : LockPc} (hpc : (st.handles i).pc = pc) (hm : pc.Making) :
      st.Owns i ∧ (st.handles i).lock = 0 := by
    rw [← hpc] at hm
    exact (hgood.making hm).symm
  have hundo {pc : LockPc} (hpc : (st.handles i).pc = pc) (hm : pc.Making) :
      st.Stepped i (st.put i { st.handles i with pc := .undo }) := by
    rw [← hpc] at hm
    exact .of_stay hgood rfl rfl (fun _ ↦ hm) False.elim
  unfold LockSys.step at h
  dsimp only at h
  split at h
  · cases h
  · cases h
    exact ⟨st.files, _, rfl, .stay, fun h ↦ absurd rfl h⟩
  · next c hpc =>
      cases h
      exact .of_call hgood hpc c fun d hd ↦ hok d (congrArg LockEvent.call hd)
  · next mode ok p hpc hp =>
      cases h
      exact .of_open hgood hpc hp ok
  · next mode n p hpc hp =>
      cases h
      obtain ⟨howns, hlock⟩ := hmaking hpc trivial
      exact .of_append howns hp _ rfl (fun _ ↦ hlock) id
  · next mode n p hpc hp =>
      cases h
      obtain ⟨howns, -⟩ := hmaking hpc trivial
      exact .of_append howns hp _ rfl False.elim id
  · next mode hpc =>
      cases h
      exact hundo hpc trivial
  · next mode hpc =>
      cases h
      exact hundo hpc trivial
  · next ok p hpc hp =>
      cases h
      obtain ⟨howns, hlock⟩ := hmaking hpc trivial
      exact .of_unlink howns hp ok hlock ⟨id, id⟩
  · next rest ok p hpc hp =>
      cases h
      obtain ⟨hlock, hrest⟩ := rest.resume_spec { st.handles i with lock := 0 }
      have hunlinking : (st.handles i).pc.Unlinking := by
        rw [hpc]
        exact trivial
      exact .of_unlink (hgood.held (hgood.unlinking hunlinking)) hp ok hlock hrest
  · cases h

end Step

/-! ## Runs -/

section Runs

variable {st st' : LockSys} {e : Nat × LockEvent} {i j : Nat} {p : CStr}

theorem LockSys.Start.inv (h : st.Start) : st.Inv := by
  intro i _
  have hpc : ¬ (st.handles i).pc.Making ∧ ¬ (st.handles i).pc.Unlinking := by
    rw [(h.idle i).1]
    exact ⟨id, id⟩
  exact .of_zero (h.idle i).2 hpc.1 hpc.2

/-- A step is a step of a handle that has not crashed. -/
theorem LockSys.not_gone (h : st.step e = some st') : (st.handles e.1).pc ≠ .gone := by
  intro hpc
  unfold LockSys.step at h
  dsimp only at h
  rw [hpc] at h
  cases h

/-- Another handle keeps its file. -/
theorem LockSys.Owns.other (howns : st.Owns j) (h : st.Touches i st'.files) (hj : j ≠ i)
    (hhandle : st'.handles j = st.handles j) : st'.Owns j := by
  obtain ⟨p, f, hp, hf, hfj⟩ := howns
  refine ⟨p, f, ?_, h.file hf ?_, hfj⟩
  · rw [hhandle]
    exact hp
  · rw [hfj]
    exact fun h ↦ hj (Option.some.inj h)

theorem LockSys.Good.other (hgood : st.Good j) (h : st.Touches i st'.files) (hj : j ≠ i)
    (hhandle : st'.handles j = st.handles j) : st'.Good j := by
  constructor
  · rw [hhandle]
    exact fun hheld ↦ (hgood.held hheld).other h hj hhandle
  · rw [hhandle]
    exact fun hmaking ↦ ⟨(hgood.making hmaking).1, (hgood.making hmaking).2.other h hj hhandle⟩
  · rw [hhandle]
    exact hgood.unlinking

/-- What a step does to the files and to the handle. -/
theorem LockSys.Inv.stepped (hinv : st.Inv) (hok : st.Allowed e) (h : st.step e = some st') :
    st.Stepped e.1 st' := (hinv e.1 (LockSys.not_gone h)).stepped hok h

theorem LockSys.Stepped.touches (h : st.Stepped i st') : st.Touches i st'.files := by
  obtain ⟨files', s', rfl, htouches, -⟩ := h
  exact htouches

theorem LockSys.Stepped.handle (h : st.Stepped i st') (hj : j ≠ i) :
    st'.handles j = st.handles j := by
  obtain ⟨files', s', rfl, -⟩ := h
  exact Function.update_of_ne hj _ _

theorem LockSys.Stepped.good (h : st.Stepped i st') (hgone : (st'.handles i).pc ≠ .gone) :
    st'.Good i := by
  obtain ⟨files', s', rfl, -, hgood⟩ := h
  have hs : (LockSys.mk files' (Function.update st.handles i s')).handles i = s' :=
    Function.update_self _ _ _
  rw [hs] at hgone
  exact hgood hgone

/-- The invariant is kept by a step. -/
theorem LockSys.Inv.step (hinv : st.Inv) (hok : st.Allowed e) (h : st.step e = some st') :
    st'.Inv := by
  intro j hgone
  have hstep := hinv.stepped hok h
  rcases eq_or_ne j e.1 with rfl | hj
  · exact hstep.good hgone
  · have hhandle := hstep.handle hj
    rw [hhandle] at hgone
    exact (hinv j hgone).other hstep.touches hj hhandle

/-- The invariant holds in every run. -/
theorem LockSys.Start.runs (hstart : st.Start) (h : Runs LockSys.step LockSys.Allowed st st') :
    st'.Inv :=
  h.keeps (fun _ _ _ hinv hok hstep ↦ hinv.step hok hstep) hstart.inv

/-- A handle that holds its lock is the only one with that lock file that does. -/
theorem LockSys.Inv.exclusive (hinv : st.Inv) (hi : st.Holds i) :
    ∃ p f, (st.handles i).path = some p ∧ st.files p = some f ∧ f.owner = some i ∧
      ∀ j, st.Holds j → (st.handles j).path = some p → j = i := by
  obtain ⟨p, f, hp, hf, hfi⟩ := (hinv i hi.1).held hi.2
  refine ⟨p, f, hp, hf, hfi, fun j hj hpj ↦ ?_⟩
  obtain ⟨q, g, hq, hg, hgj⟩ := (hinv j hj.1).held hj.2
  cases hpj.symm.trans hq
  cases hf.symm.trans hg
  exact Option.some.inj (hgj.symm.trans hfi)

/-- Mutual exclusion: the lock file of a handle that holds its lock is there, the handle has made
it, and no other handle holds a lock with the same file. -/
theorem lock_exclusive (hstart : st.Start) (h : Runs LockSys.step LockSys.Allowed st st')
    (hi : st'.Holds i) :
    ∃ p f, (st'.handles i).path = some p ∧ st'.files p = some f ∧ f.owner = some i ∧
      ∀ j, st'.Holds j → (st'.handles j).path = some p → j = i :=
  (hstart.runs h).exclusive hi

/-- Handles that have one database, in as many processes. -/
def LockSys.fresh (dir : CStr) : LockSys := ⟨fun _ ↦ none, fun i ↦ ⟨some dir, 0, i, .idle⟩⟩

theorem LockSys.start_fresh (dir : CStr) : (LockSys.fresh dir).Start := ⟨fun _ ↦ ⟨rfl, rfl⟩, nofun⟩

/-- Two handles take the lock, and the first one gets it. -/
theorem lock_exclusive_two :
    ∃ st', Runs LockSys.step LockSys.Allowed (.fresh (CStr.ofBytes [97])) st' ∧ st'.Holds 0 ∧
      (st'.handles 1).lock = 0 ∧
    ∀ j, st'.Holds j → (st'.handles j).path = some (CStr.ofBytes [97, 46, 108, 111, 99, 107]) →
      j = 0 := by
  have hrun : Runs LockSys.step LockSys.Allowed (.fresh (CStr.ofBytes [97])) _ := runs_of_exec
    (show exec LockSys.step LockSys.Allowed
      [(0, .call (.lockDb 2)), (1, .call (.lockDb 1)), (0, .open true), (0, .write (some 1)),
      (1, .open true), (0, .write (some 1))] _ = some _ from rfl)
  refine ⟨_, hrun, ⟨nofun, by decide⟩, rfl, ?_⟩
  obtain ⟨p, f, hp, -, -, h⟩ :=
    lock_exclusive (LockSys.start_fresh _) hrun (i := 0) ⟨nofun, by decide⟩
  cases hp
  exact h

/-- A file that nobody has made who could remove it. -/
structure LockSys.Stale (st : LockSys) (p : CStr) (f : LockFile) : Prop where
  file : st.files p = some f
  owner : ∀ i, f.owner = some i → (st.handles i).pc = .gone

theorem LockSys.Stale.step {f : LockFile} (hstale : st.Stale p f) (hinv : st.Inv)
    (hok : st.Allowed e) (h : st.step e = some st') : st'.Stale p f := by
  have hstep := hinv.stepped hok h
  have hne : ∀ i, f.owner = some i → i ≠ e.1 := by
    rintro i hi rfl
    exact LockSys.not_gone h (hstale.owner _ hi)
  constructor
  · exact hstep.touches.file hstale.file fun hi ↦ hne _ hi rfl
  · intro i hi
    rw [hstep.handle (hne i hi)]
    exact hstale.owner i hi

/-- A lock file that was left behind by a crash, or that was there before, stays whatever is done,
and nobody gets a lock with it any more. -/
theorem lock_stale (hstart : st.Start) (h : Runs LockSys.step LockSys.Allowed st st')
    {st'' : LockSys} {f : LockFile} (hstale : st'.Stale p f)
    (h' : Runs LockSys.step LockSys.Allowed st' st'') :
    st''.Stale p f ∧ ∀ i, st''.Holds i → (st''.handles i).path ≠ some p := by
  obtain ⟨hinv, hstale⟩ := h'.keeps (P := fun s ↦ s.Inv ∧ s.Stale p f)
    (fun _ _ _ hs hok hstep ↦ ⟨hs.1.step hok hstep, hs.2.step hs.1 hok hstep⟩)
      ⟨hstart.runs h, hstale⟩
  refine ⟨hstale, fun i hi hp ↦ ?_⟩
  obtain ⟨q, g, hq, hg, hgi⟩ := (hinv i hi.1).held hi.2
  cases hp.symm.trans hq
  cases hstale.file.symm.trans hg
  exact hi.1 (hstale.owner i hgi)

/-- The first of two handles crashes before it has written anything, and the second one does not get
the lock. -/
theorem lock_stale_crash :
    ∃ st' st'', Runs LockSys.step LockSys.Allowed (.fresh (CStr.ofBytes [97])) st' ∧
      Runs LockSys.step LockSys.Allowed st' st'' ∧ ∀ i, st''.Holds i →
        (st''.handles i).path ≠ some (CStr.ofBytes [97, 46, 108, 111, 99, 107]) := by
  have hrun : Runs LockSys.step LockSys.Allowed (.fresh (CStr.ofBytes [97])) _ := runs_of_exec
    (show exec LockSys.step LockSys.Allowed
      [(0, .call (.lockDb 2)), (0, .open true), (0, .crash)] _ = some _ from rfl)
  have hrest {st' st'' : LockSys} (h : exec LockSys.step LockSys.Allowed
      [(1, .call (.lockDb 1)), (1, .open true)] st' = some st'') :
        Runs LockSys.step LockSys.Allowed st' st'' :=
    runs_of_exec h
  refine ⟨_, _, hrun, hrest rfl, ?_⟩
  refine (lock_stale (LockSys.start_fresh _) hrun (f := ⟨[], some 0⟩) ⟨rfl, ?_⟩ (hrest rfl)).2
  rintro _ ⟨⟩
  rfl

end Runs

end SdbStore
