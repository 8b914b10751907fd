import SdbStore.Disk

/-!
# Writing a database to its file

`sdb_sync` writes a new file beside the old one and puts it in its place.  The new
file holds the records of the old one, each with the value that memory has for its
key, and then the keys that are in memory only.  Keys that were written from memory
are taken out of the table once the new file is in place.

`syncRecords` is the list of these records as a function of the database; `sdbSync`
is the code, system call by system call.
-/

namespace SdbStore

open Lib

/-- `SdbSync`: the file that is written, and the keys that go out of memory with it. -/
structure SdbSync where
  m : CdbMake
  persisted : List CStr

/-- `_insert_into_disk`; `sdb_disk_insert` refuses `NULL`. -/
def insertIntoDisk (sync : SdbSync) (key : CStr) (value : Option CStr) : Io SdbSync :=
  if key ∈ sync.persisted then pure sync
  else match value with
    | none => throw .refused
    | some v => do
        let m ← cdbMakeAdd sync.m key v.val
        return { sync with m := m }

/-- `_mark_persisted`. -/
def markPersisted (sync : SdbSync) (key : CStr) : SdbSync :=
  if key ∈ sync.persisted then sync else { sync with persisted := sync.persisted ++ [key] }

/-- One round of `sdb_foreach_cdb` with the callbacks of `sdb_sync`. -/
def syncCdbStep (s : Sdb) (sync : SdbSync) (d : Dumped) : Io SdbSync :=
  match sdbHtFindKvp s d.key with
  | none => insertIntoDisk sync d.key (d.value.map CStr.ofBytes)
  | some kv =>
      match kv.value with
      | none => pure sync
      | some v => do
          let sync ← insertIntoDisk sync kv.key (some v)
          return markPersisted sync d.key

/-- One entry of the loop of `sdb_sync` over the memory table. -/
def syncMemStep (sync : SdbSync) (kv : SdbKv) : Io SdbSync :=
  match kv.value with
  | none => pure sync
  | some v =>
      if v ≠ CStr.empty ∧ kv.expire = 0 ∧ kv.key ∉ sync.persisted then do
        let m ← cdbMakeAdd sync.m kv.key v.val
        return markPersisted { sync with m := m } kv.key
      else pure sync

/-- `sdb_sync` from `cdb_make_start` to the `close` of `sdb_disk_finish`. -/
def syncWrite (s : Sdb) (tmp : CStr) : Io (List CStr) := do
  let m ← cdbMakeStart tmp
  let sync ← s.scan.foldlM (syncCdbStep s) ⟨m, []⟩
  let sync ← s.ht.toList.foldlM syncMemStep sync
  if s.dir = none then throw .refused
  cdbMakeFinish sync.m
  tmpFlush
  tmpFlush
  return sync.persisted

/-- `close_current_database`. -/
def closeCurrentDatabase (s : Sdb) : Sdb :=
  { s with fd := none, db := { s.db with map := none, fd := none } }

/-- `_remove_persisted` for each of the keys. -/
def removePersisted (ht : Ht SdbKv) (keys : List CStr) : Ht SdbKv :=
  keys.foldl (fun ht k ↦ (htDelete sdbHtOpt ht k).2) ht

/-- The temporary file of a database. -/
def tmpPath (dir : CStr) : CStr := dir ++ CStr.ofBytes [46, 116, 109, 112]

/-- `sdb_disk_create` takes the name for the path of a database that has none. -/
def syncDir (s : Sdb) : Sdb := if s.dir = none then { s with dir := s.name } else s

/-- The path that a database is written to. -/
def Sdb.target (s : Sdb) : CStr := (syncDir s).dir.getD (CStr.ofBytes [46, 47])

/-- `sdb_sync`, with `sdb_disk_create`, `sdb_disk_finish` and `sdb_disk_abort`. -/
def sdbSync (s : Sdb) (w : World) : Bool × Sdb × World :=
  let dir := s.target
  let tmp := tmpPath dir
  let s := syncDir s
  match tmpOpen tmp w with
  | .error _ w => (false, s, w)
  | .ok _ w =>
      match syncWrite s tmp w with
      | .error _ w => (false, s, w.setFile tmp none)
      | .ok persisted w =>
          let s := closeCurrentDatabase s
          match tmpRename tmp dir w with
          | .error _ w => (false, (sdbOpen s (w.setFile tmp none) dir).2)
          | .ok _ w =>
              let r := sdbOpen s w dir
              if r.1 then
                (true, { r.2.1 with ht := removePersisted r.2.1.ht persisted },
                  sdbJournalClear r.2.1 r.2.2)
              else (false, r.2)

/-- The ways in which `sdb_sync` can end. -/
inductive Synced (s : Sdb) (w : World) : Bool × Sdb × World → Prop
  /-- The temporary file could not be created. -/
  | noCreate {w₁ : World} {e : Stop} (hopen : tmpOpen (tmpPath s.target) w = .error e w₁) :
      Synced s w (false, syncDir s, w₁)
  /-- The temporary file could not be written, and is removed. -/
  | noWrite {w₁ w₂ : World} {e : Stop} (hopen : tmpOpen (tmpPath s.target) w = .ok () w₁)
      (hwrite : syncWrite (syncDir s) (tmpPath s.target) w₁ = .error e w₂) :
      Synced s w (false, syncDir s, w₂.setFile (tmpPath s.target) none)
  /-- The temporary file could not be renamed; the old file is opened again. -/
  | noRename {w₁ w₂ w₃ : World} {per : List CStr} {e : Stop}
      (hopen : tmpOpen (tmpPath s.target) w = .ok () w₁)
      (hwrite : syncWrite (syncDir s) (tmpPath s.target) w₁ = .ok per w₂)
      (hrename : tmpRename (tmpPath s.target) s.target w₂ = .error e w₃) :
      Synced s w (false, (sdbOpen (closeCurrentDatabase (syncDir s))
        (w₃.setFile (tmpPath s.target) none) s.target).2)
  /-- The new file is in place but is not opened as a database. -/
  | noReopen {w₁ w₂ w₃ : World} {per : List CStr} {r : Bool × Sdb × World}
      (hopen : tmpOpen (tmpPath s.target) w = .ok () w₁)
      (hwrite : syncWrite (syncDir s) (tmpPath s.target) w₁ = .ok per w₂)
      (hrename : tmpRename (tmpPath s.target) s.target w₂ = .ok () w₃)
      (hr : r = sdbOpen (closeCurrentDatabase (syncDir s)) w₃ s.target) (hret : r.1 = false) :
      Synced s w (false, r.2)
  /-- The new file is in place and open. -/
  | done {w₁ w₂ w₃ : World} {per : List CStr} {r : Bool × Sdb × World}
      (hopen : tmpOpen (tmpPath s.target) w = .ok () w₁)
      (hwrite : syncWrite (syncDir s) (tmpPath s.target) w₁ = .ok per w₂)
      (hrename : tmpRename (tmpPath s.target) s.target w₂ = .ok () w₃)
      (hr : r = sdbOpen (closeCurrentDatabase (syncDir s)) w₃ s.target) (hret : r.1 = true) :
      Synced s w (true, { r.2.1 with ht := removePersisted r.2.1.ht per },
        sdbJournalClear r.2.1 r.2.2)

theorem sdbSync_synced (s : Sdb) (w : World) : Synced s w (sdbSync s w) := by
  rw [sdbSync]
  dsimp only
  cases hopen : tmpOpen (tmpPath s.target) w with
  | error e w₁ => exact .noCreate hopen
  | ok u w₁ =>
      dsimp only
      cases hwrite : syncWrite (syncDir s) (tmpPath s.target) w₁ with
      | error e w₂ => exact .noWrite hopen hwrite
      | ok per w₂ =>
          dsimp only
          cases hrename : tmpRename (tmpPath s.target) s.target w₂ with
          | error e w₃ => exact .noRename hopen hwrite hrename
          | ok u w₃ =>
              dsimp only
              split
              · next hret => exact .done hopen hwrite hrename rfl hret
              · next hret => exact .noReopen hopen hwrite hrename rfl (by simpa using hret)

/-! ## The plan of a sync

The records that are written, and the keys that leave memory with them, as a function of
the database alone. -/

/-- Records to write, and the keys that have been taken from memory so far. -/
abbrev Plan := List KvRec × List CStr

/-- One record of the scan: what is written for it.  A value that is too long to be
read cannot be written. -/
def cdbPlan (s : Sdb) (seen : List CStr) (d : Dumped) : Option Plan :=
  match sdbHtFindKvp s d.key with
  | none =>
      if d.key ∈ seen then some ([], seen)
      else d.value.map fun v ↦ ([(d.key, CStr.ofBytes v)], seen)
  | some kv =>
      match kv.value with
      | none => some ([], seen)
      | some v =>
          if d.key ∈ seen then some ([], seen) else some ([(d.key, v)], seen ++ [d.key])

/-- One entry of the memory table. -/
def memPlan (seen : List CStr) (kv : SdbKv) : Option Plan :=
  match kv.value with
  | none => some ([], seen)
  | some v =>
      if v ≠ CStr.empty ∧ kv.expire = 0 ∧ kv.key ∉ seen then
        some ([(kv.key, v)], seen ++ [kv.key])
      else some ([], seen)

/-- A pass over a list. -/
def planLoop {α : Type} (f : List CStr → α → Option Plan) : List CStr → List α → Option Plan
  | seen, [] => some ([], seen)
  | seen, a :: l => do
      let p ← f seen a
      let q ← planLoop f p.2 l
      return (p.1 ++ q.1, q.2)

/-- The records of the file that `sdb_sync` writes, and the keys it removes from
memory. -/
def syncPlan (s : Sdb) : Option Plan := do
  let p ← planLoop (cdbPlan s) [] s.scan
  let q ← planLoop memPlan p.2 s.ht.toList
  return (p.1 ++ q.1, q.2)

/-- Records that `cdb_make_add` accepts one after another. -/
structure Addable (recs : List KvRec) : Prop where
  fits : ∀ r ∈ recs, r.raw.Fits
  size : cdbFinalSize + (cdbBody (recs.map KvRec.raw)).length < 4294967296

theorem Addable.left {recs recs' : List KvRec} (h : Addable (recs ++ recs')) : Addable recs := by
  refine ⟨fun r hr ↦ h.fits r (List.mem_append_left _ hr), ?_⟩
  have hsize := h.size
  rw [List.map_append, cdbBody_append, List.length_append] at hsize
  omega

/-- Adding to the file of `recs` what `o` says: it is added, or a system call fails, or
it cannot be added. -/
def Writes (tmp : CStr) (recs : List KvRec) (o : Option Plan) :
    EStateM.Result Stop World SdbSync → Prop :=
  Ends (fun sync w ↦ ∃ p, o = some p ∧ sync.persisted = p.2 ∧
      Made tmp ((recs ++ p.1).map KvRec.raw) sync.m w)
    fun e ↦ e = .fault ∨ e = .refused ∧ ∀ p, o = some p → ¬ Addable (recs ++ p.1)

section Writes

variable {tmp : CStr} {recs : List KvRec} {sync : SdbSync} {w : World}

theorem Writes.skip (h : Made tmp (recs.map KvRec.raw) sync.m w) :
    Writes tmp recs (some ([], sync.persisted)) ((pure sync : Io SdbSync) w) := by
  refine ⟨_, rfl, rfl, ?_⟩
  rwa [List.append_nil]

theorem Writes.add (h : Made tmp (recs.map KvRec.raw) sync.m w) (r : KvRec)
    {f : CdbMake → SdbSync} {seen : List CStr} (hf : ∀ m, f m = ⟨m, seen⟩) :
    Writes tmp recs (some ([r], seen))
      ((do let m ← cdbMakeAdd sync.m r.1 r.2.val; return f m : Io SdbSync) w) := by
  refine Ends.bind (Q := Made tmp (recs.map KvRec.raw ++ [r.raw])) ?_ fun m w' hm ↦ ?_
  · refine (h.add r.raw).mono (fun _ _ hm ↦ hm) ?_
    rintro e (he | ⟨he, hno⟩)
    · exact .inl he
    · refine .inr ⟨he, fun p hp hadd ↦ hno ?_⟩
      cases hp
      refine ⟨hadd.fits r (by simp), ?_⟩
      have hsize := hadd.size
      rwa [List.map_append] at hsize
  · refine ⟨_, rfl, ?_, ?_⟩
    · rw [hf]
    · rw [hf, List.map_append]
      exact hm

/-- A pass writes what its plan says when every round does. -/
theorem Writes.loop {α : Type} {f : List CStr → α → Option Plan} {g : SdbSync → α → Io SdbSync}
    (hstep : ∀ a sync w recs, Made tmp (recs.map KvRec.raw) sync.m w →
      Writes tmp recs (f sync.persisted a) (g sync a w)) (l : List α)
    (h : Made tmp (recs.map KvRec.raw) sync.m w) :
    Writes tmp recs (planLoop f sync.persisted l) (l.foldlM g sync w) := by
  induction l generalizing recs sync w with
  | nil => exact Writes.skip h
  | cons a l ih =>
      rw [List.foldlM_cons, planLoop]
      refine Ends.bind ((hstep a sync w recs h).mono (fun _ _ hp ↦ hp) ?_) ?_
      · rintro e (he | ⟨he, hno⟩)
        · exact .inl he
        · refine .inr ⟨he, fun p hp hadd ↦ ?_⟩
          obtain ⟨p₁, hp₁, hp⟩ := Option.bind_eq_some_iff.mp hp
          obtain ⟨p₂, -, hp⟩ := Option.bind_eq_some_iff.mp hp
          cases hp
          rw [← List.append_assoc] at hadd
          exact hno p₁ hp₁ hadd.left
      · rintro sync' w' ⟨p, hp, hseen, hmade⟩
        have hrest := ih hmade
        rw [hseen] at hrest
        refine hrest.mono ?_ ?_
        · rintro sync'' w'' ⟨q, hq, hseen', hmade'⟩
          refine ⟨(p.1 ++ q.1, q.2), ?_, hseen', ?_⟩
          · rw [hp, Option.bind_eq_bind, Option.bind_some, hq]
            rfl
          · rwa [← List.append_assoc]
        · rintro e (he | ⟨he, hno⟩)
          · exact .inl he
          · refine .inr ⟨he, fun p' hp' hadd ↦ ?_⟩
            rw [hp, Option.bind_eq_bind, Option.bind_some] at hp'
            obtain ⟨q, hq, hp'⟩ := Option.bind_eq_some_iff.mp hp'
            cases hp'
            rw [← List.append_assoc] at hadd
            exact hno q hq hadd

theorem markPersisted_of_not_mem {m : CdbMake} {seen : List CStr} {key : CStr} (h : key ∉ seen) :
    markPersisted ⟨m, seen⟩ key = ⟨m, seen ++ [key]⟩ := by
  rw [markPersisted, if_neg h]

theorem syncCdbStep_writes {s : Sdb} (hw : s.WF) (d : Dumped)
    (h : Made tmp (recs.map KvRec.raw) sync.m w) :
    Writes tmp recs (cdbPlan s sync.persisted d) (syncCdbStep s sync d w) := by
  unfold syncCdbStep cdbPlan
  cases hf : sdbHtFindKvp s d.key with
  | none =>
      dsimp only
      unfold insertIntoDisk
      split
      · exact Writes.skip h
      · cases hv : d.value with
        | none => exact .inr ⟨rfl, fun p hp ↦ nomatch hp⟩
        | some v => exact Writes.add h (d.key, CStr.ofBytes v) fun _ ↦ rfl
  | some kv =>
      obtain ⟨-, hkey⟩ := key_of_sdbHtFindKvp hw hf
      dsimp only
      cases hv : kv.value with
      | none => exact Writes.skip h
      | some v =>
          dsimp only
          unfold insertIntoDisk
          rw [hkey]
          split
          · next hseen =>
              rw [pure_bind, markPersisted, if_pos hseen]
              exact Writes.skip h
          · next hseen =>
              dsimp only
              rw [bind_assoc]
              simp only [pure_bind]
              exact Writes.add h (d.key, v) fun m ↦ markPersisted_of_not_mem hseen

theorem syncMemStep_writes (kv : SdbKv) (h : Made tmp (recs.map KvRec.raw) sync.m w) :
    Writes tmp recs (memPlan sync.persisted kv) (syncMemStep sync kv w) := by
  unfold syncMemStep memPlan
  cases hv : kv.value with
  | none => exact Writes.skip h
  | some v =>
      dsimp only
      split
      · next hc => exact Writes.add h (kv.key, v) fun m ↦ markPersisted_of_not_mem hc.2.2
      · exact Writes.skip h

end Writes

/-- The plan can be carried out. -/
structure Writable (s : Sdb) (p : Plan) : Prop where
  plan : syncPlan s = some p
  dir : s.dir ≠ none
  fitting : KvFitting p.1
  room : cdbRoom (p.1.map KvRec.raw)

theorem KvFitting.addable {recs : List KvRec} (h : KvFitting recs) : Addable recs := by
  refine ⟨fun r hr ↦ h.fits r.raw (List.mem_map_of_mem hr), ?_⟩
  exact Nat.lt_of_le_of_lt (length_cdbBody_le _) h.size

/-- **The new file** is the image of the plan, unless a system call fails or the plan
cannot be carried out. -/
theorem syncWrite_ends {s : Sdb} (hw : s.WF) {tmp : CStr} {w : World} (htmp : w.fs tmp = some []) :
    Ends (fun per w' ↦ ∃ p, Writable s p ∧ per = p.2 ∧ w'.fs tmp = some (kvImage p.1))
      (fun e ↦ e = .fault ∨ e = .refused ∧ ∀ p, ¬ Writable s p) (syncWrite s tmp w) := by
  unfold syncWrite
  refine Ends.bind ((made_start htmp).mono (fun _ _ h ↦ h) fun _ he ↦ .inl he) fun m w₁ h₁ ↦ ?_
  have hcdb : Writes tmp [] (planLoop (cdbPlan s) [] s.scan)
      (s.scan.foldlM (syncCdbStep s) ⟨m, []⟩ w₁) :=
    Writes.loop (fun d sync w recs h ↦ syncCdbStep_writes hw d h) s.scan h₁
  refine Ends.bind (hcdb.mono (fun _ _ h ↦ h) ?_) ?_
  · rintro e (he | ⟨he, hno⟩)
    · exact .inl he
    · refine .inr ⟨he, fun p hp ↦ ?_⟩
      obtain ⟨p₁, hp₁, hp₂⟩ := Option.bind_eq_some_iff.mp hp.plan
      obtain ⟨p₂, -, hp₃⟩ := Option.bind_eq_some_iff.mp hp₂
      cases hp₃
      exact hno p₁ hp₁ hp.fitting.addable.left
  rintro sync₁ w₂ ⟨p₁, hp₁, hseen₁, hmade₁⟩
  have hmem := Writes.loop (f := memPlan) (g := syncMemStep)
    (fun kv sync w recs h ↦ syncMemStep_writes kv h) s.ht.toList hmade₁
  rw [hseen₁] at hmem
  have hplan : syncPlan s = (planLoop memPlan p₁.2 s.ht.toList).map fun q ↦
      (p₁.1 ++ q.1, q.2) := by
    rw [syncPlan, hp₁, Option.bind_eq_bind, Option.bind_some]
    cases planLoop memPlan p₁.2 s.ht.toList with
    | none => rfl
    | some q => rfl
  refine Ends.bind (hmem.mono (fun _ _ h ↦ h) ?_) ?_
  · rintro e (he | ⟨he, hno⟩)
    · exact .inl he
    · refine .inr ⟨he, fun p hp ↦ ?_⟩
      have hp' := hp.plan
      rw [hplan, Option.map_eq_some_iff] at hp'
      obtain ⟨q, hq, rfl⟩ := hp'
      exact hno q hq hp.fitting.addable
  rintro sync₂ w₃ ⟨q, hq, hseen₂, hmade₂⟩
  rw [hq, Option.map_some] at hplan
  by_cases hdir : s.dir = none
  · rw [if_pos hdir]
    exact .inr ⟨rfl, fun p hp ↦ hp.dir hdir⟩
  rw [if_neg hdir, List.nil_append] at *
  refine Ends.bind (hmade₂.finish.mono (fun _ _ h ↦ h) ?_) ?_
  · rintro e (he | ⟨he, hno⟩)
    · exact .inl he
    · refine .inr ⟨he, fun p hp ↦ ?_⟩
      have hp' := hp.plan
      rw [hplan, Option.some.injEq] at hp'
      cases hp'
      exact hno ⟨hp.fitting.size, hp.room⟩
  rintro - w₄ ⟨hfile, hsize, hroom⟩
  refine Ends.bind (Q := fun _ w ↦ w.fs tmp = some (kvImage (p₁.1 ++ q.1)))
    (sysCall_ends (.inl rfl) hfile) fun _ w₅ hfile ↦ ?_
  refine Ends.bind (Q := fun _ w ↦ w.fs tmp = some (kvImage (p₁.1 ++ q.1)))
    (sysCall_ends (.inl rfl) hfile) fun _ w₆ hfile ↦ ?_
  exact ⟨(p₁.1 ++ q.1, q.2), ⟨hplan, hdir, ⟨hmade₂.fits, hsize⟩, hroom⟩, hseen₂, hfile⟩

/-! ## Faults and frames -/

theorem insertIntoDisk_failStop (sync : SdbSync) (key : CStr) (value : Option CStr) :
    FailStop Stop.fault (insertIntoDisk sync key value) := by
  unfold insertIntoDisk
  split
  · exact FailStop.pure _
  · split
    · exact FailStop.throw (by decide)
    · exact FailStop.bind (cdbMakeAdd_failStop _ _ _) fun _ ↦ FailStop.pure _

theorem syncCdbStep_failStop (s : Sdb) (sync : SdbSync) (d : Dumped) :
    FailStop Stop.fault (syncCdbStep s sync d) := by
  unfold syncCdbStep
  split
  · exact insertIntoDisk_failStop _ _ _
  · split
    · exact FailStop.pure _
    · exact FailStop.bind (insertIntoDisk_failStop _ _ _) fun _ ↦ FailStop.pure _

theorem syncMemStep_failStop (sync : SdbSync) (kv : SdbKv) :
    FailStop Stop.fault (syncMemStep sync kv) := by
  unfold syncMemStep
  split
  · exact FailStop.pure _
  · split
    · exact FailStop.bind (cdbMakeAdd_failStop _ _ _) fun _ ↦ FailStop.pure _
    · exact FailStop.pure _

theorem cdbMakeStart_failStop (fd : CStr) : FailStop Stop.fault (cdbMakeStart fd) :=
  FailStop.bind (tmpSeek_failStop _) fun _ ↦ FailStop.pure _

theorem syncWrite_failStop (s : Sdb) (tmp : CStr) : FailStop Stop.fault (syncWrite s tmp) := by
  refine FailStop.bind (cdbMakeStart_failStop tmp) fun _ ↦ ?_
  refine FailStop.bind (FailStop.foldlM (syncCdbStep_failStop s) _ _) fun _ ↦ ?_
  refine FailStop.bind (FailStop.foldlM syncMemStep_failStop _ _) fun sync ↦ ?_
  have hrest : FailStop Stop.fault (do
      cdbMakeFinish sync.m; tmpFlush; tmpFlush; return sync.persisted : Io (List CStr)) :=
    FailStop.bind (cdbMakeFinish_failStop _) fun _ ↦ FailStop.bind tmpFlush_failStop fun _ ↦
      FailStop.bind tmpFlush_failStop fun _ ↦ FailStop.pure _
  split
  · exact FailStop.throw (by decide)
  · exact hrest

theorem insertIntoDisk_moves {p : CStr} {sync : SdbSync} (h : sync.m.fd = p) (key : CStr)
    (value : Option CStr) : Moves (Touches p) (·.m.fd = p) (insertIntoDisk sync key value) := by
  unfold insertIntoDisk
  split
  · exact Moves.pure (Touches.refl p) h
  · split
    · exact Moves.throw (Touches.refl p) _
    · exact Moves.bind (Touches.trans p) (cdbMakeAdd_moves h _ _) fun _ hm ↦
        Moves.pure (Touches.refl p) hm

theorem fd_markPersisted {p : CStr} {sync : SdbSync} (h : sync.m.fd = p) (key : CStr) :
    (markPersisted sync key).m.fd = p := by
  rw [markPersisted]
  split
  · exact h
  · exact h

theorem syncCdbStep_moves {p : CStr} (s : Sdb) {sync : SdbSync} (h : sync.m.fd = p) (d : Dumped) :
    Moves (Touches p) (·.m.fd = p) (syncCdbStep s sync d) := by
  unfold syncCdbStep
  split
  · exact insertIntoDisk_moves h _ _
  · split
    · exact Moves.pure (Touches.refl p) h
    · exact Moves.bind (Touches.trans p) (insertIntoDisk_moves h _ _) fun _ hs ↦
        Moves.pure (Touches.refl p) (fd_markPersisted hs _)

theorem syncMemStep_moves {p : CStr} {sync : SdbSync} (h : sync.m.fd = p) (kv : SdbKv) :
    Moves (Touches p) (·.m.fd = p) (syncMemStep sync kv) := by
  unfold syncMemStep
  split
  · exact Moves.pure (Touches.refl p) h
  · split
    · refine Moves.bind (Touches.trans p) (cdbMakeAdd_moves h _ _) fun m hm ↦ ?_
      have hsync : ({ sync with m := m } : SdbSync).m.fd = p := hm
      exact Moves.pure (Touches.refl p) (fd_markPersisted hsync _)
    · exact Moves.pure (Touches.refl p) h

/-- Only the temporary file is touched before the rename. -/
theorem syncWrite_moves (s : Sdb) (p : CStr) :
    Moves (Touches p) (fun _ ↦ True) (syncWrite s p) := by
  refine Moves.bind (P := (·.fd = p)) (Touches.trans p) ?_ fun m hm ↦ ?_
  · exact Moves.bind (Touches.trans p) (tmpSeek_moves p _) fun _ _ ↦
      Moves.pure (Touches.refl p) rfl
  have hcdb : Moves (Touches p) (·.m.fd = p) (s.scan.foldlM (syncCdbStep s) ⟨m, []⟩) :=
    Moves.foldlM (Touches.refl p) (Touches.trans p) (fun _ d h ↦ syncCdbStep_moves s h d) _ hm
  refine Moves.bind (Touches.trans p) hcdb fun _ h ↦ ?_
  refine Moves.bind (Touches.trans p) (Moves.foldlM (Touches.refl p) (Touches.trans p)
    (fun _ kv h ↦ syncMemStep_moves h kv) _ h) fun sync hs ↦ ?_
  have hrest : Moves (Touches p) (fun _ ↦ True) (do
      cdbMakeFinish sync.m; tmpFlush; tmpFlush; return sync.persisted : Io (List CStr)) :=
    Moves.bind (Touches.trans p) (cdbMakeFinish_moves hs) fun _ _ ↦
      Moves.bind (Touches.trans p) (tmpFlush_moves p) fun _ _ ↦
      Moves.bind (Touches.trans p) (tmpFlush_moves p) fun _ _ ↦
      Moves.pure (Touches.refl p) trivial
  split
  · exact Moves.throw (Touches.refl p) _
  · exact hrest

end SdbStore
