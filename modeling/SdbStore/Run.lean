import SdbStore.Sync

/-!
# Runs

The states a database can get into: it is made by `sdb_new` on some files and then
used through the calls below, in any order and with system calls failing anywhere.
The invariant that every such state satisfies is that the memory table is well formed
and that no entry expires, since none of these calls sets a time.

The first use of it is what a write is worth: `readsBack_iff` says exactly when a value
that was set is read back.
-/

namespace SdbStore

open Lib

/-- The calls that a run is made of. -/
inductive Op where
  | set (key val : CStr) (cas : Nat)
  | unset (key : CStr) (cas : Nat)
  | sync
  | open (file : CStr)
  | reset
  | journalOpen
deriving DecidableEq

/-- One call. -/
def Op.run (op : Op) (st : Sdb × World) : Sdb × World :=
  match op with
  | .set key val cas => (sdbSet st.1 st.2 key val cas).2
  | .unset key cas => (sdbUnset st.1 st.2 key cas).2
  | .sync => (sdbSync st.1 st.2).2
  | .open file => (sdbOpen st.1 st.2 file).2
  | .reset => (sdbReset st.1, st.2)
  | .journalOpen => (sdbJournalOpen st.1 st.2).2

/-- The states reached by runs whose first state is in `start` and whose calls all
satisfy `ok` in the state before them. -/
inductive Reach (start : Sdb × World → Prop) (ok : Op → Sdb × World → Prop) :
    Sdb × World → Prop
  | start {st : Sdb × World} (h : start st) : Reach start ok st
  | step {st : Sdb × World} (op : Op) (hst : Reach start ok st) (hop : ok op st) :
      Reach start ok (op.run st)

/-- What `sdb_new` makes, on any files. -/
def Opened (st : Sdb × World) : Prop := ∃ w path name, st = sdbNew w path name

/-- The states reached by any run at all. -/
def Reachable : Sdb × World → Prop := Reach Opened fun _ _ ↦ True

/-- The rule for invariants of runs. -/
theorem Reach.induct {start : Sdb × World → Prop} {ok : Op → Sdb × World → Prop}
    {I : Sdb × World → Prop} (hstart : ∀ st, start st → I st)
    (hstep : ∀ st op, I st → ok op st → I (op.run st)) {st : Sdb × World}
    (h : Reach start ok st) : I st := by
  induction h with
  | start h => exact hstart _ h
  | step op _ hop ih => exact hstep _ op ih hop

/-! ## The memory table in every state -/

/-- The table is well formed and no entry expires. -/
structure Sdb.Sound (s : Sdb) : Prop where
  wf : s.WF
  noExpire : s.NoExpire

/-- Only the table matters. -/
theorem Sdb.Sound.of_ht {s s' : Sdb} (h : s.Sound) (hht : s'.ht = s.ht) : s'.Sound := by
  have hfind : ∀ k, sdbHtFindKvp s' k = sdbHtFindKvp s k := fun k ↦ by
    rw [sdbHtFindKvp, hht]
    rfl
  refine ⟨?_, fun k kv hk ↦ h.noExpire k kv (by rwa [hfind] at hk)⟩
  rw [Sdb.WF, hht]
  exact h.wf

theorem sound_of_htNew {s : Sdb} (hht : s.ht = htNew) : s.Sound := by
  have hwf : s.WF := by
    rw [Sdb.WF, hht]
    exact htNew_wf
  refine ⟨hwf, fun k kv hk ↦ ?_⟩
  have hmem := (key_of_sdbHtFindKvp hwf hk).1
  rw [hht, toList_htNew] at hmem
  exact absurd hmem (by simp)

theorem sdbHtFindKvp_of_htNew {s : Sdb} (hht : s.ht = htNew) (k : CStr) :
    sdbHtFindKvp s k = none := by
  rw [sdbHtFindKvp_eq (sound_of_htNew hht).wf, hht, toList_htNew]
  rfl

theorem Sdb.Sound.setInternal {s : Sdb} (h : s.Sound) (w : World) (key val : CStr) (owned : Bool)
    (cas : Nat) : (sdbSetInternal s w key val owned cas).2.1.Sound :=
  have hspec := sdbSetInternal_spec h.wf w key val owned cas
  ⟨hspec.wf, hspec.noExpire h.noExpire⟩

/-- The entries that are left after `_remove_persisted`. -/
theorem removePersisted_spec {ht : Ht SdbKv} (hw : ht.WF sdbHtOpt) (keys : List CStr) :
    (removePersisted ht keys).WF sdbHtOpt ∧
      ∀ k, Keyed.lookup SdbKv.key (removePersisted ht keys).toList k =
        if k ∈ keys then none else Keyed.lookup SdbKv.key ht.toList k := by
  induction keys generalizing ht with
  | nil => exact ⟨hw, fun k ↦ rfl⟩
  | cons key keys ih =>
      obtain ⟨hwd, hld⟩ := htDelete_spec sdbHtOpt_lawful hw key
      obtain ⟨hwf, hfind⟩ := ih hwd
      refine ⟨hwf, fun k ↦ (hfind k).trans ?_⟩
      rw [hld]
      by_cases hk : k ∈ keys
      · rw [if_pos hk, if_pos (List.mem_cons_of_mem _ hk)]
      · rw [if_neg hk]
        refine (Keyed.lookup_erase (E := SdbKv) ht.toList key k).trans ?_
        by_cases hkey : k = key
        · rw [if_pos hkey, if_pos (by rw [hkey]; exact List.mem_cons_self)]
        · rw [if_neg hkey, if_neg (by simp [hkey, hk])]

theorem sdbHtFindKvp_removePersisted {s : Sdb} (hw : s.WF) (keys : List CStr) (k : CStr) :
    sdbHtFindKvp { s with ht := removePersisted s.ht keys } k =
      if k ∈ keys then none else sdbHtFindKvp s k := by
  obtain ⟨hwf, hfind⟩ := removePersisted_spec hw keys
  have hwf' : Sdb.WF { s with ht := removePersisted s.ht keys } := hwf
  rw [sdbHtFindKvp_eq hwf', sdbHtFindKvp_eq hw]
  exact hfind k

theorem Sdb.Sound.removePersisted {s : Sdb} (h : s.Sound) (keys : List CStr) :
    Sdb.Sound { s with ht := removePersisted s.ht keys } := by
  refine ⟨(removePersisted_spec h.wf keys).1, fun k kv hk ↦ ?_⟩
  rw [sdbHtFindKvp_removePersisted h.wf] at hk
  split at hk
  · cases hk
  · exact h.noExpire k kv hk

/-- A property of the memory table that an empty table has, and that is kept when an entry
is written and when entries are removed.  Every call keeps such a property, since this is
all that a call does to the table. -/
structure TableInv (P : Sdb → Prop) : Prop where
  new : ∀ {s : Sdb}, s.ht = htNew → P s
  of_ht : ∀ {s s' : Sdb}, P s → s'.ht = s.ht → s'.timestamped = s.timestamped → P s'
  set : ∀ {s : Sdb}, P s → ∀ w key val owned cas, P (sdbSetInternal s w key val owned cas).2.1
  remove : ∀ {s : Sdb}, P s → ∀ keys, P { s with ht := removePersisted s.ht keys }

section TableInv

variable {P : Sdb → Prop} (h : TableInv P)
include h

theorem TableInv.textSets {s : Sdb} (hs : P s) (w : World) (sets : List TextSet) :
    P (sdbTextSets s w sets).1 := by
  rw [sdbTextSets]
  induction sets generalizing s w with
  | nil => exact hs
  | cons t sets ih =>
      rw [List.foldl_cons]
      split
      · exact ih (h.set hs w t.key t.val false 0) _
      · exact ih hs w

theorem TableInv.open {s : Sdb} (hs : P s) (w : World) (file : CStr) :
    P (sdbOpen s w file).2.1 := by
  rw [sdbOpen]
  split
  · exact h.textSets hs w _
  · split
    · exact h.of_ht hs rfl rfl
    · exact h.of_ht hs rfl rfl

theorem TableInv.syncDir {s : Sdb} (hs : P s) : P (syncDir s) := by
  rw [SdbStore.syncDir]
  split
  · exact h.of_ht hs rfl rfl
  · exact hs

theorem TableInv.sync {s : Sdb} (hs : P s) (w : World) : P (sdbSync s w).2.1 := by
  have h₁ : P (SdbStore.syncDir s) := h.syncDir hs
  have h₂ : P (closeCurrentDatabase (SdbStore.syncDir s)) := h.of_ht h₁ rfl rfl
  have hsync := sdbSync_synced s w
  generalize sdbSync s w = r at hsync ⊢
  cases hsync with
  | noCreate => exact h₁
  | noWrite => exact h₁
  | noRename => exact h.open h₂ _ _
  | noReopen _ _ _ hr => exact hr ▸ h.open h₂ _ _
  | done _ _ _ hr => exact h.remove (hr ▸ h.open h₂ _ _) _

theorem TableInv.sdbNew (w : World) (path name : CStr) : P (sdbNew w path name).1 := by
  rw [SdbStore.sdbNew]
  split
  · exact h.of_ht (h.open (h.new rfl) w _) rfl rfl
  · exact h.new rfl

theorem TableInv.journalOpen {s : Sdb} (hs : P s) (w : World) : P (sdbJournalOpen s w).2.1 := by
  rw [sdbJournalOpen]
  split
  · exact hs
  · dsimp only
    split
    · exact hs
    · exact h.of_ht hs rfl rfl

theorem TableInv.run {st : Sdb × World} (hst : P st.1) (op : Op) : P (op.run st).1 := by
  cases op with
  | set key val cas => exact h.set hst st.2 key val false cas
  | unset key cas => exact h.set hst st.2 key CStr.empty false cas
  | sync => exact h.sync hst st.2
  | «open» file => exact h.open hst st.2 file
  | reset => exact h.new rfl
  | journalOpen => exact h.journalOpen hst st.2

end TableInv

/-- The table stays well formed. -/
theorem tableInv_wf : TableInv Sdb.WF where
  new hht := (sound_of_htNew hht).wf
  of_ht hs hht _ := by
    rw [Sdb.WF, hht]
    exact hs
  set hs w key val owned cas := (sdbSetInternal_spec hs w key val owned cas).wf
  remove hs keys := (removePersisted_spec hs keys).1

/-- The table stays sound. -/
theorem tableInv_sound : TableInv Sdb.Sound where
  new := sound_of_htNew
  of_ht hs hht _ := hs.of_ht hht
  set hs := hs.setInternal
  remove hs := hs.removePersisted

theorem Sdb.Sound.open {s : Sdb} (h : s.Sound) (w : World) (file : CStr) :
    (sdbOpen s w file).2.1.Sound :=
  tableInv_sound.open h w file

theorem Sdb.Sound.sync {s : Sdb} (h : s.Sound) (w : World) : (sdbSync s w).2.1.Sound :=
  tableInv_sound.sync h w

theorem Sdb.Sound.new (w : World) (path name : CStr) : (sdbNew w path name).1.Sound :=
  tableInv_sound.sdbNew w path name

theorem Sdb.Sound.run {st : Sdb × World} (h : st.1.Sound) (op : Op) : (op.run st).1.Sound :=
  tableInv_sound.run h op

theorem Reach.sound {ok : Op → Sdb × World → Prop} {st : Sdb × World}
    (h : Reach Opened ok st) : st.1.Sound := by
  refine h.induct (I := fun st ↦ st.1.Sound) ?_ fun st op hI _ ↦ hI.run op
  rintro _ ⟨w, path, name, rfl⟩
  exact Sdb.Sound.new w path name

/-! ## Reading back what was written -/

/-- The value that a key should have after it is set. -/
def readAs (val : CStr) : Option CStr := if val = CStr.empty then none else some val

/-- After `sdb_set` returns true the key has its value and the other keys have theirs. -/
def ReadsBack (st : Sdb × World) (key val : CStr) : Prop :=
  let r := sdbSet st.1 st.2 key val 0
  r.1 = true → sdbGet r.2.1 r.2.2 key = readAs val ∧
    ∀ k, k ≠ key → sdbGet r.2.1 r.2.2 k = sdbGet st.1 st.2 k

/-- The entry of the key has a value, a file is open, and `cdb_findnext` returns 0 on
it: then `sdb_set` deletes the entry instead of changing it. -/
def Dropped (s : Sdb) (key : CStr) : Prop :=
  ∃ kv old, sdbHtFindKvp s key = some kv ∧ kv.value = some old ∧ (cdbLookup s.db key).1 = 0 ∧
    nextcas kv ≠ 0

theorem sdbGetDisk_of_lookup {s : Sdb} {key : CStr} (h : (cdbLookup s.db key).1 = 0) :
    sdbGetDisk s key = .null := by
  rw [sdbGetDisk]
  split
  · rfl
  · rw [if_pos (by rw [h]; decide)]

theorem entryGet_newEntry (key val : CStr) (disk : Got) :
    (entryGet (some (newEntry key val false)) disk).value = readAs val := by
  by_cases hv : val = CStr.empty
  · simp [entryGet, newEntry, readAs, hv, Got.null]
  · simp [entryGet, newEntry, readAs, hv]

theorem setEntry_dropped {kv : SdbKv} {old key val : CStr} (hv : kv.value = some old)
    (hlen : ¬ (key.length ≥ 0xff ∨ val.length ≥ 0xffffff)) (owned : Bool) (cas : Nat) :
    setEntry (some kv) 0 key val owned cas = (nextcas kv, none) := by
  unfold setEntry
  rw [if_neg hlen]
  simp [hv]

/-- The value that `setEntry` leaves is read back unless the entry is deleted. -/
theorem entryGet_setEntry {e : Option SdbKv} {disk : Int} {key val : CStr}
    (hlen : ¬ (key.length ≥ 0xff ∨ val.length ≥ 0xffffff))
    (hno : ∀ kv old, e = some kv → kv.value = some old → disk ≠ 0) (d : Got) :
    (entryGet (setEntry e disk key val false 0).2 d).value = readAs val := by
  have hsome : ∀ kv : SdbKv, kv.value = some val → (entryGet (some kv) d).value = readAs val := by
    intro kv hv
    simp only [entryGet, hv, readAs]
    split
    · rfl
    · rfl
  unfold setEntry
  rw [if_neg hlen]
  cases e with
  | none => exact entryGet_newEntry key val d
  | some kv =>
      cases hv : kv.value with
      | none =>
          simp only [hv]
          exact entryGet_newEntry key val d
      | some old =>
          simp only [hv]
          rw [if_pos (hno kv old rfl hv), if_neg (by simp)]
          split
          · next hsame => exact hsome kv (by rw [hv, hsame])
          · exact hsome _ rfl

/-- A write leaves what the other keys give as it is. -/
theorem sdbGet_other {s : Sdb} (h : s.Sound) (w : World) (key val : CStr) (owned : Bool)
    (cas : Nat) {k : CStr} (hk : k ≠ key) :
    let r := sdbSetInternal s w key val owned cas
    sdbGet r.2.1 r.2.2 k = sdbGet s w k := by
  intro r
  have hspec := sdbSetInternal_spec h.wf w key val owned cas
  have hsound := h.setInternal w key val owned cas
  rw [sdbGet_eq hsound.noExpire, sdbGet_eq h.noExpire, hspec.find, if_neg hk, hspec.disk]

theorem Dropped.setEntry {s : Sdb} {key val : CStr} (h : Dropped s key)
    (hlen : ¬ (key.length ≥ 0xff ∨ val.length ≥ 0xffffff)) (owned : Bool) (cas : Nat) :
    (setEntry (sdbHtFindKvp s key) (cdbLookup s.db key).1 key val owned cas).1 ≠ 0 ∧
      (setEntry (sdbHtFindKvp s key) (cdbLookup s.db key).1 key val owned cas).2 = none := by
  obtain ⟨kv, old, hf, hv, hlook, hn⟩ := h
  rw [hf, hlook, setEntry_dropped hv hlen]
  exact ⟨hn, rfl⟩

/-- A dropped write returns true and leaves the key without a value. -/
theorem sdbGet_dropped {s : Sdb} (h : s.Sound) (w : World) {key val : CStr} (hd : Dropped s key)
    (hlen : ¬ (key.length ≥ 0xff ∨ val.length ≥ 0xffffff)) :
    let r := sdbSet s w key val 0
    r.1 = true ∧ sdbGet r.2.1 r.2.2 key = none := by
  have hspec := sdbSetInternal_spec h.wf w key val false 0
  obtain ⟨hret, hentry⟩ := hd.setEntry hlen false 0
  obtain ⟨kv, old, hf, hv, hlook, hn⟩ := hd
  dsimp only [sdbSet]
  refine ⟨?_, ?_⟩
  · rw [hspec.ret]
    exact decide_eq_true hret
  · rw [sdbGet_eq (h.setInternal w key val false 0).noExpire, hspec.find, if_pos rfl, hspec.disk,
      hentry, sdbGetDisk_of_lookup hlook]
    rfl

/-- **Read your writes.**  In every reachable state, what `sdb_set` stores is read back,
and nothing else changes, unless the entry of the key is dropped. -/
theorem readsBack_iff {st : Sdb × World} (hst : Reachable st) {key val : CStr}
    (hkey : 1 ≤ key.length ∧ key.length ≤ 254) (hval : val.length < 0xffffff - 1) :
    ReadsBack st key val ↔ ¬ (Dropped st.1 key ∧ val ≠ CStr.empty) := by
  have hsound := Reach.sound hst
  have hlen : ¬ (key.length ≥ 0xff ∨ val.length ≥ 0xffffff) := by omega
  have hother := fun k hk ↦ sdbGet_other hsound st.2 key val false 0 (k := k) hk
  constructor
  · rintro h ⟨hd, hne⟩
    obtain ⟨hret, hget⟩ := sdbGet_dropped hsound st.2 hd hlen
    have hread := (h hret).1
    rw [hget, readAs, if_neg hne] at hread
    cases hread
  · intro hno hret
    refine ⟨?_, hother⟩
    by_cases hd : Dropped st.1 key
    · have hempty : val = CStr.empty := by
        by_contra hne
        exact hno ⟨hd, hne⟩
      rw [(sdbGet_dropped hsound st.2 hd hlen).2, readAs, if_pos hempty]
    · -- the entry stays, since a write that returned true did not wrap the counter
      have hspec := sdbSetInternal_spec hsound.wf st.2 key val false 0
      have hsound' := hsound.setInternal st.2 key val false 0
      have hret' : (sdbSetInternal st.1 st.2 key val false 0).1 ≠ 0 := of_decide_eq_true hret
      dsimp only [sdbSet]
      rw [sdbGet_eq hsound'.noExpire, hspec.find, if_pos rfl, hspec.disk]
      refine entryGet_setEntry hlen (fun kv old hf hv hlook ↦ hd ⟨kv, old, hf, hv, hlook, ?_⟩) _
      rwa [hspec.ret, hf, hlook, setEntry_dropped hv hlen] at hret'

/-- The key `a` set twice in a database without a file. -/
theorem readsBack_twice :
    let st := Op.run (.set (CStr.ofBytes [97]) (CStr.ofBytes [49]) 0) (sdbNew .empty .empty .empty)
    (sdbSet st.1 st.2 (CStr.ofBytes [97]) (CStr.ofBytes [50]) 0).1 = true ∧
      ReadsBack st (CStr.ofBytes [97]) (CStr.ofBytes [50]) := by
  have hst : Reachable (Op.run (.set (CStr.ofBytes [97]) (CStr.ofBytes [49]) 0)
      (sdbNew .empty .empty .empty)) := .step _ (.start ⟨_, _, _, rfl⟩) trivial
  refine ⟨by decide, (readsBack_iff hst (by decide) (by decide)).mpr ?_⟩
  rintro ⟨⟨kv, old, -, -, hlook, -⟩, -⟩
  exact absurd hlook (by decide)

/-- A file that holds `x=1`. -/
def fileX : List KvRec := [(CStr.ofBytes [120], CStr.ofBytes [49])]

theorem fileX_fitting : KvFitting fileX where
  fits := by decide
  size := by
    rw [length_cdbImage_eq]
    decide

theorem fileX_not_text : sdbTextCheck (some (kvImage fileX)) = false :=
  sdbTextCheck_cdbImage (by decide)

/-- `sdb_new` on a file `d`. -/
def newOn (f : Bytes) : Sdb × World :=
  sdbNew (World.empty.setFile (CStr.ofBytes [100]) (some f)) .empty (CStr.ofBytes [100])

theorem newOn_eq {f : Bytes} (htext : sdbTextCheck (some f) = false) :
    newOn f =
      ({ sdbNew0 with
          dir := some (CStr.ofBytes [100])
          name := some (CStr.ofBytes [100])
          fd := some f
          db := (cdbInit (some f)).2 },
        World.empty.setFile (CStr.ofBytes [100]) (some f)) := by
  have hdir : sdbNewDir .empty (CStr.ofBytes [100]) = CStr.ofBytes [100] := by decide
  rw [newOn, sdbNew_file (by decide) (by rw [hdir, setFile_fs, if_pos rfl]) htext, hdir]

theorem newOn_holds {recs : List KvRec} (hfit : KvFitting recs)
    (htext : sdbTextCheck (some (kvImage recs)) = false) :
    (newOn (kvImage recs)).1.Holds recs := by
  rw [newOn_eq htext]
  exact ⟨hfit, rfl, hfit.over⟩

theorem newOn_ht {f : Bytes} (htext : sdbTextCheck (some f) = false) :
    (newOn f).1.ht = htNew := by
  rw [newOn_eq htext]
  rfl

/-- The entry of a key that is set for the first time. -/
theorem sdbHtFindKvp_set_new {st : Sdb × World} (hs : st.1.Sound) {key val : CStr}
    (hlen : ¬ (key.length ≥ 0xff ∨ val.length ≥ 0xffffff))
    (hnone : sdbHtFindKvp st.1 key = none) (cas : Nat) :
    sdbHtFindKvp (Op.run (.set key val cas) st).1 key = some (newEntry key val false) := by
  refine ((sdbSetInternal_spec hs.wf st.2 key val false cas).find key).trans ?_
  rw [if_pos rfl, hnone, setEntry, if_neg hlen]

/-- A key that is not in the file is dropped when it is set for the second time. -/
theorem dropped_set {st : Sdb × World} (hs : st.1.Sound) {recs : List KvRec}
    (hholds : st.1.Holds recs) {key val : CStr}
    (hlen : ¬ (key.length ≥ 0xff ∨ val.length ≥ 0xffffff)) (hval : val ≠ CStr.empty)
    (hnone : sdbHtFindKvp st.1 key = none) (hlook : Keyed.lookup Prod.fst recs key = none) :
    Dropped (Op.run (.set key val 0) st).1 key := by
  have hcas : nextcas (newEntry key val false) = 3 := rfl
  refine ⟨newEntry key val false, val,
    sdbHtFindKvp_set_new hs hlen hnone 0, by simp [newEntry, hval], ?_, by omega⟩
  exact cdbLookup_of_none ((sdbSetInternal_spec hs.wf st.2 key val false 0).holds hholds) hlook

/-- With the file `x=1` open, the key `a` is set to `1` and then to `2`: it is gone. -/
theorem not_readsBack_dropped : ∃ st, Reachable st ∧
    ¬ ReadsBack st (CStr.ofBytes [97]) (CStr.ofBytes [50]) := by
  have hnew := sound_of_htNew (newOn_ht fileX_not_text)
  have hempty := sdbHtFindKvp_of_htNew (newOn_ht fileX_not_text) (CStr.ofBytes [97])
  have hdrop : Dropped (Op.run (.set (CStr.ofBytes [97]) (CStr.ofBytes [49]) 0)
      (newOn (kvImage fileX))).1 (CStr.ofBytes [97]) :=
    dropped_set hnew (newOn_holds fileX_fitting fileX_not_text) (by decide) (by decide) hempty
      (by decide)
  refine ⟨Op.run (.set (CStr.ofBytes [97]) (CStr.ofBytes [49]) 0) (newOn (kvImage fileX)),
    .step _ (.start ⟨_, _, _, rfl⟩) trivial, fun h ↦ ?_⟩
  have hlen : ¬ ((CStr.ofBytes [97]).length ≥ 0xff ∨ (CStr.ofBytes [50]).length ≥ 0xffffff) := by
    decide
  obtain ⟨hret, hget⟩ := sdbGet_dropped (hnew.run _) _ hdrop hlen
  have hread := (h hret).1
  rw [hget] at hread
  exact absurd hread (by decide)

end SdbStore
