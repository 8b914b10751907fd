import SdbStore.Persist

/-!
# Entries that expire

`sdb_expire_set` gives an entry in memory a time after which `sdb_get` unsets it.  A key
that is in the file only is copied to memory first.  Such entries are meant to stay in
memory: the loop of `sdb_sync` over the table skips them, but the loop over the old file
does not look at the time.  `keepsExpiring_iff` says which of them survive a sync.

The runs of this file are those of `Run` with time in them: every kind of write, lookups
(which unset what has expired), times being set, and time passing.
-/

namespace SdbStore

open Lib

/-- `parse_expire`: less than a month counts from now. -/
def parseExpire (now e : Nat) : Nat :=
  if 0 < e ∧ e < 30 * 24 * 60 * 60 then (e + now) % 18446744073709551616 else e

/-- What `cdb_read` leaves in a buffer of zeros, whether it succeeds or not. -/
def cdbReadInto (c : Cdb) (len pos : Nat) : Bytes :=
  match c.map with
  | some m => if pos > c.size ∨ c.size - pos < len then [] else slice m pos len
  | none => slice (c.fd.getD []) pos len

/-- `sdb_expire_set` on an entry; a value that is `NULL` is read all the same, and the
program ends there. -/
def sdbExpireSetKv (s : Sdb) (w : World) (kv : SdbKv) (expire cas : Nat) :
    Option (Bool × Sdb × World) :=
  match kv.value with
  | none => none
  | some v =>
      if v ≠ CStr.empty ∧ (cas = 0 ∨ cas = kv.cas) then
        let kv := { kv with expire := parseExpire w.now expire }
        some (true, { s with ht := htWriteKv sdbHtOpt s.ht kv }, w)
      else some (false, s, w)

/-- `sdb_expire_set`.  `t` is what earlier searches left behind, which is read when
`cdb_findnext` returns -1.  When the value of the file is too long to be set, the call
repeats itself without end. -/
def sdbExpireSet (s : Sdb) (w : World) (t : CdbFind) (key : CStr) (expire cas : Nat) :
    Option (Bool × Sdb × World) :=
  let s := { s with timestamped := true }
  match sdbHtFindKvp s key with
  | some kv => sdbExpireSetKv s w kv expire cas
  | none =>
      if s.fd = none then some (false, s, w) else
        let r := cdbFindnext s.db (cdbFindstart t) (sdbHash key) key
        if r.1 = 0 ∨ r.2.dlen < 1 ∨ r.2.dlen ≥ 0x7fffffff then some (false, s, w) else
          let buf := CStr.ofBytes (cdbReadInto s.db r.2.dlen r.2.dpos)
          let r := (sdbSetOwned s w key buf cas).2
          match sdbHtFindKvp r.1 key with
          | none => none
          | some kv => sdbExpireSetKv r.1 r.2 kv expire cas

/-- `sdb_expire_get`; `none` as for `sdb_expire_set`. -/
def sdbExpireGet (s : Sdb) (key : CStr) : Option Nat :=
  match sdbHtFindKvp s key with
  | none => some 0
  | some kv =>
      match kv.value with
      | none => none
      | some v => some (if v ≠ CStr.empty then kv.expire else 0)

/-- A lookup depends on the entry, on the file and on the time. -/
theorem sdbGet_congr {s s' : Sdb} {w w' : World} {k : CStr}
    (hfind : sdbHtFindKvp s' k = sdbHtFindKvp s k) (hdisk : sdbGetDisk s' k = sdbGetDisk s k)
    (hstamp : s'.timestamped = s.timestamped) (hnow : w'.now = w.now) :
    sdbGet s' w' k = sdbGet s w k := by
  rw [sdbGet, sdbGet, sdbConstGetLen, sdbConstGetLen, hfind, hdisk]
  cases sdbHtFindKvp s k with
  | none => rfl
  | some kv =>
      cases hv : kv.value with
      | none => simp only [hv]
      | some v =>
          simp only [hv, hstamp, hnow]
          split
          · rfl
          · split
            · rfl
            · rfl

/-! ## Runs with time -/

/-- The calls of a run in which time passes. -/
inductive TimedOp where
  | call (op : Op)
  | setOwned (key val : CStr) (cas : Nat)
  | get (key : CStr)
  | expireSet (t : CdbFind) (key : CStr) (expire cas : Nat)
  | wait (n : Nat)

/-- One call, if it comes back. -/
def TimedOp.run (op : TimedOp) (st : Sdb × World) : Option (Sdb × World) :=
  match op with
  | .call op => some (op.run st)
  | .setOwned key val cas => some (sdbSetOwned st.1 st.2 key val cas).2
  | .get key => some (sdbConstGetLen st.1 st.2 key).2
  | .expireSet t key expire cas => (sdbExpireSet st.1 st.2 t key expire cas).map Prod.snd
  | .wait n => some (st.1, { st.2 with now := st.2.now + n })

/-- The states reached by any run with time. -/
inductive TimedReachable : Sdb × World → Prop
  | start {st : Sdb × World} (h : Opened st) : TimedReachable st
  | step {st st' : Sdb × World} (op : TimedOp) (hst : TimedReachable st)
      (hop : op.run st = some st') : TimedReachable st'

/-- The table is well formed, and an entry that expires has a value and is looked at with
the time. -/
structure Sdb.Timed (s : Sdb) : Prop where
  wf : s.WF
  stamped : ∀ k kv, sdbHtFindKvp s k = some kv → kv.expire ≠ 0 → s.timestamped = true
  valued : ∀ k kv, sdbHtFindKvp s k = some kv → kv.expire ≠ 0 → kv.value ≠ none

/-- An entry that is left by a write expires only if the entry before it did. -/
theorem setEntry_expiring {e : Option SdbKv} {disk : Int} {key val : CStr} {owned : Bool}
    {cas : Nat} {kv : SdbKv} (h : (setEntry e disk key val owned cas).2 = some kv)
    (hx : kv.expire ≠ 0) :
    e = some kv ∨ ∃ kv', e = some kv' ∧ kv'.expire ≠ 0 ∧ kv.value ≠ none := by
  unfold setEntry at h
  split at h
  · exact .inl h
  · split at h
    · cases h
      exact absurd rfl hx
    · next kv' =>
        split at h
        · cases h
          exact absurd rfl hx
        · split at h
          · split at h
            · exact .inl h
            · split at h
              · exact .inl h
              · cases h
                exact .inr ⟨kv', rfl, hx, by simp⟩
          · cases h

theorem tableInv_timed : TableInv Sdb.Timed where
  new {s} hht := by
    have hnone := sdbHtFindKvp_of_htNew hht
    refine ⟨tableInv_wf.new hht, fun k kv hk ↦ ?_, fun k kv hk ↦ ?_⟩
    · rw [hnone] at hk
      cases hk
    · rw [hnone] at hk
      cases hk
  of_ht {s s'} hs hht hstamp := by
    have hfind : ∀ k, sdbHtFindKvp s' k = sdbHtFindKvp s k := fun k ↦ by
      rw [sdbHtFindKvp, hht]
      rfl
    refine ⟨tableInv_wf.of_ht hs.wf hht hstamp, fun k kv hk hx ↦ ?_, fun k kv hk hx ↦ ?_⟩
    · rw [hfind] at hk
      rw [hstamp]
      exact hs.stamped k kv hk hx
    · rw [hfind] at hk
      exact hs.valued k kv hk hx
  set {s} hs w key val owned cas := by
    have hspec := sdbSetInternal_spec hs.wf w key val owned cas
    have hstamp : (sdbSetInternal s w key val owned cas).2.1.timestamped = s.timestamped := by
      rw [hspec.frame]
    refine ⟨hspec.wf, fun k kv hk hx ↦ ?_, fun k kv hk hx ↦ ?_⟩
    · rw [hspec.find] at hk
      rw [hstamp]
      split at hk
      · rcases setEntry_expiring hk hx with he | ⟨kv', he, hx', -⟩
        · exact hs.stamped _ kv he hx
        · exact hs.stamped _ kv' he hx'
      · exact hs.stamped k kv hk hx
    · rw [hspec.find] at hk
      split at hk
      · rcases setEntry_expiring hk hx with he | ⟨-, -, -, hv⟩
        · exact hs.valued _ kv he hx
        · exact hv
      · exact hs.valued k kv hk hx
  remove {s} hs keys := by
    have hfind := sdbHtFindKvp_removePersisted hs.wf keys
    refine ⟨tableInv_wf.remove hs.wf keys, fun k kv hk hx ↦ ?_, fun k kv hk hx ↦ ?_⟩
    · rw [hfind] at hk
      split at hk
      · cases hk
      · exact hs.stamped k kv hk hx
    · rw [hfind] at hk
      split at hk
      · cases hk
      · exact hs.valued k kv hk hx

/-! ## What setting a time does -/

/-- The ways in which `sdb_expire_set` can end, once the database is looked at with the
time. -/
inductive ExpireSet (s : Sdb) (w : World) (key : CStr) (expire cas : Nat) :
    Bool × Sdb × World → Prop
  /-- There is no such key, or it cannot be copied. -/
  | nothing : ExpireSet s w key expire cas (false, s, w)
  /-- The entry is in memory. -/
  | entry {kv : SdbKv} {r : Bool × Sdb × World} (hf : sdbHtFindKvp s key = some kv)
      (hkv : sdbExpireSetKv s w kv expire cas = some r) : ExpireSet s w key expire cas r
  /-- The value of the file has been copied to memory. -/
  | copied {buf : CStr} {kv : SdbKv} {r : Bool × Sdb × World}
      (hf : sdbHtFindKvp (sdbSetInternal s w key buf true cas).2.1 key = some kv)
      (hkv : sdbExpireSetKv (sdbSetInternal s w key buf true cas).2.1
        (sdbSetInternal s w key buf true cas).2.2 kv expire cas = some r) :
      ExpireSet s w key expire cas r

theorem sdbExpireSet_ends {s : Sdb} {w : World} {t : CdbFind} {key : CStr} {expire cas : Nat}
    {r : Bool × Sdb × World} (h : sdbExpireSet s w t key expire cas = some r) :
    ExpireSet { s with timestamped := true } w key expire cas r := by
  unfold sdbExpireSet at h
  dsimp only at h
  split at h
  · next kv hf => exact .entry hf h
  · split at h
    · cases h
      exact .nothing
    · split at h
      · cases h
        exact .nothing
      · split at h
        · cases h
        · next kv hf => exact .copied hf h

/-- **`sdb_expire_set` on an entry** changes its time and nothing else. -/
theorem sdbExpireSetKv_spec {s : Sdb} (hw : s.WF) {w : World} {key : CStr} {kv : SdbKv}
    (hf : sdbHtFindKvp s key = some kv) {expire cas : Nat} {r : Bool × Sdb × World}
    (h : sdbExpireSetKv s w kv expire cas = some r) :
    r.2.2 = w ∧ s.Frame r.2.1 ∧ r.2.1.WF ∧ kv.value ≠ none ∧
      ∀ k, sdbHtFindKvp r.2.1 k = if k = key ∧ r.1 then
        some { kv with expire := parseExpire w.now expire } else sdbHtFindKvp s k := by
  unfold sdbExpireSetKv at h
  split at h
  · cases h
  · next v hv =>
      split at h
      · cases h
        obtain ⟨hmem, rfl⟩ := key_of_sdbHtFindKvp hw hf
        have hx : Keyed.lookup SdbKv.key s.ht.toList kv.key = some kv :=
          hw.distinct.lookup_eq_some_iff.mpr ⟨hmem, rfl⟩
        obtain ⟨hwf, hp⟩ := htWriteKv_spec sdbHtOpt_lawful hw
          (e := { kv with expire := parseExpire w.now expire }) hx
        refine ⟨rfl, rfl, hwf, by simp [hv], fun k ↦ ?_⟩
        rw [sdbHtFindKvp_put hw hwf hp]
        simp
      · cases h
        exact ⟨rfl, rfl, hw, by simp [hv], fun k ↦ by simp⟩

theorem Sdb.Timed.expireSetKv {s : Sdb} (hs : s.Timed) (hstamp : s.timestamped = true) {w : World}
    {key : CStr} {kv : SdbKv} (hf : sdbHtFindKvp s key = some kv) {expire cas : Nat}
    {r : Bool × Sdb × World} (h : sdbExpireSetKv s w kv expire cas = some r) : r.2.1.Timed := by
  obtain ⟨-, hframe, hwf, hval, hfind⟩ := sdbExpireSetKv_spec hs.wf hf h
  refine ⟨hwf, fun _ _ _ _ ↦ by rw [hframe]; exact hstamp, fun k kv' hk hx ↦ ?_⟩
  rw [hfind] at hk
  split at hk
  · cases hk
    exact hval
  · exact hs.valued k kv' hk hx

theorem Sdb.Timed.stamp {s : Sdb} (hs : s.Timed) : Sdb.Timed { s with timestamped := true } :=
  ⟨hs.wf, fun _ _ _ _ ↦ rfl, hs.valued⟩

theorem Sdb.Timed.expireSet {s : Sdb} (hs : s.Timed) {w : World} {t : CdbFind} {key : CStr}
    {expire cas : Nat} {r : Bool × Sdb × World} (h : sdbExpireSet s w t key expire cas = some r) :
    r.2.1.Timed := by
  have hs' := hs.stamp
  cases sdbExpireSet_ends h with
  | nothing => exact hs'
  | entry hf hkv => exact hs'.expireSetKv rfl hf hkv
  | copied hf hkv =>
      refine Sdb.Timed.expireSetKv (tableInv_timed.set hs' w key _ true cas) ?_ hf hkv
      exact congrArg Sdb.timestamped (sdbSetInternal_spec hs'.wf w key _ true cas).frame

theorem Sdb.Timed.get {s : Sdb} (hs : s.Timed) (w : World) (key : CStr) :
    (sdbConstGetLen s w key).2.1.Timed := by
  unfold sdbConstGetLen
  split
  · exact hs
  · split
    · exact hs
    · split
      · exact hs
      · split
        · exact tableInv_timed.set hs w key CStr.empty false 0
        · exact hs

/-- In every state of a run with time the table is sound. -/
theorem TimedReachable.timed {st : Sdb × World} (h : TimedReachable st) : st.1.Timed := by
  induction h with
  | start h =>
      obtain ⟨w, path, name, rfl⟩ := h
      exact tableInv_timed.sdbNew w path name
  | @step st st' op _ hop ih =>
      cases op with
      | call op =>
          cases hop
          exact tableInv_timed.run ih op
      | setOwned key val cas =>
          cases hop
          exact tableInv_timed.set ih st.2 key val true cas
      | get key =>
          cases hop
          exact ih.get st.2 key
      | expireSet t key expire cas =>
          obtain ⟨r, hr, rfl⟩ := Option.map_eq_some_iff.mp hop
          exact ih.expireSet hr
      | wait n =>
          cases hop
          exact ih

/-- A run without time is one with time. -/
theorem TimedReachable.of_reachable {st : Sdb × World} (h : Reachable st) : TimedReachable st :=
  h.induct (fun _ hst ↦ .start hst) fun _ op ih _ ↦ .step (.call op) ih rfl

/-- The states reached by runs with time whose first state is in `start` and whose calls all
satisfy `ok` in the state before them. -/
inductive TimedReach (start : Sdb × World → Prop) (ok : TimedOp → Sdb × World → Prop) :
    Sdb × World → Prop
  | start {st : Sdb × World} (h : start st) : TimedReach start ok st
  | step {st st' : Sdb × World} (op : TimedOp) (hst : TimedReach start ok st) (hop : ok op st)
      (hrun : op.run st = some st') : TimedReach start ok st'

theorem TimedReach.reachable {start : Sdb × World → Prop} {ok : TimedOp → Sdb × World → Prop}
    (hstart : ∀ st, start st → Opened st) {st : Sdb × World} (h : TimedReach start ok st) :
    TimedReachable st := by
  induction h with
  | start h => exact .start (hstart _ h)
  | step op _ _ hrun ih => exact .step op ih hrun

/-! ## Expiring entries in a sync -/

/-- A sync that returns true leaves the entry `kv` of the key `k` in memory: it has the
same time as before, `sdb_get` gives nothing once that time has passed, and the new file
has no record with its value. -/
def KeepsExpiring (st : Sdb × World) (k : CStr) (kv : SdbKv) : Prop :=
  let r := sdbSync st.1 st.2
  r.1 = true → sdbHtFindKvp r.2.1 k = some kv ∧ sdbExpireGet r.2.1 k = sdbExpireGet st.1 k ∧
    (∀ now, kv.expire < now → sdbGet r.2.1 { r.2.2 with now := now } k = none) ∧
    ∀ recs, r.2.1.Holds recs → ∀ v, kv.value = some v → (k, v) ∉ recs

theorem timestamped_syncDir (s : Sdb) : (syncDir s).timestamped = s.timestamped := by
  rw [syncDir]
  split
  · rfl
  · rfl

theorem memValue_of_expire {kv : SdbKv} (h : kv.expire ≠ 0) : memValue kv = none := by
  unfold memValue
  split
  · rfl
  · exact if_neg fun hc ↦ h hc.2

section Sync

variable {st : Sdb × World} (hs : st.1.Timed) {k : CStr} {kv : SdbKv}
  (hf : sdbHtFindKvp st.1 k = some kv) (hx : kv.expire ≠ 0)
include hs hf hx

/-- An expiring entry leaves memory exactly when its key is in the file. -/
theorem mem_plan_of_expire {p : Plan} (hp : syncPlan st.1 = some p) :
    k ∈ p.2 ↔ ∃ d ∈ st.1.scan, d.key = k := by
  obtain ⟨v, hv⟩ := Option.ne_none_iff_exists'.mp (hs.valued k kv hf hx)
  rw [(syncPlan_of_some hs.wf hp k).1, hf, Option.bind_some, memValue_of_expire hx]
  constructor
  · rintro (⟨-, hd⟩ | hno)
    · exact hd
    · cases hno
  · exact fun hd ↦ .inl ⟨⟨kv, v, hf, hv⟩, hd⟩

/-- A key of the file does not keep its time. -/
theorem not_keepsExpiring_of_scanned (hret : (sdbSync st.1 st.2).1 = true)
    (hd : ∃ d ∈ st.1.scan, d.key = k) : ¬ KeepsExpiring st k kv := by
  intro h
  obtain ⟨p, hp⟩ := sdbSync_true hs.wf hret
  have hstay := (h hret).1
  rw [hp.find hs.wf, if_pos ((mem_plan_of_expire hs hf hx hp.plan).mpr hd)] at hstay
  cases hstay

/-- A key that is in memory only keeps it. -/
theorem keepsExpiring_of_not_scanned (hd : ¬ ∃ d ∈ st.1.scan, d.key = k) :
    KeepsExpiring st k kv := by
  intro hret
  obtain ⟨p, hp⟩ := sdbSync_true hs.wf hret
  have hout : k ∉ p.2 := fun hk ↦ hd ((mem_plan_of_expire hs hf hx hp.plan).mp hk)
  have hstay : sdbHtFindKvp (sdbSync st.1 st.2).2.1 k = some kv := by
    rw [hp.find hs.wf, if_neg hout, hf]
  have hstamp : (sdbSync st.1 st.2).2.1.timestamped = true := by
    rw [hp.sdb]
    exact (timestamped_syncDir st.1).trans (hs.stamped k kv hf hx)
  refine ⟨hstay, ?_, fun now hnow ↦ ?_, fun recs hrecs v _ hmem ↦ ?_⟩
  · unfold sdbExpireGet
    rw [hstay, hf]
  · rw [sdbGet]
    unfold sdbConstGetLen
    rw [hstay]
    dsimp only
    split
    · rfl
    · split
      · rfl
      · rw [if_pos ⟨hstamp, hx, hnow⟩]
        rfl
  · obtain rfl := hrecs.unique hp.holds
    have hsome := Keyed.lookup_isSome_of_mem Prod.fst hmem
    rcases (syncPlan_of_some hs.wf hp.plan k).2 hsome with hin | ⟨hnone, -⟩
    · exact hout hin
    · rw [hf] at hnone
      cases hnone

end Sync

/-- **Expiring entries stay in memory**, in every run, except for the keys that the scan of
the old file finds. -/
theorem keepsExpiring_iff {st : Sdb × World} (hst : TimedReachable st) {k : CStr} {kv : SdbKv}
    (hf : sdbHtFindKvp st.1 k = some kv) (hx : kv.expire ≠ 0)
    (hret : (sdbSync st.1 st.2).1 = true) :
    KeepsExpiring st k kv ↔ ∀ d ∈ st.1.scan, d.key ≠ k := by
  constructor
  · intro h d hd hk
    exact not_keepsExpiring_of_scanned hst.timed hf hx hret ⟨d, hd, hk⟩ h
  · intro h
    apply keepsExpiring_of_not_scanned hst.timed hf hx
    rintro ⟨d, hd, hk⟩
    exact h d hd hk

/-- A search from the start. -/
def CdbFind.zero : CdbFind := ⟨0, 0, 0, 0, 0, 0, 0⟩

/-- The key `a` is set to `1` in a new database on a file `d` that is not there, with 100
seconds to live. -/
def expiringA : Sdb × World :=
  let st := Op.run (.set (CStr.ofBytes [97]) (CStr.ofBytes [49]) 0)
    (sdbNew .empty .empty (CStr.ofBytes [100]))
  ((TimedOp.expireSet .zero (CStr.ofBytes [97]) 100 0).run st).getD st

theorem expiringA_reachable : TimedReachable expiringA := by
  have hset : Reachable (Op.run (.set (CStr.ofBytes [97]) (CStr.ofBytes [49]) 0)
      (sdbNew .empty .empty (CStr.ofBytes [100]))) := .step _ (.start ⟨_, _, _, rfl⟩) trivial
  exact .step (.expireSet .zero (CStr.ofBytes [97]) 100 0) (.of_reachable hset) rfl

theorem kvFitting_nil : KvFitting [] where
  fits _ h := nomatch h
  size := by
    rw [length_cdbImage_eq]
    decide

/-- The entry of `a` is still there after a sync. -/
theorem keepsExpiring_a : ∃ kv, sdbHtFindKvp expiringA.1 (CStr.ofBytes [97]) = some kv ∧
    kv.expire ≠ 0 ∧ (sdbSync expiringA.1 expiringA.2).1 = true ∧
    KeepsExpiring expiringA (CStr.ofBytes [97]) kv := by
  have hf : sdbHtFindKvp expiringA.1 (CStr.ofBytes [97]) =
      some ⟨CStr.ofBytes [97], some (CStr.ofBytes [49]), 2, 100⟩ := by decide
  have hret : (sdbSync expiringA.1 expiringA.2).1 = true := by
    refine sdbSync_eq_true expiringA_reachable.timed.wf (fun _ ↦ rfl) (p := ([], []))
      ⟨by decide, by decide, kvFitting_nil, cdbRoom_of_length (by simp)⟩ ?_
    exact sdbTextCheck_cdbImage (by decide)
  have hx : (⟨CStr.ofBytes [97], some (CStr.ofBytes [49]), 2, 100⟩ : SdbKv).expire ≠ 0 := by decide
  refine ⟨_, hf, hx, hret, (keepsExpiring_iff expiringA_reachable hf hx hret).mpr ?_⟩
  have hscan : expiringA.1.scan = [] := by decide
  rw [hscan]
  exact fun d hd ↦ nomatch hd

/-- **`sdb_expire_set` on a key in memory** gives its entry the time. -/
theorem sdbExpireSet_entry {s : Sdb} (hw : s.WF) {key v : CStr} {kv : SdbKv}
    (hf : sdbHtFindKvp s key = some kv) (hv : kv.value = some v) (hne : v ≠ CStr.empty) (w : World)
    (t : CdbFind) (expire : Nat) :
    ∃ s', (TimedOp.expireSet t key expire 0).run (s, w) = some (s', w) ∧
      Sdb.Frame { s with timestamped := true } s' ∧
      ∀ k, sdbHtFindKvp s' k = if k = key then
        some { kv with expire := parseExpire w.now expire } else sdbHtFindKvp s k := by
  have hf' : sdbHtFindKvp { s with timestamped := true } key = some kv := hf
  obtain ⟨r, hr, htrue⟩ : ∃ r, sdbExpireSetKv { s with timestamped := true } w kv expire 0 =
    some r ∧ r.1 = true := by
    simp [sdbExpireSetKv, hv, hne]
  have hw' : Sdb.WF { s with timestamped := true } := hw
  obtain ⟨hworld, hframe, -, -, hfind⟩ := sdbExpireSetKv_spec hw' hf' hr
  refine ⟨r.2.1, ?_, hframe, fun k ↦ ?_⟩
  · have hset : sdbExpireSet s w t key expire 0 = some r := by
      simp only [sdbExpireSet, hf', hr]
    rw [TimedOp.run, hset, Option.map_some, ← hworld]
  · rw [hfind, htrue]
    simp only [and_true]
    rfl

/-- What `sdb_expire_set` copies from a written file. -/
theorem cdbReadInto_over {c : Cdb} {f : Bytes} (hc : c.Over f) {len pos : Nat} {v : CStr}
    (hslice : slice f pos len = v.bytesZ) (hlen : len = v.length + 1) :
    CStr.ofBytes (cdbReadInto c len pos) = v := by
  have hle : pos + len ≤ f.length := by
    have h := congrArg List.length hslice
    rw [slice, List.length_take, List.length_drop, CStr.length_bytesZ] at h
    omega
  rw [cdbReadInto, hc.map, hc.size]
  dsimp only
  rw [if_neg (by omega), hslice]
  exact CStr.ofBytes_bytesZ v

/-- **`sdb_expire_set` on a key of the file** copies the value to memory and gives it the
time. -/
theorem sdbExpireSet_disk {s : Sdb} (hw : s.WF) {recs : List KvRec} (hholds : s.Holds recs)
    {r : KvRec} (hl : Keyed.lookup Prod.fst recs r.1 = some r) (hne : r.2 ≠ CStr.empty)
    (hnone : sdbHtFindKvp s r.1 = none) (w : World) (expire : Nat) :
    ∃ st, (TimedOp.expireSet .zero r.1 expire 0).run (s, w) = some st ∧
      Sdb.Frame { s with timestamped := true } st.1 ∧ (st.2 = w ∨ s.journal ≠ none) ∧
      ∀ k, sdbHtFindKvp st.1 k = if k = r.1 then
        some { newEntry r.1 r.2 true with expire := parseExpire st.2.now expire }
        else sdbHtFindKvp s k := by
  have hlook := cdbLookup_holds hholds r.1
  rw [hl] at hlook
  obtain ⟨hcode, hdlen, hslice⟩ := hlook
  have hlt := hholds.fitting.length_lt (mem_of_lookup hl).1
  rw [sdbMaxKey, sdbMaxValue] at hlt
  -- the value is copied
  have hw' : Sdb.WF { s with timestamped := true } := hw
  have hspec := sdbSetInternal_spec hw' w r.1 r.2 true 0
  have hentry : setEntry (sdbHtFindKvp { s with timestamped := true } r.1)
      (cdbLookup s.db r.1).1 r.1 r.2 true 0 = (2, some (newEntry r.1 r.2 true)) := by
    have hnone' : sdbHtFindKvp { s with timestamped := true } r.1 = none := hnone
    rw [hnone', setEntry, if_neg (by omega)]
  rw [hentry] at hspec
  have hfound := hspec.find r.1
  rw [if_pos rfl] at hfound
  -- and the entry is given the time
  have hkv : ∃ t, sdbExpireSetKv
      (sdbSetInternal { s with timestamped := true } w r.1 r.2 true 0).2.1
      (sdbSetInternal { s with timestamped := true } w r.1 r.2 true 0).2.2 (newEntry r.1 r.2 true)
      expire 0 = some t ∧ t.1 = true := by
    simp [sdbExpireSetKv, newEntry, hne]
  obtain ⟨t, ht, htrue⟩ := hkv
  obtain ⟨hworld, hframe, -, -, hfind⟩ := sdbExpireSetKv_spec hspec.wf hfound ht
  refine ⟨t.2, ?_, hspec.frame.trans hframe, ?_, fun k ↦ ?_⟩
  · have hset : sdbExpireSet s w .zero r.1 expire 0 = some t := by
      have hlookup : cdbFindnext s.db (cdbFindstart .zero) (sdbHash r.1) r.1 = cdbLookup s.db r.1 :=
        rfl
      have hnone' : sdbHtFindKvp { s with timestamped := true } r.1 = none := hnone
      have hbuf := cdbReadInto_over hholds.db hslice rfl
      unfold sdbExpireSet
      simp only [hnone', hlookup, hdlen, hbuf, sdbSetOwned, hfound]
      rw [if_neg (by rw [hholds.fd]; simp), if_neg (by rw [hcode]; omega)]
      exact ht
    change (sdbExpireSet s w .zero r.1 expire 0).map Prod.snd = some t.2
    rw [hset]
    rfl
  · rw [hworld]
    rcases sdbSetInternal_world { s with timestamped := true } w r.1 r.2 true 0 with h | h
    · exact .inl h
    · rw [h, sdbJournalLog]
      cases hj : s.journal with
      | none => exact .inl rfl
      | some j => exact .inr (by simp)
  · rw [hfind, htrue, hspec.find, hworld]
    by_cases hk : k = r.1
    · rw [if_pos ⟨hk, rfl⟩, if_pos hk]
    · rw [if_neg fun h ↦ hk h.1, if_neg hk, if_neg hk]
      rfl

/-- The key `x` of the file `x=1` is given a time: a sync returns true, and the entry is
gone. -/
theorem not_keepsExpiring_x : ∃ st k kv, TimedReachable st ∧ sdbHtFindKvp st.1 k = some kv ∧
    kv.expire ≠ 0 ∧ ¬ KeepsExpiring st k kv := by
  have hnew := OverX.new
  have hopened : TimedReachable (newOn (kvImage fileX)) := .start ⟨_, _, _, rfl⟩
  generalize newOn (kvImage fileX) = new at hnew hopened
  obtain ⟨st, hrun, hframe, hworld, hfind⟩ := sdbExpireSet_disk hnew.reach.backed.1.wf hnew.holds
    (r := (CStr.ofBytes [120], CStr.ofBytes [49])) (by decide) (by decide)
    (by rw [hnew.find, if_pos rfl]) new.2 2592000
  have hst : TimedReachable st := .step _ hopened hrun
  have hw := hst.timed.wf
  have hholds : st.1.Holds fileX := by
    rw [hframe]
    exact ⟨hnew.holds.fitting, hnew.holds.fd, hnew.holds.db⟩
  have hentry : ∀ k, sdbHtFindKvp st.1 k = if k = CStr.ofBytes [120] then
      some { newEntry (CStr.ofBytes [120]) (CStr.ofBytes [49]) true with expire := 2592000 }
      else none := by
    intro k
    rw [hfind]
    split
    · rfl
    · next hk =>
        refine (hnew.find k).trans ?_
        rw [if_neg hk]
  have hret : (sdbSync st.1 st.2).1 = true := by
    refine sdbSync_overX hw hholds hentry ?_ (fun j ↦ ?_) rfl (by decide)
    · rw [hframe]
      exact hnew.dir
    · rcases hworld with h | h
      · rw [h]
        exact hnew.fails j
      · exact absurd hnew.journal h
  have hx := hentry (CStr.ofBytes [120])
  rw [if_pos rfl] at hx
  refine ⟨st, CStr.ofBytes [120], _, hst, hx, by decide,
    not_keepsExpiring_of_scanned hst.timed hx (by decide) hret ?_⟩
  rw [scan_holds hholds fileX_scans]
  exact ⟨_, List.mem_cons_self, rfl⟩

end SdbStore
