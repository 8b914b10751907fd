import SdbStore.Expire
import SdbStore.Foreach

/-!
# Resetting a database

`sdb_reset` closes the file behind a database and empties the table.  The mapping of the
file stays where it is.  Lookups do not see it, since they ask for the descriptor first,
but a scan reads the mapping, and without a descriptor it begins at its first byte: the
positions in the header of the old file are then taken for records.  `resetEmpties_iff`
says when this can happen.
-/

namespace SdbStore

open Lib

/-- A call of `sdb_set`. -/
structure SetCall where
  key : CStr
  val : CStr
  cas : Nat

/-- The call is made. -/
def SetCall.run (c : SetCall) (st : Sdb × World) : Sdb × World :=
  (sdbSet st.1 st.2 c.key c.val c.cas).2

/-- The call is refused, given the entry of its key: a length is above its limit, or the
counter is not that of the entry. -/
def SetCall.refused (c : SetCall) (e : Option SdbKv) : Bool :=
  decide (c.key.length ≥ 0xff ∨ c.val.length ≥ 0xffffff) ||
    match e with
    | none => false
    | some kv => kv.value.isSome && decide (c.cas ≠ 0 ∧ kv.cas ≠ c.cas)

/-- The value that the key was last set to by calls that were not refused; `v` is what it
was set to before. -/
def setSince (k : CStr) : Sdb × World → List SetCall → Option CStr → Option CStr
  | _, [], v => v
  | st, c :: calls, v => setSince k (c.run st) calls
      (if c.key = k ∧ c.refused (sdbHtFindKvp st.1 c.key) = false then some c.val else v)

/-- After a reset no key has a value, `sdb_foreach` makes no call, and whatever is set after
it, a sync that returns true writes a file with the keys that were set, and with no others. -/
def ResetEmpties (st : Sdb × World) : Prop :=
  let s := sdbReset st.1
  (∀ w k, sdbGet s w k = none) ∧
    (∀ (σ : Type) (cb : SdbForeachCallback σ) (user : σ), sdbForeach s cb user = (true, user)) ∧
    ∀ calls : List SetCall,
      let st' := calls.foldl (fun st c ↦ c.run st) (s, st.2)
      let r := sdbSync st'.1 st'.2
      r.1 = true → ∃ recs, r.2.1.Holds recs ∧ ∀ k,
        (Keyed.lookup Prod.fst recs k).map Prod.snd = (setSince k (s, st.2) calls none).bind readAs

/-! ## What is left of the file -/

/-- The first four bytes of the mapping, taken for the lengths of a record, are those of a
record that lies within the mapping. -/
def Cdb.BeginsRecord (c : Cdb) : Prop :=
  ∃ m, c.map = some m ∧
    let klen := (m.getD 0 0).toNat
    let vlen := (m.getD 1 0).toNat + 256 * (m.getD 2 0).toNat + 65536 * (m.getD 3 0).toNat
    1 ≤ klen ∧ 1 ≤ vlen ∧ 4 + keySpan klen + valueSpan vlen ≤ c.size

theorem getD_slice_zero (m : Bytes) {i n : Nat} (hi : i < n) :
    (slice m 0 n).getD i 0 = m.getD i 0 := by
  rw [slice, List.drop_zero, List.getD_eq_getElem?_getD, List.getD_eq_getElem?_getD,
    List.getElem?_take_of_lt hi]

/-- The key of a record that a scan takes from a mapping. -/
theorem dupnextKey_map {c : Cdb} {m : Bytes} (hmap : c.map = some m) (hsize : c.size < 4294967296)
    (klen : Nat) {pos : Nat} (hpos : pos ≤ c.size) :
    (dupnextKey c klen pos).map Prod.snd =
      if pos + keySpan klen ≤ c.size then some (pos + keySpan klen) else none := by
  unfold dupnextKey keySpan
  by_cases hk : sdbMinKey < klen ∧ klen < sdbMaxKey
  · rw [if_pos hk, if_pos hk, cdbRead, hmap]
    dsimp only
    by_cases hle : pos + klen ≤ c.size
    · rw [if_neg (by omega), if_pos hle, Option.map_some, Option.map_some, ut32_of_lt (by omega)]
    · rw [if_pos (by omega), if_neg hle]
      rfl
  · rw [if_neg hk, if_neg hk, Nat.add_zero, if_pos hpos]
    rfl

/-- The lengths that a scan takes from the first four bytes of a mapping. -/
theorem cdbGetkvlen_zero {c : Cdb} {m : Bytes} (hmap : c.map = some m) : cdbGetkvlen c 0 =
    if 4 ≤ c.size then some ((m.getD 0 0).toNat,
      (m.getD 1 0).toNat + 256 * (m.getD 2 0).toNat + 65536 * (m.getD 3 0).toNat)
    else none := by
  unfold cdbGetkvlen
  rw [cdbRead, hmap]
  dsimp only
  by_cases hfour : 4 ≤ c.size
  · have h₁ := (m.getD 1 0).toNat_lt
    have h₂ := (m.getD 2 0).toNat_lt
    have h₃ := (m.getD 3 0).toNat_lt
    rw [if_pos hfour, if_neg (by omega)]
    simp only [Option.bind_eq_bind, Option.bind_some]
    rw [getD_slice_zero m (by decide), getD_slice_zero m (by decide),
      getD_slice_zero m (by decide), getD_slice_zero m (by decide)]
    exact if_neg (by rw [sdbMaxValue]; omega)
  · rw [if_neg hfour, if_pos (by omega)]
    rfl

/-- A scan from the first byte of a mapping finds a record exactly when one begins there. -/
theorem sdbDumpDupnext_zero {c : Cdb} (hfd : c.fd = none) (hsize : c.size < 4294967296) :
    (sdbDumpDupnext c 0).1 ≠ none ↔ c.BeginsRecord := by
  unfold sdbDumpDupnext
  cases hmap : c.map with
  | none =>
      have hread : cdbRead c 4 0 = none := by rw [cdbRead, hmap, hfd]
      have hlen : cdbGetkvlen c 0 = none := by
        rw [cdbGetkvlen, hread]
        rfl
      rw [hlen]
      simp [Cdb.BeginsRecord, hmap]
  | some m =>
      have hbegins : c.BeginsRecord ↔
          1 ≤ (m.getD 0 0).toNat ∧
          1 ≤ (m.getD 1 0).toNat + 256 * (m.getD 2 0).toNat + 65536 * (m.getD 3 0).toNat ∧
          4 + keySpan (m.getD 0 0).toNat + valueSpan ((m.getD 1 0).toNat +
            256 * (m.getD 2 0).toNat + 65536 * (m.getD 3 0).toNat) ≤ c.size := by
        simp [Cdb.BeginsRecord, hmap]
      rw [hbegins, cdbGetkvlen_zero hmap]
      generalize (m.getD 0 0).toNat = klen
      generalize (m.getD 1 0).toNat + 256 * (m.getD 2 0).toNat + 65536 * (m.getD 3 0).toNat = vlen
      by_cases hfour : 4 ≤ c.size
      · rw [if_pos hfour]
        dsimp only
        rw [Nat.zero_add, ut32_of_lt (by decide)]
        by_cases hz : klen < 1 ∨ vlen < 1
        · rw [if_pos hz]
          exact iff_of_false (by simp) (by omega)
        · rw [if_neg hz]
          have hkey := dupnextKey_map hmap hsize klen hfour
          by_cases hk : 4 + keySpan klen ≤ c.size
          · rw [if_pos hk, Option.map_eq_some_iff] at hkey
            obtain ⟨⟨key, pos⟩, hkey, rfl⟩ := hkey
            rw [hkey]
            dsimp only
            unfold valueSpan
            by_cases hv : vlen < sdbMaxValue
            · rw [if_pos hv, if_pos hv, cdbRead, hmap]
              dsimp only
              by_cases hle : 4 + keySpan klen + vlen ≤ c.size
              · rw [if_neg (by omega)]
                exact iff_of_true (by simp) (by omega)
              · rw [if_pos (by omega)]
                exact iff_of_false (by simp) (by omega)
            · rw [if_neg hv, if_neg hv]
              exact iff_of_true (by simp) (by omega)
          · rw [if_neg hk, Option.map_eq_none_iff] at hkey
            rw [hkey]
            exact iff_of_false (by simp) (by omega)
      · rw [if_neg hfour]
        exact iff_of_false (by simp) (by omega)

/-! ## The descriptors in every state -/

/-- Without a file the search has no descriptor either, and the size is a 32-bit number. -/
structure Sdb.Seated (s : Sdb) : Prop where
  closed : s.fd = none → s.db.fd = none
  size : s.db.size < 4294967296

theorem Sdb.Seated.of_eq {s s' : Sdb} (h : s.Seated) (hfd : s'.fd = s.fd) (hdb : s'.db = s.db) :
    s'.Seated := by
  refine ⟨?_, ?_⟩
  · rw [hfd, hdb]
    exact h.closed
  · rw [hdb]
    exact h.size

theorem Sdb.Seated.of_frame {s s' : Sdb} (h : s.Seated) (hf : s.Frame s') : s'.Seated :=
  h.of_eq hf.fd hf.db

theorem size_cdbInit (fd : Option Bytes) : (cdbInit fd).2.size < 4294967296 := by
  unfold cdbInit
  split
  · decide
  · split
    · exact ut32_lt _
    · show 0 < 4294967296
      decide

theorem Sdb.Seated.open {s : Sdb} (h : s.Seated) (hw : s.WF) (w : World) (file : CStr) :
    (sdbOpen s w file).2.1.Seated := by
  rw [sdbOpen]
  split
  · exact h.of_frame (sdbTextSets_frame hw w _)
  · split
    · exact ⟨fun _ ↦ rfl, h.size⟩
    · next f _ => exact ⟨fun hno ↦ absurd hno (by simp), size_cdbInit (some f)⟩

theorem Sdb.Seated.new (w : World) (path name : CStr) : (sdbNew w path name).1.Seated := by
  rw [sdbNew]
  split
  · refine ⟨fun hno ↦ ?_, size_cdbInit _⟩
    dsimp only at hno ⊢
    rw [hno]
    rfl
  · refine ⟨fun _ ↦ rfl, ?_⟩
    show 0 < 4294967296
    decide

theorem Sdb.Seated.close {s : Sdb} (h : s.Seated) : (closeCurrentDatabase s).Seated :=
  ⟨fun _ ↦ rfl, h.size⟩

theorem Sdb.Seated.syncDir {s : Sdb} (h : s.Seated) : (syncDir s).Seated := by
  rw [SdbStore.syncDir]
  split
  · exact h.of_eq rfl rfl
  · exact h

theorem Sdb.Seated.sync {s : Sdb} (h : s.Seated) (hw : s.WF) (w : World) :
    (sdbSync s w).2.1.Seated := by
  have hclosed := h.syncDir.close
  have hwf : (closeCurrentDatabase (SdbStore.syncDir s)).WF :=
    tableInv_wf.of_ht (tableInv_wf.syncDir hw) rfl rfl
  have hsync := sdbSync_synced s w
  generalize sdbSync s w = r at hsync ⊢
  cases hsync with
  | noCreate => exact h.syncDir
  | noWrite => exact h.syncDir
  | noRename => exact hclosed.open hwf _ _
  | noReopen _ _ _ hr => exact hr ▸ hclosed.open hwf _ _
  | done _ _ _ hr =>
      subst hr
      exact (hclosed.open hwf _ _).of_eq rfl rfl

/-- After a reset there is no file. -/
theorem Sdb.Seated.reset {s : Sdb} (h : s.Seated) :
    (sdbReset s).Bare ∧ (sdbReset s).db = { s.db with fd := none } := by
  unfold sdbReset sdbClose
  cases hfd : s.fd with
  | none =>
      have hdb := h.closed hfd
      refine ⟨⟨rfl, hdb⟩, ?_⟩
      dsimp only
      rw [← hdb]
  | some f => exact ⟨⟨rfl, rfl⟩, rfl⟩

theorem Sdb.Seated.run {st : Sdb × World} (h : st.1.Seated) (hw : st.1.WF) (op : Op) :
    (op.run st).1.Seated := by
  cases op with
  | set key val cas => exact h.of_frame (sdbSetInternal_spec hw st.2 key val false cas).frame
  | unset key cas => exact h.of_frame (sdbSetInternal_spec hw st.2 key .empty false cas).frame
  | sync => exact h.sync hw st.2
  | «open» file => exact h.open hw st.2 file
  | reset =>
      obtain ⟨hbare, hdb⟩ := h.reset
      refine ⟨fun _ ↦ hbare.dbFd, ?_⟩
      show (sdbReset st.1).db.size < 4294967296
      rw [hdb]
      exact h.size
  | journalOpen =>
      show (sdbJournalOpen st.1 st.2).2.1.Seated
      rw [sdbJournalOpen]
      split
      · exact h
      · dsimp only
        split
        · exact h
        · exact h.of_eq rfl rfl

theorem Sdb.Seated.expireSet {s : Sdb} (h : s.Seated) (hs : s.Timed) {w : World} {t : CdbFind}
    {key : CStr} {expire cas : Nat} {r : Bool × Sdb × World}
    (hr : sdbExpireSet s w t key expire cas = some r) : r.2.1.Seated := by
  have hs' := hs.stamp
  have h' : Sdb.Seated { s with timestamped := true } := h.of_eq rfl rfl
  cases sdbExpireSet_ends hr with
  | nothing => exact h'
  | entry hf hkv => exact h'.of_frame (sdbExpireSetKv_spec hs'.wf hf hkv).2.1
  | @copied buf kv _ hf hkv =>
      have hspec := sdbSetInternal_spec hs'.wf w key buf true cas
      exact (h'.of_frame hspec.frame).of_frame (sdbExpireSetKv_spec hspec.wf hf hkv).2.1

theorem TimedReachable.seated {st : Sdb × World} (h : TimedReachable st) : st.1.Seated := by
  induction h with
  | start h =>
      obtain ⟨w, path, name, rfl⟩ := h
      exact .new w path name
  | @step st st' op hst hop ih =>
      have hs := hst.timed
      cases op with
      | call op =>
          cases hop
          exact ih.run hs.wf op
      | setOwned key val cas =>
          cases hop
          exact ih.of_frame (sdbSetInternal_spec hs.wf st.2 key val true cas).frame
      | get key =>
          cases hop
          rw [sdbConstGetLen]
          split
          · exact ih
          · split
            · exact ih
            · split
              · exact ih
              · split
                · exact ih.of_frame (sdbSetInternal_spec hs.wf st.2 key .empty false 0).frame
                · exact ih
      | expireSet t key expire cas =>
          obtain ⟨r, hr, rfl⟩ := Option.map_eq_some_iff.mp hop
          exact ih.expireSet hs hr
      | wait n =>
          cases hop
          exact ih

/-! ## The calls after a reset -/

/-- A write to a key that is not in a file: it is refused, or the entry has the value. -/
theorem memValue_setEntry {e : Option SdbKv} (he : ∀ kv, e = some kv → kv.expire = 0) {disk : Int}
    (hdisk : disk ≠ 0) (c : SetCall) :
    (setEntry e disk c.key c.val false c.cas).2.bind memValue =
      if c.refused e = false then readAs c.val else e.bind memValue := by
  have hnew : memValue (newEntry c.key c.val false) = readAs c.val := by
    by_cases hv : c.val = CStr.empty
    · simp [memValue, newEntry, readAs, hv]
    · simp [memValue, newEntry, readAs, hv]
  have hsome : ∀ kv : SdbKv, kv.value = some c.val → kv.expire = 0 →
      memValue kv = readAs c.val := by
    intro kv hv hx
    by_cases hval : c.val = CStr.empty
    · simp [memValue, readAs, hv, hval]
    · simp [memValue, readAs, hv, hx, hval]
  unfold setEntry SetCall.refused
  by_cases hlen : c.key.length ≥ 0xff ∨ c.val.length ≥ 0xffffff
  · simp [hlen]
  · rw [if_neg hlen, decide_eq_false hlen, Bool.false_or]
    cases e with
    | none => exact hnew
    | some kv =>
        obtain ⟨key, value, cas, expire⟩ := kv
        have hx : expire = 0 := he _ rfl
        cases value with
        | none => exact hnew
        | some old =>
            simp only [Option.isSome_some, Bool.true_and, decide_eq_false_iff_not, if_pos hdisk]
            by_cases hcas : c.cas ≠ 0 ∧ cas ≠ c.cas
            · rw [if_pos hcas, if_neg (not_not_intro hcas)]
            · rw [if_neg hcas, if_pos hcas]
              split
              · next hsame =>
                  apply hsome ⟨key, some old, cas, expire⟩ (congrArg some hsame.symm)
                  exact hx
              · rw [Option.bind_some]
                apply hsome _ rfl
                exact hx

/-- The state of a database that was reset, where `v` says what each key has been set to
since. -/
structure Emptied (left : Cdb) (v : CStr → Option CStr) (st : Sdb × World) : Prop where
  sound : st.1.Sound
  bare : st.1.Bare
  db : st.1.db = left
  find : ∀ k, (sdbHtFindKvp st.1 k).bind memValue = (v k).bind readAs

theorem Emptied.reset {s : Sdb} (h : s.Seated) (w : World) :
    Emptied { s.db with fd := none } (fun _ ↦ none) (sdbReset s, w) where
  sound := sound_of_htNew rfl
  bare := h.reset.1
  db := h.reset.2
  find k := by
    rw [sdbHtFindKvp_of_htNew rfl]
    rfl

section Emptied

variable {left : Cdb} {v : CStr → Option CStr} {st : Sdb × World} (h : Emptied left v st)
include h

/-- One call. -/
theorem Emptied.set (c : SetCall) :
    Emptied left (fun k ↦ if c.key = k ∧ c.refused (sdbHtFindKvp st.1 c.key) = false
      then some c.val else v k) (c.run st) := by
  have hspec := sdbSetInternal_spec h.sound.wf st.2 c.key c.val false c.cas
  have hdisk : (cdbLookup st.1.db c.key).1 ≠ 0 := by
    rw [cdbLookup_bare h.bare]
    decide
  have hentry := memValue_setEntry (fun kv hkv ↦ h.sound.noExpire c.key kv hkv) hdisk c
  refine ⟨h.sound.setInternal st.2 c.key c.val false c.cas, hspec.bare h.bare,
    hspec.frame.db.trans h.db, fun k ↦ ?_⟩
  refine (congrArg (fun e : Option SdbKv ↦ e.bind memValue) (hspec.find k)).trans ?_
  by_cases hk : k = c.key
  · subst hk
    rw [if_pos rfl, hentry]
    by_cases href : c.refused (sdbHtFindKvp st.1 c.key) = false
    · rw [if_pos href, if_pos ⟨rfl, href⟩]
      rfl
    · rw [if_neg href, if_neg fun hc ↦ href hc.2]
      exact h.find c.key
  · rw [if_neg hk, if_neg fun hc ↦ hk hc.1.symm]
    exact h.find k

/-- All of them. -/
theorem Emptied.setAll (calls : List SetCall) :
    Emptied left (fun k ↦ setSince k st calls (v k)) (calls.foldl (fun st c ↦ c.run st) st) := by
  induction calls generalizing v st with
  | nil => exact h
  | cons c calls ih => exact ih (h.set c)

/-- A sync writes what has been set, when nothing is left of the old file. -/
theorem Emptied.sync (hleft : (sdbDumpDupnext left 0).1 = none)
    (hret : (sdbSync st.1 st.2).1 = true) :
    ∃ recs, (sdbSync st.1 st.2).2.1.Holds recs ∧ ∀ k,
      (Keyed.lookup Prod.fst recs k).map Prod.snd = (v k).bind readAs := by
  have hscan : st.1.scan = [] := by
    rw [Sdb.scan, h.bare.fd, h.db, scanBound, dumpLoop, sdbDumpBegin]
    rcases hd : sdbDumpDupnext left 0 with ⟨_ | d, pos⟩
    · rfl
    · rw [hd] at hleft
      cases hleft
  obtain ⟨p, hp⟩ := sdbSync_true h.sound.wf hret
  have hreads : st.1.Reads [] := ⟨hscan, sdbGetDisk_bare h.bare⟩
  obtain ⟨p', hp', hspec⟩ := syncPlan_spec h.sound.wf hreads
  obtain rfl : p' = p := Option.some.inj (hp'.symm.trans hp.plan)
  refine ⟨p'.1, hp.holds, fun k ↦ ?_⟩
  have hnone : Keyed.lookup Prod.fst ([] : List KvRec) k = none := rfl
  rw [(hspec k).2, hnone, mergedRec_none, Option.none_or, Option.map_map, h.find]
  exact Option.map_id'

end Emptied

/-! ## When a reset empties the database -/

/-- A scan that finds a record is reported. -/
theorem not_beginsRecord_of_resetEmpties {st : Sdb × World} (hs : st.1.Seated)
    (h : ResetEmpties st) : ¬ st.1.db.BeginsRecord := by
  intro hbegin
  have hreset := hs.reset
  have hbegin' : Cdb.BeginsRecord { st.1.db with fd := none } := hbegin
  have hdump := (sdbDumpDupnext_zero (c := { st.1.db with fd := none }) rfl hs.size).mpr hbegin'
  obtain ⟨d, hd⟩ := Option.ne_none_iff_exists'.mp hdump
  -- the first record of the scan
  have hscan : ∃ l, (sdbReset st.1).scan = d :: l := by
    rw [Sdb.scan, hreset.1.fd, hreset.2, scanBound, dumpLoop, sdbDumpBegin]
    rcases hd' : sdbDumpDupnext { st.1.db with fd := none } 0 with ⟨o, pos⟩
    rw [hd'] at hd
    obtain rfl : o = some d := hd
    exact ⟨_, rfl⟩
  obtain ⟨l, hl⟩ := hscan
  have hnone := sdbHtFindKvp_of_htNew (s := sdbReset st.1) rfl d.key
  -- a callback that ends the loop is called with it
  have hcalls := h.2.1 Unit (fun _ _ _ ↦ (false, ())) ()
  simp [sdbForeach, sdbForeachCdb, hl, foreachLoop, hnone] at hcalls

theorem resetEmpties_of_not_beginsRecord {st : Sdb × World} (hs : st.1.Seated)
    (h : ¬ st.1.db.BeginsRecord) : ResetEmpties st := by
  have hempty := Emptied.reset hs st.2
  have hleft : (sdbDumpDupnext { st.1.db with fd := none } 0).1 = none := by
    by_contra hne
    exact h ((sdbDumpDupnext_zero (c := { st.1.db with fd := none }) rfl hs.size).mp hne)
  refine ⟨fun w k ↦ ?_, fun σ cb user ↦ ?_, fun calls hret ↦ ?_⟩
  · rw [sdbGet_eq hempty.sound.noExpire, sdbHtFindKvp_of_htNew rfl]
    exact congrArg Got.value (sdbGetDisk_bare hempty.bare k)
  · have hscan : (sdbReset st.1).scan = [] := by
      rw [Sdb.scan, hempty.bare.fd, hempty.db, scanBound, dumpLoop, sdbDumpBegin]
      rcases hd : sdbDumpDupnext { st.1.db with fd := none } 0 with ⟨_ | d, pos⟩
      · rfl
      · rw [hd] at hleft
        cases hleft
    rw [sdbForeach, sdbForeachCdb, hscan]
    rfl
  · exact (hempty.setAll calls).sync hleft hret

/-- **A reset empties the database**, in every run, unless a record can be read at the start
of what is left of its file. -/
theorem resetEmpties_iff {st : Sdb × World} (hst : TimedReachable st) :
    ResetEmpties st ↔ ¬ st.1.db.BeginsRecord :=
  ⟨not_beginsRecord_of_resetEmpties hst.seated, resetEmpties_of_not_beginsRecord hst.seated⟩

/-- A value of 249 bytes. -/
def longValue : CStr :=
  ⟨List.replicate 249 97, fun h ↦ absurd (List.eq_of_mem_replicate h) (by decide)⟩

theorem length_longValue : longValue.length = 249 := List.length_replicate

/-- A file whose records have 256 bytes together. -/
def fileFull : List KvRec := [(CStr.ofBytes [120], longValue)]

theorem fileFull_body : cdbFinalSize + (cdbBody (fileFull.map KvRec.raw)).length = 1280 := by
  rw [fileFull, length_cdbBody_x, length_longValue, cdbFinalSize]

theorem fileFull_fitting : KvFitting fileFull := kvFitting_x (by rw [length_longValue]; decide)

theorem fileFull_not_text : sdbTextCheck (some (kvImage fileFull)) = false :=
  sdbTextCheck_cdbImage (by rw [fileFull_body]; decide)

/-- The position of its first table is taken for a key of no bytes. -/
theorem not_beginsRecord_full : ¬ (newOn (kvImage fileFull)).1.db.BeginsRecord := by
  have hover := (newOn_holds fileFull_fitting fileFull_not_text).db
  rintro ⟨m, hm, hklen, -⟩
  obtain rfl := Option.some.inj (hm.symm.trans hover.map)
  rw [kvImage, cdbImage_eq_append, fileFull_body] at hklen
  exact absurd hklen (by decide)

/-- With that file open and `y=1` in memory, a reset empties the database. -/
theorem resetEmpties_full :
    ResetEmpties (Op.run (.set (CStr.ofBytes [121]) (CStr.ofBytes [49]) 0)
      (newOn (kvImage fileFull))) := by
  have hopened : TimedReachable (newOn (kvImage fileFull)) := .start ⟨_, _, _, rfl⟩
  have hst : TimedReachable (Op.run (.set (CStr.ofBytes [121]) (CStr.ofBytes [49]) 0)
      (newOn (kvImage fileFull))) := .step (.call _) hopened rfl
  have hnot := not_beginsRecord_full
  generalize newOn (kvImage fileFull) = st at *
  have hdb : (Op.run (.set (CStr.ofBytes [121]) (CStr.ofBytes [49]) 0) st).1.db = st.1.db :=
    (sdbSetInternal_spec hopened.timed.wf st.2 (CStr.ofBytes [121])
      (CStr.ofBytes [49]) false 0).frame.db
  refine (resetEmpties_iff hst).mpr ?_
  rw [hdb]
  exact hnot

/-- What is left of the file `x=1` begins with a record: the position of its first table is
taken for the lengths of a key of eight bytes and a value of four. -/
theorem beginsRecord_x : (newOn (kvImage fileX)).1.db.BeginsRecord := by
  have hover := (newOn_holds fileX_fitting fileX_not_text).db
  have hlen : 16 ≤ (kvImage fileX).length := by
    rw [kvImage, length_cdbImage_eq, cdbFinalSize]
    omega
  refine ⟨kvImage fileX, hover.map, ?_⟩
  have hbody : cdbFinalSize + (cdbBody (fileX.map KvRec.raw)).length = 1032 := by decide
  have hstart : kvImage fileX = le32 1032 ++ (kvImage fileX).drop 4 := by
    conv_lhs => rw [kvImage, cdbImage_eq_append, hbody]
    rfl
  rw [hover.size]
  have hbytes : ∀ i, i < 4 → (kvImage fileX).getD i 0 = (le32 1032).getD i 0 := by
    intro i hi
    rw [hstart, List.getD_append _ _ _ _ (by rwa [length_le32])]
  rw [hbytes 0 (by decide), hbytes 1 (by decide), hbytes 2 (by decide), hbytes 3 (by decide)]
  refine ⟨by decide, by decide, le_trans ?_ hlen⟩
  decide

/-- With the file `x=1` open, `sdb_foreach` makes a call after a reset. -/
theorem not_resetEmpties_x : ∃ st, TimedReachable st ∧ ¬ ResetEmpties st := by
  have hst : TimedReachable (newOn (kvImage fileX)) := .start ⟨_, _, _, rfl⟩
  exact ⟨_, hst, fun h ↦ not_beginsRecord_of_resetEmpties hst.seated h beginsRecord_x⟩

end SdbStore
