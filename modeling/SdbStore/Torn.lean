import SdbStore.Durable

/-!
# Journals that are cut off

A crash may come in the middle of a write to the journal, or before the end of the journal has got
to the disk, so that what is left is some first part of it.  `sdb_journal_load` takes only the lines
that end, and these are the first ones.
-/

namespace SdbStore

open Lib

/-! ## What is left of the journal -/

/-- The line of a pair, without its end. -/
def pairLine (r : KvRec) : Bytes := r.1.val ++ 61 :: r.2.val

theorem journalText_eq_unlines {pairs : List KvRec} (hlog : ∀ r ∈ pairs, Loggable r.1 r.2) :
    journalText pairs = unlines 10 (pairs.map pairLine) := by
  rw [journalText, unlines, List.flatMap_map]
  refine List.flatMap_congr fun r hr ↦ ?_
  exact (hlog r hr).line

theorem Loggable.not_mem {r : KvRec} (h : Loggable r.1 r.2) : 10 ∉ pairLine r := by
  rw [pairLine, List.mem_append, List.mem_cons]
  rintro (hkey | heq | hval)
  · exact h.key_nl hkey
  · exact absurd heq (by decide)
  · exact h.val_nl hval

theorem filterMap_pairLine {pairs : List KvRec} (hlog : ∀ r ∈ pairs, Loggable r.1 r.2) :
    (pairs.map pairLine).filterMap journalPair = pairs := by
  rw [List.filterMap_map]
  refine (List.filterMap_congr fun r hr ↦ ?_).trans List.filterMap_some
  exact journalPair_append (hlog r hr).key_eq

/-- The first part of the text of a journal has the first of its pairs: those whose lines are
complete. -/
theorem journalChanges_take {pairs : List KvRec} (hlog : ∀ r ∈ pairs, Loggable r.1 r.2)
    (hsize : (journalText pairs).length < 0x80000000) (n : Nat) :
    ∃ m ≤ pairs.length, journalChanges ((journalText pairs).take n) = pairs.take m ∧
      (journalText (pairs.take m)).length ≤ n ∧
      (m < pairs.length → n < (journalText (pairs.take (m + 1))).length) := by
  have hfirst (m : Nat) : ∀ r ∈ pairs.take m, Loggable r.1 r.2 :=
    fun r hr ↦ hlog r (List.mem_of_mem_take hr)
  have hnl : ∀ x ∈ pairs.map pairLine, (10 : UInt8) ∉ x := by
    rintro _ hx
    obtain ⟨r, hr, rfl⟩ := List.mem_map.mp hx
    exact (hlog r hr).not_mem
  obtain ⟨m, hm, hlines, hle, hlt⟩ := lines_take_unlines hnl n
  rw [List.length_map] at hm hlt
  rw [← List.map_take, ← journalText_eq_unlines (hfirst _)] at hle hlt
  rw [← journalText_eq_unlines hlog, ← List.map_take] at hlines
  refine ⟨m, hm, ?_, hle, hlt⟩
  have hlen : ((journalText pairs).take n).length < 0x80000000 := by
    rw [List.length_take]
    omega
  rw [journalChanges, ut32_of_lt (by omega)]
  split
  · next h =>
      -- there is nothing in the file
      have hnil : (journalText pairs).take n = [] := List.length_eq_zero_iff.mp (by omega)
      rw [hnil, lines_of_not_mem List.not_mem_nil, eq_comm, List.map_eq_nil_iff] at hlines
      exact hlines.symm
  · have hz : (0 : UInt8) ∉ (journalText pairs).take n :=
      fun h ↦ not_mem_journalText pairs (List.mem_of_mem_take h)
    have hstr : (CStr.ofBytes ((journalText pairs).take n)).val = (journalText pairs).take n :=
      CStr.val_ofBytes hz
    rw [List.take_length, journalPairs, hstr, hlines]
    exact filterMap_pairLine (hfirst m)

/-! ## A journal that has lost its end -/

theorem AcceptedCalls.take {calls : List SetCall} {st : Sdb × World} (h : AcceptedCalls st calls)
    (m : Nat) :
    AcceptedCalls st (calls.take m) := by
  induction calls generalizing st m with
  | nil =>
      rw [List.take_nil]
      exact h
  | cons c calls ih =>
      cases m with
      | zero => trivial
      | succ m => exact ⟨h.1, ih h.2 m⟩

/-- `st'` has the content that `st` has before the calls, and a journal with the first `n` bytes of
what the calls append to the journal of `st`. -/
structure CutReloadable (st : Sdb × World) (calls : List SetCall) (n : Nat) (st' : Sdb × World) :
    Prop where
  content : SameContent st.1 st'.1
  now : st'.2.now = st.2.now
  journal : ∃ j j', st.1.journal = some j ∧ st'.1.journal = some j' ∧
    (st'.2.fs j').getD [] =
      ((((runSets st calls).2.fs j).getD []).drop ((st.2.fs j).getD []).length).take n

/-- The first `m` of the calls have their whole lines in the first `n` bytes, and no others. -/
structure WholeLines (calls : List SetCall) (n m : Nat) : Prop where
  le : m ≤ calls.length
  fit : (journalText ((calls.take m).map SetCall.pair)).length ≤ n
  most : m < calls.length → n < (journalText ((calls.take (m + 1)).map SetCall.pair)).length

/-- Loading a journal that has been cut off anywhere gives the state after the first of the calls,
up to the last one whose line is whole. -/
theorem replays_cut {st st' : Sdb × World} (hst : TimedReachable st) (hst' : TimedReachable st')
    {calls : List SetCall} (hacc : AcceptedCalls st calls) {n : Nat}
    (hre : CutReloadable st calls n st') (hlog : ∀ c ∈ calls, Loggable c.key c.val)
    (hsize : (journalText (calls.map SetCall.pair)).length < 0x80000000) :
    ∃ m, WholeLines calls n m ∧
      ∀ k, sdbGet (sdbJournalLoad st'.1 st'.2).2.1 (sdbJournalLoad st'.1 st'.2).2.2 k =
        sdbGet (runSets st (calls.take m)).1 (runSets st (calls.take m)).2 k := by
  obtain ⟨j, j', hj, hj', hfile⟩ := hre.journal
  rw [journal_runSets hst.timed.wf hj hacc, List.drop_left] at hfile
  have hpairs : ∀ r ∈ calls.map SetCall.pair, Loggable r.1 r.2 := by
    intro r hr
    obtain ⟨c, hc, rfl⟩ := List.mem_map.mp hr
    exact hlog c hc
  obtain ⟨m, hm, hchanges, hle, hlt⟩ := journalChanges_take hpairs hsize n
  rw [← List.map_take] at hchanges hle hlt
  rw [List.length_map] at hm hlt
  have hload : (sdbJournalLoad st'.1 st'.2).2 =
      sdbSetAll st' ((calls.take m).map SetCall.pair) := by
    rw [sdbJournalLoad, hj']
    dsimp only
    rw [hfile, hchanges]
  refine ⟨m, ⟨hm, hle, hlt⟩, fun k ↦ ?_⟩
  rw [hload]
  apply (hre.content.runSets hst.timed.wf hst'.timed.wf (hacc.take m)).get
  rw [now_sdbSetAll, now_runSets]
  exact hre.now

/-- The journal of `a=1` and `b=2` is cut off in the second line. -/
theorem replays_cut_ab :
    let calls := [⟨CStr.ofBytes [97], CStr.ofBytes [49], 0⟩,
        ⟨CStr.ofBytes [98], CStr.ofBytes [50], 0⟩]
    AcceptedCalls (journalD []) calls ∧ ∃ m, WholeLines calls 7 m ∧ ∀ k,
      sdbGet (sdbJournalLoad (journalD [97, 61, 49, 10, 98, 61, 50]).1
        (journalD [97, 61, 49, 10, 98, 61, 50]).2).2.1
        (sdbJournalLoad (journalD [97, 61, 49, 10, 98, 61, 50]).1
          (journalD [97, 61, 49, 10, 98, 61, 50]).2).2.2 k =
      sdbGet (runSets (journalD []) (calls.take m)).1
        (runSets (journalD []) (calls.take m)).2 k := by
  intro calls
  have hacc : AcceptedCalls (journalD []) calls := ⟨by decide, by decide, trivial⟩
  have hre : CutReloadable (journalD []) calls 7 (journalD [97, 61, 49, 10, 98, 61, 50]) := by
    refine ⟨?_, rfl, _, _, rfl, rfl, by decide⟩
    rw [journalD_fst [97, 61, 49, 10, 98, 61, 50]]
    exact ⟨fun _ ↦ rfl, rfl, rfl, rfl⟩
  exact ⟨hacc, replays_cut (journalD_reachable _) (journalD_reachable _) hacc hre (by decide)
    (by decide)⟩

/-! ## A crash in the middle of a write -/

/-- The files when the process has crashed after `n` bytes of the line of a write. -/
def tornWorld (w : World) (name key val : CStr) (n : Nat) : World :=
  w.setFile (sdbJournalFilename name)
    (some ((w.fs (sdbJournalFilename name)).getD [] ++ (journalLine key val).take n))

/-- What is recovered, when it is known what the journal holds. -/
theorem recovered_eq {path name : CStr} (hname : JournalName name) {w : World} {pairs : List KvRec}
    (h : journalChanges ((w.fs (sdbJournalFilename name)).getD []) = pairs) :
    recovered w path name = sdbSetAll (reopened w path name) pairs := by
  rw [recovered, sdbJournalOpen_new hname, sdbJournalLoad, reopened]
  dsimp only
  rw [setFile_fs, if_pos rfl, Option.getD_some, h]

/-- What is recovered depends on the database file and on the pairs of the journal. -/
theorem sdbGet_recovered {path name : CStr} (hname : JournalName name) {w w' : World}
    (hdir : w'.fs (sdbNewDir path name) = w.fs (sdbNewDir path name)) (hnow : w'.now = w.now)
    (hpairs : journalChanges ((w'.fs (sdbJournalFilename name)).getD []) =
      journalChanges ((w.fs (sdbJournalFilename name)).getD [])) (k : CStr) :
    sdbGet (recovered w' path name).1 (recovered w' path name).2 k =
      sdbGet (recovered w path name).1 (recovered w path name).2 k := by
  have hsdb : (reopened w' path name).1 = (reopened w path name).1 := by
    rw [reopened, reopened, sdbNew_congr hdir]
  have hwf := (reopened_sound w path name).wf
  have hwf' := (reopened_sound w' path name).wf
  rw [recovered_eq hname hpairs, recovered_eq hname rfl]
  have hframe := sdbSetAll_frame hwf (journalChanges ((w.fs (sdbJournalFilename name)).getD []))
  have hframe' := sdbSetAll_frame hwf' (journalChanges ((w.fs (sdbJournalFilename name)).getD []))
  refine SameContent.get ⟨sdbHtFindKvp_setAll hwf hwf' ?_ ?_ _, ?_, ?_, ?_⟩ ?_ k
  · rw [hsdb]
    exact fun _ ↦ rfl
  · rw [hsdb]
  · rw [hframe'.fd, hframe.fd, hsdb]
  · rw [hframe'.db, hframe.db, hsdb]
  · rw [hframe', hframe, hsdb]
  · rw [now_sdbSetAll, now_sdbSetAll]
    exact hnow

theorem journalText_take_le (pairs : List KvRec) (m : Nat) :
    (journalText (pairs.take m)).length ≤ (journalText pairs).length := by
  have h : journalText pairs = journalText (pairs.take m) ++ journalText (pairs.drop m) := by
    rw [journalText, journalText, journalText, ← List.flatMap_append, List.take_append_drop]
  rw [h, List.length_append]
  exact Nat.le_add_right _ _

/-- A line that does not end is no pair. -/
theorem journalChanges_torn {pairs : List KvRec} {r : KvRec}
    (hlog : ∀ x ∈ pairs ++ [r], Loggable x.1 x.2) (hsize : (journalText (pairs ++ [r])).length <
      0x80000000) {n : Nat} (hn : n < (journalLine r.1 r.2).length) :
    journalChanges (journalText pairs ++ (journalLine r.1 r.2).take n) = pairs := by
  obtain ⟨m, hm, hchanges, hle, hlt⟩ :=
    journalChanges_take hlog hsize ((journalText pairs).length + n)
  rw [journalText_append, List.take_length_add_append] at hchanges
  rw [List.length_append, List.length_singleton] at hm hlt
  rw [hchanges]
  rcases Nat.lt_trichotomy m pairs.length with h | rfl | h
  · -- the next line would be in the part that is whole
    have hnext := hlt (by omega)
    rw [List.take_append_of_le_length (show m + 1 ≤ pairs.length from h)] at hnext
    have hall := journalText_take_le pairs (m + 1)
    omega
  · exact List.take_left
  · -- the torn line would be whole
    obtain rfl : m = pairs.length + 1 := by omega
    rw [List.take_of_length_le (by rw [List.length_append, List.length_singleton]),
      journalText_append, List.length_append] at hle
    omega

/-- The invariant of the runs whose steps are all safe. -/
theorem JournalReach.journaled {path name : CStr} (hname : JournalName name) {st : Sdb × World}
    (h : JournalReach path name (NoChange path name)
      (fun op st ↦ op.Plain st ∧ op.Safe path name st) st) : Journaled path name st := by
  induction h with
  | start hno => exact .open hname hno
  | step op _ hop ih =>
      obtain ⟨hplain, hsafe⟩ := hop
      cases op with
      | set key val cas => exact ih.set hplain hsafe
      | unset key cas => exact ih.set hplain hsafe
      | sync => exact ih.sync hname hplain hsafe
      | crash => exact .open hname hsafe

/-- A crash in the middle of a write: in every run, what is recovered from the files is what the
process saw before the write, up to the last byte of its line, and what it would have seen after it
from then on. -/
theorem torn_write {path name : CStr} (hname : JournalName name) {st : Sdb × World}
    (h : JournalReach path name (NoChange path name)
      (fun op st ↦ op.Plain st ∧ op.Safe path name st) st) {key val : CStr} {cas : Nat}
    (hpair : Loggable key val) (hsafe : SafeSet st key val cas) (n : Nat) (k : CStr) :
    sdbGet (recovered (tornWorld st.2 name key val n) path name).1
        (recovered (tornWorld st.2 name key val n) path name).2 k =
      if n < (journalLine key val).length then sdbGet st.1 st.2 k
      else sdbGet (sdbSet st.1 st.2 key val cas).2.1 (sdbSet st.1 st.2 key val cas).2.2 k := by
  have hj := h.journaled hname
  obtain ⟨pairs, hfile, hlog, hsize, hagree⟩ := id hj.replay
  have hdir : (tornWorld st.2 name key val n).fs (sdbNewDir path name) =
      st.2.fs (sdbNewDir path name) := by
    rw [tornWorld, setFile_fs, if_neg (journal_ne_dir path name).symm]
  have htorn : ((tornWorld st.2 name key val n).fs (sdbJournalFilename name)).getD [] =
      journalText pairs ++ (journalLine key val).take n := by
    rw [tornWorld, setFile_fs, if_pos rfl, Option.getD_some, hfile, Option.getD_some]
  have hlog' : ∀ x ∈ pairs ++ [(key, val)], Loggable x.1 x.2 := by
    intro x hx
    rcases List.mem_append.mp hx with hx | hx
    · exact hlog x hx
    · rw [List.mem_singleton.mp hx]
      exact hpair
  have hsize' : (journalText (pairs ++ [(key, val)])).length < 0x80000000 := by
    have hroom := hsafe.room _ hj.journal
    rw [hfile, Option.getD_some] at hroom
    rw [journalText_append, List.length_append, length_journalLine]
    have hmin := Nat.min_le_right 255 (key.length + val.length + 2)
    exact Nat.lt_of_le_of_lt (Nat.add_le_add_left hmin _) hroom
  split
  · next hn =>
      rw [sdbGet_recovered hname hdir rfl ?_ k]
      · exact hj.recovers hname k
      · rw [htorn, hfile, Option.getD_some, journalChanges_torn hlog' hsize' hn,
          journalChanges_journalText hlog hsize]
  · next hn =>
      have hlen : ¬ (key.length ≥ 0xff ∨ val.length ≥ 0xffffff) := by
        have hle := hpair.length
        omega
      have hworld : (sdbSet st.1 st.2 key val cas).2.2 = tornWorld st.2 name key val n := by
        rw [hj.set_world hfile hlen cas, tornWorld, hfile, Option.getD_some,
          List.take_of_length_le (Nat.not_lt.mp hn), journalText_append]
      have hafter := (hj.set hpair hsafe).recovers hname k
      rwa [hworld] at hafter ⊢

/-- The process crashes in the middle of the first line. -/
theorem torn_write_a :
    let st := openJournal World.empty .empty (CStr.ofBytes [100])
    let w := tornWorld st.2 (CStr.ofBytes [100]) (CStr.ofBytes [97]) (CStr.ofBytes [49]) 3
    sdbGet (recovered w .empty (CStr.ofBytes [100])).1 (recovered w .empty (CStr.ofBytes [100])).2
      (CStr.ofBytes [97]) = sdbGet st.1 st.2 (CStr.ofBytes [97]) := by
  intro st w
  have hname : JournalName (CStr.ofBytes [100]) := ⟨by decide, by decide⟩
  have hempty : sdbHtFindKvp st.1 (CStr.ofBytes [97]) = none := by decide
  have hstart : NoChange .empty (CStr.ofBytes [100]) World.empty := by
    intro r hr
    have hno : journalChanges ((World.empty.fs (sdbJournalFilename (CStr.ofBytes [100]))).getD []) =
        [] := by decide
    rw [hno] at hr
    cases hr
  have hsafe : SafeSet st (CStr.ofBytes [97]) (CStr.ofBytes [49]) 0 := by
    constructor
    · intro kv old hkv
      rw [hempty] at hkv
      cases hkv
    · intro kv hkv
      rw [hempty] at hkv
      cases hkv
    · intro j hj
      obtain rfl := Option.some.inj hj
      decide
  exact (torn_write hname (.start hstart) (by decide) hsafe 3 (CStr.ofBytes [97])).trans
    (if_pos (by decide))

end SdbStore
