import Mathlib.Algebra.Order.BigOperators.Group.List
import Mathlib.Algebra.Order.Group.Nat
import SdbStore.Capacity
import SdbStore.Lib.Lines
import SdbStore.Reset

/-!
# The journal

`journal.c`: every write that passes the length checks is logged as a line `key=value`,
and loading the journal sets the pairs again.  Nothing is escaped, and a line is cut to
the size of its buffer, so that a key with `=`, a newline or a long pair is read back as
something else, or runs into the next line.  `journalPairs_iff` says which calls can be
read back from what they log; the replay of such calls gives the state that they left.

The line is written before the counter of the entry is looked at.  `noTrace_iff` says which
writes leave something behind although they return false.
-/

namespace SdbStore

open Lib

/-- What `sdb_journal_log` writes for a pair. -/
def journalLine (key val : CStr) : Bytes := (key.val ++ 61 :: val.val ++ [10]).take 255

/-- The pair of a line of the journal, if it has a `=`. -/
def journalPair (line : Bytes) : Option KvRec :=
  if 61 ∈ line then
    some (CStr.ofBytes (line.takeWhile (· ≠ 61)), CStr.ofBytes ((line.dropWhile (· ≠ 61)).tail))
  else none

/-- The pairs that are read from the text of a journal. -/
def journalPairs (str : CStr) : List KvRec := (lines 10 str.val).filterMap journalPair

/-- The pairs that `sdb_journal_load` finds in a file.  The size is an `int`, and the text
ends at its first NUL. -/
def journalChanges (f : Bytes) : List KvRec :=
  let sz := ut32 f.length
  if sz < 1 ∨ sz ≥ 0x80000000 then [] else journalPairs (CStr.ofBytes (f.take sz))

/-- `sdb_journal_load`. -/
def sdbJournalLoad (s : Sdb) (w : World) : Nat × Sdb × World :=
  match s.journal with
  | none => (0, s, w)
  | some j =>
      let pairs := journalChanges ((w.fs j).getD [])
      (pairs.length, sdbSetAll (s, w) pairs)

/-! ## One line -/

/-- A pair that is read back from its line. -/
structure Loggable (key val : CStr) : Prop where
  key_eq : 61 ∉ key.val
  key_nl : 10 ∉ key.val
  val_nl : 10 ∉ val.val
  length : key.length + val.length + 2 ≤ 255

instance (key val : CStr) : Decidable (Loggable key val) :=
  decidable_of_iff (61 ∉ key.val ∧ 10 ∉ key.val ∧ 10 ∉ val.val ∧ key.length + val.length + 2 ≤ 255)
    ⟨fun h ↦ ⟨h.1, h.2.1, h.2.2.1, h.2.2.2⟩, fun h ↦ ⟨h.1, h.2, h.3, h.4⟩⟩

theorem length_line (key val : CStr) :
    (key.val ++ 61 :: val.val ++ [10]).length = key.length + val.length + 2 := by
  simp only [List.length_append, List.length_cons, List.length_nil, CStr.length]
  omega

theorem length_journalLine (key val : CStr) :
    (journalLine key val).length = min 255 (key.length + val.length + 2) := by
  rw [journalLine, List.length_take, length_line]

theorem Loggable.line {key val : CStr} (h : Loggable key val) :
    journalLine key val = (key.val ++ 61 :: val.val) ++ 10 :: [] := by
  rw [journalLine, List.take_of_length_le (by rw [length_line]; exact h.length)]

/-- The pair of a line whose key has no `=`. -/
theorem journalPair_append {key val : CStr} (h : 61 ∉ key.val) :
    journalPair (key.val ++ 61 :: val.val) = some (key, val) := by
  have hall : ∀ b ∈ key.val, decide (b ≠ 61) = true := by
    intro b hb
    apply decide_eq_true
    rintro rfl
    exact h hb
  have htake : (key.val ++ 61 :: val.val).takeWhile (· ≠ 61) = key.val := by
    rw [List.takeWhile_append_of_pos hall, List.takeWhile_cons_of_neg (by decide), List.append_nil]
  have hdrop : (key.val ++ 61 :: val.val).dropWhile (· ≠ 61) = 61 :: val.val := by
    rw [List.dropWhile_append_of_pos hall, List.dropWhile_cons_of_neg (by decide)]
  rw [journalPair, if_pos (by simp), htake, hdrop, List.tail_cons, CStr.ofBytes_val,
    CStr.ofBytes_val]

/-- What a line is read as fits into it, without a `=` in the key. -/
theorem journalPair_some {line : Bytes} {r : KvRec} (h : journalPair line = some r) :
    61 ∉ r.1.val ∧ (∀ b ∈ r.1.val, b ∈ line) ∧ (∀ b ∈ r.2.val, b ∈ line) ∧
      r.1.length + r.2.length + 1 ≤ line.length := by
  unfold journalPair at h
  split at h
  · next hmem =>
      cases h
      have hsplit : line.takeWhile (· ≠ 61) ++ line.dropWhile (· ≠ 61) = line :=
        List.takeWhile_append_dropWhile
      have hne : line.dropWhile (· ≠ 61) ≠ [] := by
        intro hnil
        rw [hnil, List.append_nil] at hsplit
        rw [← hsplit] at hmem
        exact absurd (List.mem_takeWhile_imp hmem) (by decide)
      -- a C string is a part of the bytes it is read from
      have hsub : ∀ l : Bytes, (CStr.ofBytes l).val.Sublist l := fun l ↦ List.takeWhile_sublist _
      have hkey := hsub (line.takeWhile (· ≠ 61))
      have hval := hsub (line.dropWhile (· ≠ 61)).tail
      refine ⟨fun h ↦ ?_, fun b hb ↦ ?_, fun b hb ↦ ?_, ?_⟩
      · exact absurd (List.mem_takeWhile_imp (hkey.subset h)) (by decide)
      · exact List.takeWhile_sublist _ |>.subset (hkey.subset hb)
      · exact List.dropWhile_sublist _ |>.subset (List.mem_of_mem_tail (hval.subset hb))
      · have hk := hkey.length_le
        have hv := hval.length_le
        have hlen := congrArg List.length hsplit
        rw [List.length_append] at hlen
        rw [List.length_tail] at hv
        have hpos := List.length_pos_iff.mpr hne
        show (CStr.ofBytes _).val.length + (CStr.ofBytes _).val.length + 1 ≤ _
        omega
  · cases h

/-! ## The text of a journal -/

/-- What the calls write to the journal. -/
def journalText (pairs : List KvRec) : Bytes := pairs.flatMap fun r ↦ journalLine r.1 r.2

theorem not_mem_journalText (pairs : List KvRec) : (0 : UInt8) ∉ journalText pairs := by
  intro h
  obtain ⟨r, -, hr⟩ := List.mem_flatMap.mp h
  have hmem := List.mem_of_mem_take hr
  simp only [List.mem_append, List.mem_cons, List.not_mem_nil, or_false] at hmem
  rcases hmem with (hk | h61 | hv) | h10
  · exact r.1.property hk
  · exact absurd h61 (by decide)
  · exact r.2.property hv
  · exact absurd h10 (by decide)

/-- The text of a journal as a string. -/
def journalStr (pairs : List KvRec) : CStr := ⟨journalText pairs, not_mem_journalText pairs⟩

theorem journalPairs_of_loggable {pairs : List KvRec} (h : ∀ r ∈ pairs, Loggable r.1 r.2) :
    journalPairs (journalStr pairs) = pairs := by
  induction pairs with
  | nil =>
      exact congrArg (List.filterMap journalPair)
        (lines_of_not_mem (by simp [journalStr, journalText]))
  | cons r pairs ih =>
      have hr := h r List.mem_cons_self
      have hno : 10 ∉ r.1.val ++ 61 :: r.2.val := by
        simp only [List.mem_append, List.mem_cons, not_or]
        exact ⟨hr.key_nl, by decide, hr.val_nl⟩
      have htext : journalText (r :: pairs) =
          (r.1.val ++ 61 :: r.2.val) ++ 10 :: journalText pairs := by
        rw [journalText, List.flatMap_cons, hr.line, List.append_assoc]
        rfl
      have hlines : lines 10 (journalText (r :: pairs)) =
          (r.1.val ++ 61 :: r.2.val) :: lines 10 (journalText pairs) := by
        rw [htext, lines_append hno]
      have hrest := ih fun r' hr' ↦ h r' (List.mem_cons_of_mem _ hr')
      rw [journalPairs, journalStr] at hrest ⊢
      rw [hlines, List.filterMap_cons, journalPair_append hr.key_eq, hrest]

/-- The length of the line of a pair before it is cut. -/
def lineLength (r : KvRec) : Nat := r.1.length + r.2.length + 2

/-- What is read from lines is not longer than the lines. -/
theorem sum_filterMap_journalPair (ls : List Bytes) :
    ((ls.filterMap journalPair).map lineLength).sum ≤ (ls.map fun x ↦ x.length + 1).sum := by
  induction ls with
  | nil => exact Nat.le_refl _
  | cons x ls ih =>
      rw [List.map_cons, List.sum_cons, List.filterMap_cons]
      cases hx : journalPair x with
      | none => exact Nat.le_trans ih (Nat.le_add_left _ _)
      | some r =>
          obtain ⟨-, -, -, hlen⟩ := journalPair_some hx
          have hr : lineLength r ≤ x.length + 1 := by
            rw [lineLength]
            omega
          simp only [List.map_cons, List.sum_cons]
          exact Nat.add_le_add hr ih

theorem length_journalText (pairs : List KvRec) :
    (journalText pairs).length = (pairs.map fun r ↦ min 255 (lineLength r)).sum := by
  rw [journalText, List.length_flatMap]
  congr 1
  apply List.map_congr_left
  intro r _
  exact length_journalLine r.1 r.2

/-- No line has been cut when the whole has not become shorter. -/
theorem lineLength_le_of_sum {pairs : List KvRec}
    (h : (pairs.map lineLength).sum ≤ (pairs.map fun r ↦ min 255 (lineLength r)).sum) :
    ∀ r ∈ pairs, lineLength r ≤ 255 := by
  induction pairs with
  | nil => exact fun r hr ↦ absurd hr (by simp)
  | cons r pairs ih =>
      have hle : (pairs.map fun r ↦ min 255 (lineLength r)).sum ≤ (pairs.map lineLength).sum :=
        List.sum_le_sum fun r _ ↦ Nat.min_le_right _ _
      simp only [List.map_cons, List.sum_cons] at h
      have hr := Nat.min_le_right 255 (lineLength r)
      rintro r' hr'
      rcases List.mem_cons.mp hr' with rfl | hr'
      · omega
      · exact ih (by omega) r' hr'

/-- **The pairs are read back** from what is written for them exactly when each of them is
loggable: one that is not spoils the text, whatever the others are. -/
theorem journalPairs_iff (pairs : List KvRec) :
    journalPairs (journalStr pairs) = pairs ↔ ∀ r ∈ pairs, Loggable r.1 r.2 := by
  refine ⟨fun h ↦ ?_, journalPairs_of_loggable⟩
  have hlines := length_lines 10 (journalText pairs)
  have hsum : (pairs.map lineLength).sum ≤ (pairs.map fun r ↦ min 255 (lineLength r)).sum := by
    rw [← length_journalText]
    refine le_trans ?_ hlines
    conv_lhs => rw [← h]
    exact sum_filterMap_journalPair _
  intro r hr
  have hlen := lineLength_le_of_sum hsum r hr
  rw [← h] at hr
  obtain ⟨line, hline, hpair⟩ := List.mem_filterMap.mp hr
  obtain ⟨heq, hkey, hval, -⟩ := journalPair_some hpair
  have hnl : 10 ∉ line := not_mem_of_mem_lines hline
  exact ⟨heq, fun hb ↦ hnl (hkey _ hb), fun hb ↦ hnl (hval _ hb), hlen⟩

/-! ## Replaying calls -/

/-- Two databases with the same content: the same entries over the same file. -/
structure SameContent (s s' : Sdb) : Prop where
  find : ∀ k, sdbHtFindKvp s' k = sdbHtFindKvp s k
  fd : s'.fd = s.fd
  db : s'.db = s.db
  timestamped : s'.timestamped = s.timestamped

/-- A lookup depends on the content and on the time. -/
theorem SameContent.get {s s' : Sdb} (h : SameContent s s') {w w' : World} (hnow : w'.now = w.now)
    (k : CStr) : sdbGet s' w' k = sdbGet s w k := by
  have hdisk : sdbGetDisk s' k = sdbGetDisk s k := by
    rw [sdbGetDisk, sdbGetDisk, h.fd, h.db]
  rw [sdbGet, sdbGet]
  unfold sdbConstGetLen
  rw [h.find, h.timestamped, hnow, hdisk]
  split
  · rfl
  · split
    · rfl
    · split
      · rfl
      · split
        · rfl
        · rfl

/-- The counter matters only for whether a write is accepted. -/
theorem setEntry_accepted {e : Option SdbKv} {disk : Int} {key val : CStr} {owned : Bool}
    {cas : Nat} (h : (setEntry e disk key val owned cas).1 ≠ 0) :
    (setEntry e disk key val owned 0).2 = (setEntry e disk key val owned cas).2 := by
  unfold setEntry at h ⊢
  split
  · rfl
  · next hlen =>
      rw [if_neg hlen] at h
      split
      · rfl
      · next kv =>
          dsimp only at h
          split
          · rfl
          · next old hv =>
              simp only [hv] at h
              by_cases hdisk : disk ≠ 0
              · rw [if_pos hdisk] at h
                rw [if_pos hdisk, if_pos hdisk, if_neg (by simp)]
                by_cases hcas : cas ≠ 0 ∧ kv.cas ≠ cas
                · rw [if_pos hcas] at h
                  exact absurd rfl h
                · rw [if_neg hcas]
              · rw [if_neg hdisk, if_neg hdisk]

/-- A write that is accepted and the same write with no counter do the same. -/
theorem SameContent.set {s s' : Sdb} (h : SameContent s s') (hw : s.WF) (hw' : s'.WF) {w w' : World}
    {key val : CStr} {cas : Nat} (hacc : (sdbSet s w key val cas).1 = true) :
    SameContent (sdbSet s w key val cas).2.1 (sdbSet s' w' key val 0).2.1 := by
  have hspec := sdbSetInternal_spec hw w key val false cas
  have hspec' := sdbSetInternal_spec hw' w' key val false 0
  have hret : (sdbSetInternal s w key val false cas).1 ≠ 0 := of_decide_eq_true hacc
  rw [hspec.ret] at hret
  refine ⟨fun k ↦ ?_, ?_, ?_, ?_⟩
  · refine (hspec'.find k).trans (Eq.trans ?_ (hspec.find k).symm)
    rw [h.find, h.find, h.db, setEntry_accepted hret]
  · exact hspec'.frame.fd.trans (h.fd.trans hspec.frame.fd.symm)
  · exact hspec'.frame.db.trans (h.db.trans hspec.frame.db.symm)
  · have ht := congrArg Sdb.timestamped hspec.frame
    have ht' := congrArg Sdb.timestamped hspec'.frame
    exact ht'.trans (h.timestamped.trans ht.symm)

/-- A write that is not too long is logged. -/
theorem sdbSetInternal_log {key val : CStr}
    (hlen : ¬ (key.length ≥ 0xff ∨ val.length ≥ 0xffffff)) (s : Sdb) (w : World) (owned : Bool)
    (cas : Nat) :
    (sdbSetInternal s w key val owned cas).2.2 = sdbJournalLog s w key val := by
  rw [sdbSetInternal, if_neg hlen]
  dsimp only
  split
  · rfl
  · split
    · rfl
    · split
      · split
        · rfl
        · split
          · rfl
          · rfl
      · rfl

theorem not_long_of_accepted {s : Sdb} {w : World} {key val : CStr} {cas : Nat}
    (h : (sdbSet s w key val cas).1 = true) :
    ¬ (key.length ≥ 0xff ∨ val.length ≥ 0xffffff) := by
  intro hlen
  have hret : (sdbSetInternal s w key val false cas).1 ≠ 0 := of_decide_eq_true h
  rw [sdbSetInternal, if_pos hlen] at hret
  exact hret rfl

/-- The calls are made one after another. -/
def runSets (st : Sdb × World) (calls : List SetCall) : Sdb × World :=
  calls.foldl (fun st c ↦ c.run st) st

/-- Every call returns true. -/
def AcceptedCalls : Sdb × World → List SetCall → Prop
  | _, [] => True
  | st, c :: calls =>
      (sdbSet st.1 st.2 c.key c.val c.cas).1 = true ∧ AcceptedCalls (c.run st) calls

/-- What a call logs. -/
def SetCall.pair (c : SetCall) : KvRec := (c.key, c.val)

/-- Setting the pairs of accepted calls again gives the state that the calls left. -/
theorem SameContent.runSets {calls : List SetCall} {st st' : Sdb × World}
    (h : SameContent st.1 st'.1) (hw : st.1.WF) (hw' : st'.1.WF) (hacc : AcceptedCalls st calls) :
    SameContent (runSets st calls).1 (sdbSetAll st' (calls.map SetCall.pair)).1 := by
  induction calls generalizing st st' with
  | nil => exact h
  | cons c calls ih =>
      exact ih (h.set hw hw' hacc.1) (sdbSetInternal_spec hw st.2 c.key c.val false c.cas).wf
        (sdbSetInternal_spec hw' st'.2 c.key c.val false 0).wf hacc.2

/-- What accepted calls append to the journal. -/
theorem journal_runSets {calls : List SetCall} {st : Sdb × World} {j : CStr} (hw : st.1.WF)
    (hj : st.1.journal = some j) (hacc : AcceptedCalls st calls) :
    ((runSets st calls).2.fs j).getD [] =
      (st.2.fs j).getD [] ++ journalText (calls.map SetCall.pair) := by
  induction calls generalizing st with
  | nil => exact (List.append_nil _).symm
  | cons c calls ih =>
      have hspec := sdbSetInternal_spec hw st.2 c.key c.val false c.cas
      have hlog := sdbSetInternal_log (not_long_of_accepted hacc.1) st.1 st.2 false c.cas
      have hline : ((c.run st).2.fs j).getD [] =
          (st.2.fs j).getD [] ++ journalLine c.key c.val := by
        refine (congrArg (fun w : World ↦ (w.fs j).getD []) hlog).trans ?_
        rw [sdbJournalLog, hj]
        dsimp only
        rw [setFile_fs, if_pos rfl]
        rfl
      refine (@ih (c.run st) hspec.wf (hspec.frame.journal.trans hj) hacc.2).trans ?_
      rw [hline, List.append_assoc]
      rfl

theorem now_runSets (calls : List SetCall) (st : Sdb × World) :
    (runSets st calls).2.now = st.2.now := by
  induction calls generalizing st with
  | nil => rfl
  | cons c calls ih =>
      exact (ih (c.run st)).trans (now_sdbSetInternal st.1 st.2 c.key c.val false c.cas)

theorem now_sdbSetAll (pairs : List KvRec) (st : Sdb × World) :
    (sdbSetAll st pairs).2.now = st.2.now := by
  induction pairs generalizing st with
  | nil => rfl
  | cons r pairs ih => exact (ih _).trans (now_sdbSetInternal st.1 st.2 r.1 r.2 false 0)

/-- **Loading a journal** that holds the text of loggable pairs sets the pairs. -/
theorem journalChanges_journalText {pairs : List KvRec} (hlog : ∀ r ∈ pairs, Loggable r.1 r.2)
    (hsize : (journalText pairs).length < 0x80000000) :
    journalChanges (journalText pairs) = pairs := by
  rw [journalChanges]
  rw [ut32_of_lt (by omega)]
  by_cases hnil : pairs = []
  · rw [hnil]
    rfl
  · obtain ⟨r, hr⟩ := List.exists_mem_of_ne_nil pairs hnil
    have hpos : 1 ≤ (journalText pairs).length := by
      rw [length_journalText]
      refine le_trans ?_ (List.single_le_sum (by simp) _ (List.mem_map_of_mem hr))
      rw [lineLength]
      omega
    have hstr : CStr.ofBytes ((journalText pairs).take (journalText pairs).length) =
        journalStr pairs := by
      rw [List.take_length]
      exact CStr.ofBytes_val (journalStr pairs)
    rw [if_neg (by omega), hstr, journalPairs_of_loggable hlog]

theorem sdbJournalLoad_eq {s : Sdb} {w : World} {j : CStr} {pairs : List KvRec}
    (hj : s.journal = some j) (hfile : (w.fs j).getD [] = journalText pairs)
    (hlog : ∀ r ∈ pairs, Loggable r.1 r.2) (hsize : (journalText pairs).length < 0x80000000) :
    (sdbJournalLoad s w).2 = sdbSetAll (s, w) pairs := by
  rw [sdbJournalLoad, hj]
  dsimp only
  rw [hfile, journalChanges_journalText hlog hsize]

/-- `st'` has the content that `st` has before the calls, and a journal with what the calls
append to the journal of `st`. -/
structure Reloadable (st : Sdb × World) (calls : List SetCall) (st' : Sdb × World) : Prop where
  content : SameContent st.1 st'.1
  now : st'.2.now = st.2.now
  journal : ∃ j j', st.1.journal = some j ∧ st'.1.journal = some j' ∧
    (st'.2.fs j').getD [] =
      (((runSets st calls).2.fs j).getD []).drop ((st.2.fs j).getD []).length

/-- Loading the journal gives every key the value that the calls gave it. -/
def Replays (st : Sdb × World) (calls : List SetCall) (st' : Sdb × World) : Prop :=
  let r := runSets st calls
  let l := (sdbJournalLoad st'.1 st'.2).2
  ∀ k, sdbGet l.1 l.2 k = sdbGet r.1 r.2 k

/-- **The journal replays** what was accepted, in any run, when every pair is loggable and the
journal is shorter than two gigabytes.  Pairs are read back from the text of a journal only if all
are loggable. -/
theorem replays_of_loggable {st st' : Sdb × World} (hst : TimedReachable st)
    (hst' : TimedReachable st') {calls : List SetCall} (hacc : AcceptedCalls st calls)
    (hre : Reloadable st calls st') (hlog : ∀ c ∈ calls, Loggable c.key c.val)
    (hsize : (journalText (calls.map SetCall.pair)).length < 0x80000000) :
    Replays st calls st' ∧
      ∀ pairs, journalPairs (journalStr pairs) = pairs ↔ ∀ r ∈ pairs, Loggable r.1 r.2 := by
  refine ⟨?_, journalPairs_iff⟩
  obtain ⟨j, j', hj, hj', hfile⟩ := hre.journal
  rw [journal_runSets hst.timed.wf hj hacc, List.drop_left] at hfile
  have hpairs : ∀ r ∈ calls.map SetCall.pair, Loggable r.1 r.2 := by
    intro r hr
    obtain ⟨c, hc, rfl⟩ := List.mem_map.mp hr
    exact hlog c hc
  have hload := sdbJournalLoad_eq hj' hfile hpairs hsize
  intro k
  rw [hload]
  apply (hre.content.runSets hst.timed.wf hst'.timed.wf hacc).get
  rw [now_sdbSetAll, now_runSets]
  exact hre.now

/-- A new database `d` without a file, with an open journal that holds `f`. -/
def journalD (f : Bytes) : Sdb × World :=
  Op.run .journalOpen (sdbNew (World.empty.setFile (CStr.ofBytes [100, 46, 106, 111, 117, 114, 110,
    97, 108]) (some f)) .empty (CStr.ofBytes [100]))

theorem journalD_reachable (f : Bytes) : TimedReachable (journalD f) :=
  .of_reachable (.step .journalOpen (.start ⟨_, _, _, rfl⟩) trivial)

theorem journalD_fst (f : Bytes) : (journalD f).1 = (journalD []).1 := rfl

theorem reloadable_journalD {calls : List SetCall} {f : Bytes}
    (hf : f = ((runSets (journalD []) calls).2.fs (CStr.ofBytes [100, 46, 106, 111, 117, 114, 110,
      97, 108])).getD []) : Reloadable (journalD []) calls (journalD f) where
  content := by
    rw [journalD_fst f]
    exact ⟨fun _ ↦ rfl, rfl, rfl, rfl⟩
  now := rfl
  journal := ⟨_, _, rfl, rfl, hf⟩

/-- The pair `a=1` is replayed. -/
theorem replays_a :
    let calls := [⟨CStr.ofBytes [97], CStr.ofBytes [49], 0⟩]
    AcceptedCalls (journalD []) calls ∧
      Replays (journalD []) calls (journalD [97, 61, 49, 10]) := by
  intro calls
  have hacc : AcceptedCalls (journalD []) calls := ⟨by decide, trivial⟩
  exact ⟨hacc, (replays_of_loggable (journalD_reachable _) (journalD_reachable _) hacc
    (reloadable_journalD (by decide)) (by decide) (by decide)).1⟩

/-- The key `a=b` is set to `c`: the journal reads `a=b=c`, and the replay sets `a`. -/
theorem not_replays_eq : ∃ st st' calls, TimedReachable st ∧ TimedReachable st' ∧
    AcceptedCalls st calls ∧ Reloadable st calls st' ∧
    (∀ c ∈ calls, 1 ≤ c.key.length ∧ c.key.length ≤ 254) ∧ ¬ Replays st calls st' := by
  refine ⟨journalD [], journalD [97, 61, 98, 61, 99, 10],
    [⟨CStr.ofBytes [97, 61, 98], CStr.ofBytes [99], 0⟩], journalD_reachable _, journalD_reachable _,
    ⟨by decide, trivial⟩, reloadable_journalD (by decide), by decide, fun h ↦ ?_⟩
  exact absurd (h (CStr.ofBytes [97, 61, 98])) (by decide)

/-! ## Writes that are refused -/

/-- What is recovered from the files: a new database, with its journal loaded. -/
def recovered (w : World) (path name : CStr) : Sdb × World :=
  let st := sdbNew w path name
  let st := (sdbJournalOpen st.1 st.2).2
  (sdbJournalLoad st.1 st.2).2

/-- If the write returns false, then the table and the journal are what they were, and so is
what can be recovered. -/
def NoTrace (st : Sdb × World) (key val : CStr) (owned : Bool) (cas : Nat) : Prop :=
  let r := sdbSetInternal st.1 st.2 key val owned cas
  r.1 = 0 → r.2.1.ht = st.1.ht ∧ (∀ j, st.1.journal = some j → r.2.2.fs j = st.2.fs j) ∧
    ∀ path name k, sdbGet (recovered r.2.2 path name).1 (recovered r.2.2 path name).2 k =
      sdbGet (recovered st.2 path name).1 (recovered st.2 path name).2 k

/-- The write is refused, or has no effect, and returns false: its counter is not that of the
entry, or the counter of the entry is 0. -/
def Unchanging (kv : SdbKv) (old val : CStr) (cas : Nat) : Prop :=
  (cas ≠ 0 ∧ kv.cas ≠ cas) ∨ (val = old ∧ kv.cas = 0)

/-- A write that returns false and leaves something behind.  It is not too long and finds an
entry with a value; and either it does nothing to the entry but is in the journal, or it
changes the entry and the counter wraps around to 0. -/
def LeavesTrace (s : Sdb) (key val : CStr) (cas : Nat) : Prop :=
  ¬ (key.length ≥ 0xff ∨ val.length ≥ 0xffffff) ∧
    ∃ kv old, sdbHtFindKvp s key = some kv ∧ kv.value = some old ∧
      (((cdbLookup s.db key).1 ≠ 0 ∧ Unchanging kv old val cas ∧ s.journal ≠ none) ∨
        (((cdbLookup s.db key).1 = 0 ∨ ¬ (cas ≠ 0 ∧ kv.cas ≠ cas) ∧ val ≠ old) ∧
          nextcas kv = 0))

theorem journalLine_ne_nil (key val : CStr) : journalLine key val ≠ [] := by
  intro h
  have hlen := length_journalLine key val
  rw [h, List.length_nil] at hlen
  omega

/-- What is logged can be seen. -/
theorem sdbJournalLog_ne {s : Sdb} {w : World} {j : CStr} (hj : s.journal = some j)
    (key val : CStr) : (sdbJournalLog s w key val).fs j ≠ w.fs j := by
  rw [sdbJournalLog, hj]
  dsimp only
  rw [setFile_fs, if_pos rfl]
  cases w.fs j with
  | none => simp
  | some f =>
      rw [Option.getD_some, ne_eq, Option.some.injEq, List.append_right_eq_self]
      exact journalLine_ne_nil key val

section Trace

variable {st : Sdb × World} (hw : st.1.WF) {key val : CStr} {owned : Bool} {cas : Nat}
include hw

/-- Such a write does leave something behind. -/
theorem LeavesTrace.not_noTrace (h : LeavesTrace st.1 key val cas) :
    ¬ NoTrace st key val owned cas := by
  intro hno
  obtain ⟨hlen, kv, old, hf, hv, hcase⟩ := h
  have hspec := sdbSetInternal_spec hw st.2 key val owned cas
  have hret := hspec.ret
  have hfind := hspec.find key
  rw [if_pos rfl] at hfind
  rw [hf] at hret hfind
  unfold setEntry at hret hfind
  simp only [if_neg hlen, hv] at hret hfind
  rcases hcase with ⟨hdisk, hsame, hj⟩ | ⟨hchange, hwrap⟩
  · -- it is in the journal
    obtain ⟨j, hj⟩ := Option.ne_none_iff_exists'.mp hj
    have hzero : (sdbSetInternal st.1 st.2 key val owned cas).1 = 0 := by
      rw [hret, if_pos hdisk]
      rcases hsame with hcas | ⟨hval, hcas⟩
      · rw [if_pos hcas]
      · rw [if_pos hval]
        split
        · rfl
        · exact hcas
    have hkeep := (hno hzero).2.1 j hj
    rw [sdbSetInternal_log hlen] at hkeep
    exact sdbJournalLog_ne hj key val hkeep
  · -- the entry is gone, or has another value
    have hht : ∀ e, sdbHtFindKvp (sdbSetInternal st.1 st.2 key val owned cas).2.1 key = e →
        e ≠ some kv → (sdbSetInternal st.1 st.2 key val owned cas).1 = 0 → False := by
      intro e he hne hzero
      have hsame := (hno hzero).1
      rw [sdbHtFindKvp, hsame] at he
      exact hne (he.symm.trans hf)
    rcases hchange with hdisk | ⟨hcas, hval⟩
    · rw [if_neg (not_not_intro hdisk)] at hret hfind
      exact hht _ hfind (by simp) (hret.trans hwrap)
    · by_cases hdisk : (cdbLookup st.1.db key).1 ≠ 0
      · rw [if_pos hdisk, if_neg hcas, if_neg hval] at hret hfind
        refine hht _ hfind ?_ (hret.trans hwrap)
        intro heq
        have hold := congrArg SdbKv.value (Option.some.inj heq)
        rw [hv] at hold
        exact hval (Option.some.inj hold)
      · rw [if_neg hdisk] at hret hfind
        exact hht _ hfind (by simp) (hret.trans hwrap)

omit hw in
/-- Every other write that returns false leaves everything as it was. -/
theorem noTrace_of_not_leavesTrace (h : ¬ LeavesTrace st.1 key val cas) :
    NoTrace st key val owned cas := by
  have hsame : ∀ {r : Nat × Sdb × World}, r.2.1.ht = st.1.ht → r.2.2 = st.2 →
      r.2.1.ht = st.1.ht ∧ (∀ j, st.1.journal = some j → r.2.2.fs j = st.2.fs j) ∧
      ∀ path name k, sdbGet (recovered r.2.2 path name).1 (recovered r.2.2 path name).2 k =
        sdbGet (recovered st.2 path name).1 (recovered st.2 path name).2 k := by
    intro r hht hworld
    rw [hworld]
    exact ⟨hht, fun _ _ ↦ rfl, fun _ _ _ ↦ rfl⟩
  intro hzero
  unfold sdbSetInternal at hzero ⊢
  by_cases hlen : key.length ≥ 0xff ∨ val.length ≥ 0xffffff
  · rw [if_pos hlen]
    exact hsame rfl rfl
  · rw [if_neg hlen] at hzero ⊢
    dsimp only at hzero ⊢
    split at hzero
    · cases hzero
    · next kv hf =>
        split at hzero
        · cases hzero
        · next old hv =>
            by_cases hdisk : (cdbLookup st.1.db key).1 ≠ 0
            · have hquiet : Unchanging kv old val cas → sdbJournalLog st.1 st.2 key val = st.2 := by
                intro hun
                have hj : st.1.journal = none := by
                  by_contra hj
                  exact h ⟨hlen, kv, old, hf, hv, .inl ⟨hdisk, hun, hj⟩⟩
                rw [sdbJournalLog, hj]
              rw [if_pos hdisk] at hzero ⊢
              by_cases hcas : cas ≠ 0 ∧ kv.cas ≠ cas
              · rw [if_pos hcas]
                exact hsame rfl (hquiet (.inl hcas))
              · rw [if_neg hcas] at hzero ⊢
                by_cases hval : val = old
                · rw [if_pos hval] at hzero ⊢
                  exact hsame rfl (hquiet (.inr ⟨hval, hzero⟩))
                · rw [if_neg hval] at hzero
                  exact absurd ⟨hlen, kv, old, hf, hv, .inr ⟨.inr ⟨hcas, hval⟩, hzero⟩⟩ h
            · rw [if_neg hdisk] at hzero
              exact absurd ⟨hlen, kv, old, hf, hv, .inr ⟨.inl (not_not.mp hdisk), hzero⟩⟩ h

end Trace

/-- **A refused write leaves no trace**, in every run, except for these. -/
theorem noTrace_iff {st : Sdb × World} (hst : TimedReachable st) (key val : CStr) (owned : Bool)
    (cas : Nat) : NoTrace st key val owned cas ↔ ¬ LeavesTrace st.1 key val cas :=
  ⟨fun h ht ↦ ht.not_noTrace hst.timed.wf h, noTrace_of_not_leavesTrace⟩

/-- A key that is too long, with an open journal. -/
theorem noTrace_long : (sdbSetInternal (journalD []).1 (journalD []).2 (letters 300)
    (CStr.ofBytes [49]) false 0).1 = 0 ∧
    NoTrace (journalD []) (letters 300) (CStr.ofBytes [49]) false 0 := by
  have hlen : (letters 300).length ≥ 0xff := by
    rw [length_letters]
    decide
  refine ⟨?_, (noTrace_iff (journalD_reachable _) _ _ _ _).mpr fun h ↦ h.1 (.inl hlen)⟩
  rw [sdbSetInternal, if_pos (.inl hlen)]

/-- The key `a` is set to `1` with an open journal, and then to `2` with a counter that is not
its own: the write is refused, but the journal has it, and it is recovered. -/
theorem not_noTrace_cas : ∃ st, TimedReachable st ∧
    (sdbSetInternal st.1 st.2 (CStr.ofBytes [97]) (CStr.ofBytes [50]) false 7).1 = 0 ∧
    (let r := sdbSetInternal st.1 st.2 (CStr.ofBytes [97]) (CStr.ofBytes [50]) false 7
     let st' := recovered r.2.2 .empty (CStr.ofBytes [100])
     sdbGet st'.1 st'.2 (CStr.ofBytes [97]) = some (CStr.ofBytes [50])) ∧
    ¬ NoTrace st (CStr.ofBytes [97]) (CStr.ofBytes [50]) false 7 := by
  have hst : TimedReachable
      (Op.run (.set (CStr.ofBytes [97]) (CStr.ofBytes [49]) 0) (journalD [])) :=
    .step (.call (.set (CStr.ofBytes [97]) (CStr.ofBytes [49]) 0)) (journalD_reachable _) rfl
  refine ⟨_, hst, by decide, by decide, LeavesTrace.not_noTrace hst.timed.wf ?_⟩
  refine ⟨by decide, ⟨CStr.ofBytes [97], some (CStr.ofBytes [49]), 2, 0⟩, CStr.ofBytes [49],
    by decide, rfl, .inl ⟨by decide, .inl (by decide), by decide⟩⟩

end SdbStore
