import SdbStore.Atomic
import SdbStore.Capacity
import SdbStore.Durable

/-!
# Databases out of texts

`createdb` of `main.c`: a database is made out of texts, which are read from files or from the
standard input.  It starts from nothing, and the file is replaced in the end.  Only what a text has
put in the root is written; a text that is not there, or is empty, is passed over.  Nothing is done
with an empty standard input, and the file is left as it is.

The lock is not taken here: waiting for it, and what other processes do meanwhile, is in
`Processes`.
-/

namespace SdbStore

open Lib

/-- Where the text comes from. -/
inductive TextInput where
  | files (args : List CStr)
  | stdin (text : Bytes)

/-- `sdb_text_load`. -/
def sdbTextLoad (s : Sdb) (w : World) (file : CStr) : Bool × Sdb × World :=
  match w.fs file with
  | none => (false, s, w)
  | some [] => (false, s, w)
  | some text => (true, sdbTextSets s w (sdbTextLoadBuf text))

/-- `sdb_file`, for a database that has no lock. -/
def sdbFile (s : Sdb) (dir : CStr) : Sdb :=
  { s with dir := if dir = CStr.empty then none else some dir }

/-- The end of `createdb`. -/
def createdbSync (st : Sdb × World) : Nat × World :=
  let r := sdbSync st.1 st.2
  (if r.1 then 0 else 1, r.2.2)

/-- `createdb`.  A database without a file cannot be locked. -/
def createdb (w : World) (f : CStr) (journal : Bool) (input : TextInput) : Nat × World :=
  let s := sdbFile sdbNew0 f
  match s.dir with
  | none => (1, w)
  | some _ =>
      let st := sdbConfig s w journal
      match input with
      | .files args => createdbSync (args.foldl (fun st file ↦ (sdbTextLoad st.1 st.2 file).2) st)
      | .stdin [] => (0, st.2)
      | .stdin text => createdbSync (sdbTextSets st.1 st.2 (sdbTextLoadBuf text))

/-! ## What is read -/

/-- The pairs of the texts. -/
def TextInput.sets (w : World) : TextInput → List TextSet
  | .files args => args.flatMap fun file ↦ sdbTextLoadBuf ((w.fs file).getD [])
  | .stdin text => sdbTextLoadBuf text

/-- The pair is put in the root of the database of a file, and is not too long. -/
def TextSet.Kept (f : CStr) (t : TextSet) : Prop :=
  t.inRoot (sdbFile sdbNew0 f) ∧ t.key.length < 0xff ∧ t.val.length < 0xffffff

instance (f : CStr) : DecidablePred (TextSet.Kept f) := fun _ ↦ inferInstanceAs (Decidable (_ ∧ _))

/-- The value that the last of the pairs with a key has. -/
def textValue (f : CStr) (sets : List TextSet) (k : CStr) : Option CStr :=
  (sets.filter fun t ↦ t.Kept f ∧ t.key = k).getLast?.bind fun t ↦ readAs t.val

/-- A database in memory, which will be written to the file, with the values of the pairs. -/
structure Collected (f : CStr) (sets : List TextSet) (s : Sdb) : Prop where
  sound : s.Sound
  bare : s.Bare
  unmapped : s.db.map = none
  journal : s.journal = none
  named : f ≠ CStr.empty
  dir : s.dir = some f
  value : ∀ k, (entryGet (sdbHtFindKvp s k) .null).value = textValue f sets k

theorem sdbFile_dir {f : CStr} (hf : f ≠ CStr.empty) : (sdbFile sdbNew0 f).dir = some f :=
  if_neg hf

/-- There is no journal for a database without a name. -/
theorem sdbConfig_sdbFile (w : World) (f : CStr) (journal : Bool) :
    sdbConfig (sdbFile sdbNew0 f) w journal = (sdbFile sdbNew0 f, w) := by
  cases journal with
  | false => rfl
  | true => rfl

theorem Collected.nil {f : CStr} (hf : f ≠ CStr.empty) : Collected f [] (sdbFile sdbNew0 f) :=
  ⟨sound_of_htNew rfl, ⟨rfl, rfl⟩, rfl, rfl, hf, sdbFile_dir hf, fun k ↦ by
    rw [sdbHtFindKvp_of_htNew (rfl : (sdbFile sdbNew0 f).ht = htNew)]
    rfl⟩

theorem textValue_concat (f : CStr) (sets : List TextSet) (t : TextSet) (k : CStr) :
    textValue f (sets ++ [t]) k = if t.Kept f ∧ t.key = k then readAs t.val
      else textValue f sets k := by
  rw [textValue, List.filter_append]
  by_cases ht : t.Kept f ∧ t.key = k
  · have hone : [t].filter (fun t ↦ decide (t.Kept f ∧ t.key = k)) = [t] :=
      List.filter_eq_self.mpr fun x hx ↦ by
      rw [List.mem_singleton.mp hx]
      exact decide_eq_true ht
    rw [if_pos ht, hone, List.getLast?_concat]
    rfl
  · have hone : [t].filter (fun t ↦ decide (t.Kept f ∧ t.key = k)) = [] :=
      List.filter_eq_nil_iff.mpr fun x hx ↦ by
      rw [List.mem_singleton.mp hx, decide_eq_true_iff]
      exact ht
    rw [if_neg ht, hone, List.append_nil]
    rfl

section Collected

variable {f : CStr} {sets : List TextSet} {s : Sdb} (h : Collected f sets s)
include h

/-- A pair that is too long changes nothing. -/
theorem Collected.skip {t : TextSet} (ht : ¬t.Kept f) : Collected f (sets ++ [t]) s := by
  refine ⟨h.sound, h.bare, h.unmapped, h.journal, h.named, h.dir, fun k ↦ ?_⟩
  rw [textValue_concat, if_neg fun hk ↦ ht hk.1]
  exact h.value k

theorem Collected.set (w : World) {t : TextSet} (ht : t.Kept f) :
    Collected f (sets ++ [t]) (sdbSet s w t.key t.val 0).2.1 := by
  have hspec := sdbSetInternal_spec h.sound.wf w t.key t.val false 0
  have hframe : s.Frame (sdbSet s w t.key t.val 0).2.1 := hspec.frame
  have hlen : ¬ (t.key.length ≥ 0xff ∨ t.val.length ≥ 0xffffff) := by
    rintro (hkey | hval)
    · exact absurd ht.2.1 (Nat.not_lt.mpr hkey)
    · exact absurd ht.2.2 (Nat.not_lt.mpr hval)
  refine ⟨h.sound.setInternal w t.key t.val false 0, hspec.bare h.bare, ?_, ?_, h.named, ?_,
    fun k ↦ ?_⟩
  · exact (congrArg Cdb.map hframe.db).trans h.unmapped
  · exact hframe.journal.trans h.journal
  · exact (congrArg Sdb.dir hframe).trans h.dir
  · have hfind := hspec.find k
    rw [cdbLookup_bare h.bare] at hfind
    rw [show sdbHtFindKvp (sdbSet s w t.key t.val 0).2.1 k = _ from hfind, textValue_concat]
    by_cases hk : k = t.key
    · subst hk
      rw [if_pos rfl, if_pos ⟨ht, rfl⟩]
      exact entryGet_setEntry hlen (fun _ _ _ _ ↦ by decide) .null
    · rw [if_neg hk, if_neg fun hno ↦ hk hno.2.symm]
      exact h.value k

/-- The pairs of a text. -/
theorem Collected.textSets (w : World) (new : List TextSet) :
    Collected f (sets ++ new) (sdbTextSets s w new).1 ∧ (sdbTextSets s w new).2 = w := by
  induction new generalizing sets s w with
  | nil =>
      rw [List.append_nil]
      exact ⟨h, rfl⟩
  | cons t new ih =>
      rw [List.append_cons, sdbTextSets, List.foldl_cons, ← sdbTextSets]
      have hroot : t.inRoot s = t.inRoot (sdbFile sdbNew0 f) := by
        have hdir : s.dir = (sdbFile sdbNew0 f).dir := by rw [h.dir, sdbFile_dir h.named]
        simp only [TextSet.inRoot, nsFits, hdir]
      by_cases hin : t.inRoot (sdbFile sdbNew0 f) = true
      · rw [hroot, if_pos hin]
        by_cases hlen : t.key.length ≥ 0xff ∨ t.val.length ≥ 0xffffff
        · -- a pair that is too long is refused
          have hsame : (sdbSet s w t.key t.val 0).2 = (s, w) :=
            congrArg Prod.snd (if_pos hlen : sdbSetInternal s w t.key t.val false 0 = (0, s, w))
          rw [hsame]
          refine ih (h.skip fun hk ↦ ?_) w
          rcases hlen with hkey | hval
          · exact absurd hk.2.1 (Nat.not_lt.mpr hkey)
          · exact absurd hk.2.2 (Nat.not_lt.mpr hval)
        · have hkept : t.Kept f :=
            ⟨hin, Nat.not_le.mp fun hk ↦ hlen (.inl hk), Nat.not_le.mp fun hv ↦ hlen (.inr hv)⟩
          have hworld : (sdbSet s w t.key t.val 0).2.2 = w := by
            rcases sdbSetInternal_world s w t.key t.val false 0 with hw | hw
            · exact hw
            · exact hw.trans (by rw [sdbJournalLog, h.journal])
          obtain ⟨hrest, hend⟩ := ih (h.set w hkept) (sdbSet s w t.key t.val 0).2.2
          exact ⟨hrest, hend.trans hworld⟩
      · rw [hroot, if_neg hin]
        exact ih (h.skip fun hk ↦ hin hk.1) w

end Collected

/-- The state in front of the sync. -/
structure Gathered (w : World) (f : CStr) (journal : Bool) (input : TextInput) (s : Sdb) :
    Prop where
  collected : Collected f (input.sets w) s
  result : createdb w f journal input = createdbSync (s, w)

theorem sdbTextLoad_eq (s : Sdb) (w : World) (file : CStr) :
    (sdbTextLoad s w file).2 = sdbTextSets s w (sdbTextLoadBuf ((w.fs file).getD [])) := by
  rw [sdbTextLoad]
  cases w.fs file with
  | none => rfl
  | some text =>
      cases text with
      | nil => rfl
      | cons c text => rfl

/-- **What is gathered**: all the pairs of the texts. -/
theorem gathered (w : World) {f : CStr} (hf : f ≠ CStr.empty) (journal : Bool) {input : TextInput}
    (hin : input ≠ .stdin []) : ∃ s, Gathered w f journal input s := by
  have hstart := Collected.nil hf
  have hdir := sdbFile_dir hf
  cases input with
  | files args =>
      have hfold {sets : List TextSet} {s : Sdb} (h : Collected f sets s) :
          ∃ s', args.foldl (fun st file ↦ (sdbTextLoad st.1 st.2 file).2) (s, w) = (s', w) ∧
            Collected f (sets ++ args.flatMap fun file ↦ sdbTextLoadBuf ((w.fs file).getD []))
              s' := by
        clear hin
        induction args generalizing sets s with
        | nil => exact ⟨s, rfl, by rwa [List.flatMap_nil, List.append_nil]⟩
        | cons file args ih =>
            obtain ⟨hload, hworld⟩ := h.textSets w (sdbTextLoadBuf ((w.fs file).getD []))
            obtain ⟨s', hfold, hs'⟩ := ih hload
            refine ⟨s', ?_, ?_⟩
            · rw [List.foldl_cons, sdbTextLoad_eq, ← hfold]
              congr 1
              exact Prod.ext rfl hworld
            · rwa [List.flatMap_cons, ← List.append_assoc]
      obtain ⟨s, hs, hcollected⟩ := hfold hstart
      refine ⟨s, hcollected, ?_⟩
      rw [createdb, hdir]
      dsimp only
      rw [sdbConfig_sdbFile, hs]
  | stdin text =>
      cases text with
      | nil => exact absurd rfl hin
      | cons c text =>
          obtain ⟨hload, hworld⟩ := hstart.textSets w (sdbTextLoadBuf (c :: text))
          refine ⟨_, hload, ?_⟩
          rw [createdb, hdir]
          dsimp only
          rw [sdbConfig_sdbFile]
          congr 1
          exact Prod.ext rfl hworld

/-- The files after a sync without a journal: the file is as it was or has been replaced, and only
the temporary file is touched besides. -/
theorem sdbSync_files {s : Sdb} (hs : s.Sound) (hj : s.journal = none) (w : World) :
    ((sdbSync s w).2.2.fs s.target = w.fs s.target ∨
      ∃ p, Writable (syncDir s) p ∧ (sdbSync s w).2.2.fs s.target = some (kvImage p.1)) ∧
      ∀ q, q ≠ s.target → q ≠ tmpPath s.target → (sdbSync s w).2.2.fs q = w.fs q := by
  have hclosed := closed_wf hs.wf
  have hreopen (w : World) (q : CStr) :
      (sdbOpen (closeCurrentDatabase (SdbStore.syncDir s)) w s.target).2.2.fs q = w.fs q := by
    refine (sdbOpen_world hclosed w s.target).2 q ?_
    change (SdbStore.syncDir s).journal ≠ some q
    rw [journal_syncDir, hj]
    exact (Option.some_ne_none q).symm
  have hnot := (tmpPath_ne s.target).symm
  have hsync := sdbSync_synced s w
  generalize sdbSync s w = res at hsync ⊢
  cases hsync with
  | @noCreate w₁ e hopen =>
      have h₁ := (tmpOpen_moves (tmpPath s.target) w).1
      rw [hopen] at h₁
      exact ⟨.inl (h₁.fs _ hnot), fun q _ htmp ↦ h₁.fs q htmp⟩
  | @noWrite w₁ w₂ e hopen hwrite =>
      have h₁ := (tmpOpen_moves (tmpPath s.target) w).1
      have h₂ := (syncWrite_moves (SdbStore.syncDir s) (tmpPath s.target) w₁).1
      rw [hopen] at h₁
      rw [hwrite] at h₂
      have hkeep (q : CStr) (htmp : q ≠ tmpPath s.target) :
          (w₂.setFile (tmpPath s.target) none).fs q = w.fs q := by
        rw [setFile_fs, if_neg htmp]
        exact (h₂.fs q htmp).trans (h₁.fs q htmp)
      exact ⟨.inl (hkeep _ hnot), fun q _ htmp ↦ hkeep q htmp⟩
  | @noRename w₁ w₂ w₃ per e hopen hwrite hrename =>
      obtain ⟨p, -, -, -, htouch⟩ := written_of_syncWrite hs.wf hopen hwrite
      have hsame := (sysCall_eq_error hrename).2
      have hkeep (q : CStr) (htmp : q ≠ tmpPath s.target) :
          (sdbOpen (closeCurrentDatabase (SdbStore.syncDir s))
            (w₃.setFile (tmpPath s.target) none) s.target).2.2.fs q = w.fs q := by
        rw [hreopen, setFile_fs, if_neg htmp, hsame]
        exact htouch.fs q htmp
      exact ⟨.inl (hkeep _ hnot), fun q _ htmp ↦ hkeep q htmp⟩
  | @noReopen w₁ w₂ w₃ per r hopen hwrite hrename hr hret =>
      obtain ⟨p, hp, -, hfile, htouch⟩ := written_of_syncWrite hs.wf hopen hwrite
      subst hr
      refine ⟨.inr ⟨p, hp, (hreopen w₃ _).trans (target_of_tmpRename hrename hfile)⟩,
        fun q hq htmp ↦ ?_⟩
      rw [hreopen, fs_of_tmpRename hrename, if_neg htmp, if_neg hq]
      exact htouch.fs q htmp
  | @done w₁ w₂ w₃ per r hopen hwrite hrename hr hret =>
      obtain ⟨p, hp, -, hfile, htouch⟩ := written_of_syncWrite hs.wf hopen hwrite
      subst hr
      have hnone : (closeCurrentDatabase (SdbStore.syncDir s)).journal = none :=
        (journal_syncDir s).trans hj
      have hclear (w' : World) : sdbJournalClear
          (sdbOpen (closeCurrentDatabase (SdbStore.syncDir s)) w₃ s.target).2.1
          w' = w' := by
        rw [sdbJournalClear, sdbOpen_journal hclosed, hnone]
      dsimp only
      rw [hclear]
      refine ⟨.inr ⟨p, hp, (hreopen w₃ _).trans (target_of_tmpRename hrename hfile)⟩,
        fun q hq htmp ↦ ?_⟩
      rw [hreopen, fs_of_tmpRename hrename, if_neg htmp, if_neg hq]
      exact htouch.fs q htmp

/-- The text `x=1`. -/
def textX : Bytes := [120, 61, 49, 10]

theorem stdin_textX_ne : TextInput.stdin textX ≠ .stdin [] :=
  fun h ↦ absurd (TextInput.stdin.inj h) (List.cons_ne_nil _ _)

/-- Where there are no errors, a database is made if it can be written and does not look like a
text. -/
theorem Gathered.createdb_zero {w : World} {f : CStr} {journal : Bool} {input : TextInput} {s : Sdb}
    (h : Gathered w f journal input s) (hcalm : ∀ j, w.fails j = false) {p : Plan}
    (hw : Writable (syncDir s) p) (htext : sdbTextCheck (some (kvImage p.1)) = false) :
    (createdb w f journal input).1 = 0 := by
  rw [h.result, createdbSync]
  exact if_pos (sdbSync_eq_true h.collected.sound.wf hcalm hw htext)

theorem gathered_textX {f : CStr} (hf : f ≠ CStr.empty) :
    Gathered .empty f false (.stdin textX)
      (sdbTextSets (sdbFile sdbNew0 f) .empty (sdbTextLoadBuf textX)).1 := by
  obtain ⟨hcollected, hworld⟩ := (Collected.nil hf).textSets .empty (sdbTextLoadBuf textX)
  refine ⟨hcollected, ?_⟩
  rw [createdb, sdbFile_dir hf]
  dsimp only
  rw [sdbConfig_sdbFile, textX]
  exact congrArg createdbSync (Prod.ext rfl hworld)

end SdbStore
