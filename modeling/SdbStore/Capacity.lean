import SdbStore.Persist

/-!
# What can be persisted

The lengths of keys and values are checked when they are set and again when they are
written, and the two checks differ by one: `persists_iff` says exactly which of the pairs
that `sdb_set` accepts can be written to a new file and read back from it.  The other
obstacle is the file itself, whose header can look like text.
-/

namespace SdbStore

open Lib

/-- Set the pairs one after another. -/
def sdbSetAll (st : Sdb × World) (pairs : List KvRec) : Sdb × World :=
  pairs.foldl (fun st r ↦ (sdbSet st.1 st.2 r.1 r.2 0).2) st

/-- Every pair is accepted. -/
def Accepted : Sdb × World → List KvRec → Prop
  | _, [] => True
  | st, r :: pairs =>
      (sdbSet st.1 st.2 r.1 r.2 0).1 = true ∧ Accepted (sdbSet st.1 st.2 r.1 r.2 0).2 pairs

/-- A path and a name where there is no file, in a world without faults. -/
structure Fresh (w : World) (path name : CStr) : Prop where
  fileName : FileName name
  absent : w.fs (sdbNewDir path name) = none
  noFault : ∀ j, w.fails j = false

/-- The pairs are set in a new database, which is then synced: the sync returns true, and
a database that is opened on the file has the values. -/
def Persists (w : World) (path name : CStr) (pairs : List KvRec) : Prop :=
  let st := sdbSetAll (sdbNew w path name) pairs
  let r := sdbSync st.1 st.2
  let new := sdbNew r.2.2 path name
  r.1 = true ∧ ∀ p ∈ pairs, sdbGet new.1 new.2 p.1 = readAs p.2

/-- The pairs that are written; an empty value is none. -/
def written (pairs : List KvRec) : List KvRec := pairs.filter fun r ↦ decide (r.2 ≠ CStr.empty)

/-! ## The table after the sets -/

/-- The state of a new database in which the pairs have been set. -/
structure Loaded (w : World) (dir : CStr) (pairs : List KvRec) (st : Sdb × World) : Prop where
  sound : st.1.Sound
  bare : st.1.Bare
  unmapped : st.1.db.map = none
  journal : st.1.journal = none
  dir : st.1.dir = some dir
  world : st.2 = w
  find : ∀ k, sdbHtFindKvp st.1 k =
    (Keyed.lookup Prod.fst pairs k).map fun r ↦ newEntry r.1 r.2 false
  limits : ∀ r ∈ pairs, r.1.length < 0xff ∧ r.2.length < 0xffffff

theorem Loaded.new {w : World} {path name : CStr} (h : Fresh w path name) :
    Loaded w (sdbNewDir path name) [] (sdbNew w path name) := by
  rw [sdbNew_absent h.fileName h.absent]
  exact ⟨sound_of_htNew rfl, ⟨rfl, rfl⟩, rfl, rfl, rfl, rfl,
    sdbHtFindKvp_of_htNew rfl, fun r hr ↦ absurd hr (by simp)⟩

section Loaded

variable {w : World} {dir : CStr} {pairs : List KvRec} {st : Sdb × World}
  (h : Loaded w dir pairs st)
include h

/-- One set. -/
theorem Loaded.set {r : KvRec} (hr : Keyed.lookup Prod.fst pairs r.1 = none)
    (hret : (sdbSet st.1 st.2 r.1 r.2 0).1 = true) :
    Loaded w dir (pairs ++ [r]) (sdbSet st.1 st.2 r.1 r.2 0).2 := by
  have hspec := sdbSetInternal_spec h.sound.wf st.2 r.1 r.2 false 0
  have hworld : (sdbSetInternal st.1 st.2 r.1 r.2 false 0).2.2 = st.2 := by
    rcases sdbSetInternal_world st.1 st.2 r.1 r.2 false 0 with hw | hw
    · exact hw
    · rw [hw, sdbJournalLog, h.journal]
  rw [h.find, hr, Option.map_none] at hspec
  have hret' : (sdbSetInternal st.1 st.2 r.1 r.2 false 0).1 ≠ 0 := of_decide_eq_true hret
  rw [hspec.ret, setEntry] at hret'
  -- a pair that is too long is refused
  have hlen : ¬ (r.1.length ≥ 0xff ∨ r.2.length ≥ 0xffffff) := by
    intro hlen
    rw [if_pos hlen] at hret'
    exact hret' rfl
  have hframe := hspec.frame
  refine ⟨h.sound.setInternal st.2 r.1 r.2 false 0, hspec.bare h.bare, ?_, ?_, ?_,
    hworld.trans h.world, fun k ↦ ?_, ?_⟩
  · exact (congrArg Cdb.map hframe.db).trans h.unmapped
  · exact hframe.journal.trans h.journal
  · exact (congrArg Sdb.dir hframe).trans h.dir
  · refine (hspec.find k).trans ?_
    rw [setEntry, if_neg hlen, Keyed.lookup_append, Keyed.lookup_cons]
    by_cases hk : k = r.1
    · subst hk
      rw [if_pos rfl, hr, if_pos rfl]
      rfl
    · rw [if_neg hk, if_neg (Ne.symm hk), h.find]
      cases Keyed.lookup Prod.fst pairs k with
      | none => rfl
      | some _ => rfl
  · intro r' hr'
    rcases List.mem_append.mp hr' with hr' | hr'
    · exact h.limits r' hr'
    · obtain rfl := List.mem_singleton.mp hr'
      omega

/-- All of them. -/
theorem Loaded.setAll {rest : List KvRec} (hd : Keyed.Distinct Prod.fst (pairs ++ rest))
    (hacc : Accepted st rest) : Loaded w dir (pairs ++ rest) (sdbSetAll st rest) := by
  induction rest generalizing pairs st with
  | nil =>
      rw [List.append_nil]
      exact h
  | cons r rest ih =>
      have hnone : Keyed.lookup Prod.fst pairs r.1 = none := by
        refine Keyed.lookup_eq_none_iff.mpr fun e he heq ↦ ?_
        rw [Keyed.Distinct, List.map_append, List.nodup_append] at hd
        exact hd.2.2 _ (List.mem_map_of_mem he) _ (by simp) heq
      rw [List.append_cons] at hd ⊢
      exact ih (h.set hnone hacc.1) hd hacc.2

/-- The entries of the table. -/
theorem Loaded.toList_perm (hd : Keyed.Distinct Prod.fst pairs) :
    st.1.ht.toList.Perm (pairs.map fun r ↦ newEntry r.1 r.2 false) := by
  have hmap : Keyed.Distinct SdbKv.key (pairs.map fun r ↦ newEntry r.1 r.2 false) := by
    rw [Keyed.Distinct, List.map_map]
    exact hd
  refine h.sound.wf.distinctKeys.perm_of_lookup hmap fun k ↦ ?_
  rw [← sdbHtFindKvp_eq h.sound.wf, h.find, Keyed.lookup, Keyed.lookup, List.find?_map]
  rfl

end Loaded

/-! ## The records of the new file -/

/-- The record that is written from memory for an entry. -/
def memRec (kv : SdbKv) : Option KvRec := (memValue kv).map fun v ↦ (kv.key, v)

theorem memPlan_of_not_mem {seen : List CStr} {kv : SdbKv} (h : kv.key ∉ seen) :
    memPlan seen kv = some ((memRec kv).toList,
      seen ++ ((memRec kv).toList.map Prod.fst)) := by
  unfold memPlan memRec memValue
  cases kv.value with
  | none => simp
  | some v =>
      dsimp only
      by_cases hv : v ≠ CStr.empty ∧ kv.expire = 0
      · rw [if_pos hv, if_pos ⟨hv.1, hv.2, h⟩]
        rfl
      · rw [if_neg hv, if_neg fun hc ↦ hv ⟨hc.1, hc.2.1⟩]
        simp

/-- The pass over memory writes a record for every entry that has a value. -/
theorem planLoop_memPlan_eq {l : List SdbKv} (hl : Keyed.Distinct SdbKv.key l) {seen : List CStr}
    (hseen : ∀ kv ∈ l, kv.key ∉ seen) :
    ∃ keys, planLoop memPlan seen l = some (l.filterMap memRec, keys) := by
  induction l generalizing seen with
  | nil => exact ⟨seen, rfl⟩
  | cons kv l ih =>
      obtain ⟨hnot, hl⟩ := List.nodup_cons.mp hl
      have hkey : ∀ kv' ∈ l, kv'.key ∉ seen ++ ((memRec kv).toList.map Prod.fst) := by
        intro kv' hkv' hmem
        rcases List.mem_append.mp hmem with hmem | hmem
        · exact hseen kv' (by simp [hkv']) hmem
        · obtain ⟨r, hr, hrk⟩ := List.mem_map.mp hmem
          obtain ⟨v, -, rfl⟩ := Option.map_eq_some_iff.mp (Option.mem_toList.mp hr)
          exact hnot (List.mem_map.mpr ⟨kv', hkv', hrk.symm⟩)
      obtain ⟨keys, hkeys⟩ := ih hl hkey
      refine ⟨keys, ?_⟩
      rw [planLoop, memPlan_of_not_mem (hseen kv (by simp)), Option.bind_eq_bind, Option.bind_some,
        hkeys, List.filterMap_cons]
      cases memRec kv with
      | none => rfl
      | some r => rfl

theorem filterMap_memRec (pairs : List KvRec) :
    (pairs.map fun r ↦ newEntry r.1 r.2 false).filterMap memRec = written pairs := by
  rw [List.filterMap_map, written, ← List.filterMap_eq_filter]
  congr 1
  funext r
  by_cases hr : r.2 = CStr.empty
  · simp [memRec, memValue, newEntry, hr, Option.guard]
  · simp [memRec, memValue, newEntry, hr, Option.guard]

/-- The plan of the sync writes the pairs, in some order. -/
theorem Loaded.plan {w : World} {dir : CStr} {pairs : List KvRec} {st : Sdb × World}
    (h : Loaded w dir pairs st) (hd : Keyed.Distinct Prod.fst pairs) :
    ∃ p, syncPlan st.1 = some p ∧ p.1.Perm (written pairs) := by
  have hseen : ∀ kv ∈ st.1.ht.toList, kv.key ∉ ([] : List CStr) := fun _ _ ↦ List.not_mem_nil
  obtain ⟨keys, hkeys⟩ := planLoop_memPlan_eq h.sound.wf.distinct hseen
  refine ⟨(st.1.ht.toList.filterMap memRec, keys), ?_, ?_⟩
  · rw [syncPlan, scan_bare h.bare h.unmapped, planLoop, Option.bind_eq_bind, Option.bind_some,
      hkeys]
    rfl
  · rw [← filterMap_memRec]
    exact (h.toList_perm hd).filterMap memRec

/-! ## Reading the file back -/

/-- What a new database gives on a written file. -/
theorem sdbGet_new {w : World} {path name : CStr} {recs : List KvRec} (hname : FileName name)
    (hfit : KvFitting recs) (hfile : w.fs (sdbNewDir path name) = some (kvImage recs))
    (htext : sdbTextCheck (some (kvImage recs)) = false) (k : CStr) :
    sdbGet (sdbNew w path name).1 (sdbNew w path name).2 k =
      (diskGot (Keyed.lookup Prod.fst recs k)).value := by
  have hnew := sdbNew_file hname hfile htext
  have hht : (sdbNew w path name).1.ht = htNew := by rw [hnew]; rfl
  have hholds : (sdbNew w path name).1.Holds recs := by
    rw [hnew]
    exact ⟨hfit, rfl, hfit.over⟩
  rw [sdbGet_eq (sound_of_htNew hht).noExpire, sdbHtFindKvp_of_htNew hht, sdbGetDisk_holds hholds]
  rfl

theorem lookup_written {pairs : List KvRec} (hd : Keyed.Distinct Prod.fst pairs) {r : KvRec}
    (hr : r ∈ pairs) : (diskGot (Keyed.lookup Prod.fst (written pairs) r.1)).value =
      readAs r.2 := by
  have hd' : Keyed.Distinct Prod.fst (written pairs) :=
    List.Nodup.sublist (List.filter_sublist.map Prod.fst) hd
  by_cases hv : r.2 = CStr.empty
  · have hnone : Keyed.lookup Prod.fst (written pairs) r.1 = none := by
      refine Keyed.lookup_eq_none_iff.mpr fun e he hkey ↦ ?_
      obtain ⟨he, hne⟩ := List.mem_filter.mp he
      obtain rfl := hd.eq_of_key_eq he hr hkey
      exact of_decide_eq_true hne hv
    rw [hnone, readAs, if_pos hv]
    rfl
  · have hsome : Keyed.lookup Prod.fst (written pairs) r.1 = some r :=
      hd'.lookup_eq_some_iff.mpr ⟨List.mem_filter.mpr ⟨hr, decide_eq_true hv⟩, rfl⟩
    rw [hsome, readAs, if_neg hv]
    rfl

/-- The header of the file is the same in any order of the records. -/
theorem sdbTextCheck_perm {recs recs' : List KvRec} (h : recs.Perm recs') :
    sdbTextCheck (some (kvImage recs)) =
      sdbTextCheck (some (cdbHeader (recs'.map KvRec.raw) 16)) := by
  rw [kvImage, sdbTextCheck_header, cdbHeader_perm (h.map KvRec.raw)]

/-! ## What is persisted -/

/-- No value has the greatest length that `sdb_set` accepts, which is one byte too much for
`pack_kvlen`. -/
def NoLongest (pairs : List KvRec) : Prop := ∀ r ∈ pairs, r.2.length ≠ 0xfffffe

instance (pairs : List KvRec) : Decidable (NoLongest pairs) :=
  inferInstanceAs (Decidable (∀ r ∈ pairs, r.2.length ≠ 0xfffffe))

/-- The positions of the tables, at the start of the file, are not taken for text. -/
def HeaderNotText (pairs : List KvRec) : Prop :=
  sdbTextCheck (some (cdbHeader ((written pairs).map KvRec.raw) 16)) = false

theorem length_cdbBody_ge {recs : List KvRec}
    (h : ∀ r ∈ recs, r.1 ≠ CStr.empty ∧ r.2 ≠ CStr.empty) :
    8 * recs.length ≤ (cdbBody (recs.map KvRec.raw)).length := by
  induction recs with
  | nil => exact Nat.le_refl _
  | cons r recs ih =>
      have hrest := ih fun r' hr' ↦ h r' (List.mem_cons_of_mem _ hr')
      have hlen : (cdbBody ((r :: recs).map KvRec.raw)).length =
          6 + r.1.length + r.2.length + (cdbBody (recs.map KvRec.raw)).length := by
        rw [cdbBody, List.map_cons, List.flatMap_cons, List.length_append, length_recBytes]
        rfl
      obtain ⟨hk, hv⟩ := h r List.mem_cons_self
      have hk' := mt CStr.length_eq_zero.mp hk
      have hv' := mt CStr.length_eq_zero.mp hv
      rw [hlen, List.length_cons]
      omega

/-- Records that fit into a file are not too many for `cdb_make_finish`. -/
theorem length_written {pairs : List KvRec} (hkeys : ∀ r ∈ pairs, r.1 ≠ CStr.empty)
    (hsize : (kvImage (written pairs)).length < 4294967296) :
    3 * (written pairs).length ≤ 536870911 := by
  have hne : ∀ r ∈ written pairs, r.1 ≠ CStr.empty ∧ r.2 ≠ CStr.empty := by
    intro r hr
    obtain ⟨hr, hv⟩ := List.mem_filter.mp hr
    exact ⟨hkeys r hr, of_decide_eq_true hv⟩
  have hbody := length_cdbBody_ge hne
  rw [kvImage, length_cdbImage_eq, List.length_map, cdbFinalSize] at hsize
  omega

section Persists

variable {w : World} {path name : CStr} {pairs : List KvRec} (hfresh : Fresh w path name)
  (hd : Keyed.Distinct Prod.fst pairs) (hacc : Accepted (sdbNew w path name) pairs)
include hfresh hd hacc

theorem loaded_sdbSetAll :
    Loaded w (sdbNewDir path name) pairs (sdbSetAll (sdbNew w path name) pairs) :=
  (Loaded.new hfresh).setAll hd hacc

/-- Nothing is persisted when one of the values is too long, or the header is text. -/
theorem noLongest_of_persists (h : Persists w path name pairs) :
    NoLongest pairs ∧ HeaderNotText pairs := by
  have hl := loaded_sdbSetAll hfresh hd hacc
  obtain ⟨p, hp, hperm⟩ := hl.plan hd
  obtain ⟨p', hrep⟩ := sdbSync_true hl.sound.wf h.1
  obtain rfl : p' = p := Option.some.inj (hrep.plan.symm.trans hp)
  constructor
  · intro r hr hlen
    have hne : r.2 ≠ CStr.empty := by
      intro hempty
      rw [hempty] at hlen
      exact absurd hlen (by decide)
    have hmem : r ∈ p'.1 := hperm.mem_iff.mpr (List.mem_filter.mpr ⟨hr, decide_eq_true hne⟩)
    have hlt := (hrep.writable.fitting.length_lt hmem).2
    rw [hlen] at hlt
    exact absurd hlt (by decide)
  · exact (sdbTextCheck_perm hperm).symm.trans hrep.not_text

theorem persists_of_noLongest (hkeys : ∀ r ∈ pairs, r.1 ≠ CStr.empty)
    (hsize : (kvImage (written pairs)).length < 4294967296) (hw : NoLongest pairs)
    (hrec : HeaderNotText pairs) : Persists w path name pairs := by
  have hl := loaded_sdbSetAll hfresh hd hacc
  obtain ⟨p, hp, hperm⟩ := hl.plan hd
  have hdir : syncDir (sdbSetAll (sdbNew w path name) pairs).1 =
      (sdbSetAll (sdbNew w path name) pairs).1 := by
    rw [syncDir, hl.dir]
    rfl
  have htarget : (sdbSetAll (sdbNew w path name) pairs).1.target = sdbNewDir path name := by
    rw [Sdb.target, hdir, hl.dir]
    rfl
  have hlen : (kvImage p.1).length = (kvImage (written pairs)).length := by
    rw [kvImage, kvImage, length_cdbImage, length_cdbImage, cdbTablePos_perm (hperm.map KvRec.raw)]
  have hfit : KvFitting p.1 := by
    refine ⟨fun _ hraw ↦ ?_, hlen.trans_lt hsize⟩
    obtain ⟨r, hr, rfl⟩ := List.mem_map.mp hraw
    have hmem := (List.mem_filter.mp (hperm.mem_iff.mp hr)).1
    obtain ⟨hklen, hvlen⟩ := hl.limits r hmem
    have hne := hw r hmem
    refine ⟨hklen, ?_⟩
    change r.2.length + 1 < 0xffffff
    omega
  have hroom : cdbRoom (p.1.map KvRec.raw) := by
    refine cdbRoom_of_length ?_
    rw [List.length_map, hperm.length_eq]
    exact length_written hkeys hsize
  have htext : sdbTextCheck (some (kvImage p.1)) = false := (sdbTextCheck_perm hperm).trans hrec
  have hret := sdbSync_eq_true hl.sound.wf (w := (sdbSetAll (sdbNew w path name) pairs).2)
    (fun j ↦ by rw [hl.world]; exact hfresh.noFault j)
    (p := p) ⟨by rw [hdir, hp], by rw [hdir, hl.dir]; simp, hfit, hroom⟩ htext
  refine ⟨hret, fun r hr ↦ ?_⟩
  obtain ⟨p', hrep⟩ := sdbSync_true hl.sound.wf hret
  obtain rfl : p' = p := Option.some.inj (hrep.plan.symm.trans hp)
  have hfile := hrep.file (by rw [hl.journal]; simp)
  rw [htarget] at hfile
  have hd' : Keyed.Distinct Prod.fst (written pairs) :=
    List.Nodup.sublist (List.filter_sublist.map Prod.fst) hd
  rw [sdbGet_new hfresh.fileName hfit hfile htext, ← hd'.lookup_perm hperm.symm,
    lookup_written hd hr]

/-- **What is accepted is persisted**, except for values of the greatest length and for
files that look like text. -/
theorem persists_iff (hkeys : ∀ r ∈ pairs, r.1 ≠ CStr.empty)
    (hsize : (kvImage (written pairs)).length < 4294967296) :
    Persists w path name pairs ↔ NoLongest pairs ∧ HeaderNotText pairs :=
  ⟨noLongest_of_persists hfresh hd hacc,
    fun h ↦ persists_of_noLongest hfresh hd hacc hkeys hsize h.1 h.2⟩

end Persists

theorem fresh_d : Fresh .empty .empty (CStr.ofBytes [100]) := ⟨by decide, rfl, fun _ ↦ rfl⟩

/-- One pair is accepted when its lengths are below the limits. -/
theorem accepted_singleton {w : World} {path name : CStr} (h : Fresh w path name) {r : KvRec}
    (hlen : r.1.length < 0xff ∧ r.2.length < 0xffffff) : Accepted (sdbNew w path name) [r] := by
  have hl := Loaded.new h
  have hspec := sdbSetInternal_spec hl.sound.wf (sdbNew w path name).2 r.1 r.2 false 0
  have hnone : sdbHtFindKvp (sdbNew w path name).1 r.1 = none := hl.find r.1
  rw [hnone, setEntry, if_neg (by omega)] at hspec
  refine ⟨decide_eq_true ?_, trivial⟩
  rw [hspec.ret]
  exact Nat.succ_ne_zero 1

/-- The pair `x=1`. -/
theorem persists_x : Accepted (sdbNew .empty .empty (CStr.ofBytes [100])) fileX ∧
    Persists .empty .empty (CStr.ofBytes [100]) fileX := by
  have hacc : Accepted (sdbNew .empty .empty (CStr.ofBytes [100])) fileX :=
    accepted_singleton fresh_d (by decide)
  have hwritten : written fileX = fileX := by decide
  refine ⟨hacc, (persists_iff fresh_d (by simp [Keyed.Distinct, fileX]) hacc (by decide) ?_).mpr
    ⟨by decide, ?_⟩⟩
  · rw [hwritten]
    exact fileX_fitting.size
  · rw [HeaderNotText, hwritten]
    exact (sdbTextCheck_header _).symm.trans fileX_not_text

theorem length_kvImage_letters {n : Nat} (hn : n < 0x1000000) :
    (kvImage (written [(CStr.ofBytes [120], letters n)])).length < 4294967296 := by
  have hkey : (CStr.ofBytes [120]).length = 1 := rfl
  have hval : (letters n).val.length = n := length_letters n
  rw [written, List.filter_cons, List.filter_nil]
  split
  · rw [kvImage, length_cdbImage_eq, length_cdbBody]
    simp only [List.map_cons, List.map_nil, KvRec.raw, hkey, hval, List.sum_cons, List.sum_nil,
      List.length_cons, List.length_nil, cdbFinalSize]
    omega
  · rw [kvImage, length_cdbImage_eq]
    decide

/-- A value of 16777214 letters is accepted and cannot be written. -/
theorem not_persists_letters :
    Accepted (sdbNew .empty .empty (CStr.ofBytes [100])) [(CStr.ofBytes [120], letters 0xfffffe)] ∧
    (kvImage (written [(CStr.ofBytes [120], letters 0xfffffe)])).length < 4294967296 ∧
    ¬ Persists .empty .empty (CStr.ofBytes [100]) [(CStr.ofBytes [120], letters 0xfffffe)] := by
  have hacc : Accepted (sdbNew .empty .empty (CStr.ofBytes [100]))
      [(CStr.ofBytes [120], letters 0xfffffe)] := by
    refine accepted_singleton fresh_d ⟨by decide, ?_⟩
    rw [length_letters]
    decide
  refine ⟨hacc, length_kvImage_letters (by decide), fun h ↦ ?_⟩
  obtain ⟨hw, -⟩ := noLongest_of_persists fresh_d (by simp [Keyed.Distinct]) hacc h
  exact hw _ List.mem_cons_self (length_letters _)

end SdbStore
