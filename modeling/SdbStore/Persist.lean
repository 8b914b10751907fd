import SdbStore.Run

/-!
# What a sync keeps

`sdb_sync` merges the records of the old file with the entries in memory.  This file
says which records come out of that, and from it what the database gives for every key
after a sync, and what a new database gives that is opened on the file.
-/

namespace SdbStore

open Lib

/-! ## The merged records -/

/-- The record that is written for a key whose first record in the old file is `o`. -/
def mergedRec (s : Sdb) (k : CStr) (o : Option KvRec) : Option KvRec :=
  match sdbHtFindKvp s k with
  | none => o
  | some kv =>
      match kv.value with
      | none => none
      | some v => o.map fun _ ↦ (k, v)

/-- The value that is written from memory for an entry. -/
def memValue (kv : SdbKv) : Option CStr :=
  match kv.value with
  | none => none
  | some v => if v ≠ CStr.empty ∧ kv.expire = 0 then some v else none

/-- The key has a value in memory. -/
def Valued (s : Sdb) (k : CStr) : Prop :=
  ∃ kv v, sdbHtFindKvp s k = some kv ∧ kv.value = some v

theorem mergedRec_none (s : Sdb) (k : CStr) : mergedRec s k none = none := by
  unfold mergedRec
  split
  · rfl
  · split
    · rfl
    · rfl

/-- One record of the old file. -/
theorem cdbPlan_dumped (s : Sdb) (seen : List CStr) (r : KvRec) :
    ∃ p, cdbPlan s seen r.raw.dumped = some p ∧ ∀ k,
      (k ∈ p.2 ↔ k ∈ seen ∨ Valued s k ∧ r.1 = k) ∧
      Keyed.lookup Prod.fst p.1 k =
        if k ∈ seen then none else if r.1 = k then mergedRec s k (some r) else none := by
  have hval : CStr.ofBytes (r.2.val ++ [0]) = r.2 := CStr.ofBytes_bytesZ r.2
  have hskip : r.1 ∈ seen ∨ ¬ Valued s r.1 → ∀ k, k ∈ seen ↔ k ∈ seen ∨ Valued s k ∧ r.1 = k := by
    rintro h k
    refine ⟨.inl, ?_⟩
    rintro (hk | ⟨hv, rfl⟩)
    · exact hk
    · exact h.resolve_right (not_not_intro hv)
  have hone : ∀ (r' : KvRec) (k : CStr), r'.1 = r.1 → r.1 ∉ seen →
      mergedRec s r.1 (some r) = some r' → Keyed.lookup Prod.fst [r'] k =
        if k ∈ seen then none else if r.1 = k then mergedRec s k (some r) else none := by
    rintro r' k hr' hseen hm
    rw [Keyed.lookup_cons, hr']
    by_cases hk : r.1 = k
    · subst hk
      rw [if_pos rfl, if_neg hseen, if_pos rfl, hm]
    · rw [if_neg hk, if_neg hk]
      split
      · rfl
      · rfl
  have hnil : r.1 ∈ seen ∨ mergedRec s r.1 (some r) = none → ∀ k, none =
      if k ∈ seen then none else if r.1 = k then mergedRec s k (some r) else none := by
    rintro h k
    split
    · rfl
    · next hk =>
        split
        · next hrk =>
            subst hrk
            exact (h.resolve_left hk).symm
        · rfl
  unfold cdbPlan
  simp only [KvRec.raw, CdbRec.dumped, Option.map_some, hval]
  by_cases hseen : r.1 ∈ seen
  · refine ⟨([], seen), ?_, fun k ↦ ⟨hskip (.inl hseen) k, hnil (.inl hseen) k⟩⟩
    split
    · exact if_pos hseen
    · split
      · rfl
      · exact if_pos hseen
  · cases hf : sdbHtFindKvp s r.1 with
    | none =>
        have hno : ¬ Valued s r.1 := by
          rintro ⟨kv, v, hkv, -⟩
          rw [hf] at hkv
          cases hkv
        refine ⟨([r], seen), if_neg hseen, fun k ↦ ⟨hskip (.inr hno) k, ?_⟩⟩
        exact hone r k rfl hseen (by rw [mergedRec, hf])
    | some kv =>
        dsimp only
        cases hv : kv.value with
        | none =>
            have hno : ¬ Valued s r.1 := by
              rintro ⟨kv', v, hkv, hv'⟩
              rw [hf, Option.some.injEq] at hkv
              rw [← hkv, hv] at hv'
              cases hv'
            refine ⟨([], seen), rfl, fun k ↦ ⟨hskip (.inr hno) k, hnil (.inr ?_) k⟩⟩
            simp only [mergedRec, hf, hv]
        | some v =>
            refine ⟨([(r.1, v)], seen ++ [r.1]), if_neg hseen, fun k ↦ ⟨?_, ?_⟩⟩
            · rw [List.mem_append, List.mem_singleton]
              constructor
              · rintro (hk | rfl)
                · exact .inl hk
                · exact .inr ⟨⟨kv, v, hf, hv⟩, rfl⟩
              · rintro (hk | ⟨-, rfl⟩)
                · exact .inl hk
                · exact .inr rfl
            · refine hone (r.1, v) k rfl hseen ?_
              simp only [mergedRec, hf, hv, Option.map_some]

/-- The pass over the old file writes the merged records. -/
theorem planLoop_cdbPlan (s : Sdb) (recs : List KvRec) (seen : List CStr) :
    ∃ p, planLoop (cdbPlan s) seen (recs.map fun r ↦ r.raw.dumped) = some p ∧ ∀ k,
      (k ∈ p.2 ↔ k ∈ seen ∨ Valued s k ∧ ∃ r ∈ recs, r.1 = k) ∧
      Keyed.lookup Prod.fst p.1 k =
        if k ∈ seen then none else mergedRec s k (Keyed.lookup Prod.fst recs k) := by
  induction recs generalizing seen with
  | nil =>
      refine ⟨([], seen), rfl, fun k ↦ ⟨by simp, ?_⟩⟩
      have hnone : Keyed.lookup Prod.fst ([] : List KvRec) k = none := rfl
      rw [hnone, mergedRec_none, ite_self]
  | cons r recs ih =>
      obtain ⟨p, hp, hpk⟩ := cdbPlan_dumped s seen r
      obtain ⟨q, hq, hqk⟩ := ih p.2
      refine ⟨(p.1 ++ q.1, q.2), ?_, fun k ↦ ?_⟩
      · rw [List.map_cons, planLoop, hp, Option.bind_eq_bind, Option.bind_some, hq]
        rfl
      obtain ⟨hmem, hlook⟩ := hpk k
      obtain ⟨hmem', hlook'⟩ := hqk k
      constructor
      · rw [hmem', hmem, List.exists_mem_cons_iff, and_or_left, or_assoc]
      · rw [Keyed.lookup_append, hlook, hlook', Keyed.lookup_cons]
        by_cases hseen : k ∈ seen
        · rw [if_pos hseen, if_pos hseen, if_pos (hmem.mpr (.inl hseen))]
          rfl
        · rw [if_neg hseen, if_neg hseen]
          by_cases hk : r.1 = k
          · rw [if_pos hk, if_pos hk]
            cases hm : mergedRec s k (some r) with
            | some r' => rfl
            | none =>
                rw [Option.none_or]
                split
                · rfl
                · unfold mergedRec at hm ⊢
                  split at hm
                  · cases hm
                  · split at hm
                    · rfl
                    · cases hm
          · have hout : k ∉ p.2 := fun h ↦ (hmem.mp h).elim hseen fun h ↦ hk h.2
            rw [if_neg hk, if_neg hk, if_neg hout, Option.none_or]

/-- One entry of the memory table. -/
theorem memPlan_entry (seen : List CStr) (kv : SdbKv) :
    ∃ p, memPlan seen kv = some p ∧ ∀ k,
      (k ∈ p.2 ↔ k ∈ seen ∨ (memValue kv).isSome ∧ kv.key = k) ∧
      Keyed.lookup Prod.fst p.1 k = if k ∈ seen then none
        else if kv.key = k then (memValue kv).map fun v ↦ (k, v) else none := by
  unfold memPlan
  cases hv : kv.value with
  | none =>
      have hm : memValue kv = none := by rw [memValue, hv]
      refine ⟨([], seen), rfl, fun k ↦ ?_⟩
      rw [hm]
      simp [Keyed.lookup]
  | some v =>
      dsimp only
      by_cases hc : v ≠ CStr.empty ∧ kv.expire = 0
      · have hm : memValue kv = some v := by
          rw [memValue, hv]
          exact if_pos hc
        by_cases hseen : kv.key ∈ seen
        · refine ⟨([], seen), if_neg fun h ↦ h.2.2 hseen, fun k ↦ ?_⟩
          have hk : kv.key = k → k ∈ seen := fun h ↦ h ▸ hseen
          refine ⟨⟨.inl, fun h ↦ h.elim id fun h ↦ hk h.2⟩, ?_⟩
          split
          · rfl
          · next h => rw [if_neg (mt hk h)]; rfl
        · refine ⟨([(kv.key, v)], seen ++ [kv.key]), if_pos ⟨hc.1, hc.2, hseen⟩, fun k ↦ ?_⟩
          rw [hm, Keyed.lookup_cons]
          refine ⟨by simp [eq_comm], ?_⟩
          by_cases hk : kv.key = k
          · subst hk
            rw [if_pos rfl, if_neg hseen, if_pos rfl]
            rfl
          · rw [if_neg hk, if_neg hk, ite_self]
            rfl
      · have hm : memValue kv = none := by
          rw [memValue, hv]
          exact if_neg hc
        refine ⟨([], seen), if_neg fun h ↦ hc ⟨h.1, h.2.1⟩, fun k ↦ ?_⟩
        rw [hm]
        simp [Keyed.lookup]

/-- The pass over memory writes the entries that have a value and were not written
before. -/
theorem planLoop_memPlan {l : List SdbKv} (hl : Keyed.Distinct SdbKv.key l) (seen : List CStr) :
    ∃ q, planLoop memPlan seen l = some q ∧ ∀ k,
      (k ∈ q.2 ↔ k ∈ seen ∨ ((Keyed.lookup SdbKv.key l k).bind memValue).isSome) ∧
      Keyed.lookup Prod.fst q.1 k = if k ∈ seen then none
        else ((Keyed.lookup SdbKv.key l k).bind memValue).map fun v ↦ (k, v) := by
  induction l generalizing seen with
  | nil => exact ⟨([], seen), rfl, fun k ↦ ⟨by simp [Keyed.lookup], by simp [Keyed.lookup]⟩⟩
  | cons kv l ih =>
      obtain ⟨hnot, hl⟩ := List.nodup_cons.mp hl
      obtain ⟨p, hp, hpk⟩ := memPlan_entry seen kv
      obtain ⟨q, hq, hqk⟩ := ih hl p.2
      refine ⟨(p.1 ++ q.1, q.2), ?_, fun k ↦ ?_⟩
      · rw [planLoop, hp, Option.bind_eq_bind, Option.bind_some, hq]
        rfl
      obtain ⟨hmem, hlook⟩ := hpk k
      obtain ⟨hmem', hlook'⟩ := hqk k
      rw [Keyed.lookup_append, hmem', hmem, hlook, hlook', Keyed.lookup_cons]
      by_cases hk : kv.key = k
      · subst hk
        have hfresh : Keyed.lookup SdbKv.key l kv.key = none :=
          Keyed.lookup_eq_none_iff.mpr fun e he heq ↦ hnot (heq ▸ List.mem_map_of_mem he)
        rw [hfresh, if_pos rfl, if_pos rfl, Option.bind_some, Option.bind_none]
        simp
      · have hout : k ∈ p.2 ↔ k ∈ seen := by simp [hmem, hk]
        rw [if_neg hk, if_neg hk]
        simp [hk, hout]

/-- One round over whatever a scan returns. -/
theorem cdbPlan_of_some {s : Sdb} {seen : List CStr} {d : Dumped} {p : Plan}
    (h : cdbPlan s seen d = some p) (k : CStr) :
    (k ∈ p.2 ↔ k ∈ seen ∨ Valued s k ∧ d.key = k) ∧
      ((Keyed.lookup Prod.fst p.1 k).isSome →
        d.key = k ∧ (sdbHtFindKvp s k = none ∨ k ∈ p.2)) := by
  have hnil : (Keyed.lookup Prod.fst ([] : List KvRec) k).isSome → False := fun h ↦ nomatch h
  have hone : ∀ v, (Keyed.lookup Prod.fst [((d.key, v) : KvRec)] k).isSome → d.key = k := by
    intro v hv
    rw [Keyed.lookup_cons] at hv
    split at hv
    · assumption
    · exact (hnil hv).elim
  unfold cdbPlan at h
  split at h
  · next hf =>
      have hno : ¬ (Valued s k ∧ d.key = k) := by
        rintro ⟨⟨kv, v, hkv, -⟩, rfl⟩
        rw [hf] at hkv
        cases hkv
      split at h
      · cases h
        exact ⟨by simp [hno], fun hk ↦ (hnil hk).elim⟩
      · obtain ⟨v, -, rfl⟩ := Option.map_eq_some_iff.mp h
        refine ⟨by simp [hno], fun hk ↦ ?_⟩
        have hkey := hone _ hk
        exact ⟨hkey, .inl (hkey ▸ hf)⟩
  · next kv hf =>
      split at h
      · next hv =>
          have hno : ¬ (Valued s k ∧ d.key = k) := by
            rintro ⟨⟨kv', v, hkv, hv'⟩, rfl⟩
            rw [hf, Option.some.injEq] at hkv
            rw [← hkv, hv] at hv'
            cases hv'
          cases h
          exact ⟨by simp [hno], fun hk ↦ (hnil hk).elim⟩
      · next v hv =>
          have hval : Valued s d.key := ⟨kv, v, hf, hv⟩
          split at h
          · next hseen =>
              cases h
              refine ⟨⟨.inl, ?_⟩, fun hk ↦ (hnil hk).elim⟩
              rintro (hk | ⟨-, rfl⟩)
              · exact hk
              · exact hseen
          · cases h
            constructor
            · rw [List.mem_append, List.mem_singleton]
              constructor
              · rintro (hk | rfl)
                · exact .inl hk
                · exact .inr ⟨hval, rfl⟩
              · rintro (hk | ⟨-, rfl⟩)
                · exact .inl hk
                · exact .inr rfl
            · intro hk
              obtain rfl := hone v hk
              exact ⟨rfl, .inr (by simp)⟩

/-- The pass over whatever a scan returns. -/
theorem planLoop_cdbPlan_of_some {s : Sdb} {l : List Dumped} {seen : List CStr} {p : Plan}
    (h : planLoop (cdbPlan s) seen l = some p) (k : CStr) :
    (k ∈ p.2 ↔ k ∈ seen ∨ Valued s k ∧ ∃ d ∈ l, d.key = k) ∧
      ((Keyed.lookup Prod.fst p.1 k).isSome →
        (∃ d ∈ l, d.key = k) ∧ (sdbHtFindKvp s k = none ∨ k ∈ p.2)) := by
  induction l generalizing seen p with
  | nil =>
      cases h
      exact ⟨by simp, fun hk ↦ nomatch hk⟩
  | cons d l ih =>
      obtain ⟨p₁, hp₁, h⟩ := Option.bind_eq_some_iff.mp h
      obtain ⟨p₂, hp₂, h⟩ := Option.bind_eq_some_iff.mp h
      cases h
      obtain ⟨hmem, hlook⟩ := cdbPlan_of_some hp₁ k
      obtain ⟨hmem', hlook'⟩ := ih hp₂
      constructor
      · rw [hmem', hmem, List.exists_mem_cons_iff, and_or_left, or_assoc]
      · rw [Keyed.lookup_append, Option.isSome_or, Bool.or_eq_true]
        rintro (hk | hk)
        · obtain ⟨hd, hnone | hin⟩ := hlook hk
          · exact ⟨⟨d, List.mem_cons_self, hd⟩, .inl hnone⟩
          · exact ⟨⟨d, List.mem_cons_self, hd⟩, .inr (hmem'.mpr (.inl hin))⟩
        · obtain ⟨⟨d', hd', hkey⟩, hor⟩ := hlook' hk
          exact ⟨⟨d', List.mem_cons_of_mem _ hd', hkey⟩, hor⟩

/-- **The plan of any sync**, whatever stands in the file: the keys that leave memory, and
that a key which is written either leaves memory or is in the file only. -/
theorem syncPlan_of_some {s : Sdb} (hw : s.WF) {p : Plan} (h : syncPlan s = some p) (k : CStr) :
    (k ∈ p.2 ↔ (Valued s k ∧ ∃ d ∈ s.scan, d.key = k) ∨
      ((sdbHtFindKvp s k).bind memValue).isSome) ∧
      ((Keyed.lookup Prod.fst p.1 k).isSome → k ∈ p.2 ∨
        sdbHtFindKvp s k = none ∧ ∃ d ∈ s.scan, d.key = k) := by
  obtain ⟨p₁, hp₁, h⟩ := Option.bind_eq_some_iff.mp h
  obtain ⟨p₂, hp₂, h⟩ := Option.bind_eq_some_iff.mp h
  cases h
  obtain ⟨hmem, hlook⟩ := planLoop_cdbPlan_of_some hp₁ k
  obtain ⟨q, hq, hqk⟩ := planLoop_memPlan hw.distinct p₁.2
  obtain rfl : q = p₂ := Option.some.inj (hq.symm.trans hp₂)
  obtain ⟨hmem', hlook'⟩ := hqk k
  rw [← sdbHtFindKvp_eq hw k] at hmem' hlook'
  constructor
  · rw [hmem', hmem]
    simp
  · rw [Keyed.lookup_append, Option.isSome_or, Bool.or_eq_true]
    rintro (hk | hk)
    · obtain ⟨hd, hnone | hin⟩ := hlook hk
      · exact .inr ⟨hnone, hd⟩
      · exact .inl (hmem'.mpr (.inl hin))
    · refine .inl (hmem'.mpr (.inr ?_))
      rw [hlook'] at hk
      split at hk
      · cases hk
      · rwa [Option.isSome_map] at hk

/-- The scan and the lookups of the database both see the records `recs` behind it. -/
structure Sdb.Reads (s : Sdb) (recs : List KvRec) : Prop where
  scan : s.scan = recs.map fun r ↦ r.raw.dumped
  get : ∀ k, sdbGetDisk s k = diskGot (Keyed.lookup Prod.fst recs k)

theorem Sdb.Holds.reads {s : Sdb} {recs : List KvRec} (h : s.Holds recs) (hs : Scans recs) :
    s.Reads recs :=
  ⟨scan_holds h hs, sdbGetDisk_holds h⟩

theorem Sdb.Bare.reads {s : Sdb} (h : s.Bare) (hmap : s.db.map = none) : s.Reads [] :=
  ⟨scan_bare h hmap, sdbGetDisk_bare h⟩

/-- **The plan of a sync**: the keys it takes from memory and the record it writes for a
key. -/
theorem syncPlan_spec {s : Sdb} (hw : s.WF) {recs : List KvRec} (h : s.Reads recs) :
    ∃ p, syncPlan s = some p ∧ ∀ k,
      (k ∈ p.2 ↔ (Valued s k ∧ ∃ r ∈ recs, r.1 = k) ∨
        ((sdbHtFindKvp s k).bind memValue).isSome) ∧
      Keyed.lookup Prod.fst p.1 k = (mergedRec s k (Keyed.lookup Prod.fst recs k)).or
        (((sdbHtFindKvp s k).bind memValue).map fun v ↦ (k, v)) := by
  obtain ⟨p, hp, hpk⟩ := planLoop_cdbPlan s recs []
  obtain ⟨q, hq, hqk⟩ := planLoop_memPlan hw.distinct p.2
  refine ⟨(p.1 ++ q.1, q.2), ?_, fun k ↦ ?_⟩
  · rw [syncPlan, h.scan, hp, Option.bind_eq_bind, Option.bind_some, hq]
    rfl
  obtain ⟨hmem, hlook⟩ := hpk k
  obtain ⟨hmem', hlook'⟩ := hqk k
  rw [if_neg (by simp)] at hlook
  rw [← sdbHtFindKvp_eq hw k] at hmem' hlook'
  refine ⟨by rw [hmem', hmem]; simp, ?_⟩
  rw [Keyed.lookup_append, hlook, hlook']
  split
  · next hseen =>
      -- the key was written in the first pass
      rcases hmem.mp hseen with hno | ⟨⟨kv, v, hkv, hv⟩, r, hr, rfl⟩
      · exact absurd hno (by simp)
      · obtain ⟨r', hr'⟩ := Option.isSome_iff_exists.mp (Keyed.lookup_isSome_of_mem Prod.fst hr)
        have hsome : mergedRec s r.1 (some r') = some (r.1, v) := by
          simp only [mergedRec, hkv, hv, Option.map_some]
        rw [hr', hsome]
        rfl
  · rfl

/-! ## Lookups after a sync -/

/-- No key of the file has the empty string for a value in memory. -/
def Sdb.NoBlank (s : Sdb) (recs : List KvRec) : Prop :=
  ∀ r ∈ recs, ∀ kv, sdbHtFindKvp s r.1 = some kv → kv.value ≠ some CStr.empty

/-- The record that a sync writes for a key has the value that the database gives, and an
entry that stays in memory gives none. -/
theorem syncPlan_get {s : Sdb} (hs : s.Sound) {recs : List KvRec} (h : s.Reads recs)
    (hblank : s.NoBlank recs) {p : Plan} (hp : syncPlan s = some p) (k : CStr) :
    (diskGot (Keyed.lookup Prod.fst p.1 k)).value =
        (entryGet (sdbHtFindKvp s k) (sdbGetDisk s k)).value ∧
      (k ∉ p.2 → ∀ d, sdbHtFindKvp s k = none ∨ (entryGet (sdbHtFindKvp s k) d).value = none) := by
  obtain ⟨p', hp', hspec⟩ := syncPlan_spec hs.wf h
  rw [hp, Option.some.injEq] at hp'
  subst hp'
  obtain ⟨hmem, hlook⟩ := hspec k
  rw [hlook, h.get k]
  cases hf : sdbHtFindKvp s k with
  | none =>
      rw [Option.bind_none, Option.map_none, Option.or_none]
      exact ⟨by simp [mergedRec, hf, entryGet], fun _ _ ↦ .inl rfl⟩
  | some kv =>
      have hexp := hs.noExpire k kv hf
      rw [hf, Option.bind_some] at hmem
      rw [Option.bind_some]
      cases hv : kv.value with
      | none => simp [mergedRec, hf, hv, entryGet, memValue, diskGot, Got.null]
      | some v =>
          by_cases hve : v = CStr.empty
          · -- the blank value hides no record, and is not written
            subst hve
            have hnone : Keyed.lookup Prod.fst recs k = none :=
              Keyed.lookup_eq_none_iff.mpr fun r hr hrk ↦ hblank r hr kv (hrk ▸ hf) hv
            simp [mergedRec, hf, hv, entryGet, memValue, diskGot, Got.null, hnone]
          · have hm : memValue kv = some v := by simp [memValue, hv, hve, hexp]
            rw [hm] at hmem ⊢
            have hin : k ∈ p.2 := hmem.mpr (.inr rfl)
            refine ⟨?_, fun h ↦ absurd hin h⟩
            cases hl : Keyed.lookup Prod.fst recs k with
            | none => simp [mergedRec, hf, hv, entryGet, diskGot, hve]
            | some r => simp [mergedRec, hf, hv, entryGet, diskGot, hve]

/-! ## The files around a sync -/

theorem length_append_cstr (a b : CStr) : (a ++ b).length = a.length + b.length :=
  List.length_append

theorem tmpPath_ne (dir : CStr) : tmpPath dir ≠ dir := by
  intro h
  have hlen := congrArg CStr.length h
  have hfour : (CStr.ofBytes [46, 116, 109, 112]).length = 4 := rfl
  rw [tmpPath, length_append_cstr] at hlen
  omega

@[simp] theorem syncDir_ht (s : Sdb) : (syncDir s).ht = s.ht := by
  rw [syncDir]
  split
  · rfl
  · rfl

theorem syncPlan_syncDir (s : Sdb) : syncPlan (syncDir s) = syncPlan s := by
  rw [syncDir]
  split
  · rfl
  · rfl

theorem syncDir_sound {s : Sdb} (h : s.Sound) : (syncDir s).Sound := h.of_ht (syncDir_ht s)

/-- Loading a text leaves the file behind the database as it is. -/
theorem sdbTextSets_frame {s : Sdb} (hw : s.WF) (w : World) (sets : List TextSet) :
    s.Frame (sdbTextSets s w sets).1 := by
  rw [sdbTextSets]
  induction sets generalizing s w with
  | nil => rfl
  | cons t sets ih =>
      rw [List.foldl_cons]
      split
      · have hspec := sdbSetInternal_spec hw w t.key t.val false 0
        exact hspec.frame.trans (ih hspec.wf _)
      · exact ih hw w

/-- What has happened once the temporary file is written. -/
theorem written_of_syncWrite {s : Sdb} (hw : s.WF) {w w₁ w₂ : World} {per : List CStr}
    (hopen : tmpOpen (tmpPath s.target) w = .ok () w₁)
    (hwrite : syncWrite (syncDir s) (tmpPath s.target) w₁ = .ok per w₂) :
    ∃ p, Writable (syncDir s) p ∧ per = p.2 ∧
      w₂.fs (tmpPath s.target) = some (kvImage p.1) ∧ Touches (tmpPath s.target) w w₂ := by
  have hwf : (syncDir s).WF := by
    rw [Sdb.WF, syncDir_ht]
    exact hw
  have hempty : w₁.fs (tmpPath s.target) = some [] := by
    rw [(sysCall_eq_ok.mp hopen).2]
    exact if_pos rfl
  have h₁ := (tmpOpen_moves (tmpPath s.target) w).1
  have h₂ := (syncWrite_moves (syncDir s) (tmpPath s.target) w₁).1
  rw [hopen] at h₁
  rw [hwrite] at h₂
  obtain ⟨p, hp, hper, hfile⟩ := (syncWrite_ends hwf hempty).of_ok hwrite
  exact ⟨p, hp, hper, hfile, h₁.trans _ _ _ _ h₂⟩

/-- The files after the rename. -/
theorem fs_of_tmpRename {s : Sdb} {w₂ w₃ : World}
    (hrename : tmpRename (tmpPath s.target) s.target w₂ = .ok () w₃) (q : CStr) :
    w₃.fs q = if q = tmpPath s.target then none
      else if q = s.target then w₂.fs (tmpPath s.target) else w₂.fs q := by
  rw [(sysCall_eq_ok.mp hrename).2]
  rfl

theorem target_of_tmpRename {s : Sdb} {w₂ w₃ : World} {f : Bytes}
    (hrename : tmpRename (tmpPath s.target) s.target w₂ = .ok () w₃)
    (hfile : w₂.fs (tmpPath s.target) = some f) : w₃.fs s.target = some f := by
  rw [fs_of_tmpRename hrename, if_neg (tmpPath_ne s.target).symm, if_pos rfl, hfile]

/-- A sync that has put the records of `p` in place. -/
structure Replaced (s : Sdb) (w : World) (p : Plan) (r : Sdb × World) : Prop where
  writable : Writable (syncDir s) p
  not_text : sdbTextCheck (some (kvImage p.1)) = false
  sdb : r.1 = { syncDir s with
    dir := some s.target
    fd := some (kvImage p.1)
    db := (cdbInit (some (kvImage p.1))).2
    ht := removePersisted s.ht p.2 }
  world : ∃ w₃, r.2 = sdbJournalClear s w₃ ∧ w₃.fs s.target = some (kvImage p.1) ∧
    ∀ q, q ≠ s.target → q ≠ tmpPath s.target → w₃.fs q = w.fs q

theorem journal_syncDir (s : Sdb) : (syncDir s).journal = s.journal := by
  rw [syncDir]
  split
  · rfl
  · rfl

/-- **A sync that returns true** has put the records of its plan in place. -/
theorem sdbSync_true {s : Sdb} (hw : s.WF) {w : World} (h : (sdbSync s w).1 = true) :
    ∃ p, Replaced s w p (sdbSync s w).2 := by
  have hsync := sdbSync_synced s w
  generalize sdbSync s w = res at hsync h ⊢
  cases hsync with
  | noCreate => cases h
  | noWrite => cases h
  | noRename => cases h
  | noReopen => cases h
  | @done w₁ w₂ w₃ per r hopen hwrite hrename hr hret =>
      obtain ⟨p, hp, rfl, hfile, htouch⟩ := written_of_syncWrite hw hopen hwrite
      have hfs := fs_of_tmpRename hrename
      have htarget := target_of_tmpRename hrename hfile
      have hclosed : (closeCurrentDatabase (syncDir s)).WF :=
        tableInv_wf.of_ht (tableInv_wf.syncDir hw) rfl rfl
      rw [sdbOpen] at hr
      by_cases htext : sdbTextCheck (w₃.fs s.target) = true
      · -- a file that is taken for text is not opened
        rw [if_pos htext] at hr
        subst hr
        dsimp only at hret
        rw [sdbTextSets_frame hclosed] at hret
        cases hret
      · rw [if_neg htext, htarget] at hr
        subst hr
        rw [htarget] at htext
        refine ⟨p, hp, by simpa using htext, ?_, w₃, ?_, htarget, fun q hq hq' ↦ ?_⟩
        · dsimp only [closeCurrentDatabase]
          rw [syncDir_ht]
        · dsimp only [closeCurrentDatabase, sdbJournalClear]
          rw [journal_syncDir]
        · rw [hfs, if_neg hq', if_neg hq, htouch.fs q hq']

/-! ## The file behind the database in every state -/

/-- A file that can be opened: there is none, it is plain text, or it was written by
`cdb_make.c`. -/
def SaneFile (f : Option Bytes) : Prop :=
  f = none ∨ sdbTextCheck f = true ∨ ∃ recs, KvFitting recs ∧ f = some (kvImage recs)

/-- What `sdb_new` makes on a file that can be opened. -/
def SaneOpened (st : Sdb × World) : Prop :=
  ∃ w path name, SaneFile (w.fs (sdbNewDir path name)) ∧ st = sdbNew w path name

/-- The files that a call opens can be opened; `sdb_sync` opens the file it could not
replace. -/
def SaneCall (op : Op) (st : Sdb × World) : Prop :=
  match op with
  | .open file => SaneFile (st.2.fs file)
  | .sync => SaneFile (st.2.fs st.1.target)
  | _ => True

theorem Sdb.Backed.of_frame {s s' : Sdb} (h : s.Backed) (hf : s.Frame s') : s'.Backed := by
  rw [hf]
  rcases h with ⟨recs, h⟩ | h
  · exact .inl ⟨recs, h.fitting, h.fd, h.db⟩
  · exact .inr ⟨h.fd, h.dbFd⟩

theorem Sdb.Backed.open {s : Sdb} (h : s.Backed) (hw : s.WF) {w : World} {file : CStr}
    (hfile : SaneFile (w.fs file)) : (sdbOpen s w file).2.1.Backed := by
  rw [sdbOpen]
  split
  · exact h.of_frame (sdbTextSets_frame hw w _)
  · next htext =>
      rcases hfile with hnone | htext' | ⟨recs, hfit, hrecs⟩
      · rw [hnone]
        exact .inr ⟨rfl, rfl⟩
      · exact absurd htext' htext
      · rw [hrecs]
        exact .inl ⟨recs, hfit, rfl, hfit.over⟩

theorem Sdb.Backed.new {w : World} {path name : CStr}
    (hfile : SaneFile (w.fs (sdbNewDir path name))) : (sdbNew w path name).1.Backed := by
  rw [sdbNew]
  split
  · have hbare : Sdb.Backed { sdbNew0 with dir := some (sdbNewDir path name) } :=
      .inr ⟨rfl, rfl⟩
    rcases hbare.open (sound_of_htNew rfl).wf hfile with ⟨recs, h⟩ | h
    · refine .inl ⟨recs, h.fitting, h.fd, ?_⟩
      dsimp only
      rw [h.fd]
      exact h.fitting.over
    · refine .inr ⟨h.fd, ?_⟩
      dsimp only
      rw [h.fd]
      rfl
  · exact .inr ⟨rfl, rfl⟩

theorem Sdb.Backed.syncDir {s : Sdb} (h : s.Backed) : (syncDir s).Backed := by
  rw [SdbStore.syncDir]
  split
  · rcases h with ⟨recs, h⟩ | h
    · exact .inl ⟨recs, h.fitting, h.fd, h.db⟩
    · exact .inr ⟨h.fd, h.dbFd⟩
  · exact h

theorem Sdb.Backed.sync {s : Sdb} (h : s.Backed) (hw : s.WF) {w : World}
    (hfile : SaneFile (w.fs s.target)) : (sdbSync s w).2.1.Backed := by
  have hclosed : (closeCurrentDatabase (SdbStore.syncDir s)).Backed := .inr ⟨rfl, rfl⟩
  have hwf : (closeCurrentDatabase (SdbStore.syncDir s)).WF :=
    tableInv_wf.of_ht (tableInv_wf.syncDir hw) rfl rfl
  have hsync := sdbSync_synced s w
  generalize sdbSync s w = res at hsync ⊢
  cases hsync with
  | noCreate => exact h.syncDir
  | noWrite => exact h.syncDir
  | @noRename w₁ w₂ w₃ per e hopen hwrite hrename =>
      refine hclosed.open hwf ?_
      obtain ⟨-, -, -, -, htouch⟩ := written_of_syncWrite hw hopen hwrite
      rw [setFile_fs, if_neg (tmpPath_ne s.target).symm, (sysCall_eq_error hrename).2]
      rwa [← htouch.fs _ (tmpPath_ne s.target).symm] at hfile
  | @noReopen w₁ w₂ w₃ per r hopen hwrite hrename hr hret =>
      obtain ⟨p, hp, -, hfile', -⟩ := written_of_syncWrite hw hopen hwrite
      rw [hr]
      exact hclosed.open hwf (.inr (.inr ⟨p.1, hp.fitting, target_of_tmpRename hrename hfile'⟩))
  | @done w₁ w₂ w₃ per r hopen hwrite hrename hr hret =>
      obtain ⟨p, hp, -, hfile', -⟩ := written_of_syncWrite hw hopen hwrite
      have hopened := hclosed.open hwf
        (.inr (.inr ⟨p.1, hp.fitting, target_of_tmpRename hrename hfile'⟩))
      rw [← hr] at hopened
      exact hopened.of_frame rfl

theorem Sdb.Backed.run {st : Sdb × World} (h : st.1.Backed) (hw : st.1.WF) {op : Op}
    (hop : SaneCall op st) : (op.run st).1.Backed := by
  cases op with
  | set key val cas => exact h.of_frame (sdbSetInternal_spec hw st.2 key val false cas).frame
  | unset key cas => exact h.of_frame (sdbSetInternal_spec hw st.2 key .empty false cas).frame
  | sync => exact h.sync hw hop
  | «open» file => exact h.open hw hop
  | reset =>
      change (sdbReset st.1).Backed
      rw [sdbReset, sdbClose]
      rcases h with ⟨recs, h⟩ | h
      · rw [h.fd]
        exact .inr ⟨rfl, rfl⟩
      · rw [h.fd]
        exact .inr ⟨rfl, h.dbFd⟩
  | journalOpen =>
      change (sdbJournalOpen st.1 st.2).2.1.Backed
      rw [sdbJournalOpen]
      split
      · exact h
      · dsimp only
        split
        · exact h
        · rcases h with ⟨recs, h⟩ | h
          · exact .inl ⟨recs, h.fitting, h.fd, h.db⟩
          · exact .inr ⟨h.fd, h.dbFd⟩

/-- In every state of a run that opens sane files, the database is sound and backed by a
written file or by none. -/
theorem Reach.backed {st : Sdb × World} (h : Reach SaneOpened SaneCall st) :
    st.1.Sound ∧ st.1.Backed := by
  refine h.induct (I := fun st ↦ st.1.Sound ∧ st.1.Backed) ?_ fun st op hI hop ↦
    ⟨hI.1.run op, hI.2.run hI.1.wf hop⟩
  rintro _ ⟨w, path, name, hfile, rfl⟩
  exact ⟨Sdb.Sound.new w path name, Sdb.Backed.new hfile⟩

/-! ## Lookups before and after a sync -/

/-- After a sync that returns true every key has the value it had before, and the same
value again in a new database that is opened on the file. -/
def SyncKeeps (st : Sdb × World) : Prop :=
  let r := sdbSync st.1 st.2
  r.1 = true → ∀ k, sdbGet r.2.1 r.2.2 k = sdbGet st.1 st.2 k ∧
    let new := (sdbOpen sdbNew0 r.2.2 st.1.target).2
    sdbGet new.1 new.2 k = sdbGet st.1 st.2 k

/-- The scan returns the records of the open file and stops behind them, and no mapping
is left of a file that is closed. -/
structure ScanSafe (s : Sdb) : Prop where
  unmapped : s.fd = none → s.db.map = none
  scans : ∀ recs, s.Holds recs → Scans recs

/-- A state in which nothing is lost by a sync: the scan is safe, no key of the file has
the empty string for a value in memory, and the file that is written is not the
journal. -/
structure SyncSafe (s : Sdb) : Prop where
  scan : ScanSafe s
  noBlank : ∀ recs, s.Holds recs → s.NoBlank recs
  journal : s.journal ≠ some s.target

theorem SyncSafe.reads {s : Sdb} (h : SyncSafe s) (hb : s.Backed) :
    ∃ recs, s.Reads recs ∧ s.NoBlank recs := by
  rcases hb with ⟨recs, hh⟩ | hh
  · exact ⟨recs, hh.reads (h.scan.scans recs hh), h.noBlank recs hh⟩
  · exact ⟨[], hh.reads (h.scan.unmapped hh.fd), fun r hr ↦ absurd hr (by simp)⟩

section Replaced

variable {s : Sdb} {w : World} {p : Plan} {r : Sdb × World} (h : Replaced s w p r)
include h

theorem Replaced.plan : syncPlan s = some p := by
  rw [← syncPlan_syncDir]
  exact h.writable.plan

theorem Replaced.holds : r.1.Holds p.1 := by
  rw [h.sdb]
  exact ⟨h.writable.fitting, rfl, h.writable.fitting.over⟩

theorem Replaced.find (hw : s.WF) (k : CStr) :
    sdbHtFindKvp r.1 k = if k ∈ p.2 then none else sdbHtFindKvp s k := by
  rw [h.sdb]
  exact sdbHtFindKvp_removePersisted hw p.2 k

theorem Replaced.file (hj : s.journal ≠ some s.target) :
    r.2.fs s.target = some (kvImage p.1) := by
  obtain ⟨w₃, hr, hfile, -⟩ := h.world
  rw [hr, sdbJournalClear]
  cases hj' : s.journal with
  | none => exact hfile
  | some j =>
      have hne : s.target ≠ j := fun h ↦ hj (by rw [hj', h])
      dsimp only
      rw [setFile_fs, if_neg hne, hfile]

/-- What a new database gives that is opened on the file. -/
theorem Replaced.reopened (hj : s.journal ≠ some s.target) (k : CStr) :
    let new := (sdbOpen sdbNew0 r.2 s.target).2
    sdbGet new.1 new.2 k = (diskGot (Keyed.lookup Prod.fst p.1 k)).value := by
  obtain ⟨-, hholds, hht, -⟩ :=
    sdbOpen_holds (s := sdbNew0) h.writable.fitting (h.file hj) h.not_text
  have hsound := sound_of_htNew (hht.trans rfl)
  have hnone := sdbHtFindKvp_of_htNew (hht.trans rfl) k
  intro new
  rw [sdbGet_eq hsound.noExpire, hnone, sdbGetDisk_holds hholds]
  rfl

end Replaced

/-- **A sync keeps every value**, in every run that opens sane files, when the state
before it is safe. -/
theorem syncKeeps_of_safe {st : Sdb × World} (hst : Reach SaneOpened SaneCall st)
    (hsafe : SyncSafe st.1) : SyncKeeps st := by
  obtain ⟨hs, hb⟩ := hst.backed
  obtain ⟨recs, hreads, hblank⟩ := hsafe.reads hb
  intro hret k
  obtain ⟨p, hp⟩ := sdbSync_true hs.wf hret
  have hsound := hs.sync st.2
  obtain ⟨hget, hout⟩ := syncPlan_get hs hreads hblank hp.plan k
  rw [sdbGet_eq hs.noExpire, ← hget]
  refine ⟨?_, hp.reopened hsafe.journal k⟩
  rw [sdbGet_eq hsound.noExpire, hp.find hs.wf, sdbGetDisk_holds hp.holds]
  split
  · rfl
  · next hk =>
      rcases hout hk (diskGot (Keyed.lookup Prod.fst p.1 k)) with hnone | hnone
      · rw [hnone]
        rfl
      · rcases hout hk (sdbGetDisk st.1 k) with hnone' | hnone'
        · rw [hnone']
          rfl
        · rw [hnone, hget, hnone']

/-- The end of a sync whose new file is in place. -/
def syncReopen (s : Sdb) (w : World) (per : List CStr) : Bool × Sdb × World :=
  let r := sdbOpen (closeCurrentDatabase (syncDir s)) w s.target
  if r.1 then
    (true, { r.2.1 with ht := removePersisted r.2.1.ht per }, sdbJournalClear r.2.1 r.2.2)
  else (false, r.2)

/-- **A sync without faults** does what the plan says, or nothing when the plan cannot be
carried out. -/
theorem sdbSync_noFault {s : Sdb} (hs : s.WF) {w : World} (hw : ∀ j, w.fails j = false) :
    ((∀ p, ¬ Writable (syncDir s) p) ∧ ∃ w₂, Touches (tmpPath s.target) w w₂ ∧
      sdbSync s w = (false, syncDir s, w₂.setFile (tmpPath s.target) none)) ∨
    ∃ p w₃, Writable (syncDir s) p ∧ w₃.fs s.target = some (kvImage p.1) ∧
      sdbSync s w = syncReopen s w₃ p.2 := by
  have hwf := tableInv_wf.syncDir hs
  -- the oracle is the same all along
  have hfails₁ : ∀ {w₁}, tmpOpen (tmpPath s.target) w = .ok () w₁ → ∀ j, w₁.fails j = false := by
    intro w₁ h j
    rw [(sysCall_eq_ok.mp h).2]
    exact hw j
  have hfails₂ : ∀ {w₁ w₂ per}, tmpOpen (tmpPath s.target) w = .ok () w₁ →
      syncWrite (syncDir s) (tmpPath s.target) w₁ = .ok per w₂ → ∀ j, w₂.fails j = false := by
    intro w₁ w₂ per h₁ h₂ j
    have hsame := (syncWrite_failStop (syncDir s) (tmpPath s.target) w₁).same
    rw [h₂] at hsame
    exact (congrFun hsame j).trans (hfails₁ h₁ j)
  have hsync := sdbSync_synced s w
  generalize sdbSync s w = res at hsync ⊢
  cases hsync with
  | noCreate hopen =>
      have hf := (sysCall_eq_error hopen).1
      rw [hw] at hf
      cases hf
  | @noWrite w₁ w₂ e hopen hwrite =>
      have hempty : w₁.fs (tmpPath s.target) = some [] := by
        rw [(sysCall_eq_ok.mp hopen).2]
        exact if_pos rfl
      rcases (syncWrite_ends hwf hempty).of_error hwrite with rfl | ⟨-, hno⟩
      · exact absurd hwrite ((syncWrite_failStop _ _).not_error (hfails₁ hopen))
      · have h₁ := (tmpOpen_moves (tmpPath s.target) w).1
        have h₂ := (syncWrite_moves (syncDir s) (tmpPath s.target) w₁).1
        rw [hopen] at h₁
        rw [hwrite] at h₂
        exact .inl ⟨hno, w₂, h₁.trans _ _ _ _ h₂, rfl⟩
  | noRename hopen hwrite hrename =>
      have hf := (sysCall_eq_error hrename).1
      rw [hfails₂ hopen hwrite] at hf
      cases hf
  | @noReopen w₁ w₂ w₃ per r hopen hwrite hrename hr hret =>
      obtain ⟨p, hp, rfl, hfile, -⟩ := written_of_syncWrite hs hopen hwrite
      refine .inr ⟨p, w₃, hp, target_of_tmpRename hrename hfile, ?_⟩
      rw [syncReopen, ← hr, if_neg (by rw [hret]; decide)]
  | @done w₁ w₂ w₃ per r hopen hwrite hrename hr hret =>
      obtain ⟨p, hp, rfl, hfile, -⟩ := written_of_syncWrite hs hopen hwrite
      refine .inr ⟨p, w₃, hp, target_of_tmpRename hrename hfile, ?_⟩
      rw [syncReopen, ← hr, if_pos hret]

/-- A sync without faults returns true when the plan can be carried out and the new file
is not taken for text. -/
theorem sdbSync_eq_true {s : Sdb} (hs : s.WF) {w : World} (hw : ∀ j, w.fails j = false)
    {p : Plan} (hp : Writable (syncDir s) p)
    (htext : sdbTextCheck (some (kvImage p.1)) = false) : (sdbSync s w).1 = true := by
  rcases sdbSync_noFault hs hw with ⟨hno, -⟩ | ⟨p', w₃, hp', hfile, hres⟩
  · exact absurd hp (hno p)
  · obtain rfl : p' = p := Option.some.inj (hp'.plan.symm.trans hp.plan)
    rw [hres, syncReopen, sdbOpen_file hfile htext]
    rfl

/-- An empty string in memory over a record of the file is written as a record and then
leaves memory: the key comes back with the empty string. -/
theorem not_syncKeeps_of_blank {st : Sdb × World} (hs : st.1.Sound) {recs : List KvRec}
    (hholds : st.1.Holds recs) (hscans : Scans recs) {r : KvRec} (hr : r ∈ recs) {kv : SdbKv}
    (hf : sdbHtFindKvp st.1 r.1 = some kv) (hv : kv.value = some CStr.empty)
    (hret : (sdbSync st.1 st.2).1 = true) : ¬ SyncKeeps st := by
  intro h
  obtain ⟨p, hp⟩ := sdbSync_true hs.wf hret
  obtain ⟨p', hp', hspec⟩ := syncPlan_spec hs.wf (hholds.reads hscans)
  obtain rfl : p' = p := Option.some.inj (hp'.symm.trans hp.plan)
  obtain ⟨hmem, hlook⟩ := hspec r.1
  have hin : r.1 ∈ p'.2 := hmem.mpr (.inl ⟨⟨kv, _, hf, hv⟩, r, hr, rfl⟩)
  obtain ⟨r', hr'⟩ := Option.isSome_iff_exists.mp (Keyed.lookup_isSome_of_mem Prod.fst hr)
  have hrec : Keyed.lookup Prod.fst p'.1 r.1 = some (r.1, CStr.empty) := by
    rw [hlook, hr']
    simp [mergedRec, hf, hv]
  have hkeep := (h hret r.1).1
  rw [sdbGet_eq (hs.sync st.2).noExpire, sdbGet_eq hs.noExpire, hp.find hs.wf, if_pos hin,
    sdbGetDisk_holds hp.holds, hrec, hf] at hkeep
  simp [entryGet, hv, diskGot, Got.null] at hkeep

/-- Entries that have been written are skipped. -/
theorem planLoop_memPlan_of_seen {l : List SdbKv} {seen : List CStr}
    (h : ∀ kv ∈ l, kv.key ∈ seen) : planLoop memPlan seen l = some ([], seen) := by
  induction l with
  | nil => rfl
  | cons kv l ih =>
      have hskip : memPlan seen kv = some ([], seen) := by
        unfold memPlan
        split
        · rfl
        · exact if_neg fun hc ↦ hc.2.2 (h kv (by simp))
      rw [planLoop, hskip, Option.bind_eq_bind, Option.bind_some,
        ih fun kv' hkv' ↦ h kv' (by simp [hkv'])]
      rfl

theorem sdbSetInternal_fails (s : Sdb) (w : World) (key val : CStr) (owned : Bool) (cas : Nat) :
    (sdbSetInternal s w key val owned cas).2.2.fails = w.fails := by
  rcases sdbSetInternal_world s w key val owned cas with h | h
  · rw [h]
  · rw [h, sdbJournalLog]
    split
    · rfl
    · rfl

/-- A state of a run over the file `x=1` with no entry in memory but `e`, for the key
`x`. -/
structure OverX (st : Sdb × World) (e : Option SdbKv) : Prop where
  reach : Reach SaneOpened SaneCall st
  holds : st.1.Holds fileX
  find : ∀ k, sdbHtFindKvp st.1 k = if k = CStr.ofBytes [120] then e else none
  dir : st.1.dir = some (CStr.ofBytes [100])
  journal : st.1.journal = none
  fails : ∀ j, st.2.fails j = false

theorem OverX.new : OverX (newOn (kvImage fileX)) none where
  reach := by
    refine .start ⟨_, _, _, .inr (.inr ⟨fileX, fileX_fitting, ?_⟩), rfl⟩
    rw [setFile_fs, if_pos (by decide)]
  holds := newOn_holds fileX_fitting fileX_not_text
  find k := by rw [sdbHtFindKvp_of_htNew (newOn_ht fileX_not_text), ite_self]
  dir := by rw [newOn_eq fileX_not_text]
  journal := by
    rw [newOn_eq fileX_not_text]
    rfl
  fails j := by
    rw [newOn_eq fileX_not_text]
    rfl

theorem OverX.set {st : Sdb × World} {e : Option SdbKv} (h : OverX st e) (val : CStr) (cas : Nat) :
    OverX (Op.run (.set (CStr.ofBytes [120]) val cas) st)
      (setEntry e 1 (CStr.ofBytes [120]) val false cas).2 := by
  have hs := h.reach.backed.1
  have hspec := sdbSetInternal_spec hs.wf st.2 (CStr.ofBytes [120]) val false cas
  have hlook : (cdbLookup st.1.db (CStr.ofBytes [120])).1 = 1 :=
    cdbLookup_of_some h.holds (r := (CStr.ofBytes [120], CStr.ofBytes [49])) (by decide)
  rw [hlook, h.find, if_pos rfl] at hspec
  refine ⟨.step _ h.reach trivial, hspec.holds h.holds, fun k ↦ ?_, ?_, ?_, fun j ↦ ?_⟩
  · refine (hspec.find k).trans ?_
    split
    · rfl
    · next hk => rw [h.find, if_neg hk]
  · exact (congrArg Sdb.dir hspec.frame).trans h.dir
  · exact (congrArg Sdb.journal hspec.frame).trans h.journal
  · exact (congrFun (sdbSetInternal_fails _ _ _ _ _ _) j).trans (h.fails j)

theorem fileX_scans : Scans fileX where
  readable := by decide
  ends := by
    have hslot : firstSlotHash (fileX.map KvRec.raw) = some 0 := by decide
    intro h hh
    rw [hslot] at hh
    obtain rfl := Option.some.inj hh
    exact .inl rfl

theorem OverX.scanSafe {st : Sdb × World} {e : Option SdbKv} (h : OverX st e) :
    ScanSafe st.1 where
  unmapped hfd := by
    rw [h.holds.fd] at hfd
    cases hfd
  scans recs hrecs := by
    rw [hrecs.unique h.holds]
    exact fileX_scans

theorem length_cdbBody_x (v : CStr) :
    (cdbBody ([(CStr.ofBytes [120], v)].map KvRec.raw)).length = 7 + v.length := by
  rw [length_cdbBody]
  rfl

/-- One record, of the key `x`. -/
theorem kvFitting_x {v : CStr} (hv : v.length + 1 < sdbMaxValue) :
    KvFitting [(CStr.ofBytes [120], v)] := by
  refine ⟨fun r hr ↦ ?_, ?_⟩
  · obtain rfl := List.mem_singleton.mp hr
    have hkey : (CStr.ofBytes [120]).length + 1 ≤ sdbMaxKey := by decide
    exact ⟨hkey, hv⟩
  · rw [sdbMaxValue] at hv
    rw [length_cdbImage_eq, length_cdbBody_x]
    simp only [cdbFinalSize, List.map_cons, List.map_nil, List.length_cons, List.length_nil]
    omega

/-- Over the file `x=1`, with an entry for `x` alone, the value in memory is written. -/
theorem sdbSync_overX {st : Sdb × World} {kv : SdbKv} {v : CStr} (hw : st.1.WF)
    (hholds : st.1.Holds fileX)
    (hfind : ∀ k, sdbHtFindKvp st.1 k = if k = CStr.ofBytes [120] then some kv else none)
    (hdir : st.1.dir = some (CStr.ofBytes [100])) (hfails : ∀ j, st.2.fails j = false)
    (hv : kv.value = some v) (hlen : v.length ≤ 1) : (sdbSync st.1 st.2).1 = true := by
  have hsame : syncDir st.1 = st.1 := by
    rw [syncDir, hdir]
    rfl
  have hplan : syncPlan st.1 = some ([(CStr.ofBytes [120], v)], [CStr.ofBytes [120]]) := by
    have hmem : planLoop memPlan [CStr.ofBytes [120]] st.1.ht.toList =
        some ([], [CStr.ofBytes [120]]) := by
      refine planLoop_memPlan_of_seen fun kv' hkv' ↦ ?_
      have hf := sdbHtFindKvp_of_mem hw hkv'
      rw [hfind] at hf
      split at hf
      · next hk => exact List.mem_singleton.mpr hk
      · cases hf
    have hcdb : cdbPlan st.1 [] (KvRec.raw (CStr.ofBytes [120], CStr.ofBytes [49])).dumped =
        some ([(CStr.ofBytes [120], v)], [CStr.ofBytes [120]]) := by
      have hf := hfind (CStr.ofBytes [120])
      rw [if_pos rfl] at hf
      simp [cdbPlan, KvRec.raw, CdbRec.dumped, hf, hv]
    rw [syncPlan, scan_holds hholds fileX_scans]
    simp [fileX, planLoop, hcdb, hmem]
  refine sdbSync_eq_true hw hfails (p := ([(CStr.ofBytes [120], v)], [CStr.ofBytes [120]]))
    ⟨by rw [hsame, hplan], by rw [hsame, hdir]; simp, kvFitting_x (by rw [sdbMaxValue]; omega),
      cdbRoom_of_length (by simp)⟩ ?_
  refine sdbTextCheck_cdbImage ?_
  rw [length_cdbBody_x]
  obtain h | h : v.length = 0 ∨ v.length = 1 := by omega
  · rw [h]
    decide
  · rw [h]
    decide

theorem OverX.sync {st : Sdb × World} {kv : SdbKv} {v : CStr} (h : OverX st (some kv))
    (hv : kv.value = some v) (hlen : v.length ≤ 1) : (sdbSync st.1 st.2).1 = true :=
  sdbSync_overX h.reach.backed.1.wf h.holds h.find h.dir h.fails hv hlen

/-- The key `x` of the file `x=1` is set to `2` in memory, and synced. -/
theorem syncKeeps_x : ∃ st, Reach SaneOpened SaneCall st ∧ (sdbSync st.1 st.2).1 = true ∧
    SyncKeeps st := by
  have h := OverX.new.set (CStr.ofBytes [50]) 0
  refine ⟨_, h.reach, h.sync rfl (by decide), syncKeeps_of_safe h.reach ⟨h.scanSafe, ?_, ?_⟩⟩
  · intro recs hrecs r hr kv hkv hv
    rw [h.find] at hkv
    split at hkv
    · cases hkv
      exact absurd hv (by decide)
    · cases hkv
  · rw [h.journal]
    simp

/-- The key `x` of the file `x=1` is set to `2` and then unset; a sync returns true and
the key has the empty string for a value. -/
theorem not_syncKeeps_x : ∃ st, Reach SaneOpened SaneCall st ∧ ¬ SyncKeeps st := by
  have h := (OverX.new.set (CStr.ofBytes [50]) 0).set CStr.empty 0
  have hf := h.find (CStr.ofBytes [120])
  rw [if_pos rfl] at hf
  exact ⟨_, h.reach, not_syncKeeps_of_blank h.reach.backed.1 h.holds fileX_scans
    (r := (CStr.ofBytes [120], CStr.ofBytes [49])) (by decide) hf rfl (h.sync rfl (by decide))⟩

end SdbStore
