import SdbStore.Sdb

/-!
# The life of an entry

What `sdb_set_internal` does depends on the entry of its key in memory and on what
`cdb_findnext` says about the key, and it changes that entry alone.  `setEntry` is
this dependence on its own; `sdbSetInternal_spec` says that it is all there is.
Everything about sequences of writes is derived from these two.
-/

namespace SdbStore

open Lib

/-- The entry that `sdb_set_internal` makes for a key it does not find. -/
def newEntry (key val : CStr) (owned : Bool) : SdbKv :=
  { key := key
    value := if owned then some val else if val = CStr.empty then none else some val
    cas := 2
    expire := 0 }

/-- What `sdb_set_internal` returns and leaves as the entry of the key, given the entry
before it and the result of `cdb_findnext`. -/
def setEntry (e : Option SdbKv) (disk : Int) (key val : CStr) (owned : Bool) (cas : Nat) :
    Nat × Option SdbKv :=
  if key.length ≥ 0xff ∨ val.length ≥ 0xffffff then (0, e) else
    match e with
    | none => (2, some (newEntry key val owned))
    | some kv =>
        match kv.value with
        | none => (2, some (newEntry key val owned))
        | some old =>
            if disk ≠ 0 then
              if cas ≠ 0 ∧ kv.cas ≠ cas then (0, e)
              else if val = old then (kv.cas, e)
              else (nextcas kv, some { kv with cas := nextcas kv, value := some val })
            else (nextcas kv, none)

/-- The memory table is well formed. -/
def Sdb.WF (s : Sdb) : Prop := s.ht.WF sdbHtOpt

theorem Sdb.WF.distinctKeys {s : Sdb} (hw : s.WF) : Keyed.Distinct SdbKv.key s.ht.toList :=
  Ht.WF.distinct hw

section Find

variable {s : Sdb} (hw : s.WF)
include hw

theorem sdbHtFindKvp_eq (k : CStr) :
    sdbHtFindKvp s k = Keyed.lookup SdbKv.key s.ht.toList k :=
  htFindKv_eq sdbHtOpt_lawful hw k

theorem key_of_sdbHtFindKvp {k : CStr} {kv : SdbKv} (h : sdbHtFindKvp s k = some kv) :
    kv ∈ s.ht.toList ∧ kv.key = k := by
  rw [sdbHtFindKvp_eq hw] at h
  exact Keyed.lookup_some_mem h

theorem sdbHtFindKvp_of_mem {kv : SdbKv} (h : kv ∈ s.ht.toList) :
    sdbHtFindKvp s kv.key = some kv := by
  rw [sdbHtFindKvp_eq hw]
  exact hw.distinct.lookup_eq_some_iff.mpr ⟨h, rfl⟩

/-- A table whose entries are those of `s` with `kv` put in. -/
theorem sdbHtFindKvp_put {h : Ht SdbKv} (hwf : h.WF sdbHtOpt) {kv : SdbKv}
    (hp : h.toList.Perm (kv :: Keyed.erase SdbKv.key s.ht.toList kv.key)) (k : CStr) :
    sdbHtFindKvp { s with ht := h } k = if k = kv.key then some kv else sdbHtFindKvp s k := by
  have hwf' : Sdb.WF { s with ht := h } := hwf
  rw [sdbHtFindKvp_eq hwf', sdbHtFindKvp_eq hw]
  exact (hwf.distinct.lookup_perm hp k).trans (Keyed.lookup_cons_erase _ _ _)

theorem sdbHtFindKvp_delete (key k : CStr) :
    sdbHtFindKvp { s with ht := (htDelete sdbHtOpt s.ht key).2 } k =
      if k = key then none else sdbHtFindKvp s k := by
  obtain ⟨hwf, hl⟩ := htDelete_spec sdbHtOpt_lawful hw key
  have hwf' : Sdb.WF { s with ht := (htDelete sdbHtOpt s.ht key).2 } := hwf
  rw [sdbHtFindKvp_eq hwf', sdbHtFindKvp_eq hw]
  change Keyed.lookup SdbKv.key (htDelete sdbHtOpt s.ht key).2.toList k = _
  rw [hl]
  exact Keyed.lookup_erase _ _ _

end Find

/-- Only the table differs. -/
def Sdb.Frame (s s' : Sdb) : Prop := s' = { s with ht := s'.ht }

theorem Sdb.Frame.trans {s s' s'' : Sdb} (h : s.Frame s') (h' : s'.Frame s'') : s.Frame s'' := by
  rw [Sdb.Frame] at h h'
  rw [Sdb.Frame, h', h]

theorem Sdb.Frame.journal {s s' : Sdb} (h : s.Frame s') : s'.journal = s.journal := by rw [h]

theorem Sdb.Frame.fd {s s' : Sdb} (h : s.Frame s') : s'.fd = s.fd := by rw [h]

theorem Sdb.Frame.db {s s' : Sdb} (h : s.Frame s') : s'.db = s.db := by rw [h]

/-- One write: what it returns, that it only touches the table and the journal, and
the entries after it. -/
structure Wrote (s : Sdb) (key : CStr) (e : Nat × Option SdbKv) (r : Nat × Sdb × World) :
    Prop where
  ret : r.1 = e.1
  frame : s.Frame r.2.1
  wf : r.2.1.WF
  find : ∀ k, sdbHtFindKvp r.2.1 k = if k = key then e.2 else sdbHtFindKvp s k

theorem Wrote.same {s : Sdb} (hw : s.WF) (key : CStr) (n : Nat) (w : World) :
    Wrote s key (n, sdbHtFindKvp s key) (n, s, w) where
  ret := rfl
  frame := rfl
  wf := hw
  find k := by
    split
    · next h => rw [h]
    · rfl

theorem Wrote.new {s : Sdb} (hw : s.WF) (w : World) (key val : CStr) (owned : Bool) :
    Wrote s key (2, some (newEntry key val owned)) (sdbSetNew s w key val owned) := by
  obtain ⟨-, hwf, hp⟩ := htInsertKv_spec sdbHtOpt_lawful hw (newEntry key val owned)
  exact ⟨rfl, rfl, hwf, fun k ↦ sdbHtFindKvp_put hw hwf hp k⟩

/-- **`sdb_set_internal`** does to the entry of its key what `setEntry` says, and
nothing else. -/
theorem sdbSetInternal_spec {s : Sdb} (hw : s.WF) (w : World) (key val : CStr) (owned : Bool)
    (cas : Nat) :
    Wrote s key (setEntry (sdbHtFindKvp s key) (cdbLookup s.db key).1 key val owned cas)
      (sdbSetInternal s w key val owned cas) := by
  unfold sdbSetInternal setEntry
  split
  · exact Wrote.same hw key 0 w
  · cases hf : sdbHtFindKvp s key with
    | none => exact Wrote.new hw _ key val owned
    | some kv =>
        obtain ⟨hmem, hkey⟩ := key_of_sdbHtFindKvp hw hf
        cases hv : kv.value with
        | none =>
            simp only [hv]
            exact Wrote.new hw _ key val owned
        | some old =>
            simp only [hv]
            rw [← hf]
            split
            · split
              · exact Wrote.same hw key 0 _
              · split
                · exact Wrote.same hw key kv.cas _
                · -- the entry is overwritten in place
                  have hx : Keyed.lookup SdbKv.key s.ht.toList kv.key = some kv :=
                    hw.distinct.lookup_eq_some_iff.mpr ⟨hmem, rfl⟩
                  obtain ⟨hwf, hp⟩ := htWriteKv_spec sdbHtOpt_lawful hw
                    (e := { kv with cas := nextcas kv, value := some val }) hx
                  refine ⟨rfl, rfl, hwf, fun k ↦ ?_⟩
                  rw [← hkey]
                  exact sdbHtFindKvp_put hw hwf hp k
            · exact ⟨rfl, rfl, (htDelete_spec sdbHtOpt_lawful hw key).1,
                sdbHtFindKvp_delete hw key⟩

/-- The journal is the only file that a write touches. -/
theorem sdbSetInternal_world (s : Sdb) (w : World) (key val : CStr) (owned : Bool) (cas : Nat) :
    (sdbSetInternal s w key val owned cas).2.2 = w ∨
      (sdbSetInternal s w key val owned cas).2.2 = sdbJournalLog s w key val := by
  rw [sdbSetInternal]
  split
  · exact .inl rfl
  · right
    dsimp only
    split
    · rfl
    · split
      · rfl
      · split
        · split
          · rfl
          · split
            · rfl
            · rfl
        · rfl

theorem now_sdbJournalLog (s : Sdb) (w : World) (key val : CStr) :
    (sdbJournalLog s w key val).now = w.now := by
  rw [sdbJournalLog]
  split
  · rfl
  · rfl

/-- A write leaves the time alone. -/
theorem now_sdbSetInternal (s : Sdb) (w : World) (key val : CStr) (owned : Bool) (cas : Nat) :
    (sdbSetInternal s w key val owned cas).2.2.now = w.now := by
  rcases sdbSetInternal_world s w key val owned cas with h | h
  · rw [h]
  · rw [h, now_sdbJournalLog]

/-! ## Lookups -/

/-- No entry in memory expires. -/
def Sdb.NoExpire (s : Sdb) : Prop := ∀ k kv, sdbHtFindKvp s k = some kv → kv.expire = 0

/-- What an entry in memory and the file together give for a key. -/
def entryGet (e : Option SdbKv) (disk : Got) : Got :=
  match e with
  | none => disk
  | some kv =>
      match kv.value with
      | none => .null
      | some v => if v = CStr.empty then .null else ⟨some v, v.length, kv.cas⟩

/-- **`sdb_const_get_len`** looks into memory first, and changes nothing when no entry
expires. -/
theorem sdbConstGetLen_eq {s : Sdb} (hx : s.NoExpire) (w : World) (key : CStr) :
    sdbConstGetLen s w key = (entryGet (sdbHtFindKvp s key) (sdbGetDisk s key), s, w) := by
  unfold sdbConstGetLen entryGet
  cases hf : sdbHtFindKvp s key with
  | none => rfl
  | some kv =>
      cases hv : kv.value with
      | none => simp only [hv]
      | some v =>
          simp only [hv]
          have hno : ¬ (s.timestamped = true ∧ kv.expire ≠ 0 ∧ w.now > kv.expire) :=
            fun h ↦ h.2.1 (hx key kv hf)
          rw [if_neg hno]
          split
          · rfl
          · rfl

theorem sdbGet_eq {s : Sdb} (hx : s.NoExpire) (w : World) (key : CStr) :
    sdbGet s w key = (entryGet (sdbHtFindKvp s key) (sdbGetDisk s key)).value := by
  rw [sdbGet, sdbConstGetLen_eq hx]

/-- A write leaves the file alone. -/
theorem Wrote.disk {s : Sdb} {key : CStr} {e : Nat × Option SdbKv} {r : Nat × Sdb × World}
    (h : Wrote s key e r) (k : CStr) : sdbGetDisk r.2.1 k = sdbGetDisk s k := by
  rw [h.frame]
  rfl

/-- A write makes no entry expire. -/
theorem setEntry_expire {e : Option SdbKv} {disk : Int} {key val : CStr} {owned : Bool} {cas : Nat}
    (he : ∀ kv, e = some kv → kv.expire = 0) {kv : SdbKv}
    (h : (setEntry e disk key val owned cas).2 = some kv) : kv.expire = 0 := by
  unfold setEntry at h
  split at h
  · exact he kv h
  · split at h
    · cases h
      rfl
    · next kv' =>
        split at h
        · cases h
          rfl
        · split at h
          · split at h
            · exact he kv h
            · split at h
              · exact he kv h
              · cases h
                exact he kv' rfl
          · cases h

theorem Wrote.noExpire {s : Sdb} {key val : CStr} {owned : Bool} {cas : Nat} {disk : Int}
    {r : Nat × Sdb × World}
    (h : Wrote s key (setEntry (sdbHtFindKvp s key) disk key val owned cas) r)
    (hx : s.NoExpire) : r.2.1.NoExpire := by
  intro k kv hk
  rw [h.find] at hk
  split at hk
  · exact setEntry_expire (fun kv hkv ↦ hx key kv hkv) hk
  · exact hx k kv hk

end SdbStore
