import SdbStore.Ls
import SdbStore.Persist

/-!
# Enumerating a database

`sdb_foreach` makes two passes: over the records of the file, each with the value that
memory has for its key, and over the entries in memory.  `foreachCalls` is the list of
the calls it makes; the question is when this list is the map that `sdb_get` shows.
-/

namespace SdbStore

open Lib

universe u

/-- A callback: it goes on while it returns true.  A value that is too long to be read is
handed to it as `NULL`. -/
abbrev SdbForeachCallback (σ : Type u) := σ → CStr → Option CStr → Bool × σ

section Foreach

variable {σ : Type u} {α : Type}

/-- A loop over callbacks, which ends at the first one that returns false. -/
def foreachLoop (step : σ → α → Bool × σ) : List α → σ → Bool × σ
  | [], user => (true, user)
  | a :: l, user =>
      let r := step user a
      if r.1 then foreachLoop step l r.2 else (false, r.2)

/-- `sdb_foreach_cdb`, without a second callback. -/
def sdbForeachCdb (s : Sdb) (cb : SdbForeachCallback σ) (user : σ) : Bool × σ :=
  foreachLoop (fun user (d : Dumped) ↦
    match sdbHtFindKvp s d.key with
    | some kv =>
        match kv.value with
        | none => (true, user)
        | some v => cb user kv.key (some v)
    | none => cb user d.key (d.value.map CStr.ofBytes)) s.scan user

/-- `sdb_foreach`. -/
def sdbForeach (s : Sdb) (cb : SdbForeachCallback σ) (user : σ) : Bool × σ :=
  let r := sdbForeachCdb s cb user
  if r.1 then
    foreachLoop (fun user (kv : SdbKv) ↦
      match kv.value with
      | none => (true, user)
      | some v => if v = CStr.empty then (true, user) else cb user kv.key (some v))
      s.ht.toList r.2
  else (false, r.2)

end Foreach

/-- What a callback is called with. -/
abbrev Call := CStr × Option CStr

/-- `strcmp`, by its sign. -/
def strcmp (a b : CStr) : Int :=
  match compare (a.val.map UInt8.toNat) (b.val.map UInt8.toNat) with
  | .lt => -1
  | .eq => 0
  | .gt => 1

/-- `sdb_foreach_list`: the calls of its callback in order, or sorted by their keys. -/
def sdbForeachList (s : Sdb) (sorted : Bool) : List Call :=
  let list := (sdbForeach s (fun list k v ↦ (true, list ++ [(k, v)])) []).2
  if sorted then lsSort (fun a b ↦ strcmp a.1 b.1) list else list

/-! ## The calls -/

/-- The call that is made for a record of the file. -/
def cdbCall (s : Sdb) (d : Dumped) : Option Call :=
  match sdbHtFindKvp s d.key with
  | some kv => kv.value.map fun v ↦ (kv.key, some v)
  | none => some (d.key, d.value.map CStr.ofBytes)

/-- The call that is made for an entry in memory. -/
def memCall (kv : SdbKv) : Option Call :=
  match kv.value with
  | none => none
  | some v => if v = CStr.empty then none else some (kv.key, some v)

/-- The calls of `sdb_foreach`, while all of them return true. -/
def foreachCalls (s : Sdb) : List Call :=
  s.scan.filterMap (cdbCall s) ++ s.ht.toList.filterMap memCall

/-- Make the calls. -/
def makeCalls {σ : Type u} (cb : SdbForeachCallback σ) (calls : List Call) (user : σ) : σ :=
  calls.foldl (fun user c ↦ (cb user c.1 c.2).2) user

theorem makeCalls_append {σ : Type u} (cb : SdbForeachCallback σ) (calls calls' : List Call)
    (user : σ) : makeCalls cb (calls ++ calls') user =
      makeCalls cb calls' (makeCalls cb calls user) :=
  List.foldl_append

theorem foreachLoop_eq {σ : Type u} {α : Type} {cb : SdbForeachCallback σ}
    (hcb : ∀ user k v, (cb user k v).1 = true) {step : σ → α → Bool × σ} {call : α → Option Call}
    (hstep : ∀ user a, step user a = match call a with
      | none => (true, user)
      | some c => cb user c.1 c.2) (l : List α) (user : σ) :
    foreachLoop step l user = (true, makeCalls cb (l.filterMap call) user) := by
  induction l generalizing user with
  | nil => rfl
  | cons a l ih =>
      rw [foreachLoop, hstep, List.filterMap_cons]
      cases call a with
      | none => exact ih user
      | some c =>
          dsimp only
          rw [if_pos (hcb user c.1 c.2)]
          exact ih _

/-- **`sdb_foreach`** makes these calls. -/
theorem sdbForeach_eq {σ : Type u} (s : Sdb) {cb : SdbForeachCallback σ}
    (hcb : ∀ user k v, (cb user k v).1 = true) (user : σ) :
    sdbForeach s cb user = (true, makeCalls cb (foreachCalls s) user) := by
  have hcdb : ∀ user, sdbForeachCdb s cb user =
      (true, makeCalls cb (s.scan.filterMap (cdbCall s)) user) := by
    refine foreachLoop_eq hcb (fun user d ↦ ?_) s.scan
    unfold cdbCall
    cases sdbHtFindKvp s d.key with
    | none => rfl
    | some kv =>
        dsimp only
        cases kv.value with
        | none => rfl
        | some v => rfl
  rw [sdbForeach, hcdb]
  dsimp only
  rw [if_pos rfl, foreachCalls, makeCalls_append]
  refine foreachLoop_eq hcb (fun user kv ↦ ?_) s.ht.toList _
  unfold memCall
  cases kv.value with
  | none => rfl
  | some v =>
      dsimp only
      split
      · rfl
      · rfl

theorem sdbForeachList_perm (s : Sdb) (sorted : Bool) :
    (sdbForeachList s sorted).Perm (foreachCalls s) := by
  have hcalls : (sdbForeach s (fun (list : List Call) k v ↦ (true, list ++ [(k, v)])) []).2 =
      foreachCalls s := by
    have happend : ∀ (calls list : List Call),
        makeCalls (fun (list : List Call) k v ↦ (true, list ++ [(k, v)])) calls list =
          list ++ calls := by
      intro calls
      induction calls with
      | nil => exact fun list ↦ (List.append_nil list).symm
      | cons c calls ih =>
          intro list
          refine (ih (list ++ [c])).trans ?_
          rw [List.append_assoc]
          rfl
    rw [sdbForeach_eq s fun _ _ _ ↦ rfl]
    exact happend _ []
  unfold sdbForeachList
  dsimp only
  rw [hcalls]
  split
  · exact lsSort_perm _ _
  · exact List.Perm.refl _

/-! ## The map of a database -/

/-- The calls name every key that has a value once, with that value, and no other. -/
def Exact (st : Sdb × World) (calls : List Call) : Prop :=
  ∀ k, calls.filter (·.1 = k) =
    match sdbGet st.1 st.2 k with
    | none => []
    | some v => [(k, some v)]

theorem Exact.perm {st : Sdb × World} {calls calls' : List Call} (h : Exact st calls)
    (hp : calls'.Perm calls) : Exact st calls' := by
  intro k
  have hk := hp.filter fun c ↦ decide (c.1 = k)
  rw [h k] at hk
  cases hget : sdbGet st.1 st.2 k with
  | none =>
      rw [hget] at hk
      exact hk.eq_nil
  | some v =>
      rw [hget] at hk
      exact hk.eq_singleton

/-- `sdb_foreach` with a callback that always returns true, and `sdb_foreach_list`,
enumerate the map that `sdb_get` shows. -/
def Enumerates (st : Sdb × World) : Prop :=
  (∀ (σ : Type) (cb : SdbForeachCallback σ), (∀ user k v, (cb user k v).1 = true) →
    ∃ calls, Exact st calls ∧ ∀ user, sdbForeach st.1 cb user = (true, makeCalls cb calls user)) ∧
  ∀ sorted, Exact st (sdbForeachList st.1 sorted)

theorem enumerates_iff_exact (st : Sdb × World) :
    Enumerates st ↔ Exact st (foreachCalls st.1) := by
  constructor
  · intro h
    exact (h.2 false).perm (sdbForeachList_perm st.1 false).symm
  · intro h
    exact ⟨fun σ cb hcb ↦ ⟨_, h, sdbForeach_eq st.1 hcb⟩,
      fun sorted ↦ h.perm (sdbForeachList_perm st.1 sorted)⟩

/-! ## When the calls are exact -/

/-- No key of the file has a value in memory, and a key that is not in memory has one
record only. -/
structure ForeachSafe (s : Sdb) (recs : List KvRec) : Prop where
  notValued : ∀ r ∈ recs, ¬ Valued s r.1
  once : ∀ k, sdbHtFindKvp s k = none → (recs.filter fun r ↦ decide (r.1 = k)).length ≤ 1

/-- The call for a record of the file. -/
def recCall (s : Sdb) (r : KvRec) : Option Call :=
  match sdbHtFindKvp s r.1 with
  | some kv => kv.value.map fun v ↦ (r.1, some v)
  | none => some (r.1, some r.2)

theorem cdbCall_dumped {s : Sdb} (hw : s.WF) (r : KvRec) :
    cdbCall s r.raw.dumped = recCall s r := by
  have hval : CStr.ofBytes (r.2.val ++ [0]) = r.2 := CStr.ofBytes_bytesZ r.2
  unfold cdbCall recCall
  simp only [KvRec.raw, CdbRec.dumped, Option.map_some, hval]
  cases hf : sdbHtFindKvp s r.1 with
  | none => rfl
  | some kv =>
      dsimp only
      rw [(key_of_sdbHtFindKvp hw hf).2]

theorem key_of_recCall {s : Sdb} {r : KvRec} {c : Call} (h : recCall s r = some c) :
    c.1 = r.1 := by
  unfold recCall at h
  split at h
  · obtain ⟨v, -, rfl⟩ := Option.map_eq_some_iff.mp h
    rfl
  · cases h
    rfl

theorem key_of_memCall {kv : SdbKv} {c : Call} (h : memCall kv = some c) : c.1 = kv.key := by
  unfold memCall at h
  split at h
  · cases h
  · split at h
    · cases h
    · cases h
      rfl

/-- The calls for one key. -/
theorem filter_foreachCalls {s : Sdb} (hw : s.WF) {recs : List KvRec} (h : s.Reads recs)
    (k : CStr) : (foreachCalls s).filter (·.1 = k) =
      (recs.filter fun r ↦ decide (r.1 = k)).filterMap (recCall s) ++
        (sdbHtFindKvp s k).toList.filterMap memCall := by
  have hscan : s.scan.filterMap (cdbCall s) = recs.filterMap (recCall s) := by
    rw [h.scan, List.filterMap_map]
    exact List.filterMap_congr fun r _ ↦ cdbCall_dumped hw r
  rw [foreachCalls, hscan, List.filter_append, sdbHtFindKvp_eq hw]
  congr 1
  · exact Keyed.filter_filterMap (fun _ _ ↦ key_of_recCall) recs k
  · rw [← hw.distinctKeys.filter_eq k]
    exact Keyed.filter_filterMap (fun _ _ ↦ key_of_memCall) s.ht.toList k

/-- The calls for a key with the entry `e` in memory and the records `rs` in the file. -/
def callsFor (e : Option SdbKv) (k : CStr) (rs : List KvRec) : List Call :=
  match e with
  | none => rs.map fun r ↦ (k, some r.2)
  | some kv =>
      match kv.value with
      | none => []
      | some v =>
          rs.map (fun _ ↦ (k, some v)) ++ if v = CStr.empty then [] else [(k, some v)]

theorem filter_foreachCalls_eq {s : Sdb} (hw : s.WF) {recs : List KvRec} (h : s.Reads recs)
    (k : CStr) : (foreachCalls s).filter (·.1 = k) =
      callsFor (sdbHtFindKvp s k) k (recs.filter fun r ↦ decide (r.1 = k)) := by
  have hrec : ∀ r ∈ recs.filter fun r ↦ decide (r.1 = k), r.1 = k := fun r hr ↦ by
    simpa using (List.mem_filter.mp hr).2
  rw [filter_foreachCalls hw h]
  unfold callsFor
  cases hf : sdbHtFindKvp s k with
  | none =>
      rw [Option.toList_none, List.filterMap_nil, List.append_nil, ← List.filterMap_eq_map]
      refine List.filterMap_congr fun r hr ↦ ?_
      simp only [recCall, hrec r hr, hf, Function.comp_apply]
  | some kv =>
      have hkey := (key_of_sdbHtFindKvp hw hf).2
      dsimp only
      cases hv : kv.value with
      | none =>
          simp only [Option.toList_some, List.filterMap_cons, memCall, hv, List.filterMap_nil,
            List.append_nil]
          refine List.filterMap_eq_nil_iff.mpr fun r hr ↦ ?_
          simp only [recCall, hrec r hr, hf, hv, Option.map_none]
      | some v =>
          congr 1
          · rw [← List.filterMap_eq_map]
            refine List.filterMap_congr fun r hr ↦ ?_
            simp only [recCall, hrec r hr, hf, hv, Option.map_some, Function.comp_apply]
          · rw [Option.toList_some, List.filterMap_cons]
            unfold memCall
            rw [hv, hkey]
            by_cases he : v = CStr.empty
            · simp only [he, if_true, List.filterMap_nil]
            · simp only [he, if_false, List.filterMap_nil]

/-- One key is called for as it should be. -/
theorem callsFor_eq_iff (e : Option SdbKv) (k : CStr) (rs : List KvRec) :
    (callsFor e k rs = match (entryGet e (diskGot rs.head?)).value with
      | none => []
      | some v => [(k, some v)]) ↔
    (∀ kv v, e = some kv → kv.value = some v → rs = []) ∧ (e = none → rs.length ≤ 1) := by
  unfold callsFor entryGet
  cases e with
  | none =>
      rcases rs with _ | ⟨r, rs⟩
      · simp [diskGot, Got.null]
      · simp [diskGot]
  | some kv =>
      have hvalued : (∀ kv' v, some kv = some kv' → kv'.value = some v → rs = []) ↔
          ∀ v, kv.value = some v → rs = [] :=
        ⟨fun h v hv ↦ h kv v rfl hv, fun h _ v hk hv ↦ h v (by cases hk; exact hv)⟩
      rw [hvalued]
      dsimp only
      cases hv : kv.value with
      | none => simp [Got.null]
      | some v =>
          by_cases he : v = CStr.empty
          · simp [he, Got.null]
          · simp [he]

/-- **The calls are exact** when and only when the state is safe. -/
theorem exact_iff {st : Sdb × World} (hs : st.1.Sound) {recs : List KvRec} (h : st.1.Reads recs) :
    Exact st (foreachCalls st.1) ↔ ForeachSafe st.1 recs := by
  have hkey : ∀ k, ((foreachCalls st.1).filter (·.1 = k) = match sdbGet st.1 st.2 k with
      | none => []
      | some v => [(k, some v)]) ↔
      (∀ kv v, sdbHtFindKvp st.1 k = some kv → kv.value = some v →
        recs.filter (fun r ↦ decide (r.1 = k)) = []) ∧
      (sdbHtFindKvp st.1 k = none → (recs.filter fun r ↦ decide (r.1 = k)).length ≤ 1) := by
    intro k
    rw [filter_foreachCalls_eq hs.wf h, sdbGet_eq hs.noExpire, h.get, ← Keyed.head?_filter]
    exact callsFor_eq_iff _ k _
  rw [Exact, forall_congr' hkey]
  constructor
  · intro hall
    refine ⟨?_, fun k ↦ (hall k).2⟩
    rintro r hr ⟨kv, v, hf, hv⟩
    have hnil := List.filter_eq_nil_iff.mp ((hall r.1).1 kv v hf hv) r hr
    exact hnil (decide_eq_true rfl)
  · intro hsafe k
    refine ⟨fun kv v hf hv ↦ ?_, hsafe.once k⟩
    refine List.filter_eq_nil_iff.mpr fun r hr hrk ↦ ?_
    obtain rfl : r.1 = k := of_decide_eq_true hrk
    exact hsafe.notValued r hr ⟨kv, v, hf, hv⟩

/-- **Enumeration.**  In every run that opens sane files, and where the scan is safe,
`sdb_foreach` enumerates the map when and only when no key of the file has a value in
memory and no key that is looked up there has two records. -/
theorem enumerates_iff {st : Sdb × World} (hst : Reach SaneOpened SaneCall st)
    (hscan : ScanSafe st.1) :
    Enumerates st ↔ ∀ recs, st.1.Holds recs → ForeachSafe st.1 recs := by
  obtain ⟨hs, hb⟩ := hst.backed
  rw [enumerates_iff_exact]
  rcases hb with ⟨recs, hh⟩ | hh
  · rw [exact_iff hs (hh.reads (hscan.scans recs hh))]
    refine ⟨fun h recs' hh' ↦ ?_, fun h ↦ h recs hh⟩
    rwa [hh'.unique hh]
  · rw [exact_iff hs (hh.reads (hscan.unmapped hh.fd))]
    refine iff_of_true ⟨fun r hr ↦ absurd hr (by simp), fun _ _ ↦ by simp⟩ fun recs hh' ↦ ?_
    have hfd := hh'.fd
    rw [hh.fd] at hfd
    cases hfd

/-- The file `x=1`, with nothing in memory. -/
theorem enumerates_x : Enumerates (newOn (kvImage fileX)) := by
  refine (enumerates_iff OverX.new.reach OverX.new.scanSafe).mpr fun recs hrecs ↦ ?_
  rw [hrecs.unique OverX.new.holds]
  refine ⟨?_, fun k _ ↦ List.length_filter_le _ _⟩
  rintro r - ⟨kv, v, hf, -⟩
  rw [OverX.new.find, ite_self] at hf
  cases hf

/-- The key `x` of the file `x=1` is set to `2` in memory: it is named twice. -/
theorem not_enumerates_x : ∃ st, Reach SaneOpened SaneCall st ∧ ScanSafe st.1 ∧
    ¬ Enumerates st := by
  have h := OverX.new.set (CStr.ofBytes [50]) 0
  have hf := h.find (CStr.ofBytes [120])
  rw [if_pos rfl] at hf
  refine ⟨_, h.reach, h.scanSafe, fun henum ↦ ?_⟩
  have hsafe := (exact_iff h.reach.backed.1 (h.holds.reads fileX_scans)).mp
    ((enumerates_iff_exact _).mp henum)
  exact hsafe.notValued (CStr.ofBytes [120], CStr.ofBytes [49]) (by decide) ⟨_, _, hf, rfl⟩

end SdbStore
