import SdbStore.Foreach
import SdbStore.Memory

/-!
# Merging databases

`sdb_merge` sets in one database what `sdb_foreach` finds in another.  A key that is unset there may
still be found, with the empty value, and is then unset here.
-/

namespace SdbStore

open Lib

/-- `sdb_merge_cb`. -/
def sdbMergeCb : SdbForeachCallback (Sdb × World) := fun st k v ↦
  (true, (sdbSet st.1 st.2 k (v.getD CStr.empty) 0).2)

/-- `sdb_merge`. -/
def sdbMerge (d s : Sdb) (w : World) : Bool × Sdb × World := sdbForeach s sdbMergeCb (d, w)

/-! ## One write -/

/-- A value that can be written to the key, and read then. -/
structure Takes (st : Sdb × World) (k v : CStr) : Prop where
  short : k.length < 0xff
  size : v.length < 0xffffff
  live : ¬ TimedOut st.1 st.2 k

section Write

variable {st : Sdb × World} (hm : st.1.Memory) (key val : CStr)
include hm

theorem takes_sdbSet (k v : CStr) : Takes (sdbSet st.1 st.2 key val 0).2 k v ↔ Takes st k v := by
  have htimed := hm.timedOut_setInternal st.2 key val false 0 k
  exact ⟨fun h ↦ ⟨h.short, h.size, fun ht ↦ h.live (htimed.mpr ht)⟩,
    fun h ↦ ⟨h.short, h.size, fun ht ↦ h.live (htimed.mp ht)⟩⟩

theorem sdbGet_sdbSet_takes (h : Takes st key val) :
    sdbGet (sdbSet st.1 st.2 key val 0).2.1 (sdbSet st.1 st.2 key val 0).2.2 key = readAs val := by
  have hcell : Cell st key (textOf (sdbHtFindKvp st.1 key)) := ⟨hm, h.short, h.live, rfl⟩
  exact (hcell.write h.size false (.inl rfl)).sdbGet

/-- A value that cannot be written leaves the key as it is, and so does one that cannot be read. -/
theorem sdbGet_sdbSet_not (h : ¬ Takes st key val) :
    sdbGet (sdbSet st.1 st.2 key val 0).2.1 (sdbSet st.1 st.2 key val 0).2.2 key =
      sdbGet st.1 st.2 key := by
  by_cases hlen : key.length ≥ 0xff ∨ val.length ≥ 0xffffff
  · have hset : sdbSet st.1 st.2 key val 0 = (false, st.1, st.2) := by
      rw [sdbSet, sdbSetInternal, if_pos hlen]
      rfl
    rw [hset]
  · rw [not_or, not_le, not_le] at hlen
    have htimed : TimedOut st.1 st.2 key := by
      by_contra hlive
      exact h ⟨hlen.1, hlen.2, hlive⟩
    rw [hm.sdbGet_timedOut st.2 htimed]
    exact (hm.setInternal st.2 key val false 0).sdbGet_timedOut _
      ((hm.timedOut_setInternal st.2 key val false 0 key).mpr htimed)

end Write

/-! ## All of them -/

/-- The calls for a key have all the same value, and what is read at the end is that value, unless
it cannot be written or read. -/
theorem makeCalls_merge {k x : CStr} {calls : List Call} (hx : ∀ c ∈ calls, c.1 = k → c.2 = some x)
    {st : Sdb × World} (hm : st.1.Memory) :
    (Takes st k x → (∃ c ∈ calls, c.1 = k) →
      sdbGet (makeCalls sdbMergeCb calls st).1 (makeCalls sdbMergeCb calls st).2 k = readAs x) ∧
    ((¬ Takes st k x ∨ ∀ c ∈ calls, c.1 ≠ k) →
      sdbGet (makeCalls sdbMergeCb calls st).1 (makeCalls sdbMergeCb calls st).2 k =
        sdbGet st.1 st.2 k) := by
  induction calls generalizing st with
  | nil => exact ⟨fun _ ⟨c, hc, _⟩ ↦ absurd hc List.not_mem_nil, fun _ ↦ rfl⟩
  | cons c calls ih =>
      have hm' : (sdbSet st.1 st.2 c.1 (c.2.getD CStr.empty) 0).2.1.Memory :=
        hm.setInternal st.2 c.1 _ false 0
      obtain ⟨htaken, hkept⟩ := ih (fun c hc ↦ hx c (List.mem_cons_of_mem _ hc)) hm'
      have htakes := takes_sdbSet hm c.1 (c.2.getD CStr.empty) k x
      by_cases hk : c.1 = k
      · have hval : c.2.getD CStr.empty = x := by
          rw [hx c List.mem_cons_self hk]
          rfl
        subst hk
        rw [hval] at htaken hkept htakes
        constructor
        · intro ht _
          have hset := sdbGet_sdbSet_takes hm c.1 x ht
          by_cases hmore : ∃ d ∈ calls, d.1 = c.1
          · have hlast := htaken (htakes.mpr ht) hmore
            rw [← hval] at hlast
            rw [← hval]
            exact hlast
          · have hrest := hkept (.inr fun d hd hdk ↦ hmore ⟨d, hd, hdk⟩)
            rw [hset, ← hval] at hrest
            rw [← hval]
            exact hrest
        · intro hno
          rcases hno with hno | hno
          · have hrest := hkept (.inl fun ht ↦ hno (htakes.mp ht))
            rw [sdbGet_sdbSet_not hm c.1 x hno, ← hval] at hrest
            exact hrest
          · exact absurd rfl (hno c List.mem_cons_self)
      · have hset : sdbGet (sdbSet st.1 st.2 c.1 (c.2.getD CStr.empty) 0).2.1
            (sdbSet st.1 st.2 c.1 (c.2.getD CStr.empty) 0).2.2 k = sdbGet st.1 st.2 k :=
          hm.sdbGet_setInternal_ne st.2 (Ne.symm hk) _ false 0
        constructor
        · rintro ht ⟨d, hd, hdk⟩
          rcases List.mem_cons.mp hd with rfl | hd
          · exact absurd hdk hk
          · exact htaken (htakes.mpr ht) ⟨d, hd, hdk⟩
        · intro hno
          refine (hkept ?_).trans hset
          rcases hno with hno | hno
          · exact .inl fun ht ↦ hno (htakes.mp ht)
          · exact .inr fun d hd ↦ hno d (List.mem_cons_of_mem _ hd)

/-- The key is unset in memory, and there is a record of it in the file: `sdb_foreach` finds it with
the empty value. -/
def UnsetOver (s : Sdb) (recs : List KvRec) (k : CStr) : Prop :=
  (∃ kv, sdbHtFindKvp s k = some kv ∧ kv.value = some CStr.empty) ∧ ∃ r ∈ recs, r.1 = k

/-- What is read after the database of `st` has been merged into `d`. -/
structure MergedInto (st : Sdb × World) (recs : List KvRec) (d : Sdb) (d' : Sdb × World) :
    Prop where
  taken : ∀ k v, sdbGet st.1 st.2 k = some v → Takes (d, st.2) k v → sdbGet d'.1 d'.2 k = readAs v
  erased : ∀ k, UnsetOver st.1 recs k → sdbGet d'.1 d'.2 k = none
  refused : ∀ k v, sdbGet st.1 st.2 k = some v → ¬ Takes (d, st.2) k v →
    sdbGet d'.1 d'.2 k = sdbGet d st.2 k
  kept : ∀ k, sdbGet st.1 st.2 k = none → ¬ UnsetOver st.1 recs k →
    sdbGet d'.1 d'.2 k = sdbGet d st.2 k

section Calls

variable {st : Sdb × World} (hs : st.1.Sound) {recs : List KvRec} (h : st.1.Reads recs)
include hs h

theorem sdbGet_reads (k : CStr) : sdbGet st.1 st.2 k = (entryGet (sdbHtFindKvp st.1 k)
    (diskGot (recs.filter fun r ↦ decide (r.1 = k)).head?)).value := by
  rw [sdbGet_eq hs.noExpire, h.get, ← Keyed.head?_filter]

theorem mem_foreachCalls {k : CStr} {c : Call} : c ∈ foreachCalls st.1 ∧ c.1 = k ↔
    c ∈ callsFor (sdbHtFindKvp st.1 k) k (recs.filter fun r ↦ decide (r.1 = k)) := by
  rw [← filter_foreachCalls_eq hs.wf h, List.mem_filter, decide_eq_true_eq]

/-- The calls for a key that has a value. -/
theorem calls_of_sdbGet (honce : ∀ k, sdbHtFindKvp st.1 k = none →
      (recs.filter fun r ↦ decide (r.1 = k)).length ≤ 1) {k v : CStr}
        (hv : sdbGet st.1 st.2 k = some v) :
    (∀ c ∈ foreachCalls st.1, c.1 = k → c.2 = some v) ∧ ∃ c ∈ foreachCalls st.1, c.1 = k := by
  have hmem {c : Call} := mem_foreachCalls hs h (k := k) (c := c)
  rw [sdbGet_reads hs h] at hv
  -- all calls are `(k, some v)`, and there is one
  suffices hcalls : (k, some v) ∈
      callsFor (sdbHtFindKvp st.1 k) k (recs.filter fun r ↦ decide (r.1 = k)) ∧
        ∀ c ∈ callsFor (sdbHtFindKvp st.1 k) k (recs.filter fun r ↦ decide (r.1 = k)), c.2 =
          some v from
    ⟨fun c hc hck ↦ hcalls.2 c (hmem.mp ⟨hc, hck⟩), _, hmem.mpr hcalls.1⟩
  cases hf : sdbHtFindKvp st.1 k with
  | none =>
      have hone := honce k hf
      rw [hf, entryGet] at hv
      cases hrs : recs.filter fun r ↦ decide (r.1 = k) with
      | nil =>
          rw [hrs] at hv
          cases hv
      | cons r rs =>
          rw [hrs] at hv hone
          obtain rfl := List.length_eq_zero_iff.mp (Nat.le_zero.mp (Nat.le_of_succ_le_succ hone))
          cases hv
          exact ⟨List.mem_singleton_self _, fun c hc ↦ congrArg Prod.snd (List.mem_singleton.mp hc)⟩
  | some kv =>
      rw [hf, entryGet] at hv
      rw [callsFor]
      cases hval : kv.value with
      | none =>
          rw [hval] at hv
          cases hv
      | some x =>
          rw [hval] at hv
          dsimp only at hv ⊢
          by_cases hx : x = CStr.empty
          · rw [if_pos hx] at hv
            cases hv
          · rw [if_neg hx] at hv
            obtain rfl := Option.some.inj hv
            rw [if_neg hx]
            refine ⟨List.mem_append_right _ (List.mem_singleton_self _), fun c hc ↦ ?_⟩
            rcases List.mem_append.mp hc with hc | hc
            · obtain ⟨r, -, rfl⟩ := List.mem_map.mp hc
              rfl
            · exact congrArg Prod.snd (List.mem_singleton.mp hc)

/-- The calls for a key that has none. -/
theorem calls_of_sdbGet_none {k : CStr} (hv : sdbGet st.1 st.2 k = none) :
    (∀ c ∈ foreachCalls st.1, c.1 = k → c.2 = some CStr.empty) ∧
      ((∃ c ∈ foreachCalls st.1, c.1 = k) ↔ UnsetOver st.1 recs k) := by
  have hmem {c : Call} := mem_foreachCalls hs h (k := k) (c := c)
  rw [sdbGet_reads hs h] at hv
  suffices hcalls : (∀ c ∈ callsFor (sdbHtFindKvp st.1 k) k (recs.filter fun r ↦ decide (r.1 = k)),
        c.2 = some CStr.empty) ∧
      ((∃ c, c ∈ callsFor (sdbHtFindKvp st.1 k) k (recs.filter fun r ↦ decide (r.1 = k))) ↔
        UnsetOver st.1 recs k) from
    ⟨fun c hc hck ↦ hcalls.1 c (hmem.mp ⟨hc, hck⟩), (exists_congr fun c ↦ hmem).trans hcalls.2⟩
  have hnil {l : List Call} (hl : l = []) (hno : ¬ UnsetOver st.1 recs k) :
      (∀ c ∈ l, c.2 = some CStr.empty) ∧ ((∃ c, c ∈ l) ↔ UnsetOver st.1 recs k) := by
    rw [hl]
    exact ⟨fun c hc ↦ absurd hc List.not_mem_nil,
      fun ⟨c, hc⟩ ↦ absurd hc List.not_mem_nil, fun hun ↦ absurd hun hno⟩
  cases hf : sdbHtFindKvp st.1 k with
  | none =>
      rw [hf, entryGet] at hv
      refine hnil ?_ ?_
      · cases hrs : recs.filter fun r ↦ decide (r.1 = k) with
        | nil => rfl
        | cons r rs =>
            rw [hrs] at hv
            cases hv
      · rintro ⟨⟨kv, hkv, -⟩, -⟩
        rw [hf] at hkv
        cases hkv
  | some kv =>
      rw [hf, entryGet] at hv
      cases hval : kv.value with
      | none =>
          refine hnil ?_ ?_
          · rw [callsFor]
            rw [hval]
          · rintro ⟨⟨kv', hkv, hval'⟩, -⟩
            rw [hf] at hkv
            obtain rfl := Option.some.inj hkv
            rw [hval] at hval'
            cases hval'
      | some x =>
          rw [hval] at hv
          dsimp only at hv
          have hx : x = CStr.empty := by
            by_contra hx
            rw [if_neg hx] at hv
            cases hv
          subst hx
          rw [callsFor]
          rw [hval]
          dsimp only
          rw [if_pos rfl, List.append_nil]
          constructor
          · intro c hc
            obtain ⟨r, -, rfl⟩ := List.mem_map.mp hc
            rfl
          · constructor
            · rintro ⟨c, hc⟩
              obtain ⟨r, hr, -⟩ := List.mem_map.mp hc
              obtain ⟨hr, hrk⟩ := List.mem_filter.mp hr
              exact ⟨⟨kv, hf, hval⟩, r, hr, of_decide_eq_true hrk⟩
            · rintro ⟨-, r, hr, hrk⟩
              exact ⟨_, List.mem_map_of_mem (List.mem_filter.mpr ⟨hr, decide_eq_true hrk⟩)⟩

end Calls

/-- **`sdb_merge`** of a database into one in memory: what is found there is found here afterwards,
unless it is too long or the key has run out of time; a key that is unset there over a record is
unset here; every other key keeps its value. -/
theorem sdbMerge_merged {st : Sdb × World} (hs : st.1.Sound) {recs : List KvRec}
    (h : st.1.Reads recs) (honce : ∀ k, sdbHtFindKvp st.1 k = none →
      (recs.filter fun r ↦ decide (r.1 = k)).length ≤ 1) {d : Sdb}
    (hd : d.Memory) :
    (sdbMerge d st.1 st.2).1 = true ∧ MergedInto st recs d (sdbMerge d st.1 st.2).2 := by
  have hmerge : sdbMerge d st.1 st.2 = (true, makeCalls sdbMergeCb (foreachCalls st.1) (d, st.2)) :=
    sdbForeach_eq st.1 (fun _ _ _ ↦ rfl) (d, st.2)
  rw [hmerge]
  refine ⟨rfl, fun k v hv ht ↦ ?_, fun k hun ↦ ?_, fun k v hv ht ↦ ?_, fun k hv hun ↦ ?_⟩
  · obtain ⟨hall, hex⟩ := calls_of_sdbGet hs h honce hv
    exact (makeCalls_merge hall hd).1 ht hex
  · have hv : sdbGet st.1 st.2 k = none := by
      obtain ⟨⟨kv, hf, hval⟩, -⟩ := hun
      rw [sdbGet_reads hs h, hf, entryGet]
      rw [hval]
      rfl
    obtain ⟨hall, hex⟩ := calls_of_sdbGet_none hs h hv
    have hd' : (d, st.2).1.Memory := hd
    have hcalls := makeCalls_merge hall hd'
    by_cases ht : Takes (d, st.2) k CStr.empty
    · exact hcalls.1 ht (hex.mpr hun)
    · -- a key that cannot be written or read has no value
      refine (hcalls.2 (.inl ht)).trans ?_
      by_cases htimed : TimedOut d st.2 k
      · exact hd.sdbGet_timedOut st.2 htimed
      · have hlong : 0xff ≤ k.length := by
          by_contra hshort
          exact ht ⟨Nat.not_le.mp hshort, by decide, htimed⟩
        rw [sdbGet, hd.constGetLen_long st.2 hlong]
        rfl
  · obtain ⟨hall, -⟩ := calls_of_sdbGet hs h honce hv
    exact (makeCalls_merge hall hd).2 (.inl ht)
  · obtain ⟨hall, hex⟩ := calls_of_sdbGet_none hs h hv
    refine (makeCalls_merge hall hd).2 (.inr fun c hc hck ↦ hun (hex.mp ⟨c, hc, hck⟩))

/-- The file `x=1` is merged into an empty database. -/
theorem sdbMerge_merged_x :
    sdbGet (sdbMerge sdbNew0 (newOn (kvImage fileX)).1 (newOn (kvImage fileX)).2).2.1
    (sdbMerge sdbNew0 (newOn (kvImage fileX)).1 (newOn (kvImage fileX)).2).2.2
    (CStr.ofBytes [120]) = some (CStr.ofBytes [49]) := by
  have hx := OverX.new
  have hreads := hx.holds.reads fileX_scans
  have hv : sdbGet (newOn (kvImage fileX)).1 (newOn (kvImage fileX)).2 (CStr.ofBytes [120]) =
      some (CStr.ofBytes [49]) := by
    rw [sdbGet_reads hx.reach.backed.1 hreads, hx.find, ite_self]
    rfl
  refine ((sdbMerge_merged hx.reach.backed.1 hreads (fun _ _ ↦ List.length_filter_le _ _)
    Sdb.Memory.new0).2.taken _ _ hv ⟨by decide, by decide, ?_⟩).trans (readAs_of_ne (by decide))
  exact not_entryTimedOut_none _ _

end SdbStore
