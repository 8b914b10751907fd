import SdbStore.Foreach
import Mathlib.Data.List.Dedup

/-!
# Counting keys

`sdb_count` adds the number of records in the file to the number of entries in memory, and looks at
none of them.  An entry without a value counts, a key that is in both places counts twice, and what
the scan takes for a record behind the last one counts as well: the sum is never too small, and
`countAgrees_iff` says when it is the number of the keys.
-/

namespace SdbStore

open Lib

/-- The loop of `sdb_count` over the file, if it ends within `fuel` rounds. -/
def hasnextCount (c : Cdb) : Nat → Nat → Option Nat
  | 0, _ => none
  | fuel + 1, pos =>
      match sdbDumpHasnext c pos with
      | (false, _) => some 0
      | (true, pos) => (hasnextCount c fuel pos).map (· + 1)

/-- `sdb_count`, if its loop ends within `fuel` rounds. -/
def sdbCount (fuel : Nat) (s : Sdb) : Option Nat :=
  if s.db.fd ≠ none then
    (hasnextCount s.db fuel (sdbDumpBegin s.fd)).map (· + s.ht.count)
  else some s.ht.count

/-- `sdb_isempty`. -/
def sdbIsempty (s : Sdb) : Bool :=
  if s.db.fd ≠ none ∧ (sdbDumpHasnext s.db (sdbDumpBegin s.fd)).1 = true then false
  else if s.ht.count > 0 then false
  else true

/-- There are `n` keys that have a value. -/
def HasKeys (st : Sdb × World) (n : Nat) : Prop :=
  ∃ keys : List CStr, keys.Nodup ∧ (∀ k, k ∈ keys ↔ sdbGet st.1 st.2 k ≠ none) ∧ keys.length = n

/-- `sdb_count` comes to an end with the number of keys, and `sdb_isempty` is true when there are
none. -/
def CountAgrees (st : Sdb × World) : Prop :=
  (∃ fuel n, sdbCount fuel st.1 = some n ∧ HasKeys st n) ∧
    (sdbIsempty st.1 = true ↔ ∀ k, sdbGet st.1 st.2 k = none)

/-- Every entry in memory has a value that is not empty, and of the open file, no key stands in
memory as well or has two records, and a scan stops behind the last record. -/
structure Countable (s : Sdb) : Prop where
  valued : ∀ kv ∈ s.ht.toList, ∃ v, kv.value = some v ∧ v ≠ CStr.empty
  apart : ∀ recs, s.Holds recs → ∀ r ∈ recs, sdbHtFindKvp s r.1 = none
  once : ∀ recs, s.Holds recs → (recs.map Prod.fst).Nodup
  stops : ∀ recs, s.Holds recs → ∀ h, firstSlotHash (recs.map KvRec.raw) = some h →
    h % 256 = 0 ∨ h < 256

/-! ## Counting the records -/

theorem hasnextCount_of_times {c : Cdb} {i pos pos' : Nat} (h : hasnextTimes c i pos = some pos')
    (fuel : Nat) : hasnextCount c (i + fuel) pos = (hasnextCount c fuel pos').map (· + i) := by
  induction i generalizing pos with
  | zero =>
      cases h
      rw [Nat.zero_add]
      cases hasnextCount c fuel pos' with
      | none => rfl
      | some n => rfl
  | succ i ih =>
      rw [hasnextTimes] at h
      rw [Nat.succ_add, hasnextCount]
      rcases hnext : sdbDumpHasnext c pos with ⟨more, next⟩
      rw [hnext] at h
      cases more with
      | false => cases h
      | true =>
          dsimp only at h ⊢
          rw [ih h, Option.map_map]
          rfl

theorem hasnextCount_mono {c : Cdb} {fuel pos n : Nat} (h : hasnextCount c fuel pos = some n)
    (more : Nat) : hasnextCount c (fuel + more) pos = some n := by
  induction fuel generalizing pos n with
  | zero => cases h
  | succ fuel ih =>
      rw [Nat.succ_add, hasnextCount]
      rw [hasnextCount] at h
      split
      · next hnext =>
          rw [hnext] at h
          exact h
      · next hnext =>
          rw [hnext] at h
          obtain ⟨m, hm, rfl⟩ := Option.map_eq_some_iff.mp h
          rw [ih hm]
          rfl

section Holds

variable {s : Sdb} {recs : List KvRec} (h : s.Holds recs)
include h

theorem Sdb.Holds.dumpBegin : sdbDumpBegin s.fd = cdbFinalSize := by
  rw [h.fd]
  rfl

/-- The scan goes over all the records. -/
theorem Sdb.Holds.hasnextTimes {i : Nat} (hi : i ≤ recs.length) :
    ∃ pos, hasnextTimes s.db i cdbFinalSize = some pos ∧
      (i = recs.length → pos = cdbFinalSize + (cdbBody (recs.map KvRec.raw)).length) := by
  have hlen : i ≤ (recs.map KvRec.raw).length := by rwa [List.length_map]
  refine ⟨_, hasnextTimes_image [] (recs.map KvRec.raw) h.fitting h.db hlen, ?_⟩
  rintro rfl
  rw [List.nil_append, ← List.map_take, List.take_length]

/-- What it finds behind them. -/
theorem Sdb.Holds.hasnext_end :
    (sdbDumpHasnext s.db (cdbFinalSize + (cdbBody (recs.map KvRec.raw)).length)).1 = false ↔
      ∀ h, firstSlotHash (recs.map KvRec.raw) = some h → h % 256 = 0 ∨ h < 256 := by
  rw [sdbDumpHasnext, cdbGetkvlen_end h.db]
  cases hslot : firstSlotHash (recs.map KvRec.raw) with
  | none => simp
  | some h =>
      simp only [Option.map_some, Option.some.injEq, forall_eq']
      split
      · exact iff_of_true rfl (by omega)
      · exact iff_of_false Bool.noConfusion (by omega)

/-- The count is at least the number of records, and no more if the scan stops behind them. -/
theorem Sdb.Holds.hasnextCount_le {fuel n : Nat}
    (hn : hasnextCount s.db fuel cdbFinalSize = some n) :
    recs.length ≤ n ∧ (n = recs.length ↔
      ∀ h, firstSlotHash (recs.map KvRec.raw) = some h → h % 256 = 0 ∨ h < 256) := by
  obtain ⟨pos, htimes, hpos⟩ := h.hasnextTimes le_rfl
  have hcount := hasnextCount_of_times htimes (fuel + 1)
  rw [Nat.add_comm, Nat.succ_add, ← Nat.add_succ, hasnextCount_mono hn] at hcount
  obtain ⟨m, hm, rfl⟩ := Option.map_eq_some_iff.mp hcount.symm
  refine ⟨Nat.le_add_left _ _, ?_⟩
  rw [Nat.add_eq_right, ← h.hasnext_end, ← hpos rfl]
  rw [hasnextCount] at hm
  split at hm
  · next hnext =>
      cases hm
      rw [hnext]
      exact iff_of_true rfl rfl
  · next hnext =>
      obtain ⟨m', -, rfl⟩ := Option.map_eq_some_iff.mp hm
      rw [hnext]
      exact iff_of_false (Nat.succ_ne_zero m') Bool.noConfusion

theorem Sdb.Holds.hasnextCount (hstop : ∀ h, firstSlotHash (recs.map KvRec.raw) = some h →
    h % 256 = 0 ∨ h < 256) : hasnextCount s.db (recs.length + 1) cdbFinalSize =
      some recs.length := by
  obtain ⟨pos, htimes, hpos⟩ := h.hasnextTimes le_rfl
  have hend := h.hasnext_end.mpr hstop
  rw [← hpos rfl] at hend
  rw [hasnextCount_of_times htimes, SdbStore.hasnextCount]
  split
  · exact congrArg some (Nat.zero_add _)
  · next hnext =>
      rw [hnext] at hend
      cases hend

end Holds

/-! ## Counting the keys -/

/-- The entry has a value that is not empty. -/
def Gettable (kv : SdbKv) : Prop := ∃ v, kv.value = some v ∧ v ≠ CStr.empty

instance (kv : SdbKv) : Decidable (Gettable kv) :=
  match h : kv.value with
  | none => isFalse fun ⟨_, hv, _⟩ ↦ nomatch h.symm.trans hv
  | some v =>
      if hv : v = CStr.empty then isFalse fun ⟨_, hv', hne⟩ ↦
        hne (Option.some.inj (hv'.symm.trans h) ▸ hv)
      else isTrue ⟨v, h, hv⟩

/-- The keys that have a value: those of entries, and those of records that no entry hides. -/
def valuedKeys (s : Sdb) (recs : List KvRec) : List CStr :=
  (s.ht.toList.filter (Gettable ·)).map SdbKv.key ++
    (recs.map Prod.fst).dedup.filter fun k ↦ sdbHtFindKvp s k = none

section Keys

variable {s : Sdb} (hw : s.WF)
include hw

theorem mem_entryKeys {k : CStr} : k ∈ (s.ht.toList.filter (Gettable ·)).map SdbKv.key ↔
    ∃ kv, sdbHtFindKvp s k = some kv ∧ Gettable kv := by
  rw [List.mem_map]
  constructor
  · rintro ⟨kv, hkv, rfl⟩
    obtain ⟨hmem, hval⟩ := List.mem_filter.mp hkv
    exact ⟨kv, sdbHtFindKvp_of_mem hw hmem, of_decide_eq_true hval⟩
  · rintro ⟨kv, hf, hval⟩
    obtain ⟨hmem, hkey⟩ := key_of_sdbHtFindKvp hw hf
    exact ⟨kv, List.mem_filter.mpr ⟨hmem, decide_eq_true hval⟩, hkey⟩

theorem nodup_valuedKeys (recs : List KvRec) : (valuedKeys s recs).Nodup := by
  refine List.nodup_append.mpr ⟨?_, (List.nodup_dedup _).filter _, ?_⟩
  · exact hw.distinctKeys.sublist (List.filter_sublist.map _)
  · rintro k hk k' hk' rfl
    obtain ⟨kv, hf, -⟩ := (mem_entryKeys hw).mp hk
    have hnone := of_decide_eq_true (List.mem_filter.mp hk').2
    exact nomatch hf.symm.trans hnone

theorem mem_valuedKeys {w : World} (hx : s.NoExpire) {recs : List KvRec}
    (hget : ∀ k, sdbGetDisk s k = diskGot (Keyed.lookup Prod.fst recs k)) {k : CStr} :
    k ∈ valuedKeys s recs ↔ sdbGet s w k ≠ none := by
  rw [valuedKeys, List.mem_append, mem_entryKeys hw, List.mem_filter, List.mem_dedup, sdbGet_eq hx,
    hget]
  cases hf : sdbHtFindKvp s k with
  | none =>
      have hlook : k ∈ recs.map Prod.fst ↔ (Keyed.lookup Prod.fst recs k) ≠ none := by
        rw [Ne, Keyed.lookup_eq_none_iff, List.mem_map]
        simp
      simp only [entryGet, hlook]
      cases Keyed.lookup Prod.fst recs k with
      | none => simp [diskGot, Got.null]
      | some r => simp [diskGot]
  | some kv =>
      simp only [entryGet, Gettable]
      cases hv : kv.value with
      | none => simp [Got.null, hv]
      | some v =>
          by_cases he : v = CStr.empty
          · simp [Got.null, hv, he]
          · simp [hv, he]

/-- There are no more keys than entries and records together, and as many exactly when none of them
is without a value, hidden or there twice. -/
theorem length_valuedKeys (recs : List KvRec) :
    (valuedKeys s recs).length ≤ s.ht.count + recs.length ∧
      ((valuedKeys s recs).length = s.ht.count + recs.length ↔
        (∀ kv ∈ s.ht.toList, Gettable kv) ∧ (∀ r ∈ recs, sdbHtFindKvp s r.1 = none) ∧
          (recs.map Prod.fst).Nodup) := by
  have hcount : s.ht.count = s.ht.toList.length := hw.count
  have hentries := List.length_filter_le (fun kv ↦ decide (Gettable kv)) s.ht.toList
  have hfilter := List.length_filter_le (fun k ↦ decide (sdbHtFindKvp s k = none))
      (recs.map Prod.fst).dedup
  have hdedup := (List.dedup_sublist (recs.map Prod.fst)).length_le
  rw [List.length_map] at hdedup
  rw [valuedKeys, List.length_append, List.length_map, hcount]
  refine ⟨by omega, ?_⟩
  have hsplit : ∀ a b c d e : Nat, a ≤ b → c ≤ d → d ≤ e →
      (a + c = b + e ↔ a = b ∧ c = d ∧ d = e) := by
    omega
  rw [hsplit _ _ _ _ _ hentries hfilter hdedup, List.length_filter_eq_length_iff,
    List.length_filter_eq_length_iff]
  have honce : (recs.map Prod.fst).dedup.length = recs.length ↔ (recs.map Prod.fst).Nodup := by
    rw [← List.dedup_eq_self]
    constructor
    · intro hlen
      exact (List.dedup_sublist _).eq_of_length (by rw [hlen, List.length_map])
    · intro heq
      rw [heq, List.length_map]
  rw [honce]
  refine and_congr (forall₂_congr fun _ _ ↦ decide_eq_true_iff) (and_congr_left fun _ ↦ ?_)
  simp only [List.mem_dedup, List.forall_mem_map, decide_eq_true_eq]

end Keys

/-! ## When the two agree -/

section Agree

variable {st : Sdb × World} (hs : st.1.Sound)
include hs

theorem hasKeys_iff {recs : List KvRec}
    (hget : ∀ k, sdbGetDisk st.1 k = diskGot (Keyed.lookup Prod.fst recs k)) (n : Nat) :
    HasKeys st n ↔ (valuedKeys st.1 recs).length = n := by
  have hmem := fun k ↦ mem_valuedKeys hs.wf (w := st.2) hs.noExpire hget (k := k)
  constructor
  · rintro ⟨keys, hnodup, hkeys, rfl⟩
    have hperm : (valuedKeys st.1 recs).Perm keys :=
      (List.perm_ext_iff_of_nodup (nodup_valuedKeys hs.wf recs) hnodup).mpr fun k ↦
        (hmem k).trans (hkeys k).symm
    exact hperm.length_eq
  · exact fun hn ↦ ⟨valuedKeys st.1 recs, nodup_valuedKeys hs.wf recs, hmem, hn⟩

omit hs in
/-- What the two functions see of a file with the records `recs`, behind which a scan may stop. -/
structure Scanned (s : Sdb) (recs : List KvRec) (stops : Prop) : Prop where
  get : ∀ k, sdbGetDisk s k = diskGot (Keyed.lookup Prod.fst recs k)
  count : ∀ {fuel n}, sdbCount fuel s = some n →
    ∃ m, n = s.ht.count + m ∧ recs.length ≤ m ∧ (m = recs.length ↔ stops)
  ends : stops → ∃ fuel, sdbCount fuel s = some (s.ht.count + recs.length)
  isempty : sdbIsempty s = true → s.ht.count = 0 ∧ recs = []
  empty : stops → s.ht.count = 0 → recs = [] → sdbIsempty s = true

theorem Scanned.agrees_iff {recs : List KvRec} {stops : Prop} (h : Scanned st.1 recs stops) :
    CountAgrees st ↔ stops ∧ (∀ kv ∈ st.1.ht.toList, Gettable kv) ∧
      (∀ r ∈ recs, sdbHtFindKvp st.1 r.1 = none) ∧ (recs.map Prod.fst).Nodup := by
  obtain ⟨hle, hall⟩ := length_valuedKeys hs.wf recs
  rw [← hall]
  constructor
  · rintro ⟨⟨fuel, n, hn, hkeys⟩, -⟩
    obtain ⟨m, rfl, hm, hstops⟩ := h.count hn
    have hlen := (hasKeys_iff hs h.get _).mp hkeys
    exact ⟨hstops.mp (by omega), by omega⟩
  · rintro ⟨hstops, hlen⟩
    obtain ⟨fuel, hfuel⟩ := h.ends hstops
    refine ⟨⟨fuel, _, hfuel, (hasKeys_iff hs h.get _).mpr hlen⟩, fun hempty k ↦ ?_, fun hnone ↦ ?_⟩
    · obtain ⟨hcount, hrecs⟩ := h.isempty hempty
      rw [hcount, hrecs, List.length_nil] at hlen
      by_contra hk
      rw [hrecs] at h
      have hmem := (mem_valuedKeys hs.wf (w := st.2) hs.noExpire h.get).mpr hk
      rw [List.length_eq_zero_iff.mp hlen] at hmem
      cases hmem
    · have hnil : valuedKeys st.1 recs = [] := List.eq_nil_iff_forall_not_mem.mpr fun k hk ↦
        (mem_valuedKeys hs.wf (w := st.2) hs.noExpire h.get).mp hk (hnone k)
      rw [hnil, List.length_nil] at hlen
      exact h.empty hstops (by omega) (List.eq_nil_of_length_eq_zero (by omega))

omit hs in
/-- Without a file there are no records. -/
theorem Sdb.Bare.scanned {s : Sdb} (hb : s.Bare) : Scanned s [] True where
  get := sdbGetDisk_bare hb
  count {fuel n} hn := by
    rw [sdbCount, if_neg (not_not_intro hb.dbFd)] at hn
    cases hn
    exact ⟨0, rfl, le_rfl, iff_of_true rfl trivial⟩
  ends _ := ⟨0, by rw [sdbCount, if_neg (not_not_intro hb.dbFd)]; rfl⟩
  isempty hempty := by
    rw [sdbIsempty, if_neg fun hc ↦ hc.1 hb.dbFd] at hempty
    split at hempty
    · cases hempty
    · next hcount => exact ⟨Nat.eq_zero_of_not_pos hcount, rfl⟩
  empty _ hcount _ := by
    rw [sdbIsempty, if_neg fun hc ↦ hc.1 hb.dbFd, if_neg (by omega)]

omit hs in
theorem Sdb.Holds.scanned {s : Sdb} {recs : List KvRec} (h : s.Holds recs) : Scanned s recs
    (∀ h, firstSlotHash (recs.map KvRec.raw) = some h → h % 256 = 0 ∨ h < 256) := by
  have hfd : s.db.fd ≠ none := by
    rw [h.db.fd]
    exact Option.some_ne_none _
  have hnext : (sdbDumpHasnext s.db cdbFinalSize).1 = false → recs = [] := by
    intro hfalse
    by_contra hne
    obtain ⟨pos, htimes, -⟩ := h.hasnextTimes (i := 1) (List.length_pos_iff.mpr hne)
    rw [SdbStore.hasnextTimes] at htimes
    split at htimes
    · cases htimes
    · next hn =>
        rw [hn] at hfalse
        cases hfalse
  refine ⟨sdbGetDisk_holds h, fun {fuel n} hn ↦ ?_, fun hstops ↦ ⟨recs.length + 1, ?_⟩,
    fun hempty ↦ ?_, fun hstops hcount hrecs ↦ ?_⟩
  · rw [sdbCount, if_pos hfd, h.dumpBegin] at hn
    obtain ⟨m, hm, rfl⟩ := Option.map_eq_some_iff.mp hn
    exact ⟨m, Nat.add_comm _ _, h.hasnextCount_le hm⟩
  · rw [sdbCount, if_pos hfd, h.dumpBegin, h.hasnextCount hstops, Option.map_some, Nat.add_comm]
  · rw [sdbIsempty, h.dumpBegin] at hempty
    split at hempty
    · cases hempty
    · next hfalse =>
        split at hempty
        · cases hempty
        · next hcount =>
            exact ⟨Nat.eq_zero_of_not_pos hcount, hnext (by simpa [hfd] using hfalse)⟩
  · have hend := h.hasnext_end.mpr hstops
    subst hrecs
    rw [sdbIsempty, h.dumpBegin, if_neg fun hc ↦ ?_, if_neg (by omega)]
    exact Bool.noConfusion (hc.2.symm.trans hend)

end Agree

/-- **Counting.**  In every run that opens sane files, the count is that of the keys that have a
value if and only if every entry and every record stands for one of them and the scan stops behind
the last record. -/
theorem countAgrees_iff {st : Sdb × World} (hst : Reach SaneOpened SaneCall st) :
    CountAgrees st ↔ Countable st.1 := by
  obtain ⟨hs, hb⟩ := hst.backed
  rcases hb with ⟨recs, hh⟩ | hh
  · rw [hh.scanned.agrees_iff hs]
    constructor
    · rintro ⟨hstops, hvalued, hapart, honce⟩
      refine ⟨hvalued, fun recs' hh' ↦ ?_, fun recs' hh' ↦ ?_, fun recs' hh' ↦ ?_⟩
      · exact hh.unique hh' ▸ hapart
      · exact hh.unique hh' ▸ honce
      · exact hh.unique hh' ▸ hstops
    · exact fun h ↦ ⟨h.stops recs hh, h.valued, h.apart recs hh, h.once recs hh⟩
  · have hno : ∀ recs, ¬ st.1.Holds recs := fun recs hh' ↦ by
      have hfd := hh'.fd
      rw [hh.fd] at hfd
      cases hfd
    rw [hh.scanned.agrees_iff hs]
    constructor
    · rintro ⟨-, hvalued, -⟩
      exact ⟨hvalued, fun recs hh' ↦ absurd hh' (hno recs), fun recs hh' ↦ absurd hh' (hno recs),
        fun recs hh' ↦ absurd hh' (hno recs)⟩
    · exact fun h ↦ ⟨trivial, h.valued, fun _ hr ↦ absurd hr (List.not_mem_nil), List.nodup_nil⟩

/-- The file `x=1`, with nothing in memory. -/
theorem countAgrees_x : CountAgrees (newOn (kvImage fileX)) := by
  have hnew := OverX.new
  have hempty : (newOn (kvImage fileX)).1.ht.toList = [] := by
    rw [newOn_ht fileX_not_text]
    exact toList_htNew
  refine (countAgrees_iff hnew.reach).mpr ⟨fun kv hkv ↦ ?_, fun recs hh r _ ↦ ?_, fun recs hh ↦ ?_,
    fun recs hh ↦ ?_⟩
  · rw [hempty] at hkv
    cases hkv
  · rw [hnew.find, ite_self]
  · rw [hh.unique hnew.holds]
    decide
  · rw [hh.unique hnew.holds]
    intro h hh
    have hslot : firstSlotHash (fileX.map KvRec.raw) = some 0 := by decide
    rw [hslot] at hh
    obtain rfl := Option.some.inj hh
    exact .inl rfl

/-- In a database without a file, `a` is set and unset: it still counts. -/
theorem not_countAgrees_unset : ∃ st, Reach SaneOpened SaneCall st ∧ ¬ CountAgrees st := by
  have hst : Reach SaneOpened SaneCall (Op.run (.unset (CStr.ofBytes [97]) 0)
      (Op.run (.set (CStr.ofBytes [97]) (CStr.ofBytes [49]) 0) (sdbNew .empty .empty .empty))) :=
    .step _ (.step _ (.start ⟨_, _, _, .inl rfl, rfl⟩) trivial) trivial
  refine ⟨_, hst, fun h ↦ ?_⟩
  have hf : sdbHtFindKvp (Op.run (.unset (CStr.ofBytes [97]) 0) (Op.run (.set (CStr.ofBytes [97])
      (CStr.ofBytes [49]) 0) (sdbNew .empty .empty .empty))).1 (CStr.ofBytes [97]) =
        some ⟨CStr.ofBytes [97], some CStr.empty, 3, 0⟩ := by decide
  have hs := hst.backed.1
  obtain ⟨-, hvalued, -⟩ := ((Sdb.Bare.scanned ⟨rfl, rfl⟩).agrees_iff hs).mp h
  obtain ⟨v, hv, hne⟩ := hvalued _ (key_of_sdbHtFindKvp hs.wf hf).1
  exact hne (Option.some.inj hv).symm

end SdbStore
