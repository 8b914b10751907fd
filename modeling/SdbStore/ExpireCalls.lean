import SdbStore.Exists

/-!
# Setting and reading a time

`sdb_expire_set` and `sdb_expire_get` look at the first byte of a value without asking whether there
is one: an entry that was made by an unset has none.  A key that is only in the file is copied to
memory by a write whose result nobody looks at, and the call starts again: if the write is refused
it does so for ever.  `expirySafe_iff` says when none of this happens.
-/

namespace SdbStore

open Lib

/-- A call of `sdb_expire_set` comes back and reads no value that is not there, and if it returns
true the key had a value; `sdb_expire_get` reads no value that is not there either. -/
def ExpirySafe (st : Sdb × World) (t : CdbFind) (k : CStr) (expire cas : Nat) : Prop :=
  (∃ r, sdbExpireSet st.1 st.2 t k expire cas = some r ∧ (r.1 = true → sdbGet st.1 st.2 k ≠ none)) ∧
    sdbExpireGet st.1 k ≠ none

/-- The search of `sdb_expire_set`; `t` is what earlier searches left behind. -/
def expireFind (s : Sdb) (t : CdbFind) (k : CStr) : Int × CdbFind :=
  cdbFindnext s.db (cdbFindstart t) (sdbHash k) k

/-- What `sdb_expire_set` reads behind its search. -/
def expireBuf (s : Sdb) (t : CdbFind) (k : CStr) : CStr :=
  CStr.ofBytes (cdbReadInto s.db (expireFind s t k).2.dlen (expireFind s t k).2.dpos)

/-- The search does not fail, and the length behind it is accepted. -/
def Offered (s : Sdb) (t : CdbFind) (k : CStr) : Prop :=
  (expireFind s t k).1 ≠ 0 ∧ 1 ≤ (expireFind s t k).2.dlen ∧ (expireFind s t k).2.dlen < 0x7fffffff

/-- An entry of the key has a value, which has not run out of time if the counter is accepted.  What
is read from the file instead can be set, and if it gets a time then because the key was found
there, with a value that is not too long. -/
structure Expirable (st : Sdb × World) (t : CdbFind) (k : CStr) (cas : Nat) : Prop where
  valued : ∀ kv, sdbHtFindKvp st.1 k = some kv → kv.value ≠ none
  live : ∀ kv, sdbHtFindKvp st.1 k = some kv → cas = 0 ∨ cas = kv.cas → ¬ Expired st.1 st.2 k
  fits : OnlyOnDisk st.1 k → Offered st.1 t k →
    k.length < 0xff ∧ (expireBuf st.1 t k).length < 0xffffff
  found : OnlyOnDisk st.1 k → Offered st.1 t k → expireBuf st.1 t k ≠ CStr.empty →
    cas = 0 ∨ cas = 2 → (expireFind st.1 t k).1 = 1 ∧ (expireFind st.1 t k).2.dlen < sdbMaxValue

section Calls

variable {st : Sdb × World} {t : CdbFind} {k : CStr} {expire cas : Nat}

/-! ## Keys in memory -/

/-- A call on an entry. -/
theorem sdbExpireSetKv_eq {s : Sdb} {w : World} {kv : SdbKv} {v : CStr} (hv : kv.value = some v)
    (expire cas : Nat) : ∃ r, sdbExpireSetKv s w kv expire cas = some r ∧
      (r.1 = true ↔ v ≠ CStr.empty ∧ (cas = 0 ∨ cas = kv.cas)) := by
  rw [sdbExpireSetKv]
  simp only [hv]
  split
  · next h => exact ⟨_, rfl, iff_of_true rfl h⟩
  · next h => exact ⟨_, rfl, iff_of_false Bool.noConfusion h⟩

/-- A lookup of an entry with a value. -/
theorem sdbGet_entry {kv : SdbKv} {v : CStr} (hf : sdbHtFindKvp st.1 k = some kv)
    (hv : kv.value = some v) (hne : v ≠ CStr.empty) :
    sdbGet st.1 st.2 k ≠ none ↔ ¬ Expired st.1 st.2 k := by
  have hagree : ExistsAgrees st.1 st.2 .zero 0 k ↔ _ := existsAgrees_mem hf
  have hexists : sdbExists st.1 .zero 0 k = true := by
    rw [sdbExists]
    simp only [hf, hv]
    exact decide_eq_true hne
  rw [← hagree, ExistsAgrees, hexists]
  exact ⟨fun h ↦ iff_of_true rfl h, fun h ↦ h.mp rfl⟩

theorem expired_value {kv : SdbKv} {v : CStr} (hf : sdbHtFindKvp st.1 k = some kv)
    (hv : kv.value = some v) (h : Expired st.1 st.2 k) : v ≠ CStr.empty := by
  obtain ⟨kv', v', hf', hv', hne, -⟩ := h
  obtain rfl := Option.some.inj (hf.symm.trans hf')
  obtain rfl := Option.some.inj (hv.symm.trans hv')
  exact hne

/-- The calls on an entry: it must have a value, and must not have expired if it gets a time. -/
theorem expirySafe_mem {kv : SdbKv} (hf : sdbHtFindKvp st.1 k = some kv) :
    ExpirySafe st t k expire cas ↔
      kv.value ≠ none ∧ (cas = 0 ∨ cas = kv.cas → ¬ Expired st.1 st.2 k) := by
  have hset : sdbExpireSet st.1 st.2 t k expire cas =
      sdbExpireSetKv { st.1 with timestamped := true } st.2 kv expire cas := by
    have hf' : sdbHtFindKvp { st.1 with timestamped := true } k = some kv := hf
    rw [sdbExpireSet]
    simp only [hf']
  rw [ExpirySafe, hset, sdbExpireGet]
  simp only [hf]
  cases hv : kv.value with
  | none =>
      refine iff_of_false ?_ fun h ↦ h.1 rfl
      rintro ⟨-, hget⟩
      exact hget rfl
  | some v =>
      obtain ⟨r, hr, htrue⟩ :=
        sdbExpireSetKv_eq (s := { st.1 with timestamped := true }) (w := st.2)
        hv expire cas
      rw [hr]
      constructor
      · rintro ⟨⟨r', hr', hlive⟩, -⟩
        obtain rfl := Option.some.inj hr'
        refine ⟨Option.some_ne_none v, fun hcas hexp ↦ ?_⟩
        have hne := expired_value hf hv hexp
        exact (sdbGet_entry hf hv hne).mp (hlive (htrue.mpr ⟨hne, hcas⟩)) hexp
      · rintro ⟨-, hlive⟩
        refine ⟨⟨r, rfl, fun h ↦ ?_⟩, Option.some_ne_none _⟩
        obtain ⟨hne, hcas⟩ := htrue.mp h
        exact (sdbGet_entry hf hv hne).mpr (hlive hcas)

/-! ## Keys in the file -/

/-- What the write of a key that is only in the file leaves in memory. -/
theorem sdbHtFindKvp_copied (hw : st.1.WF) (hf : sdbHtFindKvp st.1 k = none) (buf : CStr) :
    sdbHtFindKvp (sdbSetOwned { st.1 with timestamped := true } st.2 k buf cas).2.1 k =
      if k.length ≥ 0xff ∨ buf.length ≥ 0xffffff then none else some (newEntry k buf true) := by
  have hf' : sdbHtFindKvp { st.1 with timestamped := true } k = none := hf
  rw [sdbSetOwned]
  dsimp only
  rw [(sdbSetInternal_spec (s := { st.1 with timestamped := true }) hw st.2 k buf true cas).find,
    if_pos rfl, hf', setEntry]
  split
  · rfl
  · rfl

/-- A lookup of a key that a search has found. -/
theorem sdbGet_expireFind (hd : OnlyOnDisk st.1 k) (hone : 1 ≤ (expireFind st.1 t k).2.dlen) :
    sdbGet st.1 st.2 k ≠ none ↔
      (expireFind st.1 t k).1 = 1 ∧ (expireFind st.1 t k).2.dlen < sdbMaxValue := by
  obtain ⟨hf, hfd⟩ := hd
  have hstale := cdbFindnext_stale st.1.db t k
  have hget : sdbGet st.1 st.2 k = (sdbGetDisk st.1 k).value := by
    rw [sdbGet]
    unfold sdbConstGetLen
    rw [hf]
  rw [hget, sdbGetDisk_ne_none hfd, expireFind, hstale.code]
  constructor
  · rintro ⟨hcode, hlen⟩
    have hle := hstale.le
    have hcode1 : (cdbLookup st.1.db k).1 = 1 := by omega
    rw [cdbFindnext_found t hcode1]
    exact ⟨hcode1, hlen.2⟩
  · rintro ⟨hcode, hlt⟩
    rw [expireFind, cdbFindnext_found t hcode] at hone
    rw [cdbFindnext_found t hcode] at hlt
    exact ⟨by omega, hone, hlt⟩

/-- The calls on a key that is only in the file: what is read there must be accepted by the write,
and the key must have been found if it gets a time. -/
theorem expirySafe_disk (hw : st.1.WF) (hd : OnlyOnDisk st.1 k) :
    ExpirySafe st t k expire cas ↔ (Offered st.1 t k →
      (k.length < 0xff ∧ (expireBuf st.1 t k).length < 0xffffff) ∧
      (expireBuf st.1 t k ≠ CStr.empty → cas = 0 ∨ cas = 2 →
        (expireFind st.1 t k).1 = 1 ∧ (expireFind st.1 t k).2.dlen < sdbMaxValue)) := by
  have hf' : sdbHtFindKvp { st.1 with timestamped := true } k = none := hd.1
  have hget : sdbExpireGet st.1 k ≠ none := by
    rw [sdbExpireGet, hd.1]
    exact Option.some_ne_none _
  rw [ExpirySafe, and_iff_left hget, sdbExpireSet]
  simp only [hf', if_neg hd.2]
  by_cases hoff : Offered st.1 t k
  · have hno : ¬ ((expireFind st.1 t k).1 = 0 ∨ (expireFind st.1 t k).2.dlen < 1 ∨
        (expireFind st.1 t k).2.dlen ≥ 0x7fffffff) := by
      obtain ⟨hcode, hone, hlt⟩ := hoff
      omega
    rw [expireFind] at hno
    rw [if_neg hno, sdbHtFindKvp_copied hw hd.1]
    by_cases hlen : k.length ≥ 0xff ∨ (expireBuf st.1 t k).length ≥ 0xffffff
    · refine iff_of_false ?_ fun h ↦ ?_
      · rw [expireBuf, expireFind] at hlen
        rw [if_pos hlen]
        rintro ⟨r, hr, -⟩
        cases hr
      · have hfits := (h hoff).1
        omega
    · have hfits : k.length < 0xff ∧ (expireBuf st.1 t k).length < 0xffffff := by omega
      obtain ⟨r, hr, htrue⟩ := sdbExpireSetKv_eq
        (show (newEntry k (expireBuf st.1 t k) true).value = _ from rfl)
        (s := (sdbSetOwned { st.1 with timestamped := true } st.2 k (expireBuf st.1 t k) cas).2.1)
        (w := (sdbSetOwned { st.1 with timestamped := true } st.2 k (expireBuf st.1 t k) cas).2.2)
        expire cas
      rw [expireBuf, expireFind] at hlen hr
      rw [if_neg hlen]
      dsimp only
      rw [hr]
      constructor
      · rintro ⟨r', hr', hlive⟩ -
        obtain rfl := Option.some.inj hr'
        exact ⟨hfits, fun hne hcas ↦ (sdbGet_expireFind hd hoff.2.1).mp
          (hlive (htrue.mpr ⟨hne, hcas⟩))⟩
      · intro h
        refine ⟨r, rfl, fun hr1 ↦ ?_⟩
        obtain ⟨hne, hcas⟩ := htrue.mp hr1
        exact (sdbGet_expireFind hd hoff.2.1).mpr ((h hoff).2 hne hcas)
  · have hyes : (expireFind st.1 t k).1 = 0 ∨ (expireFind st.1 t k).2.dlen < 1 ∨
        (expireFind st.1 t k).2.dlen ≥ 0x7fffffff := by
      rw [Offered] at hoff
      omega
    rw [expireFind] at hyes
    rw [if_pos hyes]
    exact iff_of_true ⟨_, rfl, fun h ↦ Bool.noConfusion h⟩ fun h ↦ absurd h hoff

/-- Without an entry and without a file nothing is read. -/
theorem expirySafe_bare (hf : sdbHtFindKvp st.1 k = none) (hfd : st.1.fd = none) :
    ExpirySafe st t k expire cas := by
  have hf' : sdbHtFindKvp { st.1 with timestamped := true } k = none := hf
  refine ⟨⟨(false, { st.1 with timestamped := true }, st.2), ?_, fun h ↦ Bool.noConfusion h⟩, ?_⟩
  · rw [sdbExpireSet]
    simp only [hf', if_pos hfd]
  · rw [sdbExpireGet, hf]
    exact Option.some_ne_none _

end Calls

/-! ## Every state of a run with time -/

/-- **The expiry calls are safe** in a state of a run with time, for a key and a counter, exactly
when the key is fit for them. -/
theorem expirySafe_iff {st : Sdb × World} (hst : TimedReachable st) (t : CdbFind) (k : CStr)
    (expire cas : Nat) : ExpirySafe st t k expire cas ↔ Expirable st t k cas := by
  have hw : st.1.WF := hst.timed.wf
  cases hf : sdbHtFindKvp st.1 k with
  | some kv =>
      have hno : ¬ OnlyOnDisk st.1 k := fun hd ↦ by
        rw [hd.1] at hf
        cases hf
      rw [expirySafe_mem hf]
      constructor
      · rintro ⟨hvalued, hlive⟩
        refine ⟨fun kv' hf' ↦ ?_, fun kv' hf' ↦ ?_, fun hd ↦ absurd hd hno, fun hd ↦ absurd hd hno⟩
        · obtain rfl := Option.some.inj (hf.symm.trans hf')
          exact hvalued
        · obtain rfl := Option.some.inj (hf.symm.trans hf')
          exact hlive
      · intro h
        exact ⟨h.valued kv hf, h.live kv hf⟩
  | none =>
      have hvalued : ∀ kv, sdbHtFindKvp st.1 k = some kv → kv.value ≠ none := fun kv h ↦ by
        rw [hf] at h
        cases h
      have hlive : ∀ kv, sdbHtFindKvp st.1 k = some kv → cas = 0 ∨ cas = kv.cas →
          ¬ Expired st.1 st.2 k := fun kv h ↦ by
        rw [hf] at h
        cases h
      by_cases hfd : st.1.fd = none
      · have hno : ¬ OnlyOnDisk st.1 k := fun hd ↦ hd.2 hfd
        exact iff_of_true (expirySafe_bare hf hfd)
          ⟨hvalued, hlive, fun hd ↦ absurd hd hno, fun hd ↦ absurd hd hno⟩
      · have hd : OnlyOnDisk st.1 k := ⟨hf, hfd⟩
        rw [expirySafe_disk hw hd]
        constructor
        · intro h
          exact ⟨hvalued, hlive, fun _ hoff ↦ (h hoff).1, fun _ hoff ↦ (h hoff).2⟩
        · intro h hoff
          exact ⟨h.fits hd hoff, h.found hd hoff⟩

/-- The key `a` with 100 seconds to live gets 100 seconds more, 50 seconds later. -/
theorem expirySafe_a :
    ExpirySafe (expiringA.1, { expiringA.2 with now := expiringA.2.now + 50 }) .zero
    (CStr.ofBytes [97]) 100 0 := by
  have hf : sdbHtFindKvp expiringA.1 (CStr.ofBytes [97]) =
      some ⟨CStr.ofBytes [97], some (CStr.ofBytes [49]), 2, 100⟩ := by decide
  have hno : ¬ OnlyOnDisk expiringA.1 (CStr.ofBytes [97]) := fun hd ↦ by
    rw [hd.1] at hf
    cases hf
  refine (expirySafe_iff (.step (.wait 50) expiringA_reachable rfl) .zero (CStr.ofBytes [97]) 100
    0).mpr ⟨fun kv hkv ↦ ?_, fun kv hkv _ ↦ ?_, fun hd ↦ absurd hd hno, fun hd ↦ absurd hd hno⟩
  · obtain rfl := Option.some.inj (hf.symm.trans hkv)
    exact Option.some_ne_none _
  · rintro ⟨kv', v, hkv', -, -, -, -, hnow⟩
    obtain rfl := Option.some.inj (hf.symm.trans hkv')
    exact absurd hnow (by decide)

/-- Unsetting `a` in a new database makes an entry without a value, which both calls read; and after
its time `a` still gets another, which a lookup does not see. -/
theorem not_expirySafe :
    (∃ st, TimedReachable st ∧ sdbExpireSet st.1 st.2 .zero (CStr.ofBytes [97]) 100 0 = none ∧
      sdbExpireGet st.1 (CStr.ofBytes [97]) = none ∧
      ¬ ExpirySafe st .zero (CStr.ofBytes [97]) 100 0) ∧
    ∃ st, TimedReachable st ∧ Expired st.1 st.2 (CStr.ofBytes [97]) ∧
      ¬ ExpirySafe st .zero (CStr.ofBytes [97]) 100 0 := by
  constructor
  · have hst : Reachable (Op.run (.unset (CStr.ofBytes [97]) 0) (sdbNew .empty .empty .empty)) :=
      .step _ (.start ⟨_, _, _, rfl⟩) trivial
    have hget : sdbExpireGet (Op.run (.unset (CStr.ofBytes [97]) 0) (sdbNew .empty .empty .empty)).1
        (CStr.ofBytes [97]) = none := by decide
    refine ⟨_, .of_reachable hst, ?_, hget, fun h ↦ h.2 hget⟩
    have hf : sdbHtFindKvp
        { (Op.run (.unset (CStr.ofBytes [97]) 0) (sdbNew .empty .empty .empty)).1 with
          timestamped := true } (CStr.ofBytes [97]) =
          some ⟨CStr.ofBytes [97], none, 2, 0⟩ := by decide
    rw [sdbExpireSet]
    simp only [hf]
    rfl
  · have hf : sdbHtFindKvp expiringA.1 (CStr.ofBytes [97]) =
        some ⟨CStr.ofBytes [97], some (CStr.ofBytes [49]), 2, 100⟩ := by decide
    have hexp : Expired expiringA.1 { expiringA.2 with now := expiringA.2.now + 101 }
        (CStr.ofBytes [97]) := ⟨_, _, hf, rfl, by decide, by decide, by decide, by decide⟩
    refine ⟨(expiringA.1, { expiringA.2 with now := expiringA.2.now + 101 }),
      .step (.wait 101) expiringA_reachable rfl, hexp, fun h ↦ ?_⟩
    have hsafe : ExpirySafe (expiringA.1, { expiringA.2 with now := expiringA.2.now + 101 }) .zero
        (CStr.ofBytes [97]) 100 0 ↔ _ := expirySafe_mem hf
    exact (hsafe.mp h).2 (.inl rfl) hexp

end SdbStore
