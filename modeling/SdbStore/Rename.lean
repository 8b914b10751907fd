import SdbStore.Memory

/-!
# Renaming

`sdb_rename` reads the value of a key, unsets the key and then stores the value under the new one.
Either step can fail after the key has lost its value, and the second one can succeed and not be
seen.  `rename_iff` says when: otherwise a call does all or nothing.
-/

namespace SdbStore

open Lib

/-- `sdb_rename`. -/
def sdbRename (s : Sdb) (w : World) (oldkey newkey : CStr) (cas : Nat) : Bool × Sdb × World :=
  let r := sdbConstGetLen s w oldkey
  match r.1.value with
  | none => (false, r.2)
  | some value =>
      let u := sdbUnset r.2.1 r.2.2 oldkey cas
      if u.1 then sdbSetOwned u.2.1 u.2.2 newkey value 0 else (false, u.2)

/-- A call moves the value and changes nothing else, or it fails and changes nothing. -/
def AllOrNothing (st : Sdb × World) (old new : CStr) (cas : Nat) : Prop :=
  let r := sdbRename st.1 st.2 old new cas
  (r.1 = true → sdbGet r.2.1 r.2.2 new = sdbGet st.1 st.2 old ∧
    (old ≠ new → sdbGet r.2.1 r.2.2 old = none) ∧
    ∀ k, k ≠ old → k ≠ new → sdbGet r.2.1 r.2.2 k = sdbGet st.1 st.2 k) ∧
  (r.1 = false → ∀ k, sdbGet r.2.1 r.2.2 k = sdbGet st.1 st.2 k)

/-- The new key has an entry that has run out of time, or whose counter makes a write of `v` return
0: an equal value is not written and the counter is 0, or the next counter is. -/
def Unfit (st : Sdb × World) (new v : CStr) : Prop :=
  TimedOut st.1 st.2 new ∨ ∃ kv x, sdbHtFindKvp st.1 new = some kv ∧ kv.value = some x ∧
    ((x = v ∧ kv.cas = 0) ∨ (x ≠ v ∧ nextcas kv = 0))

/-- The old key has a value and is unset, and then a step fails. -/
def Torn (st : Sdb × World) (old new : CStr) (cas : Nat) : Prop :=
  ∃ kv v, sdbHtFindKvp st.1 old = some kv ∧ sdbGet st.1 st.2 old = some v ∧
    (cas = 0 ∨ kv.cas = cas) ∧ (nextcas kv = 0 ∨ 0xff ≤ new.length ∨ (new ≠ old ∧ Unfit st new v))

/-! ## The two steps -/

section Memory

variable {s : Sdb} (h : s.Memory) (w : World)
include h

/-- A lookup does not change what the keys read. -/
theorem Sdb.Memory.sdbGet_constGetLen (key k : CStr) :
    sdbGet (sdbConstGetLen s w key).2.1 (sdbConstGetLen s w key).2.2 k = sdbGet s w k := by
  unfold sdbConstGetLen
  split
  · rfl
  · next kv hf =>
      split
      · rfl
      · next v hv =>
          split
          · rfl
          · split
            · next hexp =>
                -- the value has run out of time before and after it is unset
                have ht : TimedOut s w key := by
                  rw [TimedOut, hf]
                  exact (entryTimedOut_some hv).mpr hexp
                by_cases hk : k = key
                · rw [hk, h.sdbGet_timedOut w ht]
                  exact (h.setInternal w key CStr.empty false 0).sdbGet_timedOut _
                    ((h.timedOut_setInternal w key CStr.empty false 0 key).mpr ht)
                · exact h.sdbGet_setInternal_ne w hk CStr.empty false 0
            · rfl

end Memory

/-- When a string is refused by an entry. -/
theorem setEntry_zero_iff {e : Option SdbKv} {key v : CStr} {owned : Bool}
    (hkey : key.length < 0xff) (hv : v.length < 0xffffff) : (setEntry e (-1) key v owned 0).1 = 0 ↔
      ∃ kv x, e = some kv ∧ kv.value = some x ∧
        ((x = v ∧ kv.cas = 0) ∨ (x ≠ v ∧ nextcas kv = 0)) := by
  rw [setEntry_writes hkey hv (.inl rfl)]
  cases e with
  | none =>
      refine iff_of_false (Nat.succ_ne_zero 1) ?_
      rintro ⟨kv, x, hno, -⟩
      cases hno
  | some kv =>
      cases hval : kv.value with
      | none =>
          simp only [hval]
          refine iff_of_false (Nat.succ_ne_zero 1) ?_
          rintro ⟨kv', x, hkv, hx, -⟩
          cases hkv
          rw [hval] at hx
          cases hx
      | some old =>
          simp only [hval]
          by_cases hsame : v = old
          · rw [if_pos hsame]
            constructor
            · exact fun h ↦ ⟨kv, old, rfl, hval, .inl ⟨hsame.symm, h⟩⟩
            · rintro ⟨kv', x, hkv, hx, ⟨-, h0⟩ | ⟨hne, -⟩⟩
              · cases hkv
                exact h0
              · cases hkv
                exact absurd (Option.some.inj (hx.symm.trans hval)) (hsame ▸ hne)
          · rw [if_neg hsame]
            constructor
            · exact fun h ↦ ⟨kv, old, rfl, hval, .inr ⟨fun hno ↦ hsame hno.symm, h⟩⟩
            · rintro ⟨kv', x, hkv, hx, ⟨rfl, -⟩ | ⟨-, h0⟩⟩
              · cases hkv
                exact absurd (Option.some.inj (hx.symm.trans hval)) hsame
              · cases hkv
                exact h0

/-- A write with another counter than that of the entry. -/
theorem setEntry_mismatch {kv : SdbKv} {old : CStr} (hval : kv.value = some old) {key v : CStr}
    {owned : Bool} {cas : Nat} (hcas : cas ≠ 0 ∧ kv.cas ≠ cas) :
    setEntry (some kv) (-1) key v owned cas = (0, some kv) := by
  rw [setEntry.eq_def]
  split
  · rfl
  · simp only [hval]
    rw [if_pos (by decide), if_pos hcas]

/-- A write that leaves the entry of its key as it is changes no value. -/
theorem Sdb.Memory.sdbGet_same {s : Sdb} (h : s.Memory) (w : World) {key val : CStr} {owned : Bool}
    {cas : Nat} (hsame : (setEntry (sdbHtFindKvp s key) (-1) key val owned cas).2 =
      sdbHtFindKvp s key)
    (k : CStr) : sdbGet (sdbSetInternal s w key val owned cas).2.1
      (sdbSetInternal s w key val owned cas).2.2 k = sdbGet s w k := by
  by_cases hk : k = key
  · have hspec := h.wrote w key val owned cas
    rw [(h.setInternal w key val owned cas).sdbGet_eq, h.sdbGet_eq, hspec.find, if_pos hk, hsame,
      hk, now_sdbSetInternal, hspec.frame]
  · exact h.sdbGet_setInternal_ne w hk val owned cas

/-! ## A call that finds a value -/

section Found

variable {st : Sdb × World} {old new v : CStr} {cas : Nat} (h : Cell st old v) (hv : v ≠ CStr.empty)
  {kv : SdbKv} (hf : sdbHtFindKvp st.1 old = some kv) (hval : kv.value = some v)

/-- The database after the old key is unset. -/
def afterUnset (st : Sdb × World) (old : CStr) (cas : Nat) : Sdb × World :=
  (sdbUnset st.1 st.2 old cas).2

include h hv in
theorem Cell.rename : sdbRename st.1 st.2 old new cas =
    if (sdbUnset st.1 st.2 old cas).1 then
      sdbSetOwned (afterUnset st old cas).1 (afterUnset st old cas).2 new v 0
    else (false, afterUnset st old cas) := by
  obtain ⟨c, hget, -⟩ := h.get
  rw [sdbRename, hget, readAs_of_ne hv]
  rfl

include h hv hf hval in
/-- With another counter nothing happens. -/
theorem Cell.rename_mismatch (hcas : cas ≠ 0 ∧ kv.cas ≠ cas) : AllOrNothing st old new cas := by
  have hset : setEntry (some kv) (-1) old CStr.empty false cas = (0, some kv) :=
    setEntry_mismatch hval hcas
  rw [← hf] at hset
  have hret : (sdbUnset st.1 st.2 old cas).1 = false := by
    rw [sdbUnset, sdbSet, (h.memory.wrote st.2 old CStr.empty false cas).ret, hset]
    rfl
  rw [AllOrNothing, h.rename hv, hret]
  exact ⟨fun hno ↦ absurd hno Bool.false_ne_true,
    fun _ k ↦ h.memory.sdbGet_same st.2 (congrArg Prod.snd hset) k⟩

section Accepted

variable (hcas : cas = 0 ∨ kv.cas = cas)
include h hv hf hval hcas

/-- Otherwise the entry loses its value, and the call returns its new counter. -/
theorem Cell.unset : (sdbUnset st.1 st.2 old cas).1 = decide (nextcas kv ≠ 0) ∧
    Cell (afterUnset st old cas) old CStr.empty := by
  refine ⟨?_, h.write (by decide) false (hcas.imp_right fun hc ↦ ⟨kv, hf, hc⟩)⟩
  rw [sdbUnset, sdbSet, (h.memory.wrote st.2 old CStr.empty false cas).ret, hf,
    setEntry_writes h.short (by decide) (hcas.imp_right fun hc ↦ ⟨kv, rfl, hc⟩)]
  simp only [hval]
  rw [if_neg hv.symm]

omit hf hval hcas in
/-- The value is lost when the old key does not read it any more, and either the call fails or the
new key does not read it. -/
theorem Cell.not_allOrNothing {r : Bool × Sdb × World} (hr : sdbRename st.1 st.2 old new cas = r)
    (hlost : SdbStore.sdbGet r.2.1 r.2.2 old = none)
    (hfail : r.1 = false ∨ SdbStore.sdbGet r.2.1 r.2.2 new = none) :
    ¬ AllOrNothing st old new cas := by
  have hold : SdbStore.sdbGet st.1 st.2 old = some v := by rw [h.sdbGet, readAs_of_ne hv]
  rw [AllOrNothing, hr]
  rintro ⟨htrue, hfalse⟩
  cases hret : r.1 with
  | false =>
      have hkept := hfalse hret old
      rw [hlost, hold] at hkept
      cases hkept
  | true =>
      have hmoved := (htrue hret).1
      rw [hfail.resolve_left (by simp [hret]), hold] at hmoved
      cases hmoved

/-- The call returns after the first step, or in the second one. -/
theorem Cell.rename_stops (hstop : nextcas kv = 0 ∨ 0xff ≤ new.length) :
    sdbRename st.1 st.2 old new cas = (false, afterUnset st old cas) := by
  rw [h.rename hv, (h.unset hv hf hval hcas).1]
  split
  · next hret =>
      rw [sdbSetOwned, sdbSetInternal_long _ (hstop.resolve_left (of_decide_eq_true hret))]
      rfl
  · rfl

theorem Cell.rename_goes (hret : nextcas kv ≠ 0) : sdbRename st.1 st.2 old new cas =
    sdbSetOwned (afterUnset st old cas).1 (afterUnset st old cas).2 new v 0 := by
  rw [h.rename hv, (h.unset hv hf hval hcas).1, if_pos (decide_eq_true hret)]

/-- Under its own name the value comes back. -/
theorem Cell.rename_self (hret : nextcas kv ≠ 0) : AllOrNothing st old old cas := by
  have hcell := (h.unset hv hf hval hcas).2
  have hback := hcell.write h.length_lt true (.inl rfl)
  have hsame : ∀ k, SdbStore.sdbGet
      (sdbSetInternal (afterUnset st old cas).1 (afterUnset st old cas).2
      old v true 0).2.1 (sdbSetInternal (afterUnset st old cas).1 (afterUnset st old cas).2 old v
      true 0).2.2 k = SdbStore.sdbGet st.1 st.2 k := by
    intro k
    by_cases hk : k = old
    · rw [hk, hback.sdbGet, h.sdbGet]
    · rw [hcell.memory.sdbGet_setInternal_ne _ hk]
      exact h.memory.sdbGet_setInternal_ne st.2 hk CStr.empty false cas
  rw [AllOrNothing, h.rename_goes hv hf hval hcas hret]
  exact ⟨fun _ ↦ ⟨hsame old, fun hne ↦ absurd rfl hne, fun k _ _ ↦ hsame k⟩, fun _ k ↦ hsame k⟩

/-- Under another name it is moved, if the entry of that name is fit for it. -/
theorem Cell.rename_other (hret : nextcas kv ≠ 0) (hnew : new.length < 0xff) (hne : new ≠ old) :
    AllOrNothing st old new cas ↔ ¬ Unfit st new v := by
  have hcell := (h.unset hv hf hval hcas).2
  have hun := h.memory.wrote st.2 old CStr.empty false cas
  have hfind : sdbHtFindKvp (afterUnset st old cas).1 new = sdbHtFindKvp st.1 new :=
    (hun.find new).trans (if_neg hne)
  have htime : TimedOut (afterUnset st old cas).1 (afterUnset st old cas).2 new ↔
      TimedOut st.1 st.2 new :=
    h.memory.timedOut_setInternal st.2 old CStr.empty false cas new
  have hrun : sdbRename st.1 st.2 old new cas = _ := h.rename_goes hv hf hval hcas hret
  -- the second step does not give the old key its value back
  have hlost : SdbStore.sdbGet (sdbSetOwned (afterUnset st old cas).1 (afterUnset st old cas).2
      new v 0).2.1 (sdbSetOwned (afterUnset st old cas).1 (afterUnset st old cas).2 new v 0).2.2
        old = none := by
    rw [sdbSetOwned, hcell.memory.sdbGet_setInternal_ne _ hne.symm, hcell.sdbGet, readAs_empty]
  by_cases htimed : TimedOut st.1 st.2 new
  · refine iff_of_false (h.not_allOrNothing hv hrun hlost (.inr ?_)) (not_not_intro (.inl htimed))
    exact (hcell.memory.setInternal _ new v true 0).sdbGet_timedOut _
      ((hcell.memory.timedOut_setInternal _ new v true 0 new).mpr (htime.mpr htimed))
  · have hgot := (show Cell (afterUnset st old cas) new _ from
      ⟨hcell.memory, hnew, mt htime.mp htimed, rfl⟩).write h.length_lt true (.inl rfl)
    have hzero : (setEntry (sdbHtFindKvp st.1 new) (-1) new v true 0).1 = 0 ↔ _ :=
      setEntry_zero_iff hnew h.length_lt
    have hcode : (sdbSetInternal (afterUnset st old cas).1
        (afterUnset st old cas).2 new v true 0).1 =
          (setEntry (sdbHtFindKvp st.1 new) (-1) new v true 0).1 := by
      rw [(hcell.memory.wrote _ new v true 0).ret, hfind]
    by_cases hfit : Unfit st new v
    · refine iff_of_false (h.not_allOrNothing hv hrun hlost (.inl ?_)) (not_not_intro hfit)
      rw [sdbSetOwned, hcode, hzero.mpr (hfit.resolve_left htimed)]
      rfl
    · refine iff_of_true ?_ hfit
      have hne0 := mt hzero.mp fun hno ↦ hfit (.inr hno)
      rw [AllOrNothing, hrun]
      refine ⟨fun _ ↦ ⟨?_, fun _ ↦ hlost, fun k hk hk' ↦ ?_⟩, fun hno ↦ ?_⟩
      · rw [h.sdbGet]
        exact hgot.sdbGet
      · rw [sdbSetOwned, hcell.memory.sdbGet_setInternal_ne _ hk']
        exact h.memory.sdbGet_setInternal_ne st.2 hk CStr.empty false cas
      · rw [sdbSetOwned, hcode] at hno
        exact absurd (of_decide_eq_false hno) (not_not_intro hne0)

end Accepted

end Found

/-- **A rename is all or nothing** unless it is torn. -/
theorem rename_iff {st : Sdb × World} (hm : st.1.Memory) (old new : CStr) (cas : Nat) :
    AllOrNothing st old new cas ↔ ¬ Torn st old new cas := by
  cases hold : sdbGet st.1 st.2 old with
  | none =>
      refine iff_of_true ?_ ?_
      · have hrun : sdbRename st.1 st.2 old new cas =
            (false, (sdbConstGetLen st.1 st.2 old).2) := by
          rw [sdbRename, show (sdbConstGetLen st.1 st.2 old).1.value = none from hold]
        rw [AllOrNothing, hrun]
        exact ⟨fun hno ↦ absurd hno Bool.false_ne_true, fun _ ↦ hm.sdbGet_constGetLen st.2 old⟩
      · rintro ⟨kv, v, -, hsome, -⟩
        rw [hold] at hsome
        cases hsome
  | some v =>
      obtain ⟨h, hv⟩ := Cell.of_some hm hold
      obtain ⟨kv, hf, hval⟩ := h.exists_entry hv
      have htorn : Torn st old new cas ↔ (cas = 0 ∨ kv.cas = cas) ∧
          (nextcas kv = 0 ∨ 0xff ≤ new.length ∨ (new ≠ old ∧ Unfit st new v)) := by
        constructor
        · rintro ⟨kv', v', hf', hsome, hcas, hcause⟩
          cases hf.symm.trans hf'
          cases hold.symm.trans hsome
          exact ⟨hcas, hcause⟩
        · exact fun hc ↦ ⟨kv, v, hf, hold, hc⟩
      rw [htorn]
      by_cases hcas : cas = 0 ∨ kv.cas = cas
      · rw [and_iff_right hcas]
        by_cases hstop : nextcas kv = 0 ∨ 0xff ≤ new.length
        · refine iff_of_false ?_ (not_not_intro (hstop.imp_right .inl))
          exact h.not_allOrNothing hv (h.rename_stops hv hf hval hcas hstop)
            ((h.unset hv hf hval hcas).2.sdbGet.trans readAs_empty) (.inl rfl)
        · obtain ⟨hret, hnew⟩ := not_or.mp hstop
          rw [or_iff_right hret, or_iff_right hnew]
          by_cases hne : new = old
          · rw [hne]
            exact iff_of_true (h.rename_self hv hf hval hcas hret) fun hno ↦ hno.1 rfl
          · rw [and_iff_right hne]
            exact h.rename_other hv hf hval hcas hret (Nat.not_le.mp hnew) hne
      · exact iff_of_true (h.rename_mismatch hv hf hval (not_or.mp hcas)) fun hno ↦ hcas hno.1

/-- The pair `k=a` in memory. -/
def memPair : Sdb × World :=
  (sdbSet sdbNew0 .empty (CStr.ofBytes [107]) (CStr.ofBytes [97]) 0).2

theorem memory_memPair : memPair.1.Memory := Sdb.Memory.new0.setInternal _ _ _ _ _

/-- It is moved to the key `j`. -/
theorem rename_iff_pair : AllOrNothing memPair (CStr.ofBytes [107]) (CStr.ofBytes [106]) 0 := by
  refine (rename_iff memory_memPair _ _ _).mpr ?_
  have hj : sdbHtFindKvp memPair.1 (CStr.ofBytes [106]) = none := by decide
  have hk : (sdbHtFindKvp memPair.1 (CStr.ofBytes [107])).map SdbKv.cas = some 2 := by decide
  rintro ⟨kv, v, hf, -, -, hnext | hlong | ⟨-, htimed | ⟨kv', x, hf', -⟩⟩⟩
  · rw [hf] at hk
    have hcas : kv.cas = 2 := Option.some.inj hk
    rw [nextcas, hcas] at hnext
    exact absurd hnext (by decide)
  · exact absurd hlong (by decide)
  · rw [TimedOut, hj] at htimed
    exact not_entryTimedOut_none _ _ htimed
  · rw [hj] at hf'
    cases hf'

/-- It is lost when it is to have a key of 255 bytes. -/
theorem not_allOrNothing_long : memPair.1.Memory ∧
    (sdbRename memPair.1 memPair.2 (CStr.ofBytes [107]) (letters 255) 0).1 = false ∧
    ¬ AllOrNothing memPair (CStr.ofBytes [107]) (letters 255) 0 := by
  have hlong : 0xff ≤ (letters 255).length := Nat.le_of_eq (length_letters 255).symm
  obtain ⟨h, hv⟩ := Cell.of_some (x := CStr.ofBytes [97]) memory_memPair
    (show sdbGet memPair.1 memPair.2 (CStr.ofBytes [107]) = _ by decide)
  obtain ⟨kv, hf, hval⟩ := h.exists_entry hv
  have hrun := h.rename_stops hv hf hval (.inl rfl : 0 = 0 ∨ kv.cas = 0) (.inr hlong)
  refine ⟨memory_memPair, congrArg Prod.fst hrun, h.not_allOrNothing hv hrun ?_ (.inl rfl)⟩
  exact (h.unset hv hf hval (.inl rfl : 0 = 0 ∨ kv.cas = 0)).2.sdbGet.trans readAs_empty

end SdbStore
