import SdbStore.Rename
import SdbStore.Lib.Simulation

/-!
# Long runs of writes

The counter of an entry is the version number that `sdb_get` reports, and what `sdb_set` returns as
its success.  `nextcas` adds one to it on every change, and does not leave out 0: the write that
brings the counter round is made and reported as a failure, and so are those that change nothing
after it.
-/

namespace SdbStore

open Lib

/-- A call of a run: the key and the value. -/
def setPair (st : Sdb × World) (c : CStr × CStr) : Bool × Sdb × World := sdbSet st.1 st.2 c.1 c.2 0

/-- The sizes of the key and the value are accepted, and the value is not empty. -/
def Settable (c : CStr × CStr) : Prop :=
  c.1.length < 0xff ∧ c.2.length < 0xffffff ∧ c.2 ≠ CStr.empty

instance (c : CStr × CStr) : Decidable (Settable c) := inferInstanceAs (Decidable (_ ∧ _ ∧ _))

/-- The version number that `sdb_get` reports for a key. -/
def casOf (st : Sdb × World) (k : CStr) : Nat := (sdbConstGetLen st.1 st.2 k).1.cas

/-- A call returns true, and the version number after it is not 0 and is a new one if the value is
new. -/
def Truthful (st : Sdb × World) (c : CStr × CStr) : Prop :=
  let r := setPair st c
  r.1 = true ∧ casOf r.2 c.1 ≠ 0 ∧ (sdbGet st.1 st.2 c.1 ≠ some c.2 → casOf r.2 c.1 ≠ casOf st c.1)

/-! ## Version numbers -/

section Memory

variable {st : Sdb × World} {k : CStr}

/-- What is out of time has no version number. -/
theorem casOf_timedOut (ht : TimedOut st.1 st.2 k) : casOf st k = 0 := by
  obtain ⟨hts, kv, hf, hne, hexp, hnow⟩ := ht
  obtain ⟨v, hv⟩ := Option.ne_none_iff_exists'.mp hne
  rw [casOf, sdbConstGetLen, hf]
  simp only [hv]
  split
  · rfl
  · rw [if_pos ⟨hts, hexp, hnow⟩]
    rfl

/-- Neither has what reads as empty. -/
theorem casOf_blank (hm : st.1.Memory) (htext : textOf (sdbHtFindKvp st.1 k) = CStr.empty) :
    casOf st k = 0 := by
  rw [casOf, sdbConstGetLen]
  cases hf : sdbHtFindKvp st.1 k with
  | none =>
      rw [sdbGetDisk_bare hm.bare]
      rfl
  | some kv =>
      rw [hf, textOf, Option.bind_some] at htext
      cases hv : kv.value with
      | none =>
          simp only [hv]
          rfl
      | some v =>
          rw [hv, Option.getD_some] at htext
          simp only [hv]
          rw [if_pos htext]
          rfl

/-- Every other key has that of its entry. -/
theorem Cell.casOf {x : CStr} (h : Cell st k x) (hx : x ≠ CStr.empty) :
    casOf st k = counterOf (sdbHtFindKvp st.1 k) := by
  obtain ⟨kv, hf, hv⟩ := h.exists_entry hx
  have hlive := h.live
  rw [TimedOut, hf, entryTimedOut_some hv] at hlive
  rw [SdbStore.casOf, sdbConstGetLen, hf]
  simp only [hv]
  rw [if_neg hx, if_neg hlive]
  rfl

end Memory

/-! ## One call -/

section Entry

variable {e : Option SdbKv} {key val : CStr} (hkey : key.length < 0xff)
    (hval : val.length < 0xffffff)
include hkey hval

/-- What a write returns is the counter that it leaves. -/
theorem setEntry_fst (owned : Bool) :
    (setEntry e (-1) key val owned 0).1 = counterOf (setEntry e (-1) key val owned 0).2 := by
  rw [setEntry_writes hkey hval (.inl rfl)]
  cases e with
  | none => rfl
  | some kv =>
      cases hv : kv.value with
      | none =>
          simp only [hv]
          rfl
      | some old =>
          simp only [hv]
          split
          · rfl
          · rfl

omit hkey hval in
theorem nextcas_of_lt {kv : SdbKv} (h : kv.cas + 1 < 4294967296) : nextcas kv = kv.cas + 1 := by
  rw [nextcas, ut32_of_lt h]
  split
  · omega
  · rfl

/-- A change gives the entry another counter. -/
theorem counterOf_setEntry_ne {kv : SdbKv} {old : CStr} (hv : kv.value = some old) (hne : val ≠ old)
    (owned : Bool) : counterOf (setEntry (some kv) (-1) key val owned 0).2 ≠ kv.cas := by
  rw [setEntry_writes hkey hval (.inl rfl)]
  simp only [hv]
  rw [if_neg hne]
  change nextcas kv ≠ kv.cas
  rw [nextcas, ut32]
  split
  · omega
  · omega

end Entry

/-- **One call** is truthful unless the entry of the key has run out of time, or the counter that
the call leaves is 0. -/
theorem truthful_iff {st : Sdb × World} (hm : st.1.Memory) {c : CStr × CStr} (hc : Settable c) :
    Truthful st c ↔ ¬ Unfit st c.1 c.2 := by
  obtain ⟨k, v⟩ := c
  obtain ⟨hk, hv, hne⟩ := hc
  dsimp only at hk hv hne ⊢
  have hm' : (setPair st (k, v)).2.1.Memory := hm.setInternal st.2 k v false 0
  by_cases ht : TimedOut st.1 st.2 k
  · refine iff_of_false (fun h ↦ h.2.1 (casOf_timedOut ?_)) (not_not_intro (.inl ht))
    exact (hm.timedOut_setInternal st.2 k v false 0 k).mpr ht
  · have hcell : Cell st k _ := ⟨hm, hk, ht, rfl⟩
    have hspec := hm.wrote st.2 k v false 0
    -- the number that is reported is what the call returns
    have hcas : casOf (setPair st (k, v)).2 k =
        (setEntry (sdbHtFindKvp st.1 k) (-1) k v false 0).1 := by
      have hcell' : Cell (setPair st (k, v)).2 k v := hcell.write hv false (.inl rfl)
      rw [hcell'.casOf hne, setEntry_fst hk hv]
      exact congrArg counterOf ((hspec.find k).trans (if_pos rfl))
    have hret : (setPair st (k, v)).1 = true ↔
        (setEntry (sdbHtFindKvp st.1 k) (-1) k v false 0).1 ≠ 0 := by
      rw [← hspec.ret]
      exact decide_eq_true_iff
    have hunfit : Unfit st k v ↔ (setEntry (sdbHtFindKvp st.1 k) (-1) k v false 0).1 = 0 := by
      rw [Unfit, or_iff_right ht]
      exact (setEntry_zero_iff hk hv).symm
    rw [hunfit, Truthful, hret, hcas]
    refine ⟨fun h ↦ h.1, fun h ↦ ⟨h, h, fun hchange ↦ ?_⟩⟩
    rw [setEntry_fst hk hv] at h ⊢
    by_cases hx : textOf (sdbHtFindKvp st.1 k) = CStr.empty
    · rwa [casOf_blank hm hx]
    · obtain ⟨kv, hf, hkv⟩ := hcell.exists_entry hx
      have hold : v ≠ textOf (sdbHtFindKvp st.1 k) := by
        rintro rfl
        exact hchange (hcell.sdbGet.trans (readAs_of_ne hne))
      rw [hcell.casOf hx, hf]
      exact counterOf_setEntry_ne hk hv hkv hold false

/-! ## Runs -/

/-- **Long runs of writes.**  Every call is truthful if and only if each of them finds the entry of
its key in time and with a counter that it can go on from. -/
theorem setsTruthful_iff {st : Sdb × World} (hm : st.1.Memory) {calls : List (CStr × CStr)}
    (hcalls : ∀ c ∈ calls, Settable c) :
    (∀ n c, calls[n]? = some c → Truthful (stateAfter setPair st calls n) c) ↔
      ∀ n c, calls[n]? = some c → ¬ Unfit (stateAfter setPair st calls n) c.1 c.2 := by
  have hkept : ∀ n, (stateAfter setPair st calls n).1.Memory :=
    stateAfter_keeps (P := fun st : Sdb × World ↦ st.1.Memory)
      (fun st c h ↦ h.setInternal st.2 c.1 c.2 false 0) hm calls
  have hstep : ∀ n c, calls[n]? = some c → (Truthful (stateAfter setPair st calls n) c ↔
      ¬ Unfit (stateAfter setPair st calls n) c.1 c.2) :=
    fun n c hc ↦ truthful_iff (hkept n) (hcalls c (List.mem_of_getElem? hc))
  exact ⟨fun h n c hc ↦ (hstep n c hc).mp (h n c hc), fun h n c hc ↦ (hstep n c hc).mpr (h n c hc)⟩

/-- The value of a call that sets `a` and `b` in turn. -/
def milsetValue (i : Nat) : CStr := CStr.ofBytes [if i % 2 = 0 then 97 else 98]

/-- The key `k` is set to `a` and `b` in turn. -/
def milset (n : Nat) : List (CStr × CStr) :=
  (List.range n).map fun i ↦ (CStr.ofBytes [107], milsetValue i)

theorem getElem?_milset {n i : Nat} (hi : i < n) :
    (milset n)[i]? = some (CStr.ofBytes [107], milsetValue i) := by
  rw [milset, List.getElem?_map, List.getElem?_range hi]
  rfl

theorem milsetValue_cases (i : Nat) :
    (milsetValue i = CStr.ofBytes [97] ∧ milsetValue (i + 1) = CStr.ofBytes [98]) ∨
      (milsetValue i = CStr.ofBytes [98] ∧ milsetValue (i + 1) = CStr.ofBytes [97]) := by
  rw [milsetValue, milsetValue]
  rcases Nat.mod_two_eq_zero_or_one i with h | h
  · rw [if_pos h, if_neg (by omega)]
    exact .inl ⟨rfl, rfl⟩
  · rw [if_neg (by omega), if_pos (by omega)]
    exact .inr ⟨rfl, rfl⟩

theorem milsetValue_succ_ne (i : Nat) : milsetValue (i + 1) ≠ milsetValue i := by
  rcases milsetValue_cases i with ⟨h, h'⟩ | ⟨h, h'⟩
  · rw [h, h']
    decide
  · rw [h, h']
    decide

theorem settable_milset (i : Nat) : Settable (CStr.ofBytes [107], milsetValue i) := by
  rcases milsetValue_cases i with ⟨h, -⟩ | ⟨h, -⟩
  · rw [h]
    decide
  · rw [h]
    decide

theorem memory_milset (n i : Nat) : (stateAfter setPair (sdbNew0, .empty) (milset n) i).1.Memory :=
  stateAfter_keeps (P := fun st : Sdb × World ↦ st.1.Memory)
    (fun st c h ↦ h.setInternal st.2 c.1 c.2 false 0) Sdb.Memory.new0 (milset n) i

/-- The counter goes up by one with each call, as long as it can. -/
theorem sdbHtFindKvp_milset {n i : Nat} (hi : i < n) (hcount : i + 2 < 4294967296) :
    sdbHtFindKvp (stateAfter setPair (sdbNew0, .empty) (milset n) (i + 1)).1 (CStr.ofBytes [107]) =
      some ⟨CStr.ofBytes [107], some (milsetValue i), i + 2, 0⟩ := by
  have hstep : ∀ i, i < n →
      sdbHtFindKvp (stateAfter setPair (sdbNew0, .empty) (milset n) (i + 1)).1
        (CStr.ofBytes [107]) =
      (setEntry (sdbHtFindKvp (stateAfter setPair (sdbNew0, .empty) (milset n) i).1
        (CStr.ofBytes [107]))
        (-1) (CStr.ofBytes [107]) (milsetValue i) false 0).2 := by
    intro i hi
    rw [stateAfter_succ _ _ (getElem?_milset hi)]
    exact (((memory_milset n i).wrote _ _ _ false 0).find _).trans (if_pos rfl)
  induction i with
  | zero =>
      rw [hstep 0 hi]
      have hnone := sdbHtFindKvp_of_htNew (show sdbNew0.ht = htNew from rfl) (CStr.ofBytes [107])
      change (setEntry (sdbHtFindKvp sdbNew0 (CStr.ofBytes [107])) _ _ _ _ _).2 = _
      rw [hnone]
      rfl
  | succ i ih =>
      obtain ⟨hk, hv, -⟩ := settable_milset (i + 1)
      rw [hstep (i + 1) hi, ih (by omega) (by omega), setEntry_writes hk hv (.inl rfl)]
      dsimp only
      rw [if_neg (milsetValue_succ_ne i), nextcas_of_lt hcount]

/-- As long as it can, all calls are truthful. -/
theorem not_unfit_milset {n i : Nat} (hi : i < n) (hcount : i + 2 < 4294967296) :
    ¬ Unfit (stateAfter setPair (sdbNew0, .empty) (milset n) i) (CStr.ofBytes [107])
      (milsetValue i) := by
  cases i with
  | zero =>
      have hnone := sdbHtFindKvp_of_htNew (show sdbNew0.ht = htNew from rfl) (CStr.ofBytes [107])
      rintro (⟨-, kv, hf, -⟩ | ⟨kv, x, hf, -⟩)
      · exact nomatch hnone.symm.trans hf
      · exact nomatch hnone.symm.trans hf
  | succ i =>
      have hfind := sdbHtFindKvp_milset (n := n) (i := i) (by omega) (by omega)
      rintro (⟨-, kv, hf, -, hexp, -⟩ | ⟨kv, x, hf, hx, hcase⟩)
      · cases hfind.symm.trans hf
        exact hexp rfl
      · cases hfind.symm.trans hf
        cases hx
        rcases hcase with ⟨-, h0⟩ | ⟨-, h0⟩
        · exact Nat.succ_ne_zero _ h0
        · rw [nextcas_of_lt hcount] at h0
          exact Nat.succ_ne_zero _ h0

/-- The last of `2 ^ 32 - 2` calls is truthful. -/
theorem setsTruthful_milset :
    Truthful (stateAfter setPair (sdbNew0, .empty) (milset 4294967294) 4294967293)
      (CStr.ofBytes [107], milsetValue 4294967293) := by
  refine (setsTruthful_iff Sdb.Memory.new0 fun c hc ↦ ?_).mpr (fun n c hc ↦ ?_) _ _
    (getElem?_milset (n := 4294967294) (by decide))
  · obtain ⟨i, -, rfl⟩ := List.mem_map.mp hc
    exact settable_milset i
  · have hn : n < 4294967294 := by
      have hlt := (List.getElem?_eq_some_iff.mp hc).1
      rwa [milset, List.length_map, List.length_range] at hlt
    cases (getElem?_milset hn).symm.trans hc
    exact not_unfit_milset hn (by omega)

/-- The next one is made, and reported as a failure. -/
theorem not_setsTruthful_milset : ¬ ∀ n c, (milset 4294967295)[n]? = some c →
    Truthful (stateAfter setPair (sdbNew0, .empty) (milset 4294967295) n) c := by
  intro h
  have hn : 4294967294 < 4294967295 := by decide
  have htrue := h 4294967294 _ (getElem?_milset hn)
  refine (truthful_iff (memory_milset _ _) (settable_milset _)).mp htrue (.inr ?_)
  refine ⟨_, _, sdbHtFindKvp_milset (n := 4294967295) (i := 4294967293) (by decide) (by decide),
    rfl, .inr ⟨(milsetValue_succ_ne 4294967293).symm, ?_⟩⟩
  decide

end SdbStore
