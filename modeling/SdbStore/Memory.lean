import SdbStore.Expire
import SdbStore.NumLaws

/-!
# The text of a key in memory

In a database without a file a key has a text, which is the empty one when there is no entry or the
entry has no value: the two read the same.  A write to a key that is not too long and has not run
out of time replaces the text, and leaves every other key as it is.  `Cell` is what the functions
that build a new value from the old one find, and `Cell.write` what they leave.
-/

namespace SdbStore

open Lib

/-- The text of an entry. -/
def textOf (e : Option SdbKv) : CStr := (e.bind SdbKv.value).getD CStr.empty

/-- The counter of an entry. -/
def counterOf (e : Option SdbKv) : Nat := (e.map SdbKv.cas).getD 0

/-- A database without a file, in which every entry has passed the checks of a write. -/
structure Sdb.Memory (s : Sdb) : Prop where
  wf : s.WF
  bare : s.Bare
  key : ∀ {k kv}, sdbHtFindKvp s k = some kv → k.length < 0xff
  value : ∀ {k kv v}, sdbHtFindKvp s k = some kv → kv.value = some v → v.length < 0xffffff

/-- The key `k` of a database in memory has the text `x`, and can have another one. -/
structure Cell (st : Sdb × World) (k x : CStr) : Prop where
  memory : st.1.Memory
  short : k.length < 0xff
  live : ¬ TimedOut st.1 st.2 k
  text : textOf (sdbHtFindKvp st.1 k) = x

theorem readAs_empty : readAs CStr.empty = none := rfl

theorem readAs_of_ne {x : CStr} (h : x ≠ CStr.empty) : readAs x = some x := if_neg h

theorem readAs_injective : Function.Injective readAs := by
  intro x y h
  by_cases hx : x = CStr.empty
  · by_cases hy : y = CStr.empty
    · rw [hx, hy]
    · rw [hx, readAs_of_ne hy] at h
      cases h
  · rw [readAs_of_ne hx, readAs] at h
    split at h
    · cases h
    · exact Option.some.inj h

/-! ## What a write does to the entry of its key -/

section Entry

variable {e : Option SdbKv} {key val : CStr} {owned : Bool} {cas : Nat}

theorem textOf_newEntry : textOf (some (newEntry key val owned)) = val := by
  rw [textOf, Option.bind_some, newEntry]
  cases owned with
  | true => rfl
  | false =>
      by_cases hval : val = CStr.empty
      · rw [hval]
        rfl
      · simp [hval]

/-- The entry stays, or it is a new one, or the text of the old one is replaced. -/
theorem setEntry_cases (e : Option SdbKv) (key val : CStr) (owned : Bool) (cas : Nat) :
    (setEntry e (-1) key val owned cas).2 = e ∨ (key.length < 0xff ∧ val.length < 0xffffff ∧
      ((e.bind SdbKv.value = none ∧
        setEntry e (-1) key val owned cas = (2, some (newEntry key val owned))) ∨
          ∃ kv, e = some kv ∧ kv.value ≠ none ∧ setEntry e (-1) key val owned cas =
            (nextcas kv, some { kv with cas := nextcas kv, value := some val }))) := by
  rw [setEntry.eq_def]
  split
  · exact .inl rfl
  · next hlen =>
      have hkey : key.length < 0xff ∧ val.length < 0xffffff := by omega
      cases e with
      | none => exact .inr ⟨hkey.1, hkey.2, .inl ⟨rfl, rfl⟩⟩
      | some kv =>
          cases hv : kv.value with
          | none => exact .inr ⟨hkey.1, hkey.2, .inl ⟨hv, by simp only [hv]⟩⟩
          | some old =>
              simp only [hv]
              rw [if_pos (by decide)]
              split
              · exact .inl rfl
              · split
                · exact .inl rfl
                · exact .inr ⟨hkey.1, hkey.2, .inr ⟨kv, rfl, by simp [hv], rfl⟩⟩

/-- A write changes nothing about the time of a key. -/
theorem entryTimedOut_setEntry (timestamped : Bool) (now : Nat) (e : Option SdbKv) (key val : CStr)
    (owned : Bool) (cas : Nat) :
    EntryTimedOut timestamped now (setEntry e (-1) key val owned cas).2 ↔
      EntryTimedOut timestamped now e := by
  rcases setEntry_cases e key val owned cas with h | ⟨-, -, ⟨he, h⟩ | ⟨kv, rfl, hv, h⟩⟩
  · rw [h]
  · rw [h]
    refine iff_of_false ?_ ?_
    · rintro ⟨-, kv, hkv, -, hexp, -⟩
      cases hkv
      exact hexp rfl
    · rintro ⟨-, kv, hkv, hne, -⟩
      rw [hkv, Option.bind_some] at he
      exact hne he
  · rw [h]
    obtain ⟨old, hold⟩ := Option.ne_none_iff_exists'.mp hv
    rw [entryTimedOut_some rfl, entryTimedOut_some hold]

variable (hkey : key.length < 0xff) (hval : val.length < 0xffffff)
include hkey hval

/-- What an accepted write returns and leaves. -/
theorem setEntry_writes (hcas : cas = 0 ∨ ∃ kv, e = some kv ∧ kv.cas = cas) :
    setEntry e (-1) key val owned cas =
      match e with
      | none => (2, some (newEntry key val owned))
      | some kv =>
          match kv.value with
          | none => (2, some (newEntry key val owned))
          | some old =>
              if val = old then (kv.cas, e)
              else (nextcas kv, some { kv with cas := nextcas kv, value := some val }) := by
  rw [setEntry.eq_def, if_neg (by omega)]
  cases e with
  | none => rfl
  | some kv =>
      cases hv : kv.value with
      | none => simp only [hv]
      | some old =>
          have hno : ¬ (cas ≠ 0 ∧ kv.cas ≠ cas) := by
            rintro ⟨h0, hne⟩
            obtain ⟨kv', hkv', hcas'⟩ := hcas.resolve_left h0
            cases hkv'
            exact hne hcas'
          simp only [hv]
          rw [if_pos (by decide), if_neg hno]

theorem textOf_setEntry (hcas : cas = 0 ∨ ∃ kv, e = some kv ∧ kv.cas = cas) :
    textOf (setEntry e (-1) key val owned cas).2 = val := by
  rw [setEntry_writes hkey hval hcas]
  cases e with
  | none => exact textOf_newEntry
  | some kv =>
      cases hv : kv.value with
      | none =>
          simp only [hv]
          exact textOf_newEntry
      | some old =>
          simp only [hv]
          split
          · next hsame => rw [hsame, textOf, Option.bind_some, hv, Option.getD_some]
          · rfl

/-- A write that changes the text is reported, unless the counter comes round to 0. -/
theorem setEntry_reported (hcas : cas = 0 ∨ ∃ kv, e = some kv ∧ kv.cas = cas)
    (hchange : val ≠ textOf e) (hcount : counterOf e + 1 < 4294967296) :
    (setEntry e (-1) key val owned cas).1 ≠ 0 := by
  rw [setEntry_writes hkey hval hcas]
  cases e with
  | none => exact Nat.succ_ne_zero 1
  | some kv =>
      cases hv : kv.value with
      | none =>
          simp only [hv]
          exact Nat.succ_ne_zero 1
      | some old =>
          have hold : val ≠ old := by
            rwa [textOf, Option.bind_some, hv, Option.getD_some] at hchange
          have hkv : kv.cas + 1 < 4294967296 := hcount
          simp only [hv]
          rw [if_neg hold, nextcas]
          split
          · exact Nat.succ_ne_zero 0
          · rw [ut32_of_lt hkv]
            exact Nat.succ_ne_zero _

end Entry

/-- The counter goes up by one at most, or is that of a new entry. -/
theorem counterOf_setEntry (e : Option SdbKv) (key val : CStr) (owned : Bool) (cas : Nat) :
    counterOf (setEntry e (-1) key val owned cas).2 ≤ max 2 (counterOf e + 1) := by
  rcases setEntry_cases e key val owned cas with h | ⟨-, -, ⟨-, h⟩ | ⟨kv, rfl, -, h⟩⟩
  · rw [h]
    omega
  · rw [h]
    exact Nat.le_max_left _ _
  · rw [h]
    change nextcas kv ≤ max 2 (kv.cas + 1)
    rw [nextcas]
    split
    · omega
    · have := Nat.mod_le (kv.cas + 1) 4294967296
      rw [ut32]
      omega

/-! ## Databases in memory -/

namespace Sdb.Memory

theorem of_htNew {s : Sdb} (hht : s.ht = htNew) (hb : s.Bare) : s.Memory := by
  have hnone := sdbHtFindKvp_of_htNew hht
  refine ⟨(sound_of_htNew hht).wf, hb, fun {k kv} h ↦ ?_, fun {k kv v} h ↦ ?_⟩
  · rw [hnone] at h
    cases h
  · rw [hnone] at h
    cases h

theorem new0 : sdbNew0.Memory := of_htNew rfl ⟨rfl, rfl⟩

variable {s : Sdb} (h : s.Memory) (w : World)
include h

theorem wrote (key val : CStr) (owned : Bool) (cas : Nat) : Wrote s key
    (setEntry (sdbHtFindKvp s key) (-1) key val owned cas)
    (sdbSetInternal s w key val owned cas) := by
  have hspec := sdbSetInternal_spec h.wf w key val owned cas
  rwa [cdbLookup_bare h.bare] at hspec

/-- A write keeps the database in memory. -/
theorem setInternal (key val : CStr) (owned : Bool) (cas : Nat) :
    (sdbSetInternal s w key val owned cas).2.1.Memory := by
  have hspec := h.wrote w key val owned cas
  have hentry : ∀ {k kv}, sdbHtFindKvp (sdbSetInternal s w key val owned cas).2.1 k = some kv →
      k.length < 0xff ∧ ∀ {v}, kv.value = some v → v.length < 0xffffff := by
    intro k kv hk
    rw [hspec.find] at hk
    split at hk
    · next hkey =>
        subst hkey
        rcases setEntry_cases (sdbHtFindKvp s k) k val owned cas with hset | ⟨hshort, hval, hset⟩
        · rw [hset] at hk
          exact ⟨h.key hk, h.value hk⟩
        · refine ⟨hshort, fun {v} hv ↦ ?_⟩
          have hv' : v = val := by
            rcases hset with ⟨-, hset⟩ | ⟨kv', -, -, hset⟩
            · rw [hset] at hk
              cases hk
              have hnew : textOf (some (newEntry k val owned)) = val := textOf_newEntry
              rw [← hnew, textOf, Option.bind_some, hv, Option.getD_some]
            · rw [hset] at hk
              cases hk
              exact (Option.some.inj hv).symm
          rwa [hv']
    · exact ⟨h.key hk, h.value hk⟩
  exact ⟨hspec.wf, hspec.bare h.bare, fun hk ↦ (hentry hk).1, fun hk ↦ (hentry hk).2⟩

/-- So does a lookup. -/
theorem constGetLen (key : CStr) : (sdbConstGetLen s w key).2.1.Memory := by
  unfold sdbConstGetLen
  split
  · exact h
  · split
    · exact h
    · split
      · exact h
      · split
        · exact h.setInternal w key CStr.empty false 0
        · exact h

theorem timedOut_setInternal (key val : CStr) (owned : Bool) (cas : Nat) (k : CStr) :
    TimedOut (sdbSetInternal s w key val owned cas).2.1
      (sdbSetInternal s w key val owned cas).2.2 k ↔ TimedOut s w k := by
  have hspec := h.wrote w key val owned cas
  have hts : (sdbSetInternal s w key val owned cas).2.1.timestamped = s.timestamped := by
    rw [hspec.frame]
  rw [TimedOut, TimedOut, hts, now_sdbSetInternal, hspec.find]
  split
  · next hk =>
      rw [hk]
      exact entryTimedOut_setEntry _ _ _ _ _ _ _
  · exact Iff.rfl

/-- What other keys read does not change. -/
theorem sdbGet_setInternal_ne {key k : CStr} (hk : k ≠ key) (val : CStr) (owned : Bool)
    (cas : Nat) :
    sdbGet (sdbSetInternal s w key val owned cas).2.1 (sdbSetInternal s w key val owned cas).2.2 k =
      sdbGet s w k := by
  have hspec := h.wrote w key val owned cas
  have hts : (sdbSetInternal s w key val owned cas).2.1.timestamped = s.timestamped := by
    rw [hspec.frame]
  rw [sdbGet_read (h.setInternal w key val owned cas).bare, sdbGet_read h.bare, hts,
    now_sdbSetInternal, hspec.find, if_neg hk]

theorem sdbGet_eq (k : CStr) :
    sdbGet s w k = entryRead s.timestamped w.now (sdbHtFindKvp s k) := sdbGet_read h.bare w k

/-- What has run out of time is not read. -/
theorem sdbGet_timedOut {k : CStr} (ht : TimedOut s w k) : sdbGet s w k = none := by
  rw [TimedOut] at ht
  rw [h.sdbGet_eq, entryRead, if_pos ht]

end Sdb.Memory

/-! ## Cells -/

theorem entryRead_live {timestamped : Bool} {now : Nat} {e : Option SdbKv}
    (h : ¬ EntryTimedOut timestamped now e) : entryRead timestamped now e = readAs (textOf e) := by
  rw [entryRead, if_neg h, textOf]
  cases e.bind SdbKv.value with
  | none => rfl
  | some v =>
      by_cases hv : v = CStr.empty
      · rw [hv]
        rfl
      · rw [Option.getD_some, readAs_of_ne hv]
        simp [Option.filter, hv]

section Of

variable {st : Sdb × World} (hm : st.1.Memory) {k : CStr}
include hm

/-- A key that has a value is a cell. -/
theorem Cell.of_some {x : CStr} (h : sdbGet st.1 st.2 k = some x) :
    Cell st k x ∧ x ≠ CStr.empty := by
  rw [hm.sdbGet_eq] at h
  have hlive : ¬ TimedOut st.1 st.2 k := fun htimed ↦ by
    rw [TimedOut] at htimed
    rw [entryRead, if_pos htimed] at h
    cases h
  rw [entryRead_live hlive] at h
  have hne : textOf (sdbHtFindKvp st.1 k) ≠ CStr.empty := fun hno ↦ by
    rw [hno] at h
    cases h
  rw [readAs_of_ne hne] at h
  have htext := Option.some.inj h
  have hshort : k.length < 0xff := by
    cases hf : sdbHtFindKvp st.1 k with
    | none =>
        rw [hf] at hne
        exact absurd rfl hne
    | some kv => exact hm.key hf
  exact ⟨⟨hm, hshort, hlive, htext⟩, htext ▸ hne⟩

/-- So is every other key that is not too long and has not run out of time. -/
theorem Cell.of_read (hk : k.length < 0xff) (hlive : ¬ TimedOut st.1 st.2 k) {x : CStr}
    (h : sdbGet st.1 st.2 k = readAs x) : Cell st k x := by
  refine ⟨hm, hk, hlive, ?_⟩
  rw [hm.sdbGet_eq, entryRead_live hlive] at h
  exact readAs_injective h

end Of

namespace Cell

variable {st : Sdb × World} {k x : CStr} (h : Cell st k x)
include h

theorem sdbGet : sdbGet st.1 st.2 k = readAs x := by
  rw [h.memory.sdbGet_eq, entryRead_live h.live, h.text]

theorem length_lt : x.length < 0xffffff := by
  rw [← h.text]
  cases hf : sdbHtFindKvp st.1 k with
  | none => decide
  | some kv =>
      rw [textOf, Option.bind_some]
      cases hv : kv.value with
      | none => decide
      | some v => exact h.memory.value hf hv

/-- A lookup gives the text, its length and a counter with which the key can be written, and
changes nothing. -/
theorem get : ∃ c, sdbConstGetLen st.1 st.2 k = (⟨readAs x, x.length, c⟩, st) ∧
    (c = 0 ∨ ∃ kv, sdbHtFindKvp st.1 k = some kv ∧ kv.cas = c) := by
  have htext := h.text
  unfold sdbConstGetLen
  cases hf : sdbHtFindKvp st.1 k with
  | none =>
      rw [hf] at htext
      rw [← htext]
      exact ⟨0, congrArg (·, st) (sdbGetDisk_bare h.memory.bare k), .inl rfl⟩
  | some kv =>
      rw [hf, textOf, Option.bind_some] at htext
      cases hv : kv.value with
      | none =>
          rw [hv] at htext
          simp only [hv]
          rw [← htext]
          exact ⟨0, rfl, .inl rfl⟩
      | some v =>
          rw [hv, Option.getD_some] at htext
          simp only [hv]
          rw [htext]
          by_cases hx : x = CStr.empty
          · rw [if_pos hx, hx]
            exact ⟨0, rfl, .inl rfl⟩
          · have hlive := h.live
            rw [TimedOut, hf, entryTimedOut_some hv] at hlive
            rw [if_neg hx, if_neg hlive, readAs_of_ne hx]
            exact ⟨kv.cas, rfl, .inr ⟨kv, rfl, rfl⟩⟩

/-- **A write** to a cell, with the counter of the cell or without one, replaces the text. -/
theorem write {y : CStr} (hy : y.length < 0xffffff) (owned : Bool) {cas : Nat}
    (hcas : cas = 0 ∨ ∃ kv, sdbHtFindKvp st.1 k = some kv ∧ kv.cas = cas) :
    Cell (sdbSetInternal st.1 st.2 k y owned cas).2 k y := by
  have hspec := h.memory.wrote st.2 k y owned cas
  refine ⟨h.memory.setInternal st.2 k y owned cas, h.short, ?_, ?_⟩
  · rw [h.memory.timedOut_setInternal]
    exact h.live
  · rw [hspec.find, if_pos rfl]
    exact textOf_setEntry h.short hy hcas

/-- It is reported if it changes the text. -/
theorem write_reported {y : CStr} (hy : y.length < 0xffffff) (owned : Bool) {cas : Nat}
    (hcas : cas = 0 ∨ ∃ kv, sdbHtFindKvp st.1 k = some kv ∧ kv.cas = cas) (hchange : y ≠ x)
    (hcount : counterOf (sdbHtFindKvp st.1 k) + 1 < 4294967296) :
    (sdbSetInternal st.1 st.2 k y owned cas).1 ≠ 0 := by
  rw [(h.memory.wrote st.2 k y owned cas).ret]
  exact setEntry_reported h.short hy hcas (h.text ▸ hchange) hcount

theorem write_counter (y : CStr) (owned : Bool) (cas : Nat) :
    counterOf (sdbHtFindKvp (sdbSetInternal st.1 st.2 k y owned cas).2.1 k) ≤
      max 2 (counterOf (sdbHtFindKvp st.1 k) + 1) := by
  rw [(h.memory.wrote st.2 k y owned cas).find, if_pos rfl]
  exact counterOf_setEntry _ _ _ _ _

/-- A text that is not empty has an entry of its own. -/
theorem exists_entry (hx : x ≠ CStr.empty) :
    ∃ kv, sdbHtFindKvp st.1 k = some kv ∧ kv.value = some x := by
  have htext := h.text
  cases hf : sdbHtFindKvp st.1 k with
  | none =>
      rw [hf] at htext
      exact absurd htext.symm hx
  | some kv =>
      rw [hf, textOf, Option.bind_some] at htext
      cases hv : kv.value with
      | none =>
          rw [hv] at htext
          exact absurd htext.symm hx
      | some v =>
          rw [hv, Option.getD_some] at htext
          exact ⟨kv, rfl, by rw [hv, htext]⟩

end Cell

/-! ## Keys that cannot be written -/

section Long

variable {s : Sdb} (h : s.Memory) (w : World) {key : CStr} (hk : 0xff ≤ key.length)
include h hk

/-- A key that is too long has no entry. -/
theorem Sdb.Memory.constGetLen_long : sdbConstGetLen s w key = (.null, s, w) := by
  unfold sdbConstGetLen
  cases hf : sdbHtFindKvp s key with
  | none => exact congrArg (·, s, w) (sdbGetDisk_bare h.bare key)
  | some kv => exact absurd (h.key hf) (by omega)

omit h in
/-- It gets none. -/
theorem sdbSetInternal_long (s : Sdb) (val : CStr) (owned : Bool) (cas : Nat) :
    sdbSetInternal s w key val owned cas = (0, s, w) := if_pos (.inl hk)

omit h in
theorem sdbSet_long (s : Sdb) (val : CStr) (cas : Nat) :
    sdbSet s w key val cas = (false, s, w) := by
  rw [sdbSet, sdbSetInternal_long w hk]
  rfl

end Long

/-- Setting a time keeps the database in memory. -/
theorem Sdb.Memory.expireSetKv {s : Sdb} (h : s.Memory) {w : World} {key : CStr} {kv : SdbKv}
    (hf : sdbHtFindKvp s key = some kv) {expire cas : Nat} {r : Bool × Sdb × World}
    (hrun : sdbExpireSetKv s w kv expire cas = some r) : r.2.1.Memory := by
  obtain ⟨-, hframe, hwf, -, hfind⟩ := sdbExpireSetKv_spec h.wf hf hrun
  refine ⟨hwf, ?_, fun {k kv'} hk ↦ ?_, fun {k kv' v} hk hv ↦ ?_⟩
  · rw [hframe]
    exact ⟨h.bare.1, h.bare.2⟩
  · rw [hfind] at hk
    split at hk
    · next hkey => exact hkey.1 ▸ h.key hf
    · exact h.key hk
  · rw [hfind] at hk
    split at hk
    · cases hk
      exact h.value hf hv
    · exact h.value hk hv

theorem Sdb.Memory.expireSet {s : Sdb} (h : s.Memory) {w : World} {t : CdbFind} {key : CStr}
    {expire cas : Nat} {r : Bool × Sdb × World}
    (hrun : sdbExpireSet s w t key expire cas = some r) :
    r.2.1.Memory := by
  have hs : Sdb.Memory { s with timestamped := true } :=
    ⟨h.wf, ⟨h.bare.1, h.bare.2⟩, h.key, h.value⟩
  unfold sdbExpireSet at hrun
  dsimp only at hrun
  split at hrun
  · next kv hf => exact hs.expireSetKv hf hrun
  · rw [if_pos h.bare.1] at hrun
    cases hrun
    exact hs

/-- One entry in memory. -/
def memWith (kv : SdbKv) : Sdb := { sdbNew0 with ht := (htInsertKv sdbHtOpt htNew kv true).2 }

theorem memory_memWith {kv : SdbKv} (hk : kv.key.length < 0xff)
    (hv : ∀ v, kv.value = some v → v.length < 0xffffff) : (memWith kv).Memory := by
  obtain ⟨-, hwf, hp⟩ := htInsertKv_spec sdbHtOpt_lawful Sdb.Memory.new0.wf kv
  have hfind : ∀ k, sdbHtFindKvp (memWith kv) k = if k = kv.key then some kv else none := fun k ↦
    (sdbHtFindKvp_put Sdb.Memory.new0.wf hwf hp k).trans
      (by rw [sdbHtFindKvp_of_htNew (show sdbNew0.ht = htNew from rfl)])
  refine ⟨hwf, ⟨rfl, rfl⟩, fun {k kv'} h ↦ ?_, fun {k kv' v} h hv' ↦ ?_⟩
  · rw [hfind] at h
    split at h
    · next hkey => exact hkey ▸ hk
    · cases h
  · rw [hfind] at h
    split at h
    · cases h
      exact hv v hv'
    · cases h

/-- The pair `k=a` in memory, which has run out of time. -/
def memStale : Sdb × World :=
  let st := (sdbSet sdbNew0 .empty (CStr.ofBytes [107]) (CStr.ofBytes [97]) 0).2
  match sdbExpireSet st.1 st.2 .zero (CStr.ofBytes [107]) 1 0 with
  | some r => (r.2.1, { r.2.2 with now := 2 })
  | none => st

theorem memory_memStale : memStale.1.Memory := by
  have hst : (sdbSet sdbNew0 .empty (CStr.ofBytes [107]) (CStr.ofBytes [97]) 0).2.1.Memory :=
    Sdb.Memory.new0.setInternal _ _ _ _ _
  unfold memStale
  dsimp only
  split
  · next hrun => exact hst.expireSet hrun
  · exact hst

end SdbStore
