import SdbStore.Disk
import SdbStore.Num

/-!
# What is read back of a number

A number is printed in the base of the text that it replaces and read with the base that
`strtoull` finds out.  Decimal and hexadecimal numbers come back as they were.  Octal ones are
printed without the leading zero that would make them octal, and are read as decimal numbers.

`numOp_law_iff` says for each of the operations on numbers when the key has the number that it
should have afterwards.
-/

namespace SdbStore

open Lib

/-! ## The digits of a number -/

/-- One digit. -/
def digitByte (d : Nat) : UInt8 := UInt8.ofNat d.digitChar.toNat

/-- What the code asks about the character of a digit. -/
theorem digitByte_spec : ∀ d < 16, digitVal (digitByte d) = d ∧ isSpace (digitByte d) = false ∧
    digitByte d ≠ 0 ∧ digitByte d ≠ 43 ∧ digitByte d ≠ 45 ∧ (digitByte d = 48 → d = 0) := by
  decide

theorem digits_of_lt {b n : Nat} (h : n < b) : digits b n = [digitByte n] := by
  rw [digits, Nat.toDigits_of_lt_base h]
  rfl

theorem digits_of_le {b n : Nat} (hb : 1 < b) (h : b ≤ n) :
    digits b n = digits b (n / b) ++ [digitByte (n % b)] := by
  rw [digits, Nat.toDigits_of_base_le hb h, List.map_append]
  rfl

/-- The digits in the base `b`, read in the base `c`. -/
def reread (b c n : Nat) : Nat := (digits b n).foldl (fun m d ↦ m * c + digitVal d) 0

section Digits

variable {b : Nat} (hb : 1 < b) (h16 : b ≤ 16)
include hb h16

/-- The induction over the digits of a number. -/
theorem mem_digits {n : Nat} {c : UInt8} (h : c ∈ digits b n) : ∃ d < b, c = digitByte d := by
  induction n using Nat.strongRecOn with
  | ind n ih =>
      rcases Nat.lt_or_ge n b with hlt | hge
      · rw [digits_of_lt hlt] at h
        exact ⟨n, hlt, List.mem_singleton.mp h⟩
      · rw [digits_of_le hb hge] at h
        rcases List.mem_append.mp h with h | h
        · exact ih (n / b) (Nat.div_lt_self (by omega) hb) h
        · exact ⟨n % b, Nat.mod_lt n (by omega), List.mem_singleton.mp h⟩

theorem reread_of_lt (c : Nat) {n : Nat} (h : n < b) : reread b c n = n := by
  rw [reread, digits_of_lt h, List.foldl_cons, List.foldl_nil, Nat.zero_mul, Nat.zero_add]
  exact (digitByte_spec n (by omega)).1

theorem reread_of_le (c : Nat) {n : Nat} (h : b ≤ n) :
    reread b c n = reread b c (n / b) * c + n % b := by
  have hmod := Nat.mod_lt n (show 0 < b by omega)
  rw [reread, digits_of_le hb h, List.foldl_append, List.foldl_cons, List.foldl_nil,
    (digitByte_spec (n % b) (by omega)).1]
  rfl

/-- Read in their own base the digits are the number. -/
theorem reread_self (n : Nat) : reread b b n = n := by
  induction n using Nat.strongRecOn with
  | ind n ih =>
      rcases Nat.lt_or_ge n b with hlt | hge
      · exact reread_of_lt hb h16 b hlt
      · rw [reread_of_le hb h16 b hge, ih (n / b) (Nat.div_lt_self (by omega) hb)]
        exact Nat.div_add_mod' n b

/-- Read in a larger base the digits are at least the number, and more if there are two. -/
theorem le_reread {c : Nat} (hc : b < c) (n : Nat) :
    n ≤ reread b c n ∧ (b ≤ n → n < reread b c n) := by
  induction n using Nat.strongRecOn with
  | ind n ih =>
      rcases Nat.lt_or_ge n b with hlt | hge
      · rw [reread_of_lt hb h16 c hlt]
        exact ⟨Nat.le_refl n, fun h ↦ by omega⟩
      · have hpos : 0 < n / b := Nat.div_pos hge (by omega)
        have hlt : n < reread b c n := by
          rw [reread_of_le hb h16 c hge]
          calc
            n = n / b * b + n % b := (Nat.div_add_mod' n b).symm
            _ < n / b * c + n % b := Nat.add_lt_add_right (Nat.mul_lt_mul_of_pos_left hc hpos) _
            _ ≤ reread b c (n / b) * c + n % b :=
                Nat.add_le_add_right
                  (Nat.mul_le_mul_right c (ih (n / b) (Nat.div_lt_self (by omega) hb)).1) _
        exact ⟨Nat.le_of_lt hlt, fun _ ↦ hlt⟩

/-- The first digit of a number is not a zero. -/
theorem exists_digits_cons {n : Nat} (hn : 0 < n) :
    ∃ d l, 0 < d ∧ d < b ∧ digits b n = digitByte d :: l := by
  induction n using Nat.strongRecOn with
  | ind n ih =>
      rcases Nat.lt_or_ge n b with hlt | hge
      · exact ⟨n, [], hn, hlt, digits_of_lt hlt⟩
      · obtain ⟨d, l, hd, hdb, hl⟩ := ih (n / b) (Nat.div_lt_self (by omega) hb)
          (Nat.div_pos hge (by omega))
        exact ⟨d, l ++ [digitByte (n % b)], hd, hdb, by rw [digits_of_le hb hge, hl]; rfl⟩

/-- All the digits count in a base that is not smaller. -/
theorem digitsVal_digits {c : Nat} (hc : b ≤ c) (n : Nat) :
    digitsVal c (digits b n) = reread b c n := by
  rw [digitsVal, List.takeWhile_eq_self_iff.mpr]
  · rfl
  · intro x hx
    obtain ⟨d, hd, rfl⟩ := mem_digits hb h16 hx
    rw [(digitByte_spec d (by omega)).1]
    exact decide_eq_true (by omega)

end Digits

/-! ## Printed and read back -/

/-- What `strtoull` makes of a number that may be too large. -/
def clamp (n : Nat) : UInt64 := if n ≥ 2 ^ 64 then 0xffffffffffffffff else UInt64.ofNat n

theorem clamp_toNat (v : UInt64) : clamp v.toNat = v := by
  rw [clamp, if_neg (by have := v.toNat_lt; omega), UInt64.ofNat_toNat]

/-- A digit is no space and no sign. -/
theorem strtoull_digit {d : Nat} (hd : d < 16) (l : Bytes) :
    strtoull (digitByte d :: l) =
      clamp (digitsVal (strtoullBase (digitByte d :: l)).1
        (strtoullBase (digitByte d :: l)).2) := by
  obtain ⟨-, hspace, -, hplus, hminus, -⟩ := digitByte_spec d hd
  have hhead (c : UInt8) (hc : digitByte d ≠ c) : ¬ (digitByte d :: l).head? = some c :=
    fun h ↦ hc (Option.some.inj h)
  rw [strtoull, List.dropWhile_cons_of_neg (by simp [hspace])]
  simp only [hhead 45 hminus, hhead 43 hplus, or_self, if_false]
  rfl

/-- A text that begins with another digit than zero is decimal. -/
theorem strtoullBase_digit {d : Nat} (hd : d < 16) (hpos : 0 < d) (l : Bytes) :
    strtoullBase (digitByte d :: l) = (10, digitByte d :: l) := by
  have hne : digitByte d ≠ 48 := fun h ↦ absurd ((digitByte_spec d hd).2.2.2.2.2 h) (by omega)
  rw [strtoullBase]
  · intro x c rest h
    exact hne (List.cons.inj h).1
  · intro l h
    exact hne (List.cons.inj h).1

theorem strtoull_digits {b : Nat} (hb : 1 < b) (h10 : b ≤ 10) {n : Nat} (hn : 0 < n) :
    strtoull (digits b n) = clamp (reread b 10 n) := by
  obtain ⟨d, l, hpos, hd, hl⟩ := exists_digits_cons hb (by omega) hn
  rw [hl, strtoull_digit (by omega), strtoullBase_digit (by omega) hpos, ← hl]
  dsimp only
  rw [digitsVal_digits hb (by omega) h10]

theorem strtoull_hex {n : Nat} (hn : 0 < n) : strtoull (48 :: 120 :: digits 16 n) = clamp n := by
  obtain ⟨d, l, -, hd, hl⟩ := exists_digits_cons (b := 16) (by decide) (by decide) hn
  have hbase : strtoullBase (48 :: 120 :: digitByte d :: l) = (16, digitByte d :: l) := by
    rw [strtoullBase, if_pos]
    rw [(digitByte_spec d hd).1]
    exact ⟨.inl rfl, hd⟩
  have hzero : (48 : UInt8) = digitByte 0 := by decide
  rw [hl, hzero, strtoull_digit (by decide), ← hzero, hbase]
  dsimp only
  rw [← hl, digitsVal_digits (by decide) (by decide) (Nat.le_refl 16),
    reread_self (by decide) (by decide)]

/-- A number is read back, except an octal one that is larger than a digit and not the largest of
all: what it is read as does not fit into 64 bits either. -/
def Readable (base : Nat) (v : UInt64) : Prop := base ≠ 8 ∨ v.toNat < 8 ∨ v = 0xffffffffffffffff

instance (base : Nat) (v : UInt64) : Decidable (Readable base v) :=
  inferInstanceAs (Decidable (_ ∨ _ ∨ _))

theorem reread_max : 2 ^ 64 ≤ reread 8 10 (2 ^ 64 - 1) := by decide

theorem clamp_reread_iff {v : UInt64} (hv : 8 ≤ v.toNat) :
    clamp (reread 8 10 v.toNat) = v ↔ v = 0xffffffffffffffff := by
  have hlt := (le_reread (b := 8) (by decide) (by decide) (c := 10) (by decide) v.toNat).2 hv
  rw [clamp]
  split
  · exact eq_comm
  · next hfits =>
      constructor
      · intro h
        have hnat := congrArg UInt64.toNat h
        rw [UInt64.toNat_ofNat_of_lt' (Nat.lt_of_not_le hfits)] at hnat
        omega
      · rintro rfl
        exact absurd reread_max hfits

/-- **What is read back of a number.** -/
theorem strtoull_sdbItoa {base : Nat} (hbase : base = 8 ∨ base = 10 ∨ base = 16) (v : UInt64) :
    strtoull (sdbItoa v base) = v ↔ Readable base v := by
  rw [sdbItoa]
  by_cases hv : v = 0
  · rw [if_pos hv, hv]
    exact iff_of_true (by decide) (.inr (.inl (by decide)))
  have hpos : 0 < v.toNat := Nat.pos_of_ne_zero fun h ↦ hv (UInt64.toNat_inj.mp h)
  rw [if_neg hv]
  rcases hbase with rfl | rfl | rfl
  · rw [if_pos (by decide), strtoull_digits (by decide) (by decide) hpos]
    rcases Nat.lt_or_ge v.toNat 8 with hlt | hge
    · rw [reread_of_lt (by decide) (by decide) 10 hlt, clamp_toNat]
      exact iff_of_true rfl (.inr (.inl hlt))
    · rw [clamp_reread_iff hge, Readable]
      simp [Nat.not_lt.mpr hge]
  · rw [if_pos (by decide), strtoull_digits (by decide) (by decide) hpos,
      reread_self (by decide) (by decide), clamp_toNat]
    exact iff_of_true rfl (.inl (by decide))
  · rw [if_neg (by decide), strtoull_hex hpos, clamp_toNat]
    exact iff_of_true rfl (.inl (by decide))

/-- The text of a number as a value of the database. -/
theorem sdbItoa_text {base : Nat} (hbase : base = 8 ∨ base = 10 ∨ base = 16) (v : UInt64) :
    (0 : UInt8) ∉ sdbItoa v base ∧ (sdbItoa v base).head? ≠ some 45 ∧ sdbItoa v base ≠ [] ∧
      (sdbItoa v base).length < 0xffffff := by
  rw [sdbItoa]
  by_cases hv : v = 0
  · rw [if_pos hv]
    decide
  have hpos : 0 < v.toNat := Nat.pos_of_ne_zero fun h ↦ hv (UInt64.toNat_inj.mp h)
  have hb : 1 < base ∧ base ≤ 16 := by omega
  have hzero : (0 : UInt8) ∉ digits base v.toNat := by
    intro h
    obtain ⟨d, hd, hd0⟩ := mem_digits hb.1 hb.2 h
    exact (digitByte_spec d (by omega)).2.2.1 hd0.symm
  have hlen : (digits base v.toNat).length ≤ 64 := by
    rw [digits, List.length_map, Nat.length_toDigits_le_iff hb.1 (by decide)]
    calc
      v.toNat < 2 ^ 64 := v.toNat_lt
      _ ≤ base ^ 64 := Nat.pow_le_pow_left hb.1 64
  rw [if_neg hv]
  split
  · obtain ⟨d, l, -, hd, hl⟩ := exists_digits_cons hb.1 hb.2 hpos
    refine ⟨hzero, ?_, by rw [hl]; exact List.cons_ne_nil _ _, by omega⟩
    rw [hl]
    exact fun h ↦ (digitByte_spec d (by omega)).2.2.2.2.1 (Option.some.inj h)
  · refine ⟨by simpa using hzero, by simp, List.cons_ne_nil _ _, ?_⟩
    simp only [List.length_cons]
    omega

theorem sdbNumBase_cases (s : Option Bytes) :
    sdbNumBase s = 8 ∨ sdbNumBase s = 10 ∨ sdbNumBase s = 16 := by
  unfold sdbNumBase
  split
  · exact .inr (.inr rfl)
  · split
    · exact .inr (.inr rfl)
    · split
      · exact .inl rfl
      · exact .inr (.inl rfl)

/-! ## A key of a database in memory -/

/-- The key has run out of time: no lookup gives its value any more. -/
def EntryTimedOut (timestamped : Bool) (now : Nat) (e : Option SdbKv) : Prop :=
  timestamped = true ∧ ∃ kv, e = some kv ∧ kv.value ≠ none ∧ kv.expire ≠ 0 ∧ now > kv.expire

/-- The same of a key of a database. -/
def TimedOut (s : Sdb) (w : World) (key : CStr) : Prop :=
  EntryTimedOut s.timestamped w.now (sdbHtFindKvp s key)

theorem not_entryTimedOut_none (timestamped : Bool) (now : Nat) :
    ¬ EntryTimedOut timestamped now none :=
  fun h ↦ by simpa using h.2

theorem not_entryTimedOut_of_none {timestamped : Bool} {now : Nat} {kv : SdbKv}
    (hv : kv.value = none) :
    ¬ EntryTimedOut timestamped now (some kv) := by
  rintro ⟨-, kv', h, hne, -⟩
  cases h
  exact hne hv

theorem entryTimedOut_some {timestamped : Bool} {now : Nat} {kv : SdbKv} {v : CStr}
    (hv : kv.value = some v) : EntryTimedOut timestamped now (some kv) ↔
      timestamped = true ∧ kv.expire ≠ 0 ∧ now > kv.expire := by
  simp [EntryTimedOut, hv]

open Classical in
/-- What a lookup gives for the entry of a key. -/
noncomputable def entryRead (timestamped : Bool) (now : Nat) (e : Option SdbKv) : Option CStr :=
  if EntryTimedOut timestamped now e then none else (e.bind SdbKv.value).filter (· ≠ CStr.empty)

/-- What a lookup leaves behind: another one gives the same. -/
structure Looked (s : Sdb) (w : World) (key : CStr) (st : Sdb × World) : Prop where
  wf : st.1.WF
  bare : st.1.Bare
  timedOut : TimedOut st.1 st.2 key ↔ TimedOut s w key
  read : entryRead st.1.timestamped st.2.now (sdbHtFindKvp st.1 key) =
    entryRead s.timestamped w.now (sdbHtFindKvp s key)

theorem setEntry_long {key : CStr} (hkey : 0xff ≤ key.length) (e : Option SdbKv) (val : CStr) :
    setEntry e (-1) key val false 0 = (0, e) := if_pos (.inl hkey)

section Short

variable {key val : CStr} (hkey : key.length < 0xff) (hval : val.length < 0xffffff)
include hkey hval

theorem setEntry_new {e : Option SdbKv} (he : e.bind SdbKv.value = none) :
    (setEntry e (-1) key val false 0).2 = some (newEntry key val false) := by
  rw [setEntry.eq_def, if_neg (by omega)]
  cases e with
  | none => rfl
  | some kv =>
      rw [Option.bind_some] at he
      simp only [he]

theorem setEntry_over {kv : SdbKv} {old : CStr} (hold : kv.value = some old) :
    ∃ n, (setEntry (some kv) (-1) key val false 0).2 =
      some { kv with cas := n, value := some val } := by
  rw [setEntry.eq_def, if_neg (by omega)]
  simp only [hold]
  rw [if_pos (by decide), if_neg (by simp)]
  split
  · next heq =>
      refine ⟨kv.cas, ?_⟩
      rw [heq, ← hold]
  · exact ⟨nextcas kv, rfl⟩

end Short

theorem Looked.trans {s : Sdb} {w : World} {key : CStr} {st st' : Sdb × World}
    (h : Looked s w key st) (h' : Looked st.1 st.2 key st') : Looked s w key st' :=
  ⟨h'.wf, h'.bare, h'.timedOut.trans h.timedOut, h'.read.trans h.read⟩

section Memory

variable {s : Sdb} (hs : s.WF) (hb : s.Bare) (w : World) (key : CStr)
include hs hb

theorem Looked.refl : Looked s w key (s, w) := ⟨hs, hb, Iff.rfl, rfl⟩

theorem sdbSet_spec (val : CStr) : Wrote s key
    (setEntry (sdbHtFindKvp s key) (-1) key val false 0) (sdbSetInternal s w key val false 0) := by
  have h := sdbSetInternal_spec hs w key val false 0
  rwa [cdbLookup_bare hb] at h

/-- The entry of the key, and what decides whether it has run out of time, behind a write. -/
theorem read_sdbSet (val : CStr) :
    entryRead (sdbSet s w key val 0).2.1.timestamped (sdbSet s w key val 0).2.2.now
        (sdbHtFindKvp (sdbSet s w key val 0).2.1 key) =
      entryRead s.timestamped w.now (setEntry (sdbHtFindKvp s key) (-1) key val false 0).2 ∧
    (TimedOut (sdbSet s w key val 0).2.1 (sdbSet s w key val 0).2.2 key ↔
      EntryTimedOut s.timestamped w.now
        (setEntry (sdbHtFindKvp s key) (-1) key val false 0).2) := by
  have hw := sdbSet_spec hs hb w key val
  have hts : (sdbSet s w key val 0).2.1.timestamped = s.timestamped := by
    have hframe : s.Frame (sdbSet s w key val 0).2.1 := hw.frame
    rw [hframe]
  have hnow : (sdbSet s w key val 0).2.2.now = w.now := now_sdbSetInternal s w key val false 0
  have hfind : sdbHtFindKvp (sdbSet s w key val 0).2.1 key =
      (setEntry (sdbHtFindKvp s key) (-1) key val false 0).2 := (hw.find key).trans (if_pos rfl)
  rw [TimedOut, hts, hnow, hfind]
  exact ⟨rfl, Iff.rfl⟩

omit hs in
theorem sdbGet_read : sdbGet s w key = entryRead s.timestamped w.now (sdbHtFindKvp s key) := by
  rw [sdbGet]
  unfold sdbConstGetLen entryRead
  cases hf : sdbHtFindKvp s key with
  | none =>
      rw [if_neg (not_entryTimedOut_none _ _), sdbGetDisk_bare hb]
      rfl
  | some kv =>
      cases hv : kv.value with
      | none =>
          rw [if_neg (not_entryTimedOut_of_none hv), Option.bind_some, hv]
          simp only [hv]
          rfl
      | some v =>
          rw [entryTimedOut_some hv, Option.bind_some, hv]
          simp only [hv]
          by_cases hv' : v = CStr.empty
          · simp [hv', Got.null, Option.filter]
          · rw [if_neg hv']
            split
            · rfl
            · simp [hv', Option.filter]

/-- A lookup unsets a key that has run out of time, which it stays. -/
theorem looked_sdbConstGetLen : Looked s w key (sdbConstGetLen s w key).2 := by
  have hrefl := Looked.refl hs hb w key
  unfold sdbConstGetLen
  cases hf : sdbHtFindKvp s key with
  | none => exact hrefl
  | some kv =>
      cases hv : kv.value with
      | none =>
          simp only [hv]
          exact hrefl
      | some v =>
          simp only [hv]
          split
          · exact hrefl
          · split
            · next hne hold =>
                obtain ⟨hread, htimed⟩ := read_sdbSet hs hb w key CStr.empty
                have hw := sdbSet_spec hs hb w key CStr.empty
                have hs₀ : EntryTimedOut s.timestamped w.now (sdbHtFindKvp s key) := by
                  rw [hf, entryTimedOut_some hv]
                  exact hold
                have hs₁ : EntryTimedOut s.timestamped w.now
                    (setEntry (sdbHtFindKvp s key) (-1) key CStr.empty false 0).2 := by
                  rcases Nat.lt_or_ge key.length 0xff with hkey | hkey
                  · obtain ⟨n, hn⟩ := setEntry_over hkey
                      (show CStr.empty.length < 0xffffff by decide) hv
                    rw [hf, hn, entryTimedOut_some rfl]
                    exact hold
                  · rw [setEntry_long hkey]
                    exact hs₀
                refine ⟨hw.wf, hw.bare hb, htimed.trans (iff_of_true hs₁ hs₀), hread.trans ?_⟩
                rw [entryRead, entryRead, if_pos hs₁, if_pos hs₀]
            · exact hrefl

open Classical in
/-- A text is read back, unless the key has run out of time or is too long. -/
theorem sdbGet_set {val : CStr} (hval : val.length < 0xffffff) (hne : val ≠ CStr.empty) :
    sdbGet (sdbSet s w key val 0).2.1 (sdbSet s w key val 0).2.2 key =
      if key.length < 0xff then if TimedOut s w key then none else some val
      else sdbGet s w key := by
  have hbare : (sdbSet s w key val 0).2.1.Bare := (sdbSet_spec hs hb w key val).bare hb
  have hfilter : (some val).filter (· ≠ CStr.empty) = some val := by simp [Option.filter, hne]
  rw [sdbGet_read hbare, (read_sdbSet hs hb w key val).1, sdbGet_read hb, TimedOut]
  rcases Nat.lt_or_ge key.length 0xff with hkey | hkey
  · rw [if_pos hkey]
    cases hv : (sdbHtFindKvp s key).bind SdbKv.value with
    | none =>
        have hs₀ : ¬ EntryTimedOut s.timestamped w.now (sdbHtFindKvp s key) := by
          rintro ⟨-, kv, hkv, hne', -⟩
          rw [hkv, Option.bind_some] at hv
          exact hne' hv
        have hs₁ : ¬ EntryTimedOut s.timestamped w.now (some (newEntry key val false)) := by
          rintro ⟨-, kv, hkv, -, hexp, -⟩
          cases hkv
          exact hexp rfl
        have hnew : (newEntry key val false).value = some val := by simp [newEntry, hne]
        rw [setEntry_new hkey hval hv, if_neg hs₀, entryRead, if_neg hs₁, Option.bind_some, hnew,
          hfilter]
    | some old =>
        obtain ⟨kv, hkv, hold⟩ := Option.bind_eq_some_iff.mp hv
        obtain ⟨n, hn⟩ := setEntry_over hkey hval hold
        rw [hkv, hn, entryRead, entryTimedOut_some rfl, entryTimedOut_some hold, Option.bind_some,
          hfilter]
  · rw [if_neg (by omega), setEntry_long hkey]

omit hs in
/-- One lookup after another finds the same. -/
theorem Looked.sdbGet {st : Sdb × World} (h : Looked s w key st) :
    sdbGet st.1 st.2 key = SdbStore.sdbGet s w key := by
  rw [sdbGet_read h.bare, h.read, sdbGet_read hb]

end Memory

/-! ## The operations -/

/-- The operations on the number of a key. -/
inductive NumOp where
  | set (v : UInt64)
  | inc (n : UInt64)
  | dec (n : UInt64)
  | min (n : UInt64)
  | max (n : UInt64)

/-- The number of a key. -/
def numOf (s : Sdb) (w : World) (key : CStr) : UInt64 := sdbNumParse (sdbGet s w key)

/-- The state behind an operation. -/
def NumOp.run (s : Sdb) (w : World) (key : CStr) : NumOp → Sdb × World
  | .set v => (sdbNumSet s w key v 0).2
  | .inc n => (sdbNumInc s w key n 0).2
  | .dec n => (sdbNumDec s w key n 0).2
  | .min n => (sdbNumMin s w key n 0).2
  | .max n => (sdbNumMax s w key n 0).2

/-- The sum does not fit into 64 bits. -/
def Overflows (m n : UInt64) : Prop := 2 ^ 64 ≤ m.toNat + n.toNat

instance (m n : UInt64) : Decidable (Overflows m n) := inferInstanceAs (Decidable (_ ≤ _))

/-- The number that the key should have behind an operation, from the one before it and from
whether the key exists. -/
def NumOp.result (old : UInt64) (ex : Prop) [Decidable ex] : NumOp → UInt64
  | .set v => v
  | .inc n => old + n
  | .dec n => if n > old then 0 else old - n
  | .min n => if ex then Min.min old n else n
  | .max n => if ex then Max.max old n else n

/-- What an operation promises. -/
def NumOp.Law (s : Sdb) (w : World) (key : CStr) (op : NumOp) : Prop :=
  let st := op.run s w key
  let old := numOf s w key
  match op with
  | .inc n =>
      if Overflows old n then sdbGet st.1 st.2 key = sdbGet s w key
      else numOf st.1 st.2 key = old + n ∧ (sdbNumInc s w key n 0).1 = old + n
  | .set _ | .dec _ | .min _ | .max _ =>
      numOf st.1 st.2 key = op.result old (sdbGet s w key ≠ none)

/-- The operation has nothing to write. -/
def NumOp.Idle (old : UInt64) (ex : Prop) : NumOp → Prop
  | .set _ => False
  | .inc n => Overflows old n
  | .dec _ => False
  | .min n => ex ∧ old ≤ n
  | .max n => ex ∧ n ≤ old

/-- When a number that is written is the number of the key afterwards. -/
def Stored (s : Sdb) (w : World) (key : CStr) (v : UInt64) : Prop :=
  (key.length < 0xff ∧ ¬ TimedOut s w key ∧
    Readable (sdbNumBase ((sdbGet s w key).map (·.val))) v) ∨
  ((0xff ≤ key.length ∨ TimedOut s w key) ∧ v = numOf s w key)

/-- When an operation keeps its promise. -/
def NumOp.Safe (s : Sdb) (w : World) (key : CStr) (op : NumOp) : Prop :=
  op.Idle (numOf s w key) (sdbGet s w key ≠ none) ∨
    Stored s w key (op.result (numOf s w key) (sdbGet s w key ≠ none))

theorem add_lt_left_iff (m n : UInt64) : m + n < m ↔ Overflows m n := by
  have hm := m.toNat_lt
  have hn := n.toNat_lt
  rw [UInt64.lt_iff_toNat_lt, UInt64.toNat_add, Overflows]
  omega

theorem min_eq_ite (m n : UInt64) : Min.min m n = if n < m then n else m := by
  have hdef : Min.min m n = if m ≤ n then m else n := rfl
  rw [hdef, if_congr UInt64.not_lt.symm rfl rfl, ite_not]

theorem max_eq_ite (m n : UInt64) : Max.max m n = if n > m then n else m := by
  have hdef : Max.max m n = if m ≤ n then n else m := rfl
  rw [hdef]
  by_cases h : n > m
  · rw [if_pos (UInt64.le_of_lt h), if_pos h]
  · rw [if_neg h]
    split
    · next hle => exact UInt64.le_antisymm (UInt64.not_lt.mp h) hle
    · rfl

theorem sdbNumParse_some (v : CStr) : sdbNumParse (some v) = sdbAtoi (some v.val) := by
  rw [sdbNumParse, sdbAtoi]
  split
  · rfl
  · rfl

section Ops

variable {s : Sdb} (hb : s.Bare) (w : World) {key : CStr}
include hb

theorem numOf_timedOut (h : TimedOut s w key) : numOf s w key = 0 := by
  rw [TimedOut] at h
  rw [numOf, sdbGet_read hb, entryRead, if_pos h]
  rfl

theorem numOf_sdbSet {text : CStr} (hlen : text.length < 0xffffff) (hne : text ≠ CStr.empty)
    {st : Sdb × World} (hst : Looked s w key st) (v : UInt64) :
    numOf (sdbSet st.1 st.2 key text 0).2.1 (sdbSet st.1 st.2 key text 0).2.2 key = v ↔
      (key.length < 0xff ∧ ¬ TimedOut s w key ∧ sdbAtoi (some text.val) = v) ∨
        ((0xff ≤ key.length ∨ TimedOut s w key) ∧ v = numOf s w key) := by
  rw [numOf, sdbGet_set hst.wf hst.bare st.2 key hlen hne, hst.sdbGet hb, hst.timedOut]
  split
  · next hkey =>
      split
      · next htimed =>
          rw [numOf_timedOut hb w htimed]
          simp [htimed, Nat.not_le.mpr hkey, sdbNumParse, eq_comm]
      · next htimed =>
          rw [sdbNumParse_some]
          simp [htimed, hkey, Nat.not_le.mpr hkey]
  · next hkey => simp [hkey, Nat.not_lt.mp hkey, numOf, eq_comm]

/-- **A number that is written** is the number of the key when `Stored` says so. -/
theorem numOf_sdbNumSet {st : Sdb × World} (hst : Looked s w key st) (v : UInt64) :
    numOf (sdbNumSet st.1 st.2 key v 0).2.1 (sdbNumSet st.1 st.2 key v 0).2.2 key = v ↔
      Stored s w key v := by
  have hlook := hst.trans (looked_sdbConstGetLen hst.wf hst.bare st.2 key)
  have hbase := sdbNumBase_cases ((sdbGet s w key).map (·.val))
  obtain ⟨hzero, hminus, hne, hlen⟩ := sdbItoa_text hbase v
  have hval : (CStr.ofBytes (sdbItoa v (sdbNumBase ((sdbGet s w key).map (·.val))))).val =
      sdbItoa v (sdbNumBase ((sdbGet s w key).map (·.val))) :=
    CStr.val_ofBytes hzero
  have hcode : sdbNumSet st.1 st.2 key v 0 = sdbSet (sdbConstGetLen st.1 st.2 key).2.1
      (sdbConstGetLen st.1 st.2 key).2.2 key
      (CStr.ofBytes (sdbItoa v (sdbNumBase ((sdbGet s w key).map (·.val))))) 0 := by
    rw [← hst.sdbGet hb]
    rfl
  rw [hcode, numOf_sdbSet hb w _ _ hlook, hval, Stored, sdbAtoi]
  · rw [if_neg hminus, strtoull_sdbItoa hbase]
  · rw [CStr.length, hval]
    exact hlen
  · intro h
    exact hne (hval ▸ congrArg Subtype.val h)

end Ops

section Laws

variable {s : Sdb} (hs : s.WF) (hb : s.Bare) (w : World) (key : CStr)
include hs hb

theorem law_set (v : UInt64) : (NumOp.set v).Law s w key ↔ (NumOp.set v).Safe s w key := by
  refine (numOf_sdbNumSet hb w (Looked.refl hs hb w key) v).trans ?_
  exact (or_iff_right id).symm

theorem law_inc (n : UInt64) : (NumOp.inc n).Law s w key ↔ (NumOp.inc n).Safe s w key := by
  have hlook := looked_sdbConstGetLen hs hb w key
  have hcode : sdbNumInc s w key n 0 =
      if Overflows (numOf s w key) n then (0, (sdbConstGetLen s w key).2)
      else (numOf s w key + n,
        (sdbNumSet (sdbConstGetLen s w key).2.1 (sdbConstGetLen s w key).2.2 key
        (numOf s w key + n) 0).2) := by
    rw [sdbNumInc]
    refine if_congr ?_ rfl rfl
    rw [← add_lt_left_iff]
    exact or_iff_right (by simp)
  rw [NumOp.Law, NumOp.Safe, NumOp.run, NumOp.Idle, NumOp.result, hcode]
  by_cases h : Overflows (numOf s w key) n
  · simp only [h, if_true, true_or, iff_true]
    exact hlook.sdbGet hb
  · simp only [h, if_false, false_or, and_true]
    exact numOf_sdbNumSet hb w hlook _

theorem law_dec (n : UInt64) : (NumOp.dec n).Law s w key ↔ (NumOp.dec n).Safe s w key := by
  have hlook := looked_sdbConstGetLen hs hb w key
  have hcode : sdbNumDec s w key n 0 =
      if n > numOf s w key then
        (0, (sdbSet (sdbConstGetLen s w key).2.1 (sdbConstGetLen s w key).2.2 key
          (CStr.ofBytes [48]) 0).2)
      else (numOf s w key - n, (sdbNumSet (sdbConstGetLen s w key).2.1
        (sdbConstGetLen s w key).2.2 key (numOf s w key - n) 0).2) := by
    rw [sdbNumDec, if_neg (by simp)]
    rfl
  refine Iff.trans ?_ (or_iff_right id).symm
  rw [NumOp.Law, NumOp.run, NumOp.result, hcode]
  by_cases h : n > numOf s w key
  · rw [if_pos h, if_pos h]
    refine (numOf_sdbSet hb w (by decide) (by decide) hlook 0).trans ?_
    have hzero : sdbAtoi (some (CStr.ofBytes [48]).val) = 0 := by decide
    have hread (base : Nat) : Readable base 0 := .inr (.inl (by decide))
    simp only [Stored, hzero, hread]
  · rw [if_neg h, if_neg h]
    exact numOf_sdbNumSet hb w hlook _

/-- An operation that writes `n` only when it changes something. -/
theorem law_bound {op : NumOp} (n : UInt64) (writes : Prop) [Decidable writes]
    (hlaw : op.Law s w key ↔ numOf (op.run s w key).1 (op.run s w key).2 key =
      op.result (numOf s w key) (sdbGet s w key ≠ none))
    (hrun : op.run s w key = if writes then
      (sdbNumSet (sdbConstGetLen s w key).2.1 (sdbConstGetLen s w key).2.2 key n 0).2
      else (sdbConstGetLen s w key).2)
    (hres : op.result (numOf s w key) (sdbGet s w key ≠ none) =
      if writes then n else numOf s w key)
    (hidle : op.Idle (numOf s w key) (sdbGet s w key ≠ none) ↔ ¬ writes) :
    op.Law s w key ↔ op.Safe s w key := by
  have hlook := looked_sdbConstGetLen hs hb w key
  rw [hlaw, NumOp.Safe, hrun, hres, hidle]
  by_cases h : writes
  · rw [if_pos h, if_pos h, or_iff_right (by simp [h])]
    exact numOf_sdbNumSet hb w hlook n
  · rw [if_neg h, if_neg h]
    refine iff_of_true ?_ (.inl h)
    rw [numOf, hlook.sdbGet hb, numOf]

omit hs hb in
/-- The comparison of `sdb_num_min` and `sdb_num_max` with the number that the key has. -/
theorem bound_run (lt : UInt64 → Prop) [DecidablePred lt] (x y : Sdb × World)
    (f : Sdb × World → Bool) : (match (sdbConstGetLen s w key).1.value with
      | none => (f x, x)
      | some a => if lt (sdbAtoi (some a.val)) then (f x, x) else (false, y)).2 =
      if sdbGet s w key = none ∨ lt (numOf s w key) then x else y := by
  rw [numOf, sdbGet]
  cases (sdbConstGetLen s w key).1.value with
  | none => rw [if_pos (.inl rfl)]
  | some a =>
      rw [sdbNumParse_some, if_congr (or_iff_right (Option.some_ne_none a)) rfl rfl]
      exact apply_ite Prod.snd _ _ _

theorem law_min (n : UInt64) : (NumOp.min n).Law s w key ↔ (NumOp.min n).Safe s w key := by
  refine law_bound hs hb w key n (sdbGet s w key = none ∨ n < numOf s w key) Iff.rfl ?_ ?_ ?_
  · rw [NumOp.run, sdbNumMin, if_neg (by simp)]
    exact bound_run w key (n < ·) _ _ fun _ ↦ (sdbNumSet (sdbConstGetLen s w key).2.1
      (sdbConstGetLen s w key).2.2 key n 0).1
  · rw [NumOp.result]
    by_cases hv : sdbGet s w key = none
    · rw [if_neg (by simp [hv]), if_pos (.inl hv)]
    · rw [if_pos hv, if_congr (or_iff_right hv) rfl rfl, min_eq_ite]
  · rw [NumOp.Idle, not_or, UInt64.not_lt]

theorem law_max (n : UInt64) : (NumOp.max n).Law s w key ↔ (NumOp.max n).Safe s w key := by
  refine law_bound hs hb w key n (sdbGet s w key = none ∨ n > numOf s w key) Iff.rfl ?_ ?_ ?_
  · rw [NumOp.run, sdbNumMax, if_neg (by simp)]
    exact bound_run w key (n > ·) _ _ fun _ ↦ (sdbNumSet (sdbConstGetLen s w key).2.1
      (sdbConstGetLen s w key).2.2 key n 0).1
  · rw [NumOp.result]
    by_cases hv : sdbGet s w key = none
    · rw [if_neg (by simp [hv]), if_pos (.inl hv)]
    · rw [if_pos hv, if_congr (or_iff_right hv) rfl rfl, max_eq_ite]
  · rw [NumOp.Idle, not_or, gt_iff_lt, UInt64.not_lt]

end Laws

/-- A database in memory in which the key `k` has the value `val`. -/
def keyK (val : Bytes) : Sdb :=
  (sdbSet sdbNew0 .empty (CStr.ofBytes [107]) (CStr.ofBytes val) 0).2.1

theorem wf_keyK (val : Bytes) : (keyK val).WF :=
  (sdbSetInternal_spec (s := sdbNew0) htNew_wf .empty _ _ false 0).wf

theorem bare_keyK (val : Bytes) : (keyK val).Bare :=
  (sdbSetInternal_spec (s := sdbNew0) htNew_wf .empty _ _ false 0).bare ⟨rfl, rfl⟩

end SdbStore
