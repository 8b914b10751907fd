import SdbStore.Fmt

/-!
# The size of a structure

`sdb_fmt_init` adds up the sizes of the fields, and `sdb_fmt_tostr`, `sdb_fmt_tobin` and
`sdb_fmt_free` step over them by the size of a pointer.  What each of them reads or writes of the
structure is a list of offsets here: nothing else of it counts for the text (`sdbFmtTostr_congr`)
and for what is freed (`sdbFmtFree_congr`), and nothing else is changed (`sdbFmtTobin_frame`).

The bytes behind a structure are 0 from some point on.  The sizes and the offsets are numbers in an
`int`.
-/

namespace SdbStore.Fmt

open Lib

/-! ## The code -/

/-- What a field adds to `len` in `sdb_fmt_init`. -/
def initSize (c : UInt8) : Nat :=
  if c = 98 then 1
  else if c = 104 then 2
  else if c = 100 then 4
  else if c = 113 then 8
  else if c = 122 then sizeofPtr
  else if c = 115 then sizeofPtr
  else if c = 112 then sizeofPtr
  else 0

/-- The loop of `sdb_fmt_init`. -/
def initLoop : Bytes → Nat → Option Nat
  | [], len => some len
  | c :: fmt, len => (checkedInt (len + initSize c)).bind (initLoop fmt)

/-- `sdb_fmt_init`: the size, and the structure with as many zeros. -/
def sdbFmtInit (p : Option Bytes) (fmt : CStr) : Option (Nat × Option Bytes) :=
  (initLoop fmt.val 0).map fun len ↦ (len, p.map fun p ↦ List.replicate len 0 ++ p.drop len)

/-- The size of a field in `sdb_fmt_free`. -/
def freeSize (c : UInt8) : Nat := if c = 113 then 8 else 4

/-- The loop of `sdb_fmt_free`: the pointers that are freed. -/
def freeLoop (stru : Bytes) : Bytes → Nat → Option (List Nat)
  | [], _ => some []
  | c :: fmt, len =>
      ((checkedInt (len + max sizeofPtr (freeSize c))).bind (freeLoop stru fmt)).map
        ((if c = 122 ∨ c = 115 then [load 8 stru len] else []) ++ ·)

/-- `sdb_fmt_free`. -/
def sdbFmtFree (stru : Bytes) (fmt : CStr) : Option (List Nat) := freeLoop stru fmt.val 0

/-! ## What is read and written -/

/-- The offsets that a loop over the fields touches: as many as `width` says for each field. -/
def touches (size : UInt8 → Nat) (width : UInt8 → Nat → Nat) : Bytes → Nat → List Nat
  | [], _ => []
  | c :: fmt, len =>
      List.range' len (width c len) ++ touches size width fmt (len + max sizeofPtr (size c))

/-- How many bytes `sdb_fmt_tostr` reads of the field at `len`: it takes a `z` for the text itself,
and reads up to its NUL. -/
def tostrWidth (p : Bytes) (c : UInt8) (len : Nat) : Nat :=
  if c = 98 then 1
  else if c = 104 then 2
  else if c = 100 then 4
  else if c = 113 then 8
  else if c = 122 then (CStr.ofBytes (p.drop len)).length + 1
  else if c = 115 then 8
  else if c = 112 then 8
  else 0

/-- What `sdb_fmt_tostr` reads of the structure. -/
def tostrReads (p : Bytes) (fmt : CStr) : List Nat := touches tostrSize (tostrWidth p) fmt.val 0

/-- How many bytes `sdb_fmt_free` reads of a field. -/
def freeWidth (c : UInt8) : Nat := if c = 122 ∨ c = 115 then 8 else 0

/-- What `sdb_fmt_free` reads of the structure. -/
def freeReads (fmt : CStr) : List Nat := touches freeSize (fun c _ ↦ freeWidth c) fmt.val 0

/-- How many bytes `sdb_fmt_tobin` writes for a field. -/
def tobinWidth (c : UInt8) : Nat :=
  if c = 98 then 1
  else if c = 100 then 4
  else if c = 113 then 8
  else if c = 104 then 2
  else if c = 115 then 8
  else if c = 122 then 8
  else if c = 112 then 8
  else 0

/-- What the loop of `sdb_fmt_tobin` writes, as long as there are words. -/
def tobinWritesLoop : Bytes → Bytes → Nat → List Nat
  | [], _, _ => []
  | c :: fmt, ptr, idx =>
      if (sdbAnext ptr).1 = [] then []
      else
        List.range' idx (tobinWidth c) ++
          match (sdbAnext ptr).2 with
          | none => []
          | some next => tobinWritesLoop fmt next (idx + max sizeofPtr (tobinSize c))

/-- What `sdb_fmt_tobin` writes to the structure. -/
def tobinWrites (str : Option CStr) (fmt : CStr) : List Nat :=
  match str with
  | none => []
  | some str => if str.length = 0 then [] else tobinWritesLoop fmt.val str.val 0

/-- `b`, `h`, `d`, `q`, `z`, `s` and `p`. -/
def IsLetter (c : UInt8) : Prop :=
  c = 98 ∨ c = 104 ∨ c = 100 ∨ c = 113 ∨ c = 122 ∨ c = 115 ∨ c = 112

instance (c : UInt8) : Decidable (IsLetter c) :=
  inferInstanceAs (Decidable (_ ∨ _ ∨ _ ∨ _ ∨ _ ∨ _ ∨ _))

/-- The fields that are as wide as a pointer. -/
def IsWide (c : UInt8) : Prop := c = 113 ∨ c = 122 ∨ c = 115 ∨ c = 112

instance (c : UInt8) : Decidable (IsWide c) := inferInstanceAs (Decidable (_ ∨ _ ∨ _ ∨ _))

/-! ## Nothing else of the structure counts -/

/-- Two structures have the same bytes at the offsets. -/
def AgreeOn (offs : List Nat) (p p' : Bytes) : Prop := ∀ o ∈ offs, p.getD o 0 = p'.getD o 0

theorem load_succ (n : Nat) (p : Bytes) (off : Nat) :
    load (n + 1) p off = (p.getD off 0).toNat + 256 * load n p (off + 1) := by
  rw [load, load, slice, slice]
  rcases Nat.lt_or_ge off p.length with h | h
  · rw [List.drop_eq_getElem_cons h, List.take_succ_cons, unleN, List.getD_eq_getElem _ _ h]
  · rw [List.drop_of_length_le h, List.drop_of_length_le (by omega), List.getD_eq_default _ _ h,
      List.take_nil, List.take_nil]
    rfl

theorem AgreeOn.load {p p' : Bytes} {off n : Nat} (h : AgreeOn (List.range' off n) p p') :
    Lib.load n p off = Lib.load n p' off := by
  induction n generalizing off with
  | zero =>
      rw [Lib.load, Lib.load, slice, slice, List.take_zero, List.take_zero]
  | succ n ih =>
      rw [List.range'_succ] at h
      rw [load_succ, load_succ, h off List.mem_cons_self,
        ih fun o ho ↦ h o (List.mem_cons_of_mem off ho)]

/-- A string is the same if its bytes and its NUL are. -/
theorem ofBytes_congr {l l' : Bytes} (h : ∀ i ≤ (CStr.ofBytes l).length, l.getD i 0 = l'.getD i 0) :
    CStr.ofBytes l = CStr.ofBytes l' := by
  apply CStr.ext
  change l.takeWhile (· != 0) = l'.takeWhile (· != 0)
  induction l generalizing l' with
  | nil =>
      have h0 := h 0 (Nat.zero_le _)
      cases l' with
      | nil => rfl
      | cons c' l' =>
          have hc' : c' = 0 := h0.symm
          rw [hc', List.takeWhile_cons_of_neg (by simp)]
          rfl
  | cons c l ih =>
      have h0 := h 0 (Nat.zero_le _)
      rw [List.getD_cons_zero] at h0
      by_cases hc : c = 0
      · rw [hc] at h0 ⊢
        rw [List.takeWhile_cons_of_neg (by simp)]
        cases l' with
        | nil => rfl
        | cons c' l' =>
            have hc' : c' = 0 := h0.symm
            rw [hc', List.takeWhile_cons_of_neg (by simp)]
      · cases l' with
        | nil => exact absurd h0 hc
        | cons c' l' =>
            have hc' : c' = c := h0.symm
            have hlen : (CStr.ofBytes (c :: l)).length = (CStr.ofBytes l).length + 1 := by
              change ((c :: l).takeWhile (· != 0)).length = _
              rw [List.takeWhile_cons_of_pos (by simpa using hc)]
              rfl
            rw [hc', List.takeWhile_cons_of_pos (by simpa using hc),
              List.takeWhile_cons_of_pos (by simpa using hc), ih fun i hi ↦ h (i + 1) (by omega)]

theorem tostrVal_congr {p p' : Bytes} (strs : Nat → CStr) {c : UInt8} {len : Nat}
    (h : AgreeOn (List.range' len (tostrWidth p c len)) p p') :
    tostrVal p strs c len = tostrVal p' strs c len := by
  rw [tostrWidth] at h
  simp only [tostrVal]
  split_ifs at h ⊢
  · rw [h.load]
  · rw [h.load]
  · rw [h.load]
  · rw [h.load]
  · have hstr := @ofBytes_congr (p.drop len) (p'.drop len) fun i hi ↦ by
      have hi' := h (len + i) (List.mem_range'_1.mpr ⟨by omega, by omega⟩)
      rwa [List.getD_eq_getElem?_getD, List.getD_eq_getElem?_getD, List.getElem?_drop,
        List.getElem?_drop, ← List.getD_eq_getElem?_getD, ← List.getD_eq_getElem?_getD]
    rw [hstr]
  · rw [h.load]
  · rw [h.load]
  · rfl

theorem tostrLoop_congr {p p' : Bytes} (strs : Nat → CStr) {fmt : Bytes} {len : Nat}
    (h : AgreeOn (touches tostrSize (tostrWidth p) fmt len) p p') (sb : Bytes × Nat) :
    tostrLoop p strs fmt len sb = tostrLoop p' strs fmt len sb := by
  induction fmt generalizing len sb with
  | nil => rfl
  | cons c fmt ih =>
      have hrest : (fun sb ↦ (checkedInt (len + max sizeofPtr (tostrSize c))).bind
          fun len ↦ tostrLoop p strs fmt len sb) = fun sb ↦ (checkedInt
            (len + max sizeofPtr (tostrSize c))).bind
            fun len ↦ tostrLoop p' strs fmt len sb := by
        funext sb
        refine Option.bind_congr fun next hnext ↦ ?_
        obtain ⟨rfl, -⟩ := checkedInt_eq_some_iff.mp hnext
        exact ih (fun o ho ↦ h o (List.mem_append_right _ ho)) sb
      rw [tostrLoop, tostrLoop, tostrVal_congr strs fun o ho ↦ h o (List.mem_append_left _ ho)]
      rw [hrest]

/-- **The text** depends only on what is read. -/
theorem sdbFmtTostr_congr {p p' : Bytes} (strs : Nat → CStr) {fmt : CStr}
    (h : AgreeOn (tostrReads p fmt) p p') : sdbFmtTostr p strs fmt = sdbFmtTostr p' strs fmt := by
  rw [sdbFmtTostr, sdbFmtTostr, tostrLoop_congr strs h]

theorem freeLoop_congr {p p' fmt : Bytes} {len : Nat}
    (h : AgreeOn (touches freeSize (fun c _ ↦ freeWidth c) fmt len) p p') :
    freeLoop p fmt len = freeLoop p' fmt len := by
  induction fmt generalizing len with
  | nil => rfl
  | cons c fmt ih =>
      have hfield : AgreeOn (List.range' len (freeWidth c)) p p' :=
        fun o ho ↦ h o (List.mem_append_left _ ho)
      have hrest : (checkedInt (len + max sizeofPtr (freeSize c))).bind (freeLoop p fmt) =
          (checkedInt (len + max sizeofPtr (freeSize c))).bind (freeLoop p' fmt) := by
        refine Option.bind_congr fun next hnext ↦ ?_
        obtain ⟨rfl, -⟩ := checkedInt_eq_some_iff.mp hnext
        exact ih fun o ho ↦ h o (List.mem_append_right _ ho)
      rw [freeLoop, freeLoop, hrest]
      rw [freeWidth] at hfield
      split_ifs at hfield ⊢
      · rw [hfield.load]
      · rfl

/-- **What is freed** depends only on what is read. -/
theorem sdbFmtFree_congr {p p' : Bytes} {fmt : CStr} (h : AgreeOn (freeReads fmt) p p') :
    sdbFmtFree p fmt = sdbFmtFree p' fmt := freeLoop_congr h

theorem getD_store {m b : Bytes} {off o : Nat} (h : off + b.length ≤ m.length)
    (ho : o ∉ List.range' off b.length) : (store m off b).getD o 0 = m.getD o 0 := by
  have htake : (m.take off).length = off := List.length_take_of_le (by omega)
  rw [List.mem_range'_1, not_and_or] at ho
  rw [store, List.append_assoc, List.getD_eq_getElem?_getD, List.getD_eq_getElem?_getD]
  rcases Nat.lt_or_ge o off with hlt | hge
  · rw [List.getElem?_append_left (by omega), List.getElem?_take_of_lt hlt]
  · rw [List.getElem?_append_right (by omega), List.getElem?_append_right (by omega),
      List.getElem?_drop, htake]
    congr 2
    omega

/-- A field is stored where it belongs. -/
theorem tobinField_stru (c : UInt8) (word : Bytes) (idx : Nat) (m : FmtMem) :
    ∃ b : Bytes, b.length = tobinWidth c ∧ (tobinField c word idx m).stru = store m.stru idx b := by
  rw [tobinField, tobinWidth]
  split_ifs
  · exact ⟨_, length_leN 1 _, rfl⟩
  · exact ⟨_, length_leN 4 _, rfl⟩
  · exact ⟨_, length_leN 8 _, rfl⟩
  · exact ⟨_, length_leN 2 _, rfl⟩
  · split
    · exact ⟨_, length_leN 8 _, rfl⟩
    · exact ⟨_, length_leN 8 _, rfl⟩
  · exact ⟨_, length_leN 8 _, rfl⟩
  · exact ⟨_, length_leN 8 _, rfl⟩
  · refine ⟨[], rfl, ?_⟩
    rw [store, List.append_nil, List.length_nil, Nat.add_zero, List.take_append_drop]

theorem tobinLoop_frame {fmt ptr : Bytes} {idx o : Nat} {m : FmtMem}
    (hroom : ∀ a ∈ tobinWritesLoop fmt ptr idx, a < m.stru.length)
    (ho : o ∉ tobinWritesLoop fmt ptr idx) {r : Nat × FmtMem}
    (hr : tobinLoop fmt ptr idx m = some r) : r.2.stru.getD o 0 = m.stru.getD o 0 := by
  induction fmt generalizing ptr idx m r with
  | nil =>
      cases hr
      rfl
  | cons c fmt ih =>
      rw [tobinWritesLoop] at hroom ho
      rw [tobinLoop] at hr
      by_cases hword : (sdbAnext ptr).1 = []
      · rw [if_pos hword] at hr
        cases hr
        rfl
      · rw [if_neg hword] at hroom ho hr
        rw [List.mem_append, not_or] at ho
        obtain ⟨b, hb, hstru⟩ := tobinField_stru c (sdbAnext ptr).1 idx m
        have hfield : (tobinField c (sdbAnext ptr).1 idx m).stru.getD o 0 = m.stru.getD o 0 ∧
            (tobinField c (sdbAnext ptr).1 idx m).stru.length = m.stru.length := by
          rw [hstru]
          by_cases hnil : b = []
          · subst hnil
            rw [store, List.append_nil, List.length_nil, Nat.add_zero, List.take_append_drop]
            exact ⟨rfl, rfl⟩
          · have hpos := List.length_pos_of_ne_nil hnil
            have hlast := hroom (idx + b.length - 1)
              (List.mem_append_left _ (List.mem_range'_1.mpr ⟨by omega, by omega⟩))
            exact ⟨getD_store (by omega) (hb ▸ ho.1), length_store (by omega)⟩
        obtain ⟨idx', hidx, hr⟩ := Option.bind_eq_some_iff.mp hr
        obtain ⟨rfl, -⟩ := checkedInt_eq_some_iff.mp hidx
        cases hnext : (sdbAnext ptr).2 with
        | none =>
            simp only [hnext] at hr
            cases hr
            exact hfield.1
        | some next =>
            simp only [hnext] at hroom ho hr
            obtain ⟨r', hr', rfl⟩ := Option.map_eq_some_iff.mp hr
            rw [ih (fun a ha ↦ hfield.2 ▸ hroom a (List.mem_append_right _ ha)) ho.2 hr', hfield.1]

/-- **Nothing else is changed** in a structure that has room for what is written. -/
theorem sdbFmtTobin_frame {str : Option CStr} {fmt : CStr} {m : FmtMem} {o : Nat}
    (hroom : ∀ a ∈ tobinWrites str fmt, a < m.stru.length) (ho : o ∉ tobinWrites str fmt)
    {r : Nat × FmtMem} (hr : sdbFmtTobin str fmt m = some r) :
    r.2.stru.getD o 0 = m.stru.getD o 0 := by
  cases str with
  | none =>
      cases hr
      rfl
  | some str =>
      rw [sdbFmtTobin] at hr
      rw [tobinWrites] at hroom ho
      by_cases hlen : str.length = 0
      · rw [if_pos hlen] at hr
        cases hr
        rfl
      · rw [if_neg hlen] at hroom ho hr
        exact tobinLoop_frame hroom ho hr

/-! ## The bound -/

/-- What is touched of each field lies behind where it begins. -/
theorem mem_touches {size : UInt8 → Nat} {width : UInt8 → Nat → Nat}
    (hsize : ∀ c, max sizeofPtr (size c) = 8) {fmt : Bytes} {len o : Nat} :
    o ∈ touches size width fmt len ↔ ∃ i c, fmt[i]? = some c ∧ len + 8 * i ≤ o ∧
      o < len + 8 * i + width c (len + 8 * i) := by
  induction fmt generalizing len with
  | nil =>
      refine iff_of_false List.not_mem_nil ?_
      rintro ⟨i, c, hc, -⟩
      cases hc
  | cons c fmt ih =>
      rw [touches, List.mem_append, List.mem_range'_1, hsize, ih]
      constructor
      · rintro (h | ⟨i, d, hd, hlo, hhi⟩)
        · exact ⟨0, c, rfl, h⟩
        · have heq : len + 8 * (i + 1) = len + 8 + 8 * i := by omega
          exact ⟨i + 1, d, hd, by rw [heq]; exact hlo, by rw [heq]; exact hhi⟩
      · rintro ⟨i, d, hd, hlo, hhi⟩
        cases i with
        | zero =>
            cases hd
            exact .inl ⟨hlo, hhi⟩
        | succ i =>
            have heq : len + 8 * (i + 1) = len + 8 + 8 * i := by omega
            rw [heq] at hlo hhi
            exact .inr ⟨i, d, hd, hlo, hhi⟩

theorem freeSize_le (c : UInt8) : max sizeofPtr (freeSize c) = 8 := by
  rw [freeSize]
  split
  · rfl
  · rfl

/-- What `sdb_fmt_tobin` writes lies in the fields. -/
theorem of_mem_tobinWritesLoop {fmt ptr : Bytes} {idx o : Nat}
    (h : o ∈ tobinWritesLoop fmt ptr idx) :
    ∃ i c, fmt[i]? = some c ∧ idx + 8 * i ≤ o ∧ o < idx + 8 * i + tobinWidth c := by
  induction fmt generalizing ptr idx with
  | nil => cases h
  | cons c fmt ih =>
      rw [tobinWritesLoop] at h
      split at h
      · cases h
      · rcases List.mem_append.mp h with h | h
        · exact ⟨0, c, rfl, List.mem_range'_1.mp h⟩
        · split at h
          · cases h
          · rw [tobinSize_le] at h
            obtain ⟨i, d, hd, hlo, hhi⟩ := ih h
            exact ⟨i + 1, d, hd, by omega, by omega⟩

/-- The size is the sum of the sizes of the fields. -/
theorem initLoop_eq (fmt : Bytes) {len : Nat} (hlen : len ≤ intMax) :
    initLoop fmt len = checkedInt (len + (fmt.map initSize).sum) := by
  induction fmt generalizing len with
  | nil => exact (checkedInt_of_le hlen).symm
  | cons c fmt ih =>
      rw [initLoop, List.map_cons, List.sum_cons, ← Nat.add_assoc]
      refine checkedInt_bind (fun hle ↦ ih hle) fun hlt ↦ checkedInt_of_lt (by omega)

/-- `sdb_fmt_free` has a result if its offsets have. -/
theorem isSome_freeLoop (stru fmt : Bytes) {len : Nat} (hlen : len ≤ intMax) :
    (freeLoop stru fmt len).isSome ↔ len + 8 * fmt.length ≤ intMax := by
  induction fmt generalizing len with
  | nil => exact iff_of_true rfl hlen
  | cons c fmt ih =>
      rw [freeLoop, Option.isSome_map, freeSize_le, List.length_cons]
      rcases Nat.lt_or_ge intMax (len + 8) with hlt | hle
      · rw [checkedInt_of_lt hlt]
        exact iff_of_false Bool.false_ne_true (by omega)
      · rw [checkedInt_of_le hle, Option.bind_some, ih hle]
        omega

theorem initSize_le (c : UInt8) : initSize c ≤ 8 := by
  rw [initSize, sizeofPtr]
  split_ifs <;> omega

theorem sum_initSize_le (fmt : Bytes) : (fmt.map initSize).sum ≤ 8 * fmt.length := by
  induction fmt with
  | nil => exact Nat.zero_le _
  | cons c fmt ih =>
      have hc := initSize_le c
      rw [List.map_cons, List.sum_cons, List.length_cons]
      omega

theorem sum_initSize_eq_iff (fmt : Bytes) :
    (fmt.map initSize).sum = 8 * fmt.length ↔ ∀ c ∈ fmt, initSize c = 8 := by
  induction fmt with
  | nil => simp
  | cons c fmt ih =>
      have hc := initSize_le c
      have hsum := sum_initSize_le fmt
      rw [List.map_cons, List.sum_cons, List.length_cons, List.forall_mem_cons, ← ih]
      omega

/-- **The fields fit** exactly if all but the last one are as wide as a pointer. -/
theorem fields_fit_iff (fmt : Bytes) :
    (∀ i c, fmt[i]? = some c → 8 * i + initSize c ≤ (fmt.map initSize).sum) ↔
      ∀ c ∈ fmt.dropLast, initSize c = 8 := by
  rcases List.eq_nil_or_concat' fmt with rfl | ⟨D, d, rfl⟩
  · refine iff_of_true (fun i c hc ↦ ?_) fun c hc ↦ ?_
    · cases hc
    · cases hc
  · rw [List.dropLast_concat, ← sum_initSize_eq_iff, List.map_append, List.sum_append,
      List.map_singleton, List.sum_singleton]
    have hsum := sum_initSize_le D
    constructor
    · intro h
      have hlast := h D.length d
          (by rw [List.getElem?_append_right (Nat.le_refl _), Nat.sub_self]; rfl)
      omega
    · intro h i c hc
      rcases Nat.lt_or_ge i D.length with hi | hi
      · have hw := initSize_le c
        omega
      · rw [List.getElem?_append_right hi, List.getElem?_singleton] at hc
        split at hc
        · cases hc
          omega
        · cases hc

theorem IsLetter.initSize_iff {c : UInt8} (hc : IsLetter c) : initSize c = 8 ↔ IsWide c := by
  rcases hc with rfl | rfl | rfl | rfl | rfl | rfl | rfl <;> decide

theorem IsLetter.tobinWidth_eq {c : UInt8} (hc : IsLetter c) : tobinWidth c = initSize c := by
  rcases hc with rfl | rfl | rfl | rfl | rfl | rfl | rfl <;> rfl

theorem IsLetter.tostrWidth_eq {c : UInt8} (hc : IsLetter c) (hz : c ≠ 122) (p : Bytes)
    (len : Nat) :
    tostrWidth p c len = initSize c := by
  rcases hc with rfl | rfl | rfl | rfl | rfl | rfl | rfl
  · rfl
  · rfl
  · rfl
  · rfl
  · exact absurd rfl hz
  · rfl
  · rfl

theorem freeWidth_le (c : UInt8) : freeWidth c ≤ initSize c := by
  rw [freeWidth]
  split
  · next h => rcases h with rfl | rfl <;> decide
  · exact Nat.zero_le _

/-- The offsets that the functions touch. -/
def Touched (p : Bytes) (str : Option CStr) (fmt : CStr) (o : Nat) : Prop :=
  o ∈ tostrReads p fmt ∨ o ∈ tobinWrites str fmt ∨ o ∈ freeReads fmt

/-- The byte behind the text at an offset is its NUL, and the ones in it are not. -/
theorem getD_ofBytes (p : Bytes) (len : Nat) :
    p.getD (len + (CStr.ofBytes (p.drop len)).length) 0 = 0 ∧ ∀ o, len ≤ o → p.getD o 0 = 0 →
      len + (CStr.ofBytes (p.drop len)).length ≤ o := by
  have hdrop : ∀ i, p.getD (len + i) 0 = (p.drop len).getD i 0 := fun i ↦ by
    rw [List.getD_eq_getElem?_getD, List.getD_eq_getElem?_getD, List.getElem?_drop]
  have hlen : (CStr.ofBytes (p.drop len)).length = ((p.drop len).takeWhile (· != 0)).length := rfl
  have hstr : ∀ l : Bytes, l.getD (l.takeWhile (· != 0)).length 0 = 0 ∧
      ∀ i, l.getD i 0 = 0 → (l.takeWhile (· != 0)).length ≤ i := fun l ↦ by
    induction l with
    | nil => exact ⟨rfl, fun i _ ↦ Nat.zero_le i⟩
    | cons c l ih =>
        by_cases hc : c = 0
        · rw [List.takeWhile_cons_of_neg (by simpa using hc)]
          exact ⟨hc, fun i _ ↦ Nat.zero_le i⟩
        · rw [List.takeWhile_cons_of_pos (by simpa using hc), List.length_cons, List.getD_cons_succ]
          refine ⟨ih.1, fun i hi ↦ ?_⟩
          cases i with
          | zero => exact absurd hi hc
          | succ i => exact Nat.succ_le_succ (ih.2 i hi)
  rw [hdrop, hlen]
  refine ⟨(hstr _).1, fun o ho h0 ↦ ?_⟩
  obtain ⟨i, rfl⟩ := Nat.exists_eq_add_of_le ho
  rw [hdrop] at h0
  have hle := (hstr _).2 i h0
  omega

/-- The structure has a size, its offsets are numbers, and what is touched lies below the size. -/
def Bounded (p : Bytes) (str : Option CStr) (fmt : CStr) : Prop :=
  ∃ r, sdbFmtInit (some p) fmt = some r ∧ (sdbFmtFree p fmt).isSome ∧ ∀ o, Touched p str fmt o →
    o < r.1

/-- The last byte of the size of a field is touched. -/
theorem touched_last {fmt : CStr} (p : Bytes) (str : Option CStr) {i : Nat} {c : UInt8}
    (hc : fmt.val[i]? = some c) (hletter : IsLetter c) :
    Touched p str fmt (8 * i + initSize c - 1) := by
  have hpos : 0 < initSize c := by
    rcases hletter with rfl | rfl | rfl | rfl | rfl | rfl | rfl <;> decide
  by_cases hz : c = 122
  · right
    right
    refine (mem_touches freeSize_le).mpr ⟨i, c, hc, by omega, ?_⟩
    subst hz
    change _ < 0 + 8 * i + 8
    have h8 : initSize 122 = 8 := rfl
    omega
  · left
    refine (mem_touches tostrSize_le).mpr ⟨i, c, hc, by omega, ?_⟩
    rw [hletter.tostrWidth_eq hz]
    omega

/-- **The fields fit in the sum of their sizes** exactly if every one but the last is as wide as a
pointer, and the text at each `z` ends before. -/
theorem touched_lt_iff {fmt : CStr} (hfmt : ∀ c ∈ fmt.val, IsLetter c) (p : Bytes)
    (str : Option CStr) : (∀ o, Touched p str fmt o → o < (fmt.val.map initSize).sum) ↔
      (∀ c ∈ fmt.val.dropLast, IsWide c) ∧
        ∀ i, fmt.val[i]? = some 122 → ∃ o, 8 * i ≤ o ∧ o < (fmt.val.map initSize).sum ∧
          p.getD o 0 = 0 := by
  have hletter : ∀ {i c}, fmt.val[i]? = some c → IsLetter c :=
    fun h ↦ hfmt _ (List.mem_of_getElem? h)
  have hwide : (∀ c ∈ fmt.val.dropLast, IsWide c) ↔ ∀ c ∈ fmt.val.dropLast, initSize c = 8 :=
    forall₂_congr fun c hc ↦ (hfmt c (List.dropLast_subset _ hc)).initSize_iff.symm
  rw [hwide, ← fields_fit_iff]
  constructor
  · intro h
    refine ⟨fun i c hc ↦ ?_, fun i hz ↦ ?_⟩
    · have hlt := h _ (touched_last p str hc (hletter hc))
      omega
    · have hmem : 8 * i + (CStr.ofBytes (p.drop (8 * i))).length ∈ tostrReads p fmt := by
        refine (mem_touches tostrSize_le).mpr ⟨i, 122, hz, by omega, ?_⟩
        rw [Nat.zero_add]
        exact Nat.lt_succ_self _
      exact ⟨_, Nat.le_add_right _ _, h _ (.inl hmem), (getD_ofBytes p (8 * i)).1⟩
  · rintro ⟨hfit, htext⟩ o (ho | ho | ho)
    · obtain ⟨i, c, hc, -, hhi⟩ := (mem_touches tostrSize_le).mp ho
      rw [Nat.zero_add] at hhi
      by_cases hz : c = 122
      · subst hz
        obtain ⟨a, hia, ha, h0⟩ := htext i hc
        have hle := (getD_ofBytes p (8 * i)).2 a hia h0
        have hwidth : tostrWidth p 122 (8 * i) = (CStr.ofBytes (p.drop (8 * i))).length + 1 := rfl
        omega
      · rw [(hletter hc).tostrWidth_eq hz] at hhi
        exact Nat.lt_of_lt_of_le hhi (hfit i c hc)
    · cases str with
      | none => cases ho
      | some str =>
          rw [tobinWrites] at ho
          split at ho
          · cases ho
          · obtain ⟨i, c, hc, -, hhi⟩ := of_mem_tobinWritesLoop ho
            rw [(hletter hc).tobinWidth_eq, Nat.zero_add] at hhi
            exact Nat.lt_of_lt_of_le hhi (hfit i c hc)
    · obtain ⟨i, c, hc, -, hhi⟩ := (mem_touches freeSize_le).mp ho
      have hle := freeWidth_le c
      have hfield := hfit i c hc
      omega

/-- **The size is enough** exactly if the format is so short that its offsets are numbers in an
`int`, every field but the last is as wide as a pointer, and the text at each `z` ends in the
structure.  Nothing else of the structure counts, or is changed. -/
theorem sdbFmtInit_bounds_iff {fmt : CStr} (hfmt : ∀ c ∈ fmt.val, IsLetter c) (p : Bytes)
    (str : Option CStr) :
    (Bounded p str fmt ↔ 8 * fmt.length ≤ 2147483647 ∧ (∀ c ∈ fmt.val.dropLast, IsWide c) ∧
      ∀ i, fmt.val[i]? = some 122 → ∃ o, 8 * i ≤ o ∧ o < (fmt.val.map initSize).sum ∧
        p.getD o 0 = 0) ∧ (∀ p', AgreeOn (tostrReads p fmt) p p' →
          ∀ strs, sdbFmtTostr p strs fmt = sdbFmtTostr p' strs fmt) ∧
      (∀ p', AgreeOn (freeReads fmt) p p' → sdbFmtFree p fmt = sdbFmtFree p' fmt) ∧
      ∀ m r o, (∀ a ∈ tobinWrites str fmt, a < m.stru.length) → o ∉ tobinWrites str fmt →
        sdbFmtTobin str fmt m = some r → r.2.stru.getD o 0 = m.stru.getD o 0 := by
  refine ⟨?_, fun p' hagree strs ↦ sdbFmtTostr_congr strs hagree,
    fun p' hagree ↦ sdbFmtFree_congr hagree, fun m r o hroom ho hr ↦ sdbFmtTobin_frame hroom ho hr⟩
  have hinit := initLoop_eq fmt.val (Nat.zero_le intMax)
  rw [Nat.zero_add] at hinit
  have hfree : (sdbFmtFree p fmt).isSome ↔ 8 * fmt.length ≤ 2147483647 := by
    refine (isSome_freeLoop p fmt.val (Nat.zero_le intMax)).trans ?_
    rw [Nat.zero_add]
    exact Iff.rfl
  rw [← touched_lt_iff hfmt p str]
  constructor
  · rintro ⟨r, hr, hsome, hlt⟩
    obtain ⟨len, hlen, rfl⟩ := Option.map_eq_some_iff.mp hr
    rw [hinit] at hlen
    obtain ⟨rfl, -⟩ := checkedInt_eq_some_iff.mp hlen
    exact ⟨hfree.mp hsome, hlt⟩
  · rintro ⟨hshort, hlt⟩
    have hle : (fmt.val.map initSize).sum ≤ intMax := (sum_initSize_le fmt.val).trans hshort
    refine ⟨((fmt.val.map initSize).sum, some (List.replicate (fmt.val.map initSize).sum 0 ++
      p.drop (fmt.val.map initSize).sum)), ?_, hfree.mpr hshort, hlt⟩
    rw [sdbFmtInit, hinit, checkedInt_of_le hle]
    rfl

/-- The size of `sqz` is enough, for a structure with a pointer, a number and a short text, and for
a text of three words. -/
theorem sdbFmtInit_bounds_sqz : (∀ c ∈ (CStr.ofBytes [115, 113, 122]).val, IsLetter c) ∧
    Bounded (leN 8 16 ++ leN 8 7 ++ [111, 107, 0])
      (some (CStr.ofBytes [97, 71, 107, 61, 44, 55, 44, 49]))
      (CStr.ofBytes [115, 113, 122]) := by
  have hletters : ∀ c ∈ (CStr.ofBytes [115, 113, 122]).val, IsLetter c :=
    List.forall_mem_cons.mpr ⟨by decide, List.forall_mem_cons.mpr ⟨by decide,
      List.forall_mem_singleton.mpr (by decide)⟩⟩
  refine ⟨hletters, (sdbFmtInit_bounds_iff hletters _ _).1.mpr ⟨by decide, ?_, fun i hi ↦ ?_⟩⟩
  · exact List.forall_mem_cons.mpr ⟨by decide, List.forall_mem_singleton.mpr (by decide)⟩
  · obtain _ | _ | _ | i := i
    · exact absurd hi (by decide)
    · exact absurd hi (by decide)
    · exact ⟨18, by decide, by decide, by decide⟩
    · cases hi

/-- The size of `bq` is 9, and the number is read at the offset 8. -/
theorem not_sdbFmtInit_bounds : (∀ c ∈ (CStr.ofBytes [98, 113]).val, IsLetter c) ∧
    ¬ Bounded (List.replicate 16 0) none (CStr.ofBytes [98, 113]) := by
  refine ⟨List.forall_mem_cons.mpr ⟨by decide, List.forall_mem_singleton.mpr (by decide)⟩, ?_⟩
  rintro ⟨r, hr, -, hlt⟩
  have hsize : sdbFmtInit (some (List.replicate 16 0)) (CStr.ofBytes [98, 113]) =
      some (9, some (List.replicate 16 0)) := by decide
  obtain rfl := Option.some.inj (hr.symm.trans hsize)
  exact absurd (hlt 15 (.inl (by decide))) (by decide)

end SdbStore.Fmt
