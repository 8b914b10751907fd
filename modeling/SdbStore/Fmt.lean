import SdbStore.Array.SortedNum
import SdbStore.Base64
import SdbStore.Lib.Checked
import SdbStore.Lib.Fields
import SdbStore.Lib.Words
import SdbStore.NumLaws

/-!
# Structures as text

`fmt.c` writes the fields of a structure behind one another into a text, separated by commas, and
reads them again.  Every field takes as much room as a pointer.  A field without a rendering is left
out of the text, with its comma.

The offsets of the fields, and the length and the size of the text, are numbers in an `int`: where
one of them overflows there is no result.
-/

namespace SdbStore.Fmt

open Lib

/-! ## The code -/

/-- `sizeof (void*)`. -/
def sizeofPtr : Nat := 8

/-- What `malloc` has handed out, and the structure: its bytes, the strings that pointers point to,
and the blocks that `malloc` returns next. -/
structure FmtMem where
  stru : Bytes
  strs : Nat → CStr
  blocks : List Nat

/-- A number of `n` bytes with its sign. -/
def signed (n v : Nat) : Int := if 2 * v < 256 ^ n then v else v - 256 ^ n

/-- The string behind a pointer. -/
def pointee (strs : Nat → CStr) (ptr : Nat) : Option Bytes :=
  if ptr = 0 then none else some (strs ptr).bytesZ

/-- The text `val` of `sdb_fmt_tostr` for the field at `len`. -/
def tostrVal (p : Bytes) (strs : Nat → CStr) (c : UInt8) (len : Nat) : Option Bytes :=
  if c = 98 then some (sdbItoa (UInt64.ofNat (load 1 p len)) 10)
  else if c = 104 then some (sdbItoa (ofInt (signed 2 (load 2 p len))) 10)
  else if c = 100 then some (sdbItoa (ofInt (signed 4 (load 4 p len))) 10)
  else if c = 113 then some (sdbItoa (UInt64.ofNat (load 8 p len)) 10)
  else if c = 122 then some (CStr.ofBytes (p.drop len)).val
  else if c = 115 then (sdbEncode (pointee strs (load 8 p len)) (-1)).map (·.val)
  else if c = 112 then some (sdbItoa (UInt64.ofNat (load 8 p len)) 16)
  else none

/-- The size of a field in `sdb_fmt_tostr`. -/
def tostrSize (c : UInt8) : Nat := if c = 113 ∨ c = 112 then 8 else 4

/-- The length and the size of a `StrBuf` behind `strbuf_append` with a string of length `n`. -/
def appendSize (sb : Nat × Nat) (n : Nat) : Option (Nat × Nat) :=
  (checkedInt (sb.1 + n + 2)).bind fun need ↦
    if sb.2 ≤ need then (checkedInt (sb.2 + n + 256)).map fun size ↦ (sb.1 + n, size)
    else some (sb.1 + n, sb.2)

/-- `strbuf_append` without a newline, to a text with the size of its memory. -/
def strbufAppend (sb : Bytes × Nat) (str : Bytes) : Option (Bytes × Nat) :=
  (appendSize (sb.1.length, sb.2) str.length).map fun r ↦ (sb.1 ++ str, r.2)

/-- The loop of `sdb_fmt_tostr`. -/
def tostrLoop (p : Bytes) (strs : Nat → CStr) : Bytes → Nat → Bytes × Nat → Option (Bytes × Nat)
  | [], _, sb => some sb
  | c :: fmt, len, sb =>
      let val := (tostrVal p strs c len).getD []
      (if val = [] then some sb
        else (if 0 < sb.1.length then strbufAppend sb [sdbRs] else some sb).bind
          (strbufAppend · val)).bind fun sb ↦
        (checkedInt (len + max sizeofPtr (tostrSize c))).bind fun len ↦ tostrLoop p strs fmt len sb

/-- `sdb_fmt_tostr`. -/
def sdbFmtTostr (p : Bytes) (strs : Nat → CStr) (fmt : CStr) : Option (Option CStr) :=
  (tostrLoop p strs fmt.val 0 ([], 0)).map fun sb ↦ if sb.1 = [] then none
    else some (CStr.ofBytes sb.1)

/-- `sdb_anext`: the first element of a text, and what follows its comma. -/
def sdbAnext (str : Bytes) : Bytes × Option Bytes :=
  (str.takeWhile (· != sdbRs), (str.dropWhile (· != sdbRs)).tail?)

/-- A block with a string. -/
def FmtMem.strdup (m : FmtMem) (idx : Nat) (s : CStr) : FmtMem :=
  let ptr := m.blocks.headD 0
  ⟨store m.stru idx (leN 8 ptr), Function.update m.strs ptr s, m.blocks.tail⟩

/-- A number is written into the structure. -/
def FmtMem.number (m : FmtMem) (n idx : Nat) (v : UInt64) : FmtMem :=
  { m with stru := store m.stru idx (leN n v.toNat) }

/-- What `sdb_fmt_tobin` does with a word. -/
def tobinField (c : UInt8) (word : Bytes) (idx : Nat) (m : FmtMem) : FmtMem :=
  if c = 98 then m.number 1 idx (sdbAtoi (some word))
  else if c = 100 then m.number 4 idx (sdbAtoi (some word))
  else if c = 113 then m.number 8 idx (sdbAtoi (some word))
  else if c = 104 then m.number 2 idx (sdbAtoi (some word))
  else if c = 115 then
    match sdbDecode (some (CStr.ofBytes word)) with
    | some r => m.strdup idx (CStr.ofBytes r.1)
    | none => m.strdup idx (CStr.ofBytes word)
  else if c = 122 then m.strdup idx (CStr.ofBytes word)
  else if c = 112 then m.number 8 idx (sdbAtoi (some word))
  else m

/-- The size of a field in `sdb_fmt_tobin`. -/
def tobinSize (c : UInt8) : Nat := if c = 113 then 8 else 4

/-- The loop of `sdb_fmt_tobin`: how many items there are, and the memory. -/
def tobinLoop : Bytes → Bytes → Nat → FmtMem → Option (Nat × FmtMem)
  | [], _, _, m => some (0, m)
  | c :: fmt, ptr, idx, m =>
      let word := (sdbAnext ptr).1
      if word = [] then some (0, m)
      else
        let m := tobinField c word idx m
        (checkedInt (idx + max sizeofPtr (tobinSize c))).bind fun idx ↦
          match (sdbAnext ptr).2 with
          | none => some (1, m)
          | some next => (tobinLoop fmt next idx m).map fun r ↦ (r.1 + 1, r.2)

/-- `sdb_fmt_tobin`. -/
def sdbFmtTobin (str : Option CStr) (fmt : CStr) (m : FmtMem) : Option (Nat × FmtMem) :=
  match str with
  | none => some (0, m)
  | some str => if str.length = 0 then some (0, m) else tobinLoop fmt.val str.val 0 m

/-! ## The fields of a structure -/

/-- What a field can hold. -/
inductive FieldValue
  | num (n : Nat)
  | text (s : CStr)

/-- How many bytes of a field count. -/
def fieldWidth (c : UInt8) : Nat :=
  if c = 98 then 1 else if c = 104 then 2 else if c = 100 then 4 else 8

/-- What the field at an offset holds. -/
def fieldValue (stru : Bytes) (strs : Nat → CStr) (c : UInt8) (off : Nat) : FieldValue :=
  if c = 115 then .text (strs (load 8 stru off)) else .num (load (fieldWidth c) stru off)

/-- Every field is there, and has got its value back. -/
def RoundTrips (p : Bytes) (strs : Nat → CStr) (fmt : CStr) (m : FmtMem) : Prop :=
  ∃ text r, sdbFmtTostr p strs fmt = some text ∧ sdbFmtTobin text fmt m = some r ∧
    r.1 = fmt.length ∧ ∀ i c, fmt.val[i]? = some c →
      fieldValue r.2.stru r.2.strs c (8 * i) = fieldValue p strs c (8 * i)

/-- `b`, `h`, `d`, `q` and `p`. -/
def IsNumber (c : UInt8) : Prop := c = 98 ∨ c = 104 ∨ c = 100 ∨ c = 113 ∨ c = 112

instance (c : UInt8) : Decidable (IsNumber c) := inferInstanceAs (Decidable (_ ∨ _ ∨ _ ∨ _ ∨ _))

/-- The structures are laid out for the format: the pointers of the one point to strings, and the
other has room for the fields, as `malloc` has for the strings. -/
structure LaidOut (p : Bytes) (fmt : CStr) (m : FmtMem) : Prop where
  letters : ∀ c ∈ fmt.val, c = 115 ∨ IsNumber c
  pointers : ∀ i, fmt.val[i]? = some 115 → load 8 p (8 * i) ≠ 0
  room : 8 * fmt.length ≤ m.stru.length
  nodup : m.blocks.Nodup
  blocks : ∀ a ∈ m.blocks, 0 < a ∧ a < 2 ^ 64
  enough : fmt.val.count 115 ≤ m.blocks.length

/-- The strings that base64 can write: `3 * ilen + 16` has to be below `2 ^ 32` in the decoder. -/
def Encodable (s : CStr) : Prop := 0 < s.length ∧ s.length ≤ 1073741817

/-- The renderings of the fields from an offset on. -/
def renderings (p : Bytes) (strs : Nat → CStr) : Bytes → Nat → List Bytes
  | [], _ => []
  | c :: fmt, len => (tostrVal p strs c len).getD [] :: renderings p strs fmt (len + 8)

/-- The length and the size of the `StrBuf` behind one more rendering, with its comma. -/
def renderSize (sb : Nat × Nat) (n : Nat) : Option (Nat × Nat) :=
  if n = 0 then some sb else (if 0 < sb.1 then appendSize sb 1 else some sb).bind (appendSize · n)

/-- The length and the size of the `StrBuf` behind the renderings, of which there are the
lengths. -/
def bufferSizes : List Nat → Nat × Nat → Option (Nat × Nat)
  | [], sb => some sb
  | n :: ns, sb => (renderSize sb n).bind (bufferSizes ns)

/-- No `int` overflows: neither the offsets, nor the length and the size of the text. -/
structure InRange (p : Bytes) (strs : Nat → CStr) (fmt : CStr) : Prop where
  offsets : 8 * fmt.length ≤ intMax
  buffer : (bufferSizes ((renderings p strs fmt.val 0).map List.length) (0, 0)).isSome

/-! ## A number and back -/

theorem tostrSize_le (c : UInt8) : max sizeofPtr (tostrSize c) = 8 := by
  rw [tostrSize]
  split
  · rfl
  · rfl

theorem tobinSize_le (c : UInt8) : max sizeofPtr (tobinSize c) = 8 := by
  rw [tobinSize]
  split
  · rfl
  · rfl

theorem toNat_ofInt (n : Int) : ((ofInt n).toNat : Int) = n % 2 ^ 64 := by
  rw [ofInt, UInt64.toNat_ofNat']
  omega

/-- A number with its sign is the number modulo its size. -/
theorem toNat_ofInt_signed {n v : Nat} (hn : n = 2 ∨ n = 4) (hv : v < 256 ^ n) :
    (ofInt (signed n v)).toNat % 256 ^ n = v := by
  have hint := toNat_ofInt (signed n v)
  have hcases : signed n v = v ∨ signed n v = v - 256 ^ n := by
    rw [signed]
    split
    · exact .inl rfl
    · exact .inr rfl
  generalize signed n v = k at hint hcases
  rcases hn with rfl | rfl
  · omega
  · omega

/-- The text of a number. -/
theorem tostrVal_number {c : UInt8} (hc : IsNumber c) (p : Bytes) (strs : Nat → CStr) (len : Nat) :
    ∃ v base, (base = 10 ∨ base = 16) ∧ tostrVal p strs c len = some (sdbItoa v base) ∧
      v.toNat % 256 ^ fieldWidth c = load (fieldWidth c) p len := by
  have hload : ∀ n ≤ 8, (UInt64.ofNat (load n p len)).toNat % 256 ^ n = load n p len := by
    intro n hn
    have hlt := load_lt n p len
    have hle : 256 ^ n ≤ 256 ^ 8 := Nat.pow_le_pow_right (by decide) hn
    have hnat : (UInt64.ofNat (load n p len)).toNat = load n p len :=
      UInt64.toNat_ofNat_of_lt' (Nat.lt_of_lt_of_le hlt hle)
    rw [hnat, Nat.mod_eq_of_lt hlt]
  rcases hc with rfl | rfl | rfl | rfl | rfl
  · exact ⟨_, 10, .inl rfl, rfl, hload 1 (by decide)⟩
  · exact ⟨_, 10, .inl rfl, rfl, toNat_ofInt_signed (.inl rfl) (load_lt 2 p len)⟩
  · exact ⟨_, 10, .inl rfl, rfl, toNat_ofInt_signed (.inr rfl) (load_lt 4 p len)⟩
  · exact ⟨_, 10, .inl rfl, rfl, hload 8 (by decide)⟩
  · exact ⟨_, 16, .inr rfl, rfl, hload 8 (by decide)⟩

theorem tobinField_number {c : UInt8} (hc : IsNumber c) (word : Bytes) (idx : Nat) (m : FmtMem) :
    tobinField c word idx m = m.number (fieldWidth c) idx (sdbAtoi (some word)) := by
  rcases hc with rfl | rfl | rfl | rfl | rfl
  · rfl
  · rfl
  · rfl
  · rfl
  · rfl

/-! ## A string and back -/

/-- The string that a word is read as. -/
def wordText (word : Bytes) : CStr :=
  match sdbDecode (some (CStr.ofBytes word)) with
  | some r => CStr.ofBytes r.1
  | none => CStr.ofBytes word

theorem tobinField_text (word : Bytes) (idx : Nat) (m : FmtMem) :
    tobinField 115 word idx m = m.strdup idx (wordText word) := by
  rw [wordText]
  change (match sdbDecode (some (CStr.ofBytes word)) with
    | some r => m.strdup idx (CStr.ofBytes r.1)
    | none => m.strdup idx (CStr.ofBytes word)) = _
  split
  · rfl
  · rfl

/-- The text of a string, of which `sdb_encode` sees as much as an `int` says. -/
def textWord (s : CStr) : Bytes :=
  if intOfSize s.length < 1073741820 then sdbEncodeRaw s.bytesZ (intOfSize s.length).toNat else []

theorem tostrVal_text {p : Bytes} {strs : Nat → CStr} {len : Nat} (hptr : load 8 p len ≠ 0) :
    (tostrVal p strs 115 len).getD [] = textWord (strs (load 8 p len)) := by
  change ((sdbEncode (pointee strs (load 8 p len)) (-1)).map (·.val)).getD [] = _
  simp only [sdbEncode, pointee, if_neg hptr, CStr.ofBytes_bytesZ,
    show (-1 : Int) < 0 from by decide, if_true, textWord]
  split
  · next h =>
      rw [h, sdbEncodeRaw]
      rfl
  · split
    · rw [if_neg (by omega)]
      rfl
    · rw [if_pos (by omega), Option.map_some,
        CStr.ofBytes_append_zero (zero_not_mem_sdbEncodeRaw _ _),
        CStr.ofBytes_val ⟨_, zero_not_mem_sdbEncodeRaw _ _⟩]
      rfl

theorem comma_not_mem_sdbEncodeRaw (bin : Bytes) (len : Nat) : sdbRs ∉ sdbEncodeRaw bin len := by
  have hcb64 : ∀ n < 64, cb64At (UInt8.ofNat n) ≠ sdbRs := by decide
  intro hmem
  rcases mem_sdbEncodeRaw hmem with h | ⟨v, hv, h⟩
  · exact absurd h (by decide)
  · have hne := hcb64 v.toNat hv.lt
    rw [UInt8.ofNat_toNat] at hne
    exact hne h.symm

theorem sdbEncodeRaw_eq_nil {bin : Bytes} {len : Nat} : sdbEncodeRaw bin len = [] ↔ len = 0 := by
  rw [← List.length_eq_zero_iff, length_sdbEncodeRaw]
  omega

theorem ut32OfInt_eq {n : Int} {k : Nat} (h : n = k) : ut32OfInt n = k % 4294967296 := by
  rw [h, ut32OfInt]
  omega

/-- **A string comes back** exactly if base64 can write it. -/
theorem wordText_iff {s : CStr} (hword : textWord s ≠ []) :
    wordText (textWord s) = s ↔ Encodable s := by
  obtain ⟨n, hn⟩ : ∃ n : Nat, (intOfSize s.length).toNat = n := ⟨_, rfl⟩
  rw [textWord] at hword ⊢
  split at hword
  · next hlt =>
      rw [if_pos hlt]
      rw [Ne, sdbEncodeRaw_eq_nil] at hword
      rw [hn] at hword ⊢
      have hint : intOfSize s.length = n := by omega
      have hle : n ≤ s.length := by
        have hle := intOfSize_le s.length
        omega
      have hcstr : (CStr.ofBytes (sdbEncodeRaw s.bytesZ n)).val = sdbEncodeRaw s.bytesZ n :=
        CStr.val_ofBytes (zero_not_mem_sdbEncodeRaw s.bytesZ n)
      have hraw := length_sdbEncodeRaw s.bytesZ n
      have hlen : (CStr.ofBytes (sdbEncodeRaw s.bytesZ n)).length = 4 * ((n + 2) / 3) := by
        rw [CStr.length, hcstr, hraw]
      have hilen : intOfSize (CStr.ofBytes (sdbEncodeRaw s.bytesZ n)).length =
          (4 * ((n + 2) / 3) : Nat) := by
        rw [hlen]
        exact intOfSize_of_lt (by omega)
      have hsize : ut32OfInt (intOfSize (CStr.ofBytes (sdbEncodeRaw s.bytesZ n)).length * 3 + 16) =
          (4 * ((n + 2) / 3) * 3 + 16) % 4294967296 := ut32OfInt_eq (by rw [hilen]; push_cast; rfl)
      have hsize' := ut32OfInt_eq hilen
      simp only [wordText, sdbDecode]
      rw [if_neg (by omega), hsize, hsize']
      by_cases hsmall : n ≤ 1073741817
      · have hdec : sdbDecodeRaw (CStr.ofBytes (sdbEncodeRaw s.bytesZ n)).bytesZ
            (intOfSize (CStr.ofBytes (sdbEncodeRaw s.bytesZ n)).length).toNat =
            (n, s.val.take n) := by
          have htake : s.bytesZ.take n = s.val.take n := List.take_append_of_le_length hle
          have hlong : (s.val.take n).length = n := List.length_take_of_le hle
          rw [hilen, Int.toNat_natCast, ← hraw, CStr.bytesZ, hcstr, sdbDecodeRaw,
            decodeLoop_sdbEncodeRaw (by rw [CStr.length_bytesZ]; omega), htake, hlong]
          exact Prod.ext (if_pos (by omega)) rfl
        have hval : (CStr.ofBytes (s.val.take n)).val = s.val.take n :=
          CStr.val_ofBytes fun h ↦ s.property (List.mem_of_mem_take h)
        have hmax : (n + 2) / 3 ≤ 357913939 := by omega
        rw [Nat.mod_eq_of_lt (a := 4 * ((n + 2) / 3) * 3 + 16) (by omega),
          Nat.mod_eq_of_lt (a := 4 * ((n + 2) / 3)) (by omega), if_neg (by omega), hdec,
            if_neg hword, CStr.ext_iff, hval, List.take_eq_self_iff]
        constructor
        · exact fun h ↦ ⟨by omega, Nat.le_trans h hsmall⟩
        · rintro ⟨-, hmax⟩
          have hall := intOfSize_of_lt (n := s.length) (by omega)
          exact Nat.le_of_eq (show s.length = n by omega)
      · -- the decoder gives up, and the text itself is longer than the string
        rw [if_pos (by omega)]
        refine iff_of_false (fun h ↦ ?_) fun h ↦ ?_
        · have hlong : (CStr.ofBytes (sdbEncodeRaw s.bytesZ n)).length = s.length :=
            congrArg CStr.length h
          have hall := intOfSize_of_lt (n := s.length) (by omega)
          omega
        · have hmax := h.2
          have hall := intOfSize_of_lt (n := s.length) (by omega)
          omega
  · exact absurd rfl hword

/-! ## The text -/

theorem length_renderings (p : Bytes) (strs : Nat → CStr) (fmt : Bytes) (len : Nat) :
    (renderings p strs fmt len).length = fmt.length := by
  induction fmt generalizing len with
  | nil => rfl
  | cons c fmt ih => exact congrArg (· + 1) (ih _)

theorem getElem?_renderings {p : Bytes} {strs : Nat → CStr} {fmt : Bytes} {len i : Nat} {c : UInt8}
    (h : fmt[i]? = some c) :
    (renderings p strs fmt len)[i]? = some ((tostrVal p strs c (len + 8 * i)).getD []) := by
  induction fmt generalizing len i with
  | nil => cases h
  | cons c' fmt ih =>
      cases i with
      | zero =>
          cases h
          rfl
      | succ i =>
          rw [renderings, List.getElem?_cons_succ, ih h, Nat.mul_succ, Nat.add_comm (8 * i),
            Nat.add_assoc]

theorem appendSize_fst {sb r : Nat × Nat} {n : Nat} (h : appendSize sb n = some r) :
    r.1 = sb.1 + n := by
  obtain ⟨need, -, h⟩ := Option.bind_eq_some_iff.mp h
  split at h
  · obtain ⟨size, -, rfl⟩ := Option.map_eq_some_iff.mp h
    rfl
  · cases h
    rfl

theorem joinSep_ne_nil {ws : List Bytes} (hws : ws ≠ []) (hne : ∀ w ∈ ws, w ≠ []) :
    joinSep sdbRs ws ≠ [] := by
  cases ws with
  | nil => exact absurd rfl hws
  | cons w ws =>
      rw [joinSep_cons]
      exact List.append_ne_nil_of_left_ne_nil (hne w List.mem_cons_self) _

theorem zero_not_mem_joinSep {ws : List Bytes} (hws : ∀ w ∈ ws, (0 : UInt8) ∉ w) :
    (0 : UInt8) ∉ joinSep sdbRs ws := by
  cases ws with
  | nil => exact List.not_mem_nil
  | cons w ws =>
      rw [joinSep_cons, List.mem_append, led, List.mem_flatMap]
      rintro (hmem | ⟨w', hw', hmem⟩)
      · exact hws w List.mem_cons_self hmem
      · rcases List.mem_cons.mp hmem with h0 | hmem
        · exact absurd h0 (by decide)
        · exact hws w' (List.mem_cons_of_mem _ hw') hmem

/-- A rendering goes behind the others, if it is there. -/
theorem append_joinSep {ws : List Bytes} (hne : ∀ w ∈ ws, w ≠ []) (val : Bytes) (size : Nat) :
    (if val = [] then some (joinSep sdbRs ws, size)
      else (if 0 < (joinSep sdbRs ws).length then strbufAppend (joinSep sdbRs ws, size) [sdbRs]
        else some (joinSep sdbRs ws, size)).bind (strbufAppend · val)) =
      (renderSize ((joinSep sdbRs ws).length, size) val.length).map fun r ↦
        (joinSep sdbRs (ws ++ [val].filter (· ≠ [])), r.2) := by
  have happend (sb : Bytes × Nat) (str : Bytes) : strbufAppend sb str =
      (appendSize (sb.1.length, sb.2) str.length).map fun r ↦ (sb.1 ++ str, r.2) := rfl
  rw [renderSize]
  by_cases hval : val = []
  · rw [if_pos hval, if_pos (List.length_eq_zero_iff.mpr hval),
      List.filter_cons_of_neg (by simpa using hval), List.filter_nil, List.append_nil]
    rfl
  rw [if_neg hval, if_neg (mt List.length_eq_zero_iff.mp hval),
    List.filter_cons_of_pos (by simpa using hval), List.filter_nil]
  by_cases hws : ws = []
  · subst hws
    rw [joinSep_nil, List.length_nil, if_neg (Nat.lt_irrefl 0), if_neg (Nat.lt_irrefl 0),
      Option.bind_some, Option.bind_some, happend, List.nil_append, List.nil_append,
      joinSep_singleton]
    rfl
  · have hpos := List.length_pos_of_ne_nil (joinSep_ne_nil hws hne)
    have hjoin : joinSep sdbRs ws ++ [sdbRs] ++ val = joinSep sdbRs (ws ++ [val]) := by
      rw [joinSep_append sdbRs ws (List.cons_ne_nil _ _), ended_eq sdbRs hws, joinSep_singleton]
    rw [if_pos hpos, if_pos hpos, happend]
    cases hcomma : appendSize ((joinSep sdbRs ws).length, size) 1 with
    | none => rfl
    | some r =>
        have hlen : r.1 = (joinSep sdbRs ws ++ [sdbRs]).length := by
          rw [List.length_append, List.length_singleton]
          exact appendSize_fst hcomma
        rw [Option.map_some, Option.bind_some, Option.bind_some, happend, hjoin, ← hlen]

/-- The length is that of the text. -/
theorem renderSize_fst {ws : List Bytes} (hne : ∀ w ∈ ws, w ≠ []) {val : Bytes} {size : Nat}
    {r : Nat × Nat} (h : renderSize ((joinSep sdbRs ws).length, size) val.length = some r) :
    r.1 = (joinSep sdbRs (ws ++ [val].filter (· ≠ []))).length := by
  rw [renderSize] at h
  by_cases hval : val = []
  · rw [if_pos (List.length_eq_zero_iff.mpr hval)] at h
    cases h
    rw [List.filter_cons_of_neg (by simpa using hval), List.filter_nil, List.append_nil]
  rw [if_neg (mt List.length_eq_zero_iff.mp hval)] at h
  obtain ⟨x, hx, h⟩ := Option.bind_eq_some_iff.mp h
  have hr := appendSize_fst h
  rw [List.filter_cons_of_pos (by simpa using hval), List.filter_nil, hr]
  by_cases hws : ws = []
  · subst hws
    cases hx
    rw [List.nil_append, joinSep_singleton]
    exact Nat.zero_add _
  · have hpos := List.length_pos_of_ne_nil (joinSep_ne_nil hws hne)
    rw [if_pos hpos] at hx
    rw [appendSize_fst hx, joinSep_append sdbRs ws (List.cons_ne_nil _ _), ended_eq sdbRs hws,
      joinSep_singleton, List.length_append, List.length_append]
    rfl

/-- The loop of `sdb_fmt_tostr` joins the renderings that there are. -/
theorem tostrLoop_joinSep (p : Bytes) (strs : Nat → CStr) (fmt : Bytes) {len : Nat}
    (hlen : len ≤ intMax) {ws : List Bytes} (hne : ∀ w ∈ ws, w ≠ []) (size : Nat) :
    tostrLoop p strs fmt len (joinSep sdbRs ws, size) =
      if len + 8 * fmt.length ≤ intMax then
        (bufferSizes ((renderings p strs fmt len).map List.length)
          ((joinSep sdbRs ws).length, size)).map fun r ↦
          (joinSep sdbRs (ws ++ (renderings p strs fmt len).filter (· ≠ [])), r.2)
      else none := by
  induction fmt generalizing len ws size with
  | nil =>
      have hlen' : len + 8 * ([] : Bytes).length ≤ intMax := hlen
      rw [if_pos hlen', tostrLoop, renderings, List.filter_nil, List.append_nil]
      rfl
  | cons c fmt ih =>
      have hfits : len + 8 * (c :: fmt).length ≤ intMax ↔ len + 8 + 8 * fmt.length ≤ intMax := by
        rw [List.length_cons]
        omega
      rw [tostrLoop, renderings, tostrSize_le, List.map_cons, bufferSizes]
      simp only [hfits]
      rw [append_joinSep hne]
      cases hsize : renderSize ((joinSep sdbRs ws).length, size)
        ((tostrVal p strs c len).getD []).length with
      | none =>
          rw [Option.map_none, Option.bind_none, Option.bind_none, Option.map_none, ite_self]
      | some r =>
          have hne' : ∀ w ∈ ws ++ [(tostrVal p strs c len).getD []].filter (· ≠ []), w ≠ [] := by
            intro w hw
            rcases List.mem_append.mp hw with hw | hw
            · exact hne w hw
            · exact of_decide_eq_true (List.mem_filter.mp hw).2
          have hr : r = ((joinSep sdbRs
              (ws ++ [(tostrVal p strs c len).getD []].filter (· ≠ []))).length, r.2) :=
            Prod.ext (renderSize_fst hne hsize) rfl
          rw [Option.map_some, Option.bind_some, Option.bind_some]
          rcases Nat.lt_or_ge intMax (len + 8) with hlt | hle
          · rw [checkedInt_of_lt hlt, if_neg (by omega)]
            rfl
          · rw [checkedInt_of_le hle, Option.bind_some, ih hle hne', ← hr, List.append_assoc,
              ← List.filter_append]
            rfl

/-- What is appended to a text. -/
theorem strbufAppend_fst {sb r : Bytes × Nat} {str : Bytes} (h : strbufAppend sb str = some r) :
    r.1 = sb.1 ++ str := by
  obtain ⟨x, -, rfl⟩ := Option.map_eq_some_iff.mp h
  rfl

theorem tostrLoop_q (strs : Nat → CStr) (pre : Bytes) (nums : List UInt64) {sb r : Bytes × Nat}
    (h : tostrLoop (pre ++ nums.flatMap fun n ↦ leN 8 n.toNat) strs
      (List.replicate nums.length 113) pre.length sb = some r) : r.1 = nums.foldl fmtQ sb.1 := by
  induction nums generalizing pre sb with
  | nil =>
      cases h
      rfl
  | cons n nums ih =>
      have hload : load 8 (pre ++ (n :: nums).flatMap fun n ↦ leN 8 n.toNat) pre.length =
          n.toNat := by
        rw [load, List.flatMap_cons, slice_mid rfl (length_leN 8 n.toNat).symm, unleN_leN]
        exact Nat.mod_eq_of_lt n.toNat_lt
      have hval : (tostrVal
          (pre ++ (n :: nums).flatMap fun n ↦ leN 8 n.toNat) strs 113 pre.length).getD [] =
            sdbItoa n 10 := by
        change sdbItoa (UInt64.ofNat (load 8 _ _)) 10 = _
        rw [hload, UInt64.ofNat_toNat]
      rw [List.length_cons, List.replicate_succ, tostrLoop, tostrSize_le, hval] at h
      obtain ⟨sb', hsb, h⟩ := Option.bind_eq_some_iff.mp h
      obtain ⟨len, hlen, h⟩ := Option.bind_eq_some_iff.mp h
      obtain ⟨rfl, -⟩ := checkedInt_eq_some_iff.mp hlen
      have hfirst : sb'.1 = fmtQ sb.1 n := by
        rw [fmtQ]
        split at hsb
        · next hnil =>
            cases hsb
            rw [if_neg (not_not.mpr hnil)]
        · next hnil =>
            obtain ⟨x, hx, hsb⟩ := Option.bind_eq_some_iff.mp hsb
            rw [if_pos hnil, strbufAppend_fst hsb]
            split at hx
            · next hpos => rw [if_pos hpos, strbufAppend_fst hx]
            · next hpos =>
                cases hx
                rw [if_neg hpos]
      rw [List.foldl_cons, ← hfirst]
      refine ih (pre ++ leN 8 n.toNat) ?_
      rw [List.length_append, length_leN, List.append_assoc]
      exact h

/-- Numbers of eight bytes, one behind the other. -/
def ut64s (nums : List UInt64) : Bytes := nums.flatMap fun n ↦ leN 8 n.toNat

/-- For numbers it prints what `sdb_array_sort_num` has printed. -/
theorem sdbFmtTostr_q (strs : Nat → CStr) (nums : List UInt64) {text : Option CStr}
    (h : sdbFmtTostr (ut64s nums) strs
      (CStr.ofBytes (List.replicate nums.length 113)) = some text) :
    text = if SdbStore.sdbFmtTostr nums = [] then none
      else some (CStr.ofBytes (SdbStore.sdbFmtTostr nums)) := by
  have hfmt : (CStr.ofBytes (List.replicate nums.length 113)).val =
      List.replicate nums.length 113 :=
    CStr.val_ofBytes fun hz ↦ absurd (List.eq_of_mem_replicate hz) (by decide)
  obtain ⟨sb, hsb, rfl⟩ := Option.map_eq_some_iff.mp h
  rw [hfmt] at hsb
  rw [tostrLoop_q strs [] nums hsb]
  rfl

/-! ## The words -/

theorem sdbAnext_joinSep {w : Bytes} (hw : sdbRs ∉ w) (ws : List Bytes) :
    sdbAnext (joinSep sdbRs (w :: ws)) =
      (w, if ws = [] then none else some (joinSep sdbRs ws)) := by
  have hall : ∀ c ∈ w, (c != sdbRs) = true := fun c hc ↦ by
    rw [bne_iff_ne]
    exact fun h ↦ hw (h ▸ hc)
  rw [joinSep_cons, sdbAnext, List.takeWhile_append_of_pos hall, List.dropWhile_append_of_pos hall]
  by_cases hws : ws = []
  · subst hws
    rw [if_pos rfl]
    exact Prod.ext (List.append_nil w) rfl
  · rw [if_neg hws, led_eq sdbRs hws, List.takeWhile_cons_of_neg (by simp), List.append_nil,
      List.dropWhile_cons_of_neg (by simp)]
    rfl

/-- There are no more items than words. -/
theorem tobinLoop_le {ws : List Bytes} (hws : ws ≠ []) (hsep : ∀ w ∈ ws, sdbRs ∉ w) {fmt : Bytes}
    {idx : Nat} {m : FmtMem} {r : Nat × FmtMem}
    (h : tobinLoop fmt (joinSep sdbRs ws) idx m = some r) : r.1 ≤ ws.length := by
  induction ws generalizing fmt idx m r with
  | nil => exact absurd rfl hws
  | cons w ws ih =>
      cases fmt with
      | nil =>
          cases h
          exact Nat.zero_le _
      | cons c fmt =>
          rw [tobinLoop, sdbAnext_joinSep (hsep w List.mem_cons_self)] at h
          dsimp only at h
          split at h
          · cases h
            exact Nat.zero_le _
          · obtain ⟨idx', -, h⟩ := Option.bind_eq_some_iff.mp h
            by_cases hnil : ws = []
            · rw [if_pos hnil] at h
              cases h
              exact Nat.succ_le_succ (Nat.zero_le _)
            · rw [if_neg hnil] at h
              obtain ⟨r', hr', rfl⟩ := Option.map_eq_some_iff.mp h
              exact Nat.succ_le_succ (ih hnil (fun w hw ↦ hsep w (List.mem_cons_of_mem _ hw)) hr')

/-- What a field is given by a word. -/
def wordValue (c : UInt8) (w : Bytes) : FieldValue :=
  if c = 115 then .text (wordText w) else .num ((sdbAtoi (some w)).toNat % 256 ^ fieldWidth c)

/-- What the words from an offset on leave as it was. -/
structure WroteFrom (idx : Nat) (m m' : FmtMem) : Prop where
  length : m'.stru.length = m.stru.length
  load : ∀ off n, off + n ≤ idx → load n m'.stru off = load n m.stru off
  strs : ∀ a ∉ m.blocks, m'.strs a = m.strs a

theorem WroteFrom.refl (idx : Nat) (m : FmtMem) : WroteFrom idx m m :=
  ⟨rfl, fun _ _ _ ↦ rfl, fun _ _ ↦ rfl⟩

theorem WroteFrom.trans {idx idx' : Nat} {m m' m'' : FmtMem} (h : WroteFrom idx m m')
    (h' : WroteFrom idx' m' m'') (hle : idx ≤ idx') (hblocks : m'.blocks ⊆ m.blocks) :
    WroteFrom idx m m'' :=
  ⟨h'.length.trans h.length, fun off n hn ↦ (h'.load off n (by omega)).trans (h.load off n hn),
    fun a ha ↦ (h'.strs a fun hmem ↦ ha (hblocks hmem)).trans (h.strs a ha)⟩

theorem IsNumber.ne_text {c : UInt8} (hc : IsNumber c) : c ≠ 115 := by
  rintro rfl
  exact absurd hc (by decide)

theorem fieldWidth_le (c : UInt8) : fieldWidth c ≤ 8 := by
  rw [fieldWidth]
  split
  · decide
  · split
    · decide
    · split
      · decide
      · decide

/-- The blocks are enough for the strings of a format. -/
structure BlocksFor (fmt : Bytes) (m : FmtMem) : Prop where
  nodup : m.blocks.Nodup
  lt : ∀ a ∈ m.blocks, a < 2 ^ 64
  enough : fmt.count 115 ≤ m.blocks.length

/-- A field of a word. -/
theorem tobinField_spec {c : UInt8} {fmt : Bytes} (hc : c = 115 ∨ IsNumber c) (w : Bytes)
    {idx : Nat} {m : FmtMem} (hroom : idx + 8 ≤ m.stru.length) (hb : BlocksFor (c :: fmt) m) :
    WroteFrom idx m (tobinField c w idx m) ∧ BlocksFor fmt (tobinField c w idx m) ∧
      (tobinField c w idx m).blocks ⊆ m.blocks ∧
      ∀ m', WroteFrom (idx + 8) (tobinField c w idx m) m' →
        fieldValue m'.stru m'.strs c idx = wordValue c w := by
  rcases hc with rfl | hc
  · -- a string takes the next block
    obtain ⟨hnodup, hlt, henough⟩ := hb
    rw [List.count_cons_self] at henough
    obtain ⟨a, blocks, hblocks⟩ :=
      List.exists_cons_of_length_pos (Nat.lt_of_lt_of_le (Nat.succ_pos _) henough)
    rw [hblocks] at hnodup hlt henough
    have hstore : idx + (leN 8 a).length ≤ m.stru.length := by
      rw [length_leN]
      exact hroom
    have hm : tobinField 115 w idx m =
        ⟨store m.stru idx (leN 8 a), Function.update m.strs a (wordText w), blocks⟩ := by
      rw [tobinField_text, FmtMem.strdup, hblocks]
      rfl
    rw [hm, hblocks]
    refine ⟨⟨length_store hstore, fun off n hn ↦ load_store_of_le hstore hn, fun a' ha' ↦ ?_⟩,
      ⟨hnodup.of_cons, fun a' ha' ↦ hlt a' (List.mem_cons_of_mem _ ha'),
        Nat.le_of_succ_le_succ henough⟩,
      List.subset_cons_self _ _, fun m' hm' ↦ ?_⟩
    · refine Function.update_of_ne ?_ _ _
      rintro rfl
      rw [hblocks] at ha'
      exact ha' List.mem_cons_self
    · have hptr : load 8 m'.stru idx = a := by
        rw [hm'.load idx 8 (Nat.le_refl _), load_store_self hroom]
        exact Nat.mod_eq_of_lt (hlt a List.mem_cons_self)
      rw [fieldValue, if_pos rfl, hptr, hm'.strs a (List.nodup_cons.mp hnodup).1, wordValue,
        if_pos rfl]
      exact congrArg _ (Function.update_self _ _ _)
  · have hwidth := fieldWidth_le c
    have hstore : ∀ v, idx + (leN (fieldWidth c) v).length ≤ m.stru.length := fun v ↦ by
      rw [length_leN]
      omega
    rw [tobinField_number hc]
    refine ⟨⟨length_store (hstore _), fun off n hn ↦ load_store_of_le (hstore _) hn, fun _ _ ↦ rfl⟩,
      ⟨hb.nodup, hb.lt, ?_⟩, List.Subset.refl _, fun m' hm' ↦ ?_⟩
    · have henough := hb.enough
      rwa [List.count_cons_of_ne hc.ne_text] at henough
    · rw [fieldValue, if_neg hc.ne_text, hm'.load idx _ (by omega), wordValue, if_neg hc.ne_text]
      exact congrArg _ (load_store_self (by omega))

/-- **The loop of `sdb_fmt_tobin`** gives each field what its word says. -/
theorem tobinLoop_spec {fmt : Bytes} {ws : List Bytes} (hlen : ws.length = fmt.length)
    (hletters : ∀ c ∈ fmt, c = 115 ∨ IsNumber c) (hws : ∀ w ∈ ws, w ≠ [] ∧ sdbRs ∉ w) {idx : Nat}
    (hidx : idx + 8 * fmt.length ≤ intMax) {m : FmtMem}
    (hroom : idx + 8 * fmt.length ≤ m.stru.length) (hb : BlocksFor fmt m) :
    ∃ r, tobinLoop fmt (joinSep sdbRs ws) idx m = some r ∧ r.1 = fmt.length ∧ WroteFrom idx m r.2 ∧
      ∀ i c w, fmt[i]? = some c → ws[i]? = some w →
        fieldValue r.2.stru r.2.strs c (idx + 8 * i) = wordValue c w := by
  induction fmt generalizing ws idx m with
  | nil => exact ⟨(0, m), rfl, rfl, .refl idx m, fun i c w hc _ ↦ nomatch hc⟩
  | cons c fmt ih =>
      cases ws with
      | nil => cases hlen
      | cons w ws =>
          rw [List.length_cons] at hroom hidx
          obtain ⟨hne, hsep⟩ := hws w List.mem_cons_self
          obtain ⟨hwrote, hb', hsub, hval⟩ :=
            @tobinField_spec c fmt (hletters c List.mem_cons_self) w idx m (by omega) hb
          have hroom' : idx + 8 + 8 * fmt.length ≤ (tobinField c w idx m).stru.length := by
            rw [hwrote.length]
            omega
          obtain ⟨r, hr, hcount, hwrote', hvals⟩ := ih (Nat.succ.inj hlen)
            (fun c hc ↦ hletters c (List.mem_cons_of_mem _ hc))
            (fun w hw ↦ hws w (List.mem_cons_of_mem _ hw))
            (by omega) hroom' hb'
          have hloop : tobinLoop (c :: fmt) (joinSep sdbRs (w :: ws)) idx m =
              some (r.1 + 1, r.2) := by
            rw [tobinLoop, sdbAnext_joinSep hsep, tobinSize_le]
            dsimp only
            rw [if_neg hne, checkedInt_of_le (by omega), Option.bind_some]
            by_cases hnil : ws = []
            · subst hnil
              obtain rfl := List.length_eq_zero_iff.mp (Nat.succ.inj hlen).symm
              cases hr
              rfl
            · rw [if_neg hnil]
              exact congrArg (Option.map _) hr
          refine ⟨(r.1 + 1, r.2), hloop, congrArg (· + 1) hcount,
            hwrote.trans hwrote' (Nat.le_add_right _ _) hsub, ?_⟩
          intro i c' w' hc' hw'
          cases i with
          | zero =>
              cases hc'
              cases hw'
              exact hval _ hwrote'
          | succ i =>
              rw [Nat.mul_succ, Nat.add_comm (8 * i), ← Nat.add_assoc]
              exact hvals i c' w' hc' hw'

/-! ## Round trips -/

section RoundTrip

variable {p : Bytes} {strs : Nat → CStr} {fmt : CStr} {m : FmtMem} (h : LaidOut p fmt m)
include h

theorem of_field {i : Nat} {c : UInt8} (hc : fmt.val[i]? = some c) :
    (c = 115 ∧ load 8 p (8 * i) ≠ 0) ∨ IsNumber c := by
  rcases h.letters c (List.mem_of_getElem? hc) with rfl | hnum
  · exact .inl ⟨rfl, h.pointers i hc⟩
  · exact .inr hnum

/-- The renderings are words, and those of strings that can be written are not empty. -/
theorem rendering_word {i : Nat} {c : UInt8} (hc : fmt.val[i]? = some c) :
    (0 : UInt8) ∉ (tostrVal p strs c (8 * i)).getD [] ∧
      sdbRs ∉ (tostrVal p strs c (8 * i)).getD [] ∧
        ((c = 115 → Encodable (strs (load 8 p (8 * i)))) →
          (tostrVal p strs c (8 * i)).getD [] ≠ []) := by
  rcases of_field h hc with ⟨rfl, hptr⟩ | hnum
  · rw [tostrVal_text hptr, textWord]
    split
    · refine ⟨zero_not_mem_sdbEncodeRaw _ _, comma_not_mem_sdbEncodeRaw _ _, fun henc ↦ ?_⟩
      obtain ⟨hpos, hmax⟩ := henc rfl
      rw [Ne, sdbEncodeRaw_eq_nil, intOfSize_of_lt (by omega)]
      omega
    · next hlt =>
        refine ⟨List.not_mem_nil, List.not_mem_nil, fun henc ↦ absurd ?_ hlt⟩
        obtain ⟨hpos, hmax⟩ := henc rfl
        rw [intOfSize_of_lt (by omega)]
        omega
  · obtain ⟨v, base, hbase, hval, -⟩ := tostrVal_number hnum p strs (8 * i)
    rw [hval]
    obtain ⟨hzero, -, hne, -⟩ := sdbItoa_text (.inr hbase) v
    exact ⟨hzero, sep_notMem_sdbItoa (.inr hbase) v, fun _ ↦ hne⟩

/-- A word gives a field its value again, if the string can be written. -/
theorem rendering_value {i : Nat} {c : UInt8} (hc : fmt.val[i]? = some c)
    (hne : (tostrVal p strs c (8 * i)).getD [] ≠ []) :
    wordValue c ((tostrVal p strs c (8 * i)).getD []) = fieldValue p strs c (8 * i) ↔
      (c = 115 → Encodable (strs (load 8 p (8 * i)))) := by
  rcases of_field h hc with ⟨rfl, hptr⟩ | hnum
  · rw [tostrVal_text hptr] at hne ⊢
    rw [wordValue, if_pos rfl, fieldValue, if_pos rfl, FieldValue.text.injEq, wordText_iff hne]
    exact ⟨fun henc _ ↦ henc, fun henc ↦ henc rfl⟩
  · refine iff_of_true ?_ fun hc ↦ absurd hc hnum.ne_text
    obtain ⟨v, base, hbase, hval, hmod⟩ := tostrVal_number hnum p strs (8 * i)
    obtain ⟨-, hhead, -, -⟩ := sdbItoa_text (.inr hbase) v
    have hread : sdbAtoi (some (sdbItoa v base)) = v := by
      rw [sdbAtoi, if_neg hhead]
      exact (strtoull_sdbItoa (.inr hbase) v).mpr (.inl (by omega))
    rw [wordValue, if_neg hnum.ne_text, fieldValue, if_neg hnum.ne_text, hval, Option.getD_some,
      hread, hmod]

theorem mem_renderings {w : Bytes} (hw : w ∈ renderings p strs fmt.val 0) :
    (0 : UInt8) ∉ w ∧ sdbRs ∉ w := by
  obtain ⟨i, hi⟩ := List.mem_iff_getElem?.mp hw
  have hlt := (List.getElem?_eq_some_iff.mp hi).1
  rw [length_renderings] at hlt
  have hfield := @getElem?_renderings p strs _ 0 _ _ (List.getElem?_eq_getElem hlt)
  rw [Nat.zero_add, hi] at hfield
  obtain ⟨hzero, hsep, -⟩ := @rendering_word p strs fmt m h _ _ (List.getElem?_eq_getElem hlt)
  rw [Option.some.inj hfield]
  exact ⟨hzero, hsep⟩

/-- The words of the text. -/
theorem word_of_mem {w : Bytes} (hw : w ∈ (renderings p strs fmt.val 0).filter (· ≠ [])) :
    w ≠ [] ∧ (0 : UInt8) ∉ w ∧ sdbRs ∉ w :=
  ⟨of_decide_eq_true (List.mem_filter.mp hw).2, mem_renderings h (List.mem_filter.mp hw).1⟩

/-- What `sdb_fmt_tobin` makes of a text. -/
theorem tobin_text (m' : FmtMem) :
    sdbFmtTobin (if (renderings p strs fmt.val 0).filter (· ≠ []) = [] then none
      else some (CStr.ofBytes (joinSep sdbRs ((renderings p strs fmt.val 0).filter (· ≠ []))))) fmt
        m' =
    if (renderings p strs fmt.val 0).filter (· ≠ []) = [] then some (0, m')
    else tobinLoop fmt.val
      (joinSep sdbRs ((renderings p strs fmt.val 0).filter (· ≠ []))) 0 m' := by
  by_cases hnil : (renderings p strs fmt.val 0).filter (· ≠ []) = []
  · rw [if_pos hnil, if_pos hnil]
    rfl
  · have hne : joinSep sdbRs ((renderings p strs fmt.val 0).filter (· ≠ [])) ≠ [] :=
      joinSep_ne_nil hnil fun w hw ↦ (word_of_mem h hw).1
    have hval : (CStr.ofBytes (joinSep sdbRs ((renderings p strs fmt.val 0).filter (· ≠ [])))).val =
        joinSep sdbRs ((renderings p strs fmt.val 0).filter (· ≠ [])) :=
      CStr.val_ofBytes (zero_not_mem_joinSep fun w hw ↦ (word_of_mem h hw).2.1)
    have hlen : (CStr.ofBytes
        (joinSep sdbRs ((renderings p strs fmt.val 0).filter (· ≠ [])))).length ≠ 0 :=
      fun h0 ↦ hne (by rw [← hval]; exact List.length_eq_zero_iff.mp h0)
    rw [if_neg hnil, if_neg hnil]
    refine (if_neg hlen).trans ?_
    rw [hval]

omit h in
/-- What `sdb_fmt_tostr` gives, if no `int` overflows. -/
theorem sdbFmtTostr_eq_some_iff {text : Option CStr} : sdbFmtTostr p strs fmt = some text ↔
    InRange p strs fmt ∧ text = if (renderings p strs fmt.val 0).filter (· ≠ []) = [] then none
      else some (CStr.ofBytes (joinSep sdbRs ((renderings p strs fmt.val 0).filter (· ≠ [])))) := by
  have hne : ∀ w ∈ (renderings p strs fmt.val 0).filter (· ≠ []), w ≠ [] := fun w hw ↦
    of_decide_eq_true (List.mem_filter.mp hw).2
  have hjoin : joinSep sdbRs ((renderings p strs fmt.val 0).filter (· ≠ [])) = [] ↔
      (renderings p strs fmt.val 0).filter (· ≠ []) = [] :=
    ⟨fun hnil ↦ not_not.mp fun hws ↦ joinSep_ne_nil hws hne hnil,
      fun hnil ↦ by rw [hnil, joinSep_nil]⟩
  have htext := @tostrLoop_joinSep p strs fmt.val 0 (Nat.zero_le intMax) [] (by simp) 0
  rw [List.nil_append, joinSep_nil, List.length_nil, Nat.zero_add] at htext
  rw [sdbFmtTostr, htext]
  by_cases hoffsets : 8 * fmt.length ≤ intMax
  · rw [show fmt.val.length = fmt.length from rfl, if_pos hoffsets, Option.map_map]
    simp only [Function.comp_def, hjoin]
    constructor
    · intro hsome
      obtain ⟨r, hr, rfl⟩ := Option.map_eq_some_iff.mp hsome
      exact ⟨⟨hoffsets, by rw [hr]; rfl⟩, rfl⟩
    · rintro ⟨hrange, rfl⟩
      obtain ⟨r, hr⟩ := Option.isSome_iff_exists.mp hrange.buffer
      rw [hr]
      rfl
  · rw [show fmt.val.length = fmt.length from rfl, if_neg hoffsets]
    exact iff_of_false (Option.some_ne_none text).symm fun hrange ↦ hoffsets hrange.1.offsets

/-- The structure comes back if the loop of `sdb_fmt_tobin` gives it back. -/
theorem roundTrips_iff_loop : RoundTrips p strs fmt m ↔ InRange p strs fmt ∧
    ∃ r, (if (renderings p strs fmt.val 0).filter (· ≠ []) = [] then some (0, m)
      else tobinLoop fmt.val (joinSep sdbRs ((renderings p strs fmt.val 0).filter (· ≠ []))) 0 m) =
        some r ∧
      r.1 = fmt.length ∧ ∀ i c, fmt.val[i]? = some c →
        fieldValue r.2.stru r.2.strs c (8 * i) = fieldValue p strs c (8 * i) := by
  rw [← tobin_text h m]
  constructor
  · rintro ⟨text, r, htext, hr, hrest⟩
    obtain ⟨hrange, rfl⟩ := sdbFmtTostr_eq_some_iff.mp htext
    exact ⟨hrange, r, hr, hrest⟩
  · rintro ⟨hrange, r, hr, hrest⟩
    exact ⟨_, r, sdbFmtTostr_eq_some_iff.mpr ⟨hrange, rfl⟩, hr, hrest⟩

/-- Where each field has a word, the loop gives back what is in the words. -/
theorem given_back_of_words (hrange : InRange p strs fmt)
    (hall : ∀ w ∈ renderings p strs fmt.val 0, w ≠ []) :
    ∃ r, tobinLoop fmt.val (joinSep sdbRs (renderings p strs fmt.val 0)) 0 m = some r ∧
      r.1 = fmt.length ∧ ∀ i c, fmt.val[i]? = some c →
        (tostrVal p strs c (8 * i)).getD [] ≠ [] ∧ fieldValue r.2.stru r.2.strs c (8 * i) =
          wordValue c ((tostrVal p strs c (8 * i)).getD []) := by
  obtain ⟨r, hr, hcount, -, hvals⟩ :=
    @tobinLoop_spec fmt.val (renderings p strs fmt.val 0) (length_renderings p strs fmt.val 0)
    h.letters (fun w hw ↦ ⟨hall w hw, (mem_renderings h hw).2⟩) 0
    (by rw [Nat.zero_add]; exact hrange.offsets) m
    (by rw [Nat.zero_add]; exact h.room) ⟨h.nodup, fun a ha ↦ (h.blocks a ha).2, h.enough⟩
  refine ⟨r, hr, hcount, fun i c hc ↦ ?_⟩
  have hword := @getElem?_renderings p strs _ 0 _ _ hc
  rw [Nat.zero_add] at hword
  have hval := hvals i c _ hc hword
  rw [Nat.zero_add] at hval
  exact ⟨hall _ (List.mem_of_getElem? hword), hval⟩

/-- Where a field has no word, there are fewer items than fields. -/
theorem fewer_items {w : Bytes} (hw : w ∈ renderings p strs fmt.val 0) (hnil : w = [])
    {r : Nat × FmtMem}
    (hr : (if (renderings p strs fmt.val 0).filter (· ≠ []) = [] then some (0, m)
      else tobinLoop fmt.val (joinSep sdbRs ((renderings p strs fmt.val 0).filter (· ≠ []))) 0 m) =
        some r) : r.1 < fmt.length := by
  have hshort : ((renderings p strs fmt.val 0).filter (· ≠ [])).length < fmt.length := by
    rw [CStr.length, ← length_renderings p strs fmt.val 0]
    exact List.length_filter_lt_length_iff_exists.mpr ⟨w, hw, by simp [hnil]⟩
  split at hr
  · cases hr
    exact Nat.zero_lt_of_lt hshort
  · next hne =>
      exact Nat.lt_of_le_of_lt (tobinLoop_le hne (fun w hw ↦ (word_of_mem h hw).2.2) hr) hshort

/-- A field that has no word is a string that cannot be written. -/
theorem not_encodable_of_nil {w : Bytes} (hw : w ∈ renderings p strs fmt.val 0) (hnil : w = []) :
    ∃ i, fmt.val[i]? = some 115 ∧ ¬ Encodable (strs (load 8 p (8 * i))) := by
  obtain ⟨i, hi⟩ := List.mem_iff_getElem?.mp hw
  have hlt := (List.getElem?_eq_some_iff.mp hi).1
  rw [length_renderings] at hlt
  have hc := List.getElem?_eq_getElem hlt
  have hword := @getElem?_renderings p strs _ 0 _ _ hc
  rw [Nat.zero_add, hi, hnil] at hword
  by_contra hno
  push Not at hno
  refine (@rendering_word p strs fmt m h _ _ hc).2.2 (fun h115 ↦ ?_) (Option.some.inj hword).symm
  rw [h115] at hc
  exact hno i hc

/-- **The structure comes back** exactly if no `int` overflows and none of its strings is empty or
too long for base64. -/
theorem roundTrips_iff : RoundTrips p strs fmt m ↔
    InRange p strs fmt ∧ ∀ i, fmt.val[i]? = some 115 → Encodable (strs (load 8 p (8 * i))) := by
  rw [roundTrips_iff_loop h]
  refine and_congr_right fun hrange ↦ ?_
  by_cases hall : ∀ w ∈ renderings p strs fmt.val 0, w ≠ []
  · -- every field has its word
    obtain ⟨r, hr, hcount, hfield⟩ := given_back_of_words h hrange hall
    have hrun : (if (renderings p strs fmt.val 0).filter (· ≠ []) = [] then some (0, m)
        else tobinLoop fmt.val
          (joinSep sdbRs ((renderings p strs fmt.val 0).filter (· ≠ []))) 0 m) = some r := by
      rw [List.filter_eq_self.mpr fun w hw ↦ decide_eq_true (hall w hw)]
      split
      · next hnil =>
          have hlen := length_renderings p strs fmt.val 0
          rw [hnil, List.length_nil] at hlen
          rw [List.length_eq_zero_iff.mp hlen.symm] at hr
          exact hr
      · exact hr
    rw [hrun]
    constructor
    · rintro ⟨r', hr', -, hvals'⟩ i hc
      obtain rfl := Option.some.inj hr'
      obtain ⟨hne, hval⟩ := hfield i 115 hc
      exact (rendering_value h hc hne).mp (hval.symm.trans (hvals' i 115 hc)) rfl
    · intro henc
      refine ⟨r, rfl, hcount, fun i c hc ↦ ?_⟩
      obtain ⟨hne, hval⟩ := hfield i c hc
      refine hval.trans ((rendering_value h hc hne).mpr ?_)
      rintro rfl
      exact henc i hc
  · -- there are fewer words than fields
    obtain ⟨w, hw, hnil⟩ : ∃ w ∈ renderings p strs fmt.val 0, w = [] := by
      simpa using hall
    refine iff_of_false ?_ fun henc ↦ ?_
    · rintro ⟨r, hr, hcount, -⟩
      exact Nat.ne_of_lt (fewer_items h hw hnil hr) hcount
    · obtain ⟨i, hc, hno⟩ := not_encodable_of_nil h hw hnil
      exact hno (henc i hc)

end RoundTrip

/-- An `int` and a pointer. -/
def intAndString : Bytes := leN 8 4294967295 ++ leN 8 16

/-- Room for them. -/
def roomForTwo : FmtMem := ⟨List.replicate 16 0, fun _ ↦ CStr.empty, [64]⟩

theorem laidOut_intAndString : LaidOut intAndString (CStr.ofBytes [100, 115]) roomForTwo where
  letters := List.forall_mem_cons.mpr ⟨by decide, List.forall_mem_singleton.mpr (by decide)⟩
  pointers i h := by
    match i, h with
    | 1, _ => decide
  room := by decide
  nodup := by decide
  blocks := by decide
  enough := by decide

/-- `-1` and `hi`. -/
theorem roundTrips_intAndString :
    RoundTrips intAndString (fun _ ↦ CStr.ofBytes [104, 105])
      (CStr.ofBytes [100, 115]) roomForTwo := by
  refine (roundTrips_iff laidOut_intAndString).mpr ⟨⟨by decide, by decide +kernel⟩, fun i h ↦ ?_⟩
  rw [Encodable]
  decide

/-- A string that is empty. -/
theorem not_roundTrips :
    ¬ RoundTrips (leN 8 16) (fun _ ↦ CStr.empty) (CStr.ofBytes [115]) roomForTwo := by
  rintro ⟨text, r, htext, hr, hcount, -⟩
  have htext' : sdbFmtTostr (leN 8 16) (fun _ ↦ CStr.empty) (CStr.ofBytes [115]) = some none := by
    decide
  obtain rfl := Option.some.inj (htext.symm.trans htext')
  cases hr
  exact absurd hcount (by decide)

end SdbStore.Fmt
