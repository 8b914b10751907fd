import Mathlib.Tactic.IntervalCases
import SdbStore.CStr

/-!
# Base64

`base64.c`: blocks of three bytes are written as four characters.  The decoder reads a block of
four characters, says how many bytes it stands for, and stops at a block that stands for none.

Allocations succeed.
-/

namespace SdbStore

open Lib

/-- An `int` that a size is stored in. -/
def intOfSize (n : Nat) : Int := (BitVec.ofNat 32 n).toInt

theorem intOfSize_of_lt {n : Nat} (h : n < 2147483648) : intOfSize n = n := by
  rw [intOfSize, BitVec.toInt_eq_toNat_of_lt]
  · rw [BitVec.toNat_ofNat, Nat.mod_eq_of_lt (by omega)]
  · rw [BitVec.toNat_ofNat, Nat.mod_eq_of_lt (by omega)]
    omega

/-- The next 2^31 sizes are negative. -/
theorem intOfSize_neg {n : Nat} (h : 2147483648 ≤ n) (h' : n < 4294967296) : intOfSize n < 0 := by
  have hn : (BitVec.ofNat 32 n).toNat = n := by
    rw [BitVec.toNat_ofNat, Nat.mod_eq_of_lt h']
  rw [intOfSize, BitVec.toInt_eq_toNat_cond, hn, if_neg (by omega)]
  omega

theorem intOfSize_le (n : Nat) : intOfSize n ≤ n := by
  have hmod := Nat.mod_le n (2 ^ 32)
  rw [intOfSize, BitVec.toInt_eq_toNat_cond, BitVec.toNat_ofNat]
  split
  · exact Int.ofNat_le.mpr hmod
  · omega

/-! ## The code -/

/-- `cb64`: `A` to `Z`, `a` to `z`, `0` to `9`, `+` and `/`. -/
def cb64 : Bytes :=
  (List.range' 65 26 ++ List.range' 97 26 ++ List.range' 48 10 ++ [43, 47]).map UInt8.ofNat

/-- `cd64`: `|$$$}`, `r` to `{`, seven `$`, `>` to `W`, six `$`, `X` to `q`. -/
def cd64 : Bytes :=
  ([124, 36, 36, 36, 125] ++ List.range' 114 10 ++ List.replicate 7 36 ++ List.range' 62 26 ++
    List.replicate 6 36 ++ List.range' 88 26).map UInt8.ofNat

/-- The character of a digit. -/
def cb64At (v : UInt8) : UInt8 := cb64.getD v.toNat 0

/-- `sdb_b64_encode`: the four characters for the first `len` of the bytes at `inp`. -/
def sdbB64Encode (inp : Bytes) (len : Nat) : Bytes :=
  let in0 := inp.getD 0 0
  let in1 := inp.getD 1 0
  let in2 := inp.getD 2 0
  if len < 1 then []
  else
    [cb64At (in0 >>> 2),
      cb64At (((in0 &&& 0x03) <<< 4) ||| (if len > 1 then (in1 &&& 0xf0) >>> 4 else 0)),
      if len > 1 then
        cb64At (((in1 &&& 0x0f) <<< 2) ||| (if len > 2 then (in2 &&& 0xc0) >>> 6 else 0))
      else 61,
      if len > 2 then cb64At (in2 &&& 0x3f) else 61]

/-- The loop of `sdb_b64_decode` from the character `i` on: the length of the block and the
digits, with the `$` that ends it; `none` for a character outside the table. -/
def b64Digits (i : Nat) : Bytes → Option (Int × Bytes)
  | [] => some (3, [])
  | c :: inp =>
      if c < 43 ∨ c > 122 then none
      else
        let v := cd64.getD (c.toNat - 43) 0
        if v = 36 then some (if i ≠ 0 then i - 1 else -1, [v])
        else (b64Digits (i + 1) inp).map fun r ↦ (r.1, (v - 62) :: r.2)

/-- `sdb_b64_decode`: what it returns and the three bytes that it writes. -/
def sdbB64Decode (inp : Bytes) : Int × Bytes :=
  match b64Digits 0 (inp.take 4) with
  | none => (-1, [])
  | some (len, v) =>
      let v0 := v.getD 0 0
      let v1 := v.getD 1 0
      let v2 := v.getD 2 0
      let v3 := v.getD 3 0
      (len, [v0 <<< 2 ||| v1 >>> 4, v1 <<< 4 ||| v2 >>> 2, ((v2 <<< 6) &&& 0xc0) ||| v3])

/-- `sdb_encode_raw`: the characters that it writes before the NUL; `len` bytes are left. -/
def sdbEncodeRaw (bin : Bytes) (len : Nat) : Bytes :=
  if len = 0 then []
  else sdbB64Encode bin (min len 3) ++ sdbEncodeRaw (bin.drop 3) (len - 3)
termination_by len

/-- The loop of `sdb_decode_raw`, with `len` characters left: how many were taken, and the bytes
that count.  What a block writes behind its length is written over by the next one. -/
def decodeLoop (bin : Bytes) (len : Nat) : Nat × Bytes :=
  if len = 0 then (0, [])
  else
    let r := sdbB64Decode bin
    if r.1 < 1 then (0, [])
    else
      let rest := decodeLoop (bin.drop 4) (len - 4)
      (rest.1 + 4, r.2.take r.1.toNat ++ rest.2)
termination_by len

/-- `sdb_decode_raw`: its result and the bytes that count. -/
def sdbDecodeRaw (bin : Bytes) (len : Nat) : Nat × Bytes :=
  let r := decodeLoop bin len
  (if r.1 ≠ r.2.length then r.2.length else 0, r.2)

/-- `sdb_encode`: a string of its own.  The size `8 + len * 2` is an `int`, and there is no block of
a negative size. -/
def sdbEncode (bin : Option Bytes) (len : Int) : Option CStr :=
  match bin with
  | none => none
  | some bin =>
      let len := if len < 0 then intOfSize (CStr.ofBytes bin).length else len
      if len = 0 then some CStr.empty
      else if 8 + len * 2 ≥ 2147483648 then none
      else some (CStr.ofBytes (sdbEncodeRaw bin len.toNat ++ [0]))

/-- An `int` as a `ut32`. -/
def ut32OfInt (n : Int) : Nat := (n % 4294967296).toNat

/-- `sdb_decode`: the bytes that it returns, which a NUL follows, and `*len`. -/
def sdbDecode (inp : Option CStr) : Option (Bytes × Nat) :=
  match inp with
  | none => none
  | some inp =>
      let ilen := intOfSize inp.length
      if ilen = 0 then none
      else if ut32OfInt (ilen * 3 + 16) < ut32OfInt ilen then none
      else
        let r := sdbDecodeRaw inp.bytesZ ilen.toNat
        if r.1 = 0 then none else some (r.2, r.1)

/-! ## One block -/

/-- A digit has six bits. -/
def IsDigit (v : UInt8) : Prop := v >>> 6 = 0

theorem eq_of_bits {a b : UInt8} (h : ∀ i < 8, a.toBitVec.getLsbD i = b.toBitVec.getLsbD i) :
    a = b := by
  apply UInt8.eq_of_toBitVec_eq
  exact BitVec.eq_of_getLsbD_eq h

theorem IsDigit.lt {v : UInt8} (h : IsDigit v) : v.toNat < 64 := by
  have h' := congrArg UInt8.toNat h
  simp only [UInt8.toNat_shiftRight] at h'
  simp [Nat.shiftRight_eq_div_pow] at h'
  omega

section Digits

variable (a b c : UInt8)

/-- The second digit of three bytes. -/
def digit1 : UInt8 := ((a &&& 0x03) <<< 4) ||| (b &&& 0xf0) >>> 4

/-- The third digit of three bytes. -/
def digit2 : UInt8 := ((b &&& 0x0f) <<< 2) ||| (c &&& 0xc0) >>> 6

theorem isDigit_first : IsDigit (a >>> 2) := by
  apply eq_of_bits
  intro i hi
  interval_cases i <;> simp

theorem isDigit_second : IsDigit (digit1 a b) := by
  apply eq_of_bits
  intro i hi
  interval_cases i <;> simp [digit1]

theorem isDigit_third : IsDigit (digit2 b c) := by
  apply eq_of_bits
  intro i hi
  interval_cases i <;> simp [digit2]

theorem isDigit_fourth : IsDigit (c &&& 0x3f) := by
  apply eq_of_bits
  intro i hi
  interval_cases i <;> simp

theorem join_first : (a >>> 2) <<< 2 ||| digit1 a b >>> 4 = a := by
  apply eq_of_bits
  intro i hi
  interval_cases i <;> simp [digit1]

theorem join_second : digit1 a b <<< 4 ||| digit2 b c >>> 2 = b := by
  apply eq_of_bits
  intro i hi
  interval_cases i <;> simp [digit1, digit2]

theorem join_third : ((digit2 b c <<< 6) &&& 0xc0) ||| (c &&& 0x3f) = c := by
  apply eq_of_bits
  intro i hi
  interval_cases i <;> simp [digit2]

end Digits

theorem cd64_cb64 : ∀ n < 64, 43 ≤ cb64At (UInt8.ofNat n) ∧ cb64At (UInt8.ofNat n) ≤ 122 ∧
    cd64.getD ((cb64At (UInt8.ofNat n)).toNat - 43) 0 ≠ 36 ∧
    cd64.getD ((cb64At (UInt8.ofNat n)).toNat - 43) 0 - 62 = UInt8.ofNat n := by
  decide

/-- The character of a digit is in the table, is not NUL, and is read as the digit. -/
theorem IsDigit.cb64 {v : UInt8} (h : IsDigit v) :
    43 ≤ cb64At v ∧ cb64At v ≤ 122 ∧ cd64.getD ((cb64At v).toNat - 43) 0 ≠ 36 ∧
      cd64.getD ((cb64At v).toNat - 43) 0 - 62 = v := by
  have hv := cd64_cb64 v.toNat h.lt
  rwa [UInt8.ofNat_toNat] at hv

theorem IsDigit.cb64_ne_zero {v : UInt8} (h : IsDigit v) : cb64At v ≠ 0 := by
  intro h0
  have hge := h.cb64.1
  rw [h0] at hge
  exact absurd hge (by decide)

theorem b64Digits_digit {v : UInt8} (h : IsDigit v) (i : Nat) (inp : Bytes) :
    b64Digits i (cb64At v :: inp) = (b64Digits (i + 1) inp).map fun r ↦ (r.1, v :: r.2) := by
  obtain ⟨hge, hle, hne, heq⟩ := h.cb64
  rw [b64Digits, if_neg (by simp [hge, hle]), if_neg hne, heq]

theorem b64Digits_nil (i : Nat) : b64Digits i [] = some (3, []) := rfl

theorem b64Digits_pad (i : Nat) (inp : Bytes) :
    b64Digits (i + 1) (61 :: inp) = some ((i : Int), [36]) := by
  have hpad : cd64.getD ((61 : UInt8).toNat - 43) 0 = 36 := by decide
  rw [b64Digits, if_neg (by decide), if_pos hpad, hpad, if_pos (Nat.succ_ne_zero i)]
  simp

/-- The characters of a block, by its digits; a byte that is not there counts as 0. -/
theorem sdbB64Encode_eq (inp : Bytes) {len : Nat} (h : 0 < len) :
    sdbB64Encode inp len =
      [cb64At (inp.getD 0 0 >>> 2),
        cb64At (digit1 (inp.getD 0 0) (if len > 1 then inp.getD 1 0 else 0)),
        if len > 1 then cb64At (digit2 (inp.getD 1 0) (if len > 2 then inp.getD 2 0 else 0))
        else 61, if len > 2 then cb64At (inp.getD 2 0 &&& 0x3f) else 61] := by
  have h1 : ((0 : UInt8) &&& 0xf0) >>> 4 = 0 := by decide
  have h2 : ((0 : UInt8) &&& 0xc0) >>> 6 = 0 := by decide
  rw [sdbB64Encode, if_neg (by omega), digit1, digit2]
  congr 2
  · split
    · rfl
    · rw [h1]
  · split
    · split
      · rfl
      · rw [h2]
    · rfl

theorem length_sdbB64Encode {inp : Bytes} {len : Nat} (h : 0 < len) :
    (sdbB64Encode inp len).length = 4 := by
  rw [sdbB64Encode_eq inp h]
  rfl

/-- The characters of a block stand for digits, or pad it. -/
theorem mem_sdbB64Encode {inp : Bytes} {len : Nat} {c : UInt8} (hmem : c ∈ sdbB64Encode inp len) :
    c = 61 ∨ ∃ v, IsDigit v ∧ c = cb64At v := by
  rcases Nat.eq_zero_or_pos len with rfl | hpos
  · exact absurd hmem List.not_mem_nil
  rw [sdbB64Encode_eq inp hpos] at hmem
  simp only [List.mem_cons, List.not_mem_nil, or_false] at hmem
  rcases hmem with h | h | h | h
  · exact .inr ⟨_, isDigit_first _, h⟩
  · exact .inr ⟨_, isDigit_second _ _, h⟩
  · split at h
    · exact .inr ⟨_, isDigit_third _ _, h⟩
    · exact .inl h
  · split at h
    · exact .inr ⟨_, isDigit_fourth _, h⟩
    · exact .inl h

/-- A block is read as the bytes that it was written for. -/
theorem sdbB64Decode_encode (inp rest : Bytes) {len : Nat} (hpos : 0 < len) (hlen : len ≤ 3)
    (hinp : len ≤ inp.length) :
    (sdbB64Decode (sdbB64Encode inp len ++ rest)).1 = len ∧
      (sdbB64Decode (sdbB64Encode inp len ++ rest)).2.take len = inp.take len := by
  have htake : (sdbB64Encode inp len ++ rest).take 4 = sdbB64Encode inp len := by
    rw [List.take_append_of_le_length (by rw [length_sdbB64Encode hpos]), List.take_of_length_le]
    rw [length_sdbB64Encode hpos]
  rw [sdbB64Decode, htake, sdbB64Encode_eq inp hpos, b64Digits_digit (isDigit_first _),
    b64Digits_digit (isDigit_second _ _)]
  obtain rfl | rfl | rfl : len = 1 ∨ len = 2 ∨ len = 3 := by omega
  · obtain ⟨a, inp, rfl⟩ := List.exists_cons_of_length_pos hinp
    simp [b64Digits_pad, join_first]
  · obtain ⟨a, inp, rfl⟩ := List.exists_cons_of_length_pos (Nat.lt_of_lt_of_le hpos hinp)
    obtain ⟨b, inp, rfl⟩ := List.exists_cons_of_length_pos (l := inp) (by simp at hinp; omega)
    simp [b64Digits_digit (isDigit_third b 0), b64Digits_pad, join_first, join_second]
  · obtain ⟨a, inp, rfl⟩ := List.exists_cons_of_length_pos (Nat.lt_of_lt_of_le hpos hinp)
    obtain ⟨b, inp, rfl⟩ := List.exists_cons_of_length_pos (l := inp) (by simp at hinp; omega)
    obtain ⟨c, inp, rfl⟩ := List.exists_cons_of_length_pos (l := inp) (by simp at hinp; omega)
    simp [b64Digits_digit (isDigit_third b c), b64Digits_digit (isDigit_fourth c), b64Digits_nil,
      join_first, join_second, join_third]

/-! ## The whole text -/

theorem length_sdbEncodeRaw (bin : Bytes) (len : Nat) :
    (sdbEncodeRaw bin len).length = 4 * ((len + 2) / 3) := by
  fun_induction sdbEncodeRaw bin len with
  | case1 => rfl
  | case2 bin len hlen ih =>
      rw [List.length_append, length_sdbB64Encode (by omega), ih]
      omega

theorem mem_sdbEncodeRaw {bin : Bytes} {len : Nat} {c : UInt8} (hmem : c ∈ sdbEncodeRaw bin len) :
    c = 61 ∨ ∃ v, IsDigit v ∧ c = cb64At v := by
  fun_induction sdbEncodeRaw bin len with
  | case1 => exact absurd hmem List.not_mem_nil
  | case2 bin len hlen ih =>
      rw [List.mem_append] at hmem
      exact hmem.elim mem_sdbB64Encode ih

theorem zero_not_mem_sdbEncodeRaw (bin : Bytes) (len : Nat) :
    (0 : UInt8) ∉ sdbEncodeRaw bin len := by
  intro hmem
  rcases mem_sdbEncodeRaw hmem with h | ⟨v, hv, h⟩
  · exact absurd h (by decide)
  · exact hv.cb64_ne_zero h.symm

theorem decodeLoop_zero (bin : Bytes) : decodeLoop bin 0 = (0, []) := by
  rw [decodeLoop]
  exact if_pos rfl

/-- One round of the decoder's loop, over a block that stands for `n` bytes. -/
theorem decodeLoop_block {bin : Bytes} {len n : Nat} (hlen : len ≠ 0) (hn : 0 < n)
    (hret : (sdbB64Decode bin).1 = n) :
    decodeLoop bin len =
      ((decodeLoop (bin.drop 4) (len - 4)).1 + 4,
        (sdbB64Decode bin).2.take n ++ (decodeLoop (bin.drop 4) (len - 4)).2) := by
  rw [decodeLoop, if_neg hlen]
  dsimp only
  rw [if_neg (by omega), hret, Int.toNat_natCast]

/-- The loop of the decoder takes every block of an encoded text. -/
theorem decodeLoop_sdbEncodeRaw {bin : Bytes} {len : Nat} (h : len ≤ bin.length) (rest : Bytes) :
    decodeLoop (sdbEncodeRaw bin len ++ rest) (sdbEncodeRaw bin len).length =
      ((sdbEncodeRaw bin len).length, bin.take len) := by
  fun_induction sdbEncodeRaw bin len with
  | case1 => exact decodeLoop_zero _
  | case2 bin len hlen ih =>
      have hpos : 0 < min len 3 := by omega
      have hblock : (sdbB64Encode bin (min len 3)).length = 4 := length_sdbB64Encode hpos
      obtain ⟨hret, hbytes⟩ := sdbB64Decode_encode bin
        (sdbEncodeRaw (bin.drop 3) (len - 3) ++ rest) hpos (Nat.min_le_right _ _) (by omega)
      have hrest := ih (by rw [List.length_drop]; omega)
      have hsplit : bin.take len = bin.take (min len 3) ++ (bin.drop 3).take (len - 3) := by
        rcases Nat.le_total len 3 with hle | hle
        · rw [Nat.min_eq_left hle, Nat.sub_eq_zero_of_le hle, List.take_zero, List.append_nil]
        · rw [Nat.min_eq_right hle, ← List.take_add, Nat.add_sub_cancel' hle]
      rw [List.append_assoc, decodeLoop_block (by rw [List.length_append]; omega) hpos hret,
        List.drop_left' hblock, List.length_append, hblock, Nat.add_sub_cancel_left, hrest, hbytes,
        hsplit, Nat.add_comm]

/-- The string that `sdb_encode` makes of the bytes. -/
def encoded (b : Bytes) : CStr := CStr.ofBytes (sdbEncodeRaw b b.length ++ [0])

theorem sdbEncode_length {b : Bytes} (hb : b ≠ []) (hlen : b.length < 2 ^ 28) :
    sdbEncode (some b) b.length = some (encoded b) := by
  have hpos : 0 < b.length := List.length_pos_of_ne_nil hb
  simp only [sdbEncode, encoded]
  rw [if_neg (by omega), if_neg (by omega), if_neg (by omega), Int.toNat_natCast]

theorem val_encoded (b : Bytes) : (encoded b).val = sdbEncodeRaw b b.length :=
  CStr.takeWhile_append_zero (zero_not_mem_sdbEncodeRaw b b.length) []

theorem length_encoded (b : Bytes) : (encoded b).length = 4 * ((b.length + 2) / 3) := by
  rw [CStr.length, val_encoded, length_sdbEncodeRaw]

theorem sdbDecodeRaw_encoded {b : Bytes} (hb : b ≠ []) :
    sdbDecodeRaw (encoded b).bytesZ (encoded b).length = (b.length, b) := by
  have hpos : 0 < b.length := List.length_pos_of_ne_nil hb
  have hraw := length_sdbEncodeRaw b b.length
  rw [sdbDecodeRaw, CStr.bytesZ, CStr.length, val_encoded, decodeLoop_sdbEncodeRaw (Nat.le_refl _),
    List.take_length]
  refine Prod.ext (if_pos ?_) rfl
  change (sdbEncodeRaw b b.length).length ≠ b.length
  omega

theorem ut32OfInt_natCast {n : Nat} (h : n < 4294967296) : ut32OfInt n = n := by
  rw [ut32OfInt, Int.emod_eq_of_lt (by omega) (by omega), Int.toNat_natCast]

/-- `sdb_decode` gives back what `sdb_encode` was given, bytes that are NUL included. -/
theorem sdbDecode_sdbEncode {b : Bytes} (hb : b ≠ []) (hlen : b.length < 2 ^ 28) :
    (sdbEncode (some b) b.length).bind (fun s ↦ sdbDecode (some s)) = some (b, b.length) := by
  have hpos : 0 < b.length := List.length_pos_of_ne_nil hb
  have hlong := length_encoded b
  have hilen : intOfSize (encoded b).length = (encoded b).length := intOfSize_of_lt (by omega)
  have hsize : ¬ ut32OfInt ((encoded b).length * 3 + 16) < ut32OfInt (encoded b).length := by
    have hut32 := ut32OfInt_natCast (n := (encoded b).length * 3 + 16) (by omega)
    push_cast at hut32
    rw [hut32, ut32OfInt_natCast (by omega)]
    omega
  rw [sdbEncode_length hb hlen, Option.bind_some]
  simp only [sdbDecode, hilen]
  rw [if_neg (by omega), if_neg hsize, Int.toNat_natCast, sdbDecodeRaw_encoded hb]
  exact if_neg (by omega)

theorem sdbDecode_sdbEncode_nul :
    (sdbEncode (some [0, 255]) 2).bind (fun s ↦ sdbDecode (some s)) = some ([0, 255], 2) :=
  sdbDecode_sdbEncode (b := [0, 255]) (by decide) (by decide)

end SdbStore
