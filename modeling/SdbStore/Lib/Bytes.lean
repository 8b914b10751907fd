import Mathlib.Data.List.Basic
import Mathlib.Tactic.Common

/-!
# Byte strings: slices, little-endian words, NUL-terminated strings

A file is a list of bytes and reading it is taking a slice.  This file collects
the few facts about slices of concatenations that a file format needs, the
little-endian coding of 32-bit words, and the C reading of a block of memory as
the bytes before its first NUL.
-/

namespace SdbStore.Lib

universe u

abbrev Bytes := List UInt8

section Slice

variable {α : Type u}

/-- The `n` elements of `l` from position `i` on, fewer when `l` ends before. -/
def slice (l : List α) (i n : Nat) : List α := (l.drop i).take n

theorem length_slice {l : List α} {i n : Nat} (h : i + n ≤ l.length) :
    (slice l i n).length = n := by
  simp only [slice, List.length_take, List.length_drop]
  omega

@[simp] theorem slice_append_right (a b : List α) (i n : Nat) :
    slice (a ++ b) (a.length + i) n = slice b i n := by
  rw [slice, slice, List.drop_length_add_append]

theorem slice_append_right' {a b : List α} {k : Nat} (i n : Nat) (hk : k = a.length + i) :
    slice (a ++ b) k n = slice b i n := by
  rw [hk, slice_append_right]

theorem slice_append_left {a b : List α} {i n : Nat} (h : i + n ≤ a.length) :
    slice (a ++ b) i n = slice a i n := by
  simp only [slice]
  rw [List.drop_append_of_le_length (by omega), List.take_append_of_le_length]
  rw [List.length_drop]
  omega

@[simp] theorem slice_zero_length (a b : List α) : slice (a ++ b) 0 a.length = a := by
  simp [slice]

theorem slice_zero {a b : List α} {n : Nat} (hn : n = a.length) : slice (a ++ b) 0 n = a := by
  rw [hn, slice_zero_length]

theorem slice_add (l : List α) (i m n : Nat) :
    slice l i (m + n) = slice l i m ++ slice l (i + m) n := by
  simp only [slice]
  rw [List.take_add, List.drop_drop]

/-- A block of a concatenation, found at the total length of what stands before
it. -/
theorem slice_mid {a b c : List α} {i n : Nat} (hi : i = a.length) (hn : n = b.length) :
    slice (a ++ (b ++ c)) i n = b := by
  rw [slice_append_right' 0 n (by omega), slice_zero hn]

/-- Equal blocks of one length, `n` of them after another, are found at
multiples of that length. -/
theorem slice_flatMap {β : Type u} (f : β → List α) {n : Nat} (hf : ∀ x, (f x).length = n)
    (l : List β) {j : Nat} (hj : j < l.length) :
    slice (l.flatMap f) (n * j) n = f (l[j]) := by
  induction l generalizing j with
  | nil => exact absurd hj (by simp)
  | cons a l ih =>
      rw [List.flatMap_cons]
      cases j with
      | zero => exact slice_zero (hf a).symm
      | succ j =>
          have hj' : j < l.length := by simpa using hj
          rw [slice_append_right' (n * j) n (by rw [hf a, Nat.mul_succ, Nat.add_comm]), ih hj']
          rfl

theorem length_flatMap_const {β : Type u} (f : β → List α) {n : Nat}
    (hf : ∀ x, (f x).length = n) (l : List β) : (l.flatMap f).length = n * l.length := by
  induction l with
  | nil => simp
  | cons a l ih =>
      rw [List.flatMap_cons, List.length_append, hf a, ih, List.length_cons, Nat.mul_succ,
        Nat.add_comm]

end Slice

/-! ## Little-endian words -/

/-- The four bytes of a word below `2 ^ 32`, least significant first. -/
def le32 (u : Nat) : Bytes :=
  [UInt8.ofNat u, UInt8.ofNat (u / 256), UInt8.ofNat (u / 65536), UInt8.ofNat (u / 16777216)]

/-- The word spelt by the first four bytes of a block. -/
def unle32 (b : Bytes) : Nat :=
  (b.getD 0 0).toNat + 256 * (b.getD 1 0).toNat + 65536 * (b.getD 2 0).toNat +
    16777216 * (b.getD 3 0).toNat

@[simp] theorem length_le32 (u : Nat) : (le32 u).length = 4 := rfl

theorem unle32_le32_append {u : Nat} (hu : u < 4294967296) (b : Bytes) :
    unle32 (le32 u ++ b) = u := by
  simp only [unle32, le32, List.cons_append, List.nil_append, List.getD_cons_zero,
    List.getD_cons_succ, UInt8.toNat_ofNat']
  omega

theorem unle32_le32 {u : Nat} (hu : u < 4294967296) : unle32 (le32 u) = u := by
  have h := unle32_le32_append hu []
  rwa [List.append_nil] at h

end SdbStore.Lib
