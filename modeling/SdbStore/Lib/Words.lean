import SdbStore.Lib.Bytes
import Mathlib.Algebra.Group.Nat.Defs

/-!
# Numbers in a block of memory

Numbers of any width, least significant byte first, are stored into a block and loaded from it.  A
number that has been stored is loaded again, and what lies before it stays.
-/

namespace SdbStore.Lib

/-- The last `n` bytes of a number, least significant first. -/
def leN : Nat → Nat → Bytes
  | 0, _ => []
  | n + 1, v => UInt8.ofNat v :: leN n (v / 256)

/-- The number that the bytes spell. -/
def unleN : Bytes → Nat
  | [] => 0
  | b :: l => b.toNat + 256 * unleN l

@[simp] theorem length_leN (n v : Nat) : (leN n v).length = n := by
  induction n generalizing v with
  | zero => rfl
  | succ n ih => rw [leN, List.length_cons, ih]

theorem unleN_lt (l : Bytes) : unleN l < 256 ^ l.length := by
  induction l with
  | nil => exact Nat.one_pos
  | cons b l ih =>
      have hb := b.toNat_lt
      rw [unleN, List.length_cons, Nat.pow_succ]
      omega

theorem unleN_leN (n v : Nat) : unleN (leN n v) = v % 256 ^ n := by
  induction n generalizing v with
  | zero => exact (Nat.mod_one v).symm
  | succ n ih =>
      have hbyte : (UInt8.ofNat v).toNat = v % 256 := UInt8.toNat_ofNat'
      rw [leN, unleN, ih, hbyte, Nat.pow_succ, Nat.mul_comm (256 ^ n), Nat.mod_mul]

/-- The number of `n` bytes at an offset. -/
def load (n : Nat) (m : Bytes) (off : Nat) : Nat := unleN (slice m off n)

/-- The block with other bytes from an offset on. -/
def store (m : Bytes) (off : Nat) (b : Bytes) : Bytes := m.take off ++ b ++ m.drop (off + b.length)

theorem load_lt (n : Nat) (m : Bytes) (off : Nat) : load n m off < 256 ^ n := by
  refine Nat.lt_of_lt_of_le (unleN_lt _) (Nat.pow_le_pow_right (by decide) ?_)
  exact List.length_take_le _ _

section Store

variable {m b : Bytes} {off : Nat} (h : off + b.length ≤ m.length)
include h

theorem length_store : (store m off b).length = m.length := by
  rw [store, List.length_append, List.length_append, List.length_take, List.length_drop]
  omega

/-- What has been stored is loaded again. -/
theorem slice_store : slice (store m off b) off b.length = b := by
  rw [store, List.append_assoc]
  exact slice_mid (by rw [List.length_take]; omega) rfl

/-- What lies before it is loaded as before. -/
theorem load_store_of_le {off' n : Nat} (hn : off' + n ≤ off) :
    load n (store m off b) off' = load n m off' := by
  rw [load, load, store, List.append_assoc, slice_append_left (by rw [List.length_take]; omega)]
  conv_rhs => rw [← List.take_append_drop off m]
  rw [slice_append_left (by rw [List.length_take]; omega)]

end Store

theorem load_store_self {m : Bytes} {off n v : Nat} (h : off + n ≤ m.length) :
    load n (store m off (leN n v)) off = v % 256 ^ n := by
  have hslice := slice_store (m := m) (b := leN n v) (by rw [length_leN]; exact h)
  rw [length_leN] at hslice
  rw [load, hslice, unleN_leN]

end SdbStore.Lib
