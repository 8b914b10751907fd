import SdbStore.Lib.Bytes

/-!
# C strings and the database hash

Keys, values and paths are C strings.  A C string is a byte string without NUL,
and a pointer into a block of memory is read as the bytes before the first NUL.
Lengths are natural numbers; the source keeps them in `ut32` or `int`, and no
string here is 4 GiB long.
-/

namespace SdbStore

open Lib

/-- A C string: the bytes before the terminating NUL. -/
def CStr := { l : Bytes // (0 : UInt8) ∉ l }

namespace CStr

instance : DecidableEq CStr := inferInstanceAs (DecidableEq { l : Bytes // (0 : UInt8) ∉ l })

/-- The C string that a block of memory is read as. -/
def ofBytes (l : Bytes) : CStr :=
  ⟨l.takeWhile (· != 0), fun h ↦ by
    induction l with
    | nil => simp at h
    | cons a l ih =>
        by_cases ha : a = 0
        · simp [ha] at h
        · rw [List.takeWhile_cons_of_pos (by simp [ha]), List.mem_cons] at h
          rcases h with h | h
          · exact ha h.symm
          · exact ih h⟩

/-- The empty string. -/
def empty : CStr := ⟨[], by simp⟩

instance : Inhabited CStr := ⟨empty⟩

/-- `strlen`. -/
def length (s : CStr) : Nat := s.val.length

/-- The bytes of the string with its terminator, as they lie in memory and in a
file. -/
def bytesZ (s : CStr) : Bytes := s.val ++ [0]

/-- Concatenation. -/
def append (s t : CStr) : CStr :=
  ⟨s.val ++ t.val, fun h ↦ (List.mem_append.mp h).elim s.property t.property⟩

instance : Append CStr := ⟨append⟩

@[ext] theorem ext {s t : CStr} (h : s.val = t.val) : s = t := Subtype.ext h

@[simp] theorem length_bytesZ (s : CStr) : s.bytesZ.length = s.length + 1 := by
  simp [bytesZ, length]

theorem length_eq_zero {s : CStr} : s.length = 0 ↔ s = empty := by
  constructor
  · exact fun h ↦ ext (List.eq_nil_of_length_eq_zero h)
  · exact fun h ↦ by rw [h]; rfl

theorem takeWhile_append_zero {l : Bytes} (hl : (0 : UInt8) ∉ l) (r : Bytes) :
    (l ++ 0 :: r).takeWhile (· != 0) = l := by
  rw [List.takeWhile_append_of_pos, List.takeWhile_cons_of_neg (by simp), List.append_nil]
  intro a ha
  have hne : a ≠ 0 := fun h ↦ hl (h ▸ ha)
  simp [hne]

/-- A string is read back from its bytes, whatever follows the terminator. -/
@[simp] theorem ofBytes_bytesZ_append (s : CStr) (r : Bytes) : ofBytes (s.bytesZ ++ r) = s := by
  apply ext
  change (s.val ++ [0] ++ r).takeWhile (· != 0) = s.val
  rw [List.append_assoc]
  exact takeWhile_append_zero s.property r

@[simp] theorem ofBytes_bytesZ (s : CStr) : ofBytes s.bytesZ = s := by
  have h := ofBytes_bytesZ_append s []
  rwa [List.append_nil] at h

/-- Bytes before the first NUL are read as they are. -/
theorem val_ofBytes_append {l : Bytes} (hl : (0 : UInt8) ∉ l) (r : Bytes) :
    (ofBytes (l ++ r)).val = l ++ (ofBytes r).val := by
  refine List.takeWhile_append_of_pos fun a ha ↦ ?_
  have hne : a ≠ 0 := fun h ↦ hl (h ▸ ha)
  simp [hne]

theorem val_ofBytes {l : Bytes} (hl : (0 : UInt8) ∉ l) : (ofBytes l).val = l := by
  have h := val_ofBytes_append hl []
  rw [List.append_nil] at h
  rw [h]
  exact List.append_nil _

/-- A string is read back from its bytes alone. -/
theorem ofBytes_val (s : CStr) : ofBytes s.val = s := ext (val_ofBytes s.property)

/-- What follows a NUL is not read. -/
theorem ofBytes_append_zero {l : Bytes} (hl : (0 : UInt8) ∉ l) (r : Bytes) :
    ofBytes (l ++ 0 :: r) = ofBytes l := by
  refine ext ?_
  rw [val_ofBytes_append hl, val_ofBytes hl]
  exact List.append_nil l

theorem take_bytesZ_eq {s t : CStr} {n : Nat} (h : s.bytesZ.take n = t.bytesZ) : s = t := by
  have h' := congrArg (fun l ↦ ofBytes (l ++ s.bytesZ.drop n)) h
  simpa only [List.take_append_drop, ofBytes_bytesZ, ofBytes_bytesZ_append] using h'

end CStr

/-- Arithmetic of `ut32`. -/
def ut32 (n : Nat) : Nat := n % 4294967296

theorem ut32_lt (n : Nat) : ut32 n < 4294967296 := Nat.mod_lt _ (by decide)

theorem ut32_of_lt {n : Nat} (h : n < 4294967296) : ut32 n = n := Nat.mod_eq_of_lt h

/-- A `char` in an `int` expression; `char` is signed, as on x86. -/
def charToInt (c : UInt8) : UInt32 :=
  if c < 128 then c.toUInt32 else c.toUInt32 ||| 0xffffff00

/-- `SDB_HASH_ONELINER`: `h = (h + (h << 5)) ^ *s++`. -/
def sdbHashOneliner (h : UInt32) (c : UInt8) : UInt32 := (h + (h <<< 5)) ^^^ charToInt c

/-- `sdb_hash`, from `CDB_HASHSTART` on. -/
def sdbHash (s : CStr) : Nat := (s.val.foldl sdbHashOneliner 5381).toNat

theorem sdbHash_lt (s : CStr) : sdbHash s < 4294967296 := UInt32.toNat_lt _

example : sdbHash (CStr.ofBytes [97]) = 177604 := by decide

end SdbStore
