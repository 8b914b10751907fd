import Mathlib.Algebra.Group.Int.Defs
import SdbStore.Sdb

/-!
# Numbers

`num.c` and the parts of `util.c` that it uses: a number is kept as its text, in the base of the
text that it replaces.  A key without a value gets the base `SDB_NUM_BASE`.
-/

namespace SdbStore

open Lib

/-- `isspace`, in the locale `C`. -/
def isSpace (c : UInt8) : Bool := c = 32 ∨ 9 ≤ c ∧ c ≤ 13

/-- The value of a digit, in any base. -/
def digitVal (c : UInt8) : Nat :=
  if 48 ≤ c ∧ c ≤ 57 then c.toNat - 48
  else if 97 ≤ c ∧ c ≤ 122 then c.toNat - 87
  else if 65 ≤ c ∧ c ≤ 90 then c.toNat - 55
  else 36

/-- The value of the digits at the beginning of a text. -/
def digitsVal (base : Nat) (s : Bytes) : Nat :=
  (s.takeWhile fun c ↦ digitVal c < base).foldl (fun n c ↦ n * base + digitVal c) 0

/-- The base that `strtoull` finds out, and the text without what says so. -/
def strtoullBase (s : Bytes) : Nat × Bytes :=
  match s with
  | 48 :: x :: c :: rest =>
      if (x = 120 ∨ x = 88) ∧ digitVal c < 16 then (16, c :: rest) else (8, s)
  | 48 :: _ => (8, s)
  | _ => (10, s)

/-- `strtoull` with the base 0. -/
def strtoull (s : Bytes) : UInt64 :=
  let s := s.dropWhile isSpace
  let neg := s.head? = some 45
  let s := if s.head? = some 45 ∨ s.head? = some 43 then s.tail else s
  let b := strtoullBase s
  let n := digitsVal b.1 b.2
  if n ≥ 2 ^ 64 then 0xffffffffffffffff
  else if neg then 0 - UInt64.ofNat n
  else UInt64.ofNat n

/-- `sdb_atoi`. -/
def sdbAtoi (s : Option Bytes) : UInt64 :=
  match s with
  | none => 0
  | some s => if s.head? = some 45 then 0 else strtoull s

/-- `atoi`, for numbers that an `int` can hold. -/
def atoi (s : Bytes) : Int :=
  let s := s.dropWhile isSpace
  if s.head? = some 45 then -(digitsVal 10 s.tail : Int)
  else if s.head? = some 43 then digitsVal 10 s.tail
  else digitsVal 10 s

/-- A number as an `int`. -/
def toInt (n : UInt64) : Int := (BitVec.ofNat 32 n.toNat).toInt

/-- An `int` as a `ut64`. -/
def ofInt (n : Int) : UInt64 := UInt64.ofNat (n % 2 ^ 64).toNat

/-- The digits of a number. -/
def digits (base n : Nat) : Bytes := (Nat.toDigits base n).map fun c ↦ UInt8.ofNat c.toNat

/-- `sdb_itoa`, for the bases 8, 10 and 16. -/
def sdbItoa (n : UInt64) (base : Nat) : Bytes :=
  if n = 0 then [48]
  else if base ≤ 10 then digits base n.toNat
  else 48 :: 120 :: digits base n.toNat

/-- `sdb_isnum`. -/
def sdbIsnum (s : Bytes) : Bool :=
  match s with
  | [] => false
  | c :: _ => c = 45 ∨ c = 43 ∨ 48 ≤ c ∧ c ≤ 57

/-- `SDB_NUM_BASE`. -/
def sdbNumDefault : Nat := 16

/-- `sdb_num_base`. -/
def sdbNumBase (s : Option Bytes) : Nat :=
  match s with
  | none => sdbNumDefault
  | some s =>
      if s.take 2 = [48, 120] then 16 else if s.head? = some 48 ∧ s.length > 1 then 8 else 10

/-- `sdb_num_parse`. -/
def sdbNumParse (v : Option CStr) : UInt64 :=
  match v with
  | none => 0
  | some v => if v.val.head? = some 45 then 0 else sdbAtoi (some v.val)

/-- `sdb_num_get`: the number, and the counter of its entry. -/
def sdbNumGet (s : Sdb) (w : World) (key : CStr) : (UInt64 × Nat) × Sdb × World :=
  let r := sdbConstGetLen s w key
  ((sdbNumParse r.1.value, r.1.cas), r.2)

/-- `sdb_num_set`. -/
def sdbNumSet (s : Sdb) (w : World) (key : CStr) (v : UInt64) (cas : Nat) : Bool × Sdb × World :=
  let r := sdbConstGetLen s w key
  let numbase := sdbNumBase (r.1.value.map (·.val))
  sdbSet r.2.1 r.2.2 key (CStr.ofBytes (sdbItoa v numbase)) cas

/-- `sdb_num_inc`. -/
def sdbNumInc (s : Sdb) (w : World) (key : CStr) (n2 : UInt64) (cas : Nat) :
    UInt64 × Sdb × World :=
  let r := sdbNumGet s w key
  let res := r.1.1 + n2
  if (cas ≠ 0 ∧ r.1.2 ≠ cas) ∨ res < r.1.1 then (0, r.2)
  else (res, (sdbNumSet r.2.1 r.2.2 key res cas).2)

/-- `sdb_num_dec`. -/
def sdbNumDec (s : Sdb) (w : World) (key : CStr) (n2 : UInt64) (cas : Nat) :
    UInt64 × Sdb × World :=
  let r := sdbNumGet s w key
  if cas ≠ 0 ∧ r.1.2 ≠ cas then (0, r.2)
  else if n2 > r.1.1 then (0, (sdbSet r.2.1 r.2.2 key (CStr.ofBytes [48]) cas).2)
  else (r.1.1 - n2, (sdbNumSet r.2.1 r.2.2 key (r.1.1 - n2) cas).2)

/-- `sdb_num_min`. -/
def sdbNumMin (db : Sdb) (w : World) (k : CStr) (n : UInt64) (cas : Nat) : Bool × Sdb × World :=
  let r := sdbConstGetLen db w k
  if cas ≠ 0 ∧ r.1.cas ≠ cas then (false, r.2)
  else
    match r.1.value with
    | none => sdbNumSet r.2.1 r.2.2 k n cas
    | some a => if n < sdbAtoi (some a.val) then sdbNumSet r.2.1 r.2.2 k n cas else (false, r.2)

/-- `sdb_num_max`. -/
def sdbNumMax (db : Sdb) (w : World) (k : CStr) (n : UInt64) (cas : Nat) : Bool × Sdb × World :=
  let r := sdbConstGetLen db w k
  if cas ≠ 0 ∧ r.1.cas ≠ cas then (false, r.2)
  else
    match r.1.value with
    | none => sdbNumSet r.2.1 r.2.2 k n cas
    | some a => if n > sdbAtoi (some a.val) then sdbNumSet r.2.1 r.2.2 k n cas else (false, r.2)

end SdbStore
