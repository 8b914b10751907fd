import SdbStore.Array.Elem

/-!
# Elements that are numbers

`sdb_atoi` reads a number at a pointer into the string of an array.  It stops at the comma, so it
reads the number of the element, and what `sdb_itoa` prints is an element that is read back.
-/

namespace SdbStore

open Lib

/-! ## Reading up to a comma -/

theorem strtoullBase_ne {a : UInt8} (ha : a ≠ 48) (l : Bytes) :
    strtoullBase (a :: l) = (10, a :: l) := by
  rw [strtoullBase]
  · intro x c rest h
    exact ha (List.cons.inj h).1
  · intro l h
    exact ha (List.cons.inj h).1

theorem strtoullBase_comma (e r : Bytes) : strtoullBase (e ++ sdbRs :: r) =
    ((strtoullBase e).1, (strtoullBase e).2 ++ sdbRs :: r) := by
  cases e with
  | nil => rfl
  | cons a e =>
      by_cases ha : a = 48
      · subst ha
        match e with
        | [] =>
            cases r with
            | nil => rfl
            | cons c r => rfl
        | [x] => exact if_neg fun h ↦ absurd h.2 (by decide)
        | x :: c :: rest =>
            rw [List.cons_append, List.cons_append, List.cons_append, strtoullBase, strtoullBase]
            split
            · rfl
            · rfl
      · rw [List.cons_append, strtoullBase_ne ha, strtoullBase_ne ha]
        rfl

theorem strtoullBase_le (s : Bytes) : (strtoullBase s).1 ≤ 16 := by
  unfold strtoullBase
  split
  · split
    · exact Nat.le_refl 16
    · exact Nat.le_of_ble_eq_true rfl
  · exact Nat.le_of_ble_eq_true rfl
  · exact Nat.le_of_ble_eq_true rfl

theorem digitsVal_comma {b : Nat} (hb : b ≤ 16) (e r : Bytes) :
    digitsVal b (e ++ sdbRs :: r) = digitsVal b e := by
  have hstop : (sdbRs :: r).takeWhile (fun c ↦ decide (digitVal c < b)) = [] := by
    refine List.takeWhile_cons_of_neg fun h ↦ ?_
    have hlt : 36 < b := of_decide_eq_true h
    omega
  rw [digitsVal, digitsVal, List.takeWhile_append, hstop]
  split
  · next h => rw [List.append_nil, (List.takeWhile_prefix _).eq_of_length h]
  · rfl

theorem strtoull_comma (e r : Bytes) : strtoull (e ++ sdbRs :: r) = strtoull e := by
  have hdrop : (e ++ sdbRs :: r).dropWhile isSpace = e.dropWhile isSpace ++ sdbRs :: r := by
    rw [List.dropWhile_append, List.dropWhile_cons_of_neg (by decide)]
    split
    · next h => rw [List.isEmpty_iff.mp h, List.nil_append]
    · rfl
  have hval : ∀ l : Bytes, digitsVal (strtoullBase (l ++ sdbRs :: r)).1
      (strtoullBase (l ++ sdbRs :: r)).2 = digitsVal (strtoullBase l).1 (strtoullBase l).2 :=
        fun l ↦ by
    rw [strtoullBase_comma, digitsVal_comma (strtoullBase_le l)]
  rw [strtoull, strtoull, hdrop]
  cases e.dropWhile isSpace with
  | nil =>
      have h := hval []
      rw [List.nil_append] at h ⊢
      rw [List.head?_cons, if_neg (by decide : ¬ (some sdbRs = some 45 ∨ some sdbRs = some 43)), h]
      rfl
  | cons a l =>
      rw [List.cons_append, List.head?_cons, List.head?_cons, List.tail_cons, List.tail_cons]
      by_cases hsign : some a = some 45 ∨ some a = some 43
      · rw [if_pos hsign, if_pos hsign, hval l]
      · rw [if_neg hsign, if_neg hsign, ← List.cons_append, hval (a :: l)]

/-- What comes behind a comma is not read. -/
theorem sdbAtoi_field (e : Bytes) (L : List Bytes) :
    sdbAtoi (some (e ++ led sdbRs L)) = sdbAtoi (some e) := by
  cases L with
  | nil => rw [led_nil, List.append_nil]
  | cons d L =>
      rw [led_cons, sdbAtoi, sdbAtoi, strtoull_comma]
      cases e with
      | nil => rfl
      | cons a e => rfl

/-- The number of an element. -/
def Elem.num (e : Elem) : UInt64 := sdbAtoi (some e.bytes)

/-! ## Printed numbers -/

section Printed

variable {base : Nat} (hbase : base = 8 ∨ base = 10 ∨ base = 16) (n : UInt64)
include hbase

theorem sep_notMem_sdbItoa : sdbRs ∉ sdbItoa n base := by
  have hdigits : sdbRs ∉ digits base n.toNat := by
    intro h
    obtain ⟨d, hd, hd'⟩ := mem_digits (by omega) (by omega) h
    have hval := (digitByte_spec d (by omega)).1
    rw [← hd'] at hval
    have h36 : digitVal sdbRs = 36 := by decide
    omega
  rw [sdbItoa]
  split
  · decide
  · split
    · exact hdigits
    · intro h
      rcases List.mem_cons.mp h with h | h
      · exact absurd h (by decide)
      · rcases List.mem_cons.mp h with h | h
        · exact absurd h (by decide)
        · exact hdigits h

theorem val_ofBytes_sdbItoa : (CStr.ofBytes (sdbItoa n base)).val = sdbItoa n base := by
  have h := CStr.val_ofBytes_append (sdbItoa_text hbase n).1 []
  rwa [List.append_nil, show (CStr.ofBytes []).val = [] from rfl, List.append_nil] at h

end Printed

/-- The element that `sdb_itoa` prints. -/
def itoaElem (n : UInt64) (base : Nat) (hbase : base = 8 ∨ base = 10 ∨ base = 16) : Elem :=
  ⟨CStr.ofBytes (sdbItoa n base), by
    rw [val_ofBytes_sdbItoa hbase]
    exact sep_notMem_sdbItoa hbase n⟩

section Elem

variable {base : Nat} (hbase : base = 8 ∨ base = 10 ∨ base = 16) (n : UInt64)

theorem bytes_itoaElem : (itoaElem n base hbase).bytes = sdbItoa n base :=
  val_ofBytes_sdbItoa hbase n

theorem itoaElem_ne : itoaElem n base hbase ≠ Elem.empty := by
  intro h
  have hbytes := congrArg Elem.bytes h
  rw [bytes_itoaElem] at hbytes
  exact (sdbItoa_text hbase n).2.2.1 hbytes

/-- A number that is printed in decimal or hexadecimal is read back. -/
theorem num_itoaElem (h8 : base ≠ 8) : (itoaElem n base hbase).num = n := by
  rw [Elem.num, bytes_itoaElem, sdbAtoi, if_neg (sdbItoa_text hbase n).2.1]
  exact (strtoull_sdbItoa hbase n).mpr (.inl h8)

end Elem

/-- The element of a number in the base `SDB_NUM_BASE`. -/
def hexElem (n : UInt64) : Elem := itoaElem n 16 (.inr (.inr rfl))

/-- The element of a number in decimal. -/
def decElem (n : UInt64) : Elem := itoaElem n 10 (.inr (.inl rfl))

@[simp] theorem num_hexElem (n : UInt64) : (hexElem n).num = n := num_itoaElem _ n (by decide)

@[simp] theorem num_decElem (n : UInt64) : (decElem n).num = n := num_itoaElem _ n (by decide)

end SdbStore
