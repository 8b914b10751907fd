import Mathlib.Data.List.Lex
import SdbStore.Array.Elem

/-!
# The order of elements

`astrcmp` reads two pointers up to a comma or the end, and compares the bytes as `char`s.  So it
compares the elements at the pointers, lexicographically, whatever comes behind them.
-/

namespace SdbStore

open Lib

/-- The element at a pointer, as `char`s. -/
def elemKey (p : Bytes) : List Int := (p.takeWhile fun c ↦ !aEnd c).map fun c ↦ c.toInt8.toInt

theorem elemKey_nil : elemKey [] = [] := rfl

theorem elemKey_end {a : UInt8} (ha : aEnd a = true) (as : Bytes) : elemKey (a :: as) = [] := by
  rw [elemKey, List.takeWhile_cons_of_neg (by simp [ha])]
  rfl

theorem elemKey_cons {a : UInt8} (ha : aEnd a = false) (as : Bytes) :
    elemKey (a :: as) = a.toInt8.toInt :: elemKey as := by
  rw [elemKey, List.takeWhile_cons_of_pos (by simp [ha])]
  rfl

theorem toInt_toInt8_injective : Function.Injective fun c : UInt8 ↦ c.toInt8.toInt :=
  fun _ _ h ↦ congrArg Int8.toUInt8 (Int8.toInt_inj.mp h)

/-- The sign of a comparison. -/
def signOf (x y : List Int) : Int := if x = y then 0 else if x < y then -1 else 1

theorem signOf_nil_cons (b : Int) (y : List Int) : signOf [] (b :: y) = -1 := by
  rw [signOf, if_neg (List.cons_ne_nil b y).symm, if_pos (List.nil_lt_cons b y)]

theorem signOf_cons_nil (a : Int) (x : List Int) : signOf (a :: x) [] = 1 := by
  rw [signOf, if_neg (List.cons_ne_nil a x), if_neg (List.not_lt_nil _)]

theorem signOf_cons (a : Int) (x y : List Int) : signOf (a :: x) (a :: y) = signOf x y := by
  simp [signOf]

theorem signOf_cons_of_ne {a b : Int} (h : a ≠ b) (x y : List Int) :
    signOf (a :: x) (b :: y) = if a > b then 1 else -1 := by
  rw [signOf, if_neg (fun hno ↦ h (List.cons.inj hno).1)]
  rcases Int.lt_or_gt_of_ne h with hlt | hgt
  · rw [if_pos (List.cons_lt_cons_iff.mpr (.inl hlt)), if_neg (by omega)]
  · rw [if_neg (fun hno ↦ ?_), if_pos hgt]
    rcases List.cons_lt_cons_iff.mp hno with hlt | heq
    · omega
    · exact h heq.1

/-- `astrcmp` compares the elements. -/
theorem astrcmp_eq (a b : Bytes) : astrcmp a b = signOf (elemKey a) (elemKey b) := by
  induction a generalizing b with
  | nil =>
      cases b with
      | nil => rfl
      | cons b bs =>
          rw [astrcmp]
          cases hb : aEnd b with
          | true => rw [elemKey_end hb]; rfl
          | false => rw [elemKey_cons hb, elemKey_nil, signOf_nil_cons]; rfl
  | cons a as ih =>
      cases ha : aEnd a with
      | true =>
          rw [elemKey_end ha]
          cases b with
          | nil => rw [astrcmp, if_pos ha]; rfl
          | cons b bs =>
              rw [astrcmp, if_pos ha]
              cases hb : aEnd b with
              | true => rw [elemKey_end hb]; rfl
              | false => rw [elemKey_cons hb, signOf_nil_cons]; rfl
      | false =>
          rw [elemKey_cons ha]
          cases b with
          | nil => rw [astrcmp, ha, elemKey_nil, signOf_cons_nil]; rfl
          | cons b bs =>
              rw [astrcmp, ha]
              cases hb : aEnd b with
              | true => rw [elemKey_end hb, signOf_cons_nil]; rfl
              | false =>
                  rw [elemKey_cons hb]
                  by_cases hab : a = b
                  · rw [hab, signOf_cons, ← ih bs]
                    simp
                  · rw [signOf_cons_of_ne fun hno ↦ hab (toInt_toInt8_injective hno)]
                    simp [hab, Int8.lt_iff_toInt_lt]

theorem astrcmp_lt_iff {a b : Bytes} : astrcmp a b < 0 ↔ elemKey a < elemKey b := by
  rw [astrcmp_eq, signOf]
  split
  · next h => simp [h]
  · split
    · next h => simp [h]
    · next h => simp [h]

theorem astrcmp_eq_zero_iff {a b : Bytes} : astrcmp a b = 0 ↔ elemKey a = elemKey b := by
  rw [astrcmp_eq, signOf]
  split
  · next h => simp [h]
  · next h =>
      split
      · simp [h]
      · simp [h]

theorem astrcmp_le_iff {a b : Bytes} : astrcmp a b ≤ 0 ↔ elemKey a ≤ elemKey b := by
  rw [Int.le_iff_lt_or_eq, astrcmp_lt_iff, astrcmp_eq_zero_iff, le_iff_lt_or_eq]

/-! ## Elements -/

/-- An element as `char`s. -/
def Elem.key (e : Elem) : List Int := elemKey e.bytes

theorem Elem.not_aEnd {e : Elem} {c : UInt8} (hc : c ∈ e.bytes) : aEnd c = false := by
  have h0 : c ≠ 0 := fun hno ↦ e.zero_notMem (hno ▸ hc)
  have hsep : c ≠ sdbRs := fun hno ↦ e.sep_notMem (hno ▸ hc)
  simp [aEnd, h0, hsep]

/-- Whatever comes behind the end of an element is not looked at. -/
theorem elemKey_append {r : Bytes} (hr : elemKey r = []) (e : Bytes) :
    elemKey (e ++ r) = elemKey e := by
  induction e with
  | nil => exact hr
  | cons a e ih =>
      cases ha : aEnd a with
      | true => rw [List.cons_append, elemKey_end ha, elemKey_end ha]
      | false => rw [List.cons_append, elemKey_cons ha, elemKey_cons ha, ih]

theorem elemKey_field (e : Bytes) (L : List Bytes) : elemKey (e ++ led sdbRs L) = elemKey e := by
  refine elemKey_append ?_ e
  cases L with
  | nil => rfl
  | cons d L => rw [led_cons, elemKey_end (by decide)]

theorem Elem.key_injective : Function.Injective Elem.key := by
  intro e d h
  have hmap : ∀ e : Elem, e.key = e.bytes.map fun c ↦ c.toInt8.toInt := fun e ↦ by
    rw [Elem.key, elemKey, List.takeWhile_eq_self_iff.mpr fun c hc ↦ by rw [e.not_aEnd hc]; rfl]
  rw [hmap, hmap] at h
  exact Elem.ext (List.map_injective_iff.mpr toInt_toInt8_injective h)

end SdbStore
