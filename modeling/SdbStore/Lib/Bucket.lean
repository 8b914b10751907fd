import Mathlib.Algebra.GroupWithZero.Nat
import Mathlib.Data.List.Basic
import Mathlib.Tactic.Common

/-!
# Counting sort

The elements of a list are moved into one array, sorted by a key: the array has a
section for each value of the key, as long as there are elements with that key, and
the elements are placed from the end of their section towards its start.  Going
through the list from its end, this keeps the order of the list within a section.
-/

namespace SdbStore.Lib.Bucket

universe u

variable {α : Type u} (key : α → Nat)

/-- The elements with key `i`. -/
def bucket (l : List α) (i : Nat) : List α := l.filter fun a ↦ key a == i

/-- Where the section of key `i` begins. -/
def first (count : Nat → Nat) (i : Nat) : Nat := ((List.range i).map count).sum

/-- Put an element before those already in its section: `start` says where the used
part of each section begins. -/
def place (a : α) (st : (Nat → Nat) × (Nat → α)) : (Nat → Nat) × (Nat → α) :=
  let i := st.1 (key a) - 1
  (Function.update st.1 (key a) i, Function.update st.2 i a)

variable {key}

theorem first_succ (count : Nat → Nat) (i : Nat) :
    first count (i + 1) = first count i + count i := by
  simp [first, List.range_succ]

theorem first_mono (count : Nat → Nat) {i j : Nat} (h : i ≤ j) : first count i ≤ first count j := by
  induction h with
  | refl => exact Nat.le_refl _
  | step _ ih => exact Nat.le_trans ih (by rw [first_succ]; exact Nat.le_add_right _ _)

theorem bucket_cons_self (a : α) (l : List α) :
    bucket key (a :: l) (key a) = a :: bucket key l (key a) := by
  simp [bucket]

theorem bucket_cons_of_ne {a : α} {i : Nat} (h : i ≠ key a) (l : List α) :
    bucket key (a :: l) i = bucket key l i := by
  simp [bucket, Ne.symm h]

theorem countP_lt_succ (l : List α) (n : Nat) :
    (l.countP fun a ↦ decide (key a < n + 1)) =
      (l.countP fun a ↦ decide (key a < n)) + (bucket key l n).length := by
  induction l with
  | nil => rfl
  | cons a l ih =>
      rw [List.countP_cons, List.countP_cons, ih]
      rcases Nat.lt_trichotomy (key a) n with h | h | h
      · rw [bucket_cons_of_ne (Nat.ne_of_gt h), if_pos (by simpa using Nat.lt_succ_of_lt h),
          if_pos (by simpa using h)]
        omega
      · subst h
        rw [bucket_cons_self, List.length_cons, if_pos (by simp), if_neg (by simp)]
        omega
      · rw [bucket_cons_of_ne (Nat.ne_of_lt h), if_neg (by simpa using Nat.succ_le_of_lt h),
          if_neg (by simpa using Nat.le_of_lt h)]
        omega

/-- The sections of the first `n` keys hold the elements with such a key. -/
theorem first_length_bucket (l : List α) (n : Nat) :
    first (fun i ↦ (bucket key l i).length) n = l.countP fun a ↦ decide (key a < n) := by
  induction n with
  | zero => simp [first]
  | succ n ih => rw [first_succ, ih, countP_lt_succ]

/-- The state of the sort once the elements of `l` are placed. -/
structure Placed (key : α → Nat) (count : Nat → Nat) (l : List α)
    (st : (Nat → Nat) × (Nat → α)) : Prop where
  start : ∀ i, st.1 i + (bucket key l i).length = first count (i + 1)
  elems : ∀ i u a, (bucket key l i)[u]? = some a → st.2 (st.1 i + u) = a

/-- Two sections do not overlap. -/
theorem index_ne (count : Nat → Nat) {i j x y : Nat} (hij : i ≠ j) (hx : first count i ≤ x)
    (hx' : x < first count (i + 1)) (hy : first count j ≤ y) (hy' : y < first count (j + 1)) :
    x ≠ y := by
  rcases Nat.lt_or_gt_of_ne hij with h | h
  · have : first count (i + 1) ≤ first count j := first_mono count h
    omega
  · have : first count (j + 1) ≤ first count i := first_mono count h
    omega

theorem Placed.place {count : Nat → Nat} {l : List α} {a : α} {st : (Nat → Nat) × (Nat → α)}
    (h : Placed key count l st) (hle : ∀ i, (bucket key (a :: l) i).length ≤ count i) :
    Placed key count (a :: l) (place key a st) := by
  have hstart := h.start (key a)
  have hroom := hle (key a)
  rw [bucket_cons_self, List.length_cons] at hroom
  rw [first_succ] at hstart
  constructor
  · intro i
    by_cases hi : i = key a
    · subst hi
      rw [bucket_cons_self, List.length_cons, first_succ]
      simp only [Bucket.place, Function.update_self]
      omega
    · rw [bucket_cons_of_ne hi]
      simp only [Bucket.place, Function.update_of_ne hi]
      exact h.start i
  · intro i u b hb
    by_cases hi : i = key a
    · subst hi
      rw [bucket_cons_self] at hb
      simp only [Bucket.place, Function.update_self]
      cases u with
      | zero =>
          rw [Nat.add_zero, Function.update_self]
          exact Option.some.inj hb
      | succ u =>
          rw [Function.update_of_ne (by omega),
            show st.1 (key a) - 1 + (u + 1) = st.1 (key a) + u by omega]
          exact h.elems _ u b hb
    · rw [bucket_cons_of_ne hi] at hb
      simp only [Bucket.place, Function.update_of_ne hi]
      have hu := (List.getElem?_eq_some_iff.mp hb).1
      have hi' := h.start i
      have hlei := hle i
      rw [bucket_cons_of_ne hi] at hlei
      rw [first_succ] at hi'
      rw [Function.update_of_ne]
      · exact h.elems i u b hb
      · refine index_ne count hi ?_ ?_ ?_ ?_
        · omega
        · rw [first_succ]; omega
        · omega
        · rw [first_succ]; omega

theorem placed_foldr {count : Nat → Nat} (f : Nat → α) (l : List α)
    (hle : ∀ i, (bucket key l i).length ≤ count i) :
    Placed key count l (l.foldr (place key) (fun i ↦ first count (i + 1), f)) := by
  induction l with
  | nil => exact ⟨fun _ ↦ rfl, fun _ _ _ h ↦ nomatch h⟩
  | cons a l ih =>
      refine (ih fun i ↦ Nat.le_trans ?_ (hle i)).place hle
      exact ((List.sublist_cons_self a l).filter _).length_le

/-- **Counting sort.**  When the counts are right, a section holds the elements with
its key in the order of the list. -/
theorem section_foldr {count : Nat → Nat} (f : Nat → α) (l : List α)
    (hcount : ∀ i, count i = (bucket key l i).length) (i : Nat) :
    let st := l.foldr (place key) (fun i ↦ first count (i + 1), f)
    (List.range (count i)).map (fun u ↦ st.2 (st.1 i + u)) = bucket key l i := by
  intro st
  have h : Placed key count l st := placed_foldr f l fun i ↦ Nat.le_of_eq (hcount i).symm
  apply List.ext_getElem
  · rw [List.length_map, List.length_range, hcount]
  · intro u hu hu'
    rw [List.getElem_map, List.getElem_range]
    exact h.elems i u _ (List.getElem?_eq_getElem hu')

end SdbStore.Lib.Bucket
