import SdbStore.Array.Elem
import SdbStore.Base64
import SdbStore.Lib.Checked
import SdbStore.Lib.Filled
import SdbStore.Lib.Runs

/-!
# Arrays as strings

The helpers of `util.c` that count the elements of a string, take some of them, and drop the empty
ones.  They go over the string byte by byte, and do not always see the elements at its ends.  What
they count is an `int`, and so is the length of a slice.
-/

namespace SdbStore.Util

open Lib

/-! ## The code -/

/-- What is behind the first comma: `strchr` and one more. -/
def afterSep : Bytes → Option Bytes
  | [] => none
  | c :: p => if c = sdbRs then some p else afterSep p

theorem length_afterSep {p q : Bytes} (h : afterSep p = some q) : q.length < p.length := by
  induction p with
  | nil => cases h
  | cons c p ih =>
      rw [afterSep] at h
      split at h
      · cases h
        exact Nat.lt_succ_self _
      · exact Nat.lt_succ_of_lt (ih h)

/-- `++` of an `int` that is not negative. -/
def succInt (len : Nat) : Option Nat := checkedInt (len + 1)

/-- The loop of `sdb_alen`. -/
def alenLoop (p : Bytes) (len : Nat) : Option Nat :=
  match _h : afterSep p with
  | none => some len
  | some n => (succInt len).bind fun len ↦ alenLoop n len
termination_by p.length
decreasing_by exact length_afterSep _h

/-- `sdb_alen`.  It has no result if the `int` overflows. -/
def sdbAlen (str : Option CStr) : Option Nat :=
  match str with
  | none => some 0
  | some str => if str.val = [] then some 0 else (alenLoop str.val 0).bind succInt

/-- The last loop of `sdb_alen_ignore_empty`: `p` and `len` at its end. -/
def alenIgnoreEmptyLoop (p : Bytes) (len : Nat) : Option (Bytes × Nat) :=
  match _h : afterSep p with
  | none => some (p, len)
  | some n =>
      if n.head? = some sdbRs then alenIgnoreEmptyLoop n len
      else (succInt len).bind fun len ↦ alenIgnoreEmptyLoop n len
termination_by p.length
decreasing_by
  · exact length_afterSep _h
  · exact length_afterSep _h

/-- The end of `sdb_alen_ignore_empty`: a byte that is left is an element more. -/
def alenIgnoreEmptyEnd (r : Bytes × Nat) : Option Nat := if r.1 ≠ [] then succInt r.2 else some r.2

/-- `sdb_alen_ignore_empty`.  It has no result if the `int` overflows. -/
def sdbAlenIgnoreEmpty (str : Option CStr) : Option Nat :=
  match str with
  | none => some 0
  | some str =>
      if str.val = [] then some 0
      else (alenIgnoreEmptyLoop (str.val.dropWhile (· = sdbRs)) 0).bind alenIgnoreEmptyEnd

/-- One time through the string in `sdb_array_compact`: the string from `p` on, and `changed`. -/
def compactPass : Bytes → Bytes × Bool
  | [] => ([], false)
  | c :: p =>
      if c = sdbRs ∧ p.head? = some sdbRs then
        (c :: (compactPass (p.tail.dropWhile (· = sdbRs))).1, true)
      else (c :: (compactPass p).1, (compactPass p).2)
termination_by p => p.length
decreasing_by
  · have hle := (List.dropWhile_sublist (l := p.tail) fun c ↦ decide (c = sdbRs)).length_le
    rw [List.length_tail] at hle
    rw [List.length_cons]
    omega
  · exact Nat.lt_succ_self _

/-- A turn of the outer loop of `sdb_array_compact`. -/
def compactTurn (start : Bytes) : Option (Bytes ⊕ Bytes) :=
  let r := compactPass start
  some (if r.2 ∧ r.1 ≠ [] then .inl r.1 else .inr r.1)

/-- `sdb_array_compact`, if it comes back. -/
def sdbArrayCompact (p : CStr) : Option CStr := (repeatM compactTurn p.val).map CStr.ofBytes

/-- The loop of `sdb_aslice` with `*p` in front, at the offset `off`: `str` and `end`. -/
def asliceLoop (f t : Int) : Bytes → Nat → Int → Option Nat → Option Nat × Option Nat
  | [], _, _, str => (str, none)
  | c :: p, off, idx, str =>
      let str := if str = none ∧ idx = f then some off else str
      if idx = t then (str, some off)
      else asliceLoop f t p (off + 1) (if c = sdbRs then idx + 1 else idx) str

/-- The end of `sdb_aslice`: the bytes are moved, and their number is an `int`. -/
def asliceMove (out : CStr) (str size : Nat) : Option CStr :=
  let len := intOfSize size
  if len < 0 then none else some (CStr.ofBytes (slice out.val str len.toNat))

/-- `sdb_aslice`.  It has no result if it would move a negative number of bytes. -/
def sdbAslice (out : CStr) (f t : Int) : Option (Option CStr) :=
  if f ≥ t then some none
  else
    match asliceLoop f t out.val 0 0 none with
    | (none, _) => some none
    | (some str, e) => (asliceMove out str (e.getD out.length - str)).map some

/-! ## Counting -/

/-- The elements that are not empty. -/
def nonEmpty (s : CStr) : List Elem := (elements s).filter (· ≠ Elem.empty)

theorem map_bytes_nonEmpty (s : CStr) : (nonEmpty s).map Elem.bytes = filled sdbRs s.val := by
  have hfilter : (fun e : Elem ↦ decide (e ≠ Elem.empty)) =
      (fun x : Bytes ↦ decide (x ≠ [])) ∘ Elem.bytes := by
    funext e
    simp only [Function.comp_apply, ne_eq, Elem.bytes_eq_nil]
  rw [nonEmpty, hfilter, ← List.filter_map, map_bytes_elements, filled]

theorem afterSep_of_notMem {p : Bytes} (h : sdbRs ∉ p) : afterSep p = none := by
  induction p with
  | nil => rfl
  | cons c p ih =>
      rw [List.mem_cons, not_or] at h
      rw [afterSep, if_neg fun hc ↦ h.1 hc.symm, ih h.2]

theorem afterSep_append {x : Bytes} (hx : sdbRs ∉ x) (p : Bytes) :
    afterSep (x ++ sdbRs :: p) = some p := by
  induction x with
  | nil => rw [List.nil_append, afterSep, if_pos rfl]
  | cons c x ih =>
      rw [List.mem_cons, not_or] at hx
      rw [List.cons_append, afterSep, if_neg fun hc ↦ hx.1 hc.symm, ih hx.2]

section Loops

variable {p n : Bytes} (len : Nat)

theorem alenLoop_none (h : afterSep p = none) : alenLoop p len = some len := by
  rw [alenLoop.eq_def]
  split
  · rfl
  · next hn => cases h.symm.trans hn

theorem alenLoop_some (h : afterSep p = some n) :
    alenLoop p len = (succInt len).bind (alenLoop n) := by
  rw [alenLoop.eq_def]
  split
  · next hn => cases h.symm.trans hn
  · next hn =>
      cases h.symm.trans hn
      rfl

theorem alenIgnoreEmptyLoop_none (h : afterSep p = none) :
    alenIgnoreEmptyLoop p len = some (p, len) := by
  rw [alenIgnoreEmptyLoop.eq_def]
  split
  · rfl
  · next hn => cases h.symm.trans hn

theorem alenIgnoreEmptyLoop_some (h : afterSep p = some n) : alenIgnoreEmptyLoop p len =
    if n.head? = some sdbRs then alenIgnoreEmptyLoop n len
    else (succInt len).bind (alenIgnoreEmptyLoop n) := by
  rw [alenIgnoreEmptyLoop.eq_def]
  split
  · next hn => cases h.symm.trans hn
  · next hn =>
      cases h.symm.trans hn
      rfl

end Loops

/-- A comma is found for every element but the last. -/
theorem alenLoop_eq (p : Bytes) {len : Nat} (hlen : len ≤ intMax) :
    (alenLoop p len).bind succInt = checkedInt (len + (p.splitOn sdbRs).length) := by
  induction p using lines_induction sdbRs generalizing len with
  | rest x hx =>
      rw [alenLoop_none len (afterSep_of_notMem hx), List.splitOn_eq_singleton hx]
      rfl
  | line x p hx ih =>
      rw [alenLoop_some len (afterSep_append hx p), List.splitOn_append_cons_self_of_not_mem hx,
        List.length_cons, Option.bind_assoc, Nat.add_comm (p.splitOn sdbRs).length 1,
          ← Nat.add_assoc]
      exact checkedInt_bind ih fun h ↦ checkedInt_of_lt (Nat.lt_add_right _ h)

/-- An element is counted where the commas behind it end: one more is due at a comma. -/
theorem alenIgnoreEmptyLoop_eq (p : Bytes) {len : Nat} (hlen : len ≤ intMax) :
    (alenIgnoreEmptyLoop p len).bind alenIgnoreEmptyEnd =
      checkedInt (len + ((filled sdbRs p).length + (if p.head? = some sdbRs then 1 else 0))) := by
  induction p using lines_induction sdbRs generalizing len with
  | rest x hx =>
      have hhead : x.head? ≠ some sdbRs := fun h ↦ hx (List.mem_of_head? h)
      rw [alenIgnoreEmptyLoop_none len (afterSep_of_notMem hx), filled_of_notMem hx, if_neg hhead,
        Option.bind_some, alenIgnoreEmptyEnd]
      by_cases h : x = []
      · rw [if_neg fun hne ↦ hne h, if_pos h]
        exact (checkedInt_of_le hlen).symm
      · rw [if_pos h, if_neg h]
        rfl
  | line x p hx ih =>
      -- an element in front of the comma is counted now, or is due at the next comma
      have hhead : (x ++ sdbRs :: p).head? = some sdbRs ↔ x = [] := by
        cases x with
        | nil => simp
        | cons c x =>
            have hc : c ≠ sdbRs := fun h ↦ hx (h ▸ List.mem_cons_self)
            simp [hc]
      have hcount : (filled sdbRs (x ++ sdbRs :: p)).length +
          (if (x ++ sdbRs :: p).head? = some sdbRs then 1 else 0) =
            1 + (filled sdbRs p).length := by
        rw [filled_append hx, List.length_append]
        by_cases h : x = []
        · rw [if_pos h, if_pos (hhead.mpr h), List.length_nil, Nat.zero_add, Nat.add_comm]
        · rw [if_neg h, if_neg fun hx ↦ h (hhead.mp hx), List.length_singleton, Nat.add_zero]
      rw [alenIgnoreEmptyLoop_some len (afterSep_append hx p), hcount]
      by_cases hp : p.head? = some sdbRs
      · rw [if_pos hp, ih hlen, if_pos hp, Nat.add_comm 1]
      · rw [if_neg hp, Option.bind_assoc, ← Nat.add_assoc]
        refine checkedInt_bind (fun h ↦ ?_) fun h ↦ checkedInt_of_lt (Nat.lt_add_right _ h)
        rw [ih h, if_neg hp]
        rfl

/-- What there is to count. -/
def elementCount (str : Option CStr) : Nat :=
  match str with
  | none => 0
  | some s => if s = CStr.empty then 0 else (elements s).length

/-- What there is to count, without the elements that are empty. -/
def nonEmptyCount (str : Option CStr) : Nat :=
  match str with
  | none => 0
  | some s => (nonEmpty s).length

theorem val_eq_nil_iff (s : CStr) : s.val = [] ↔ s = CStr.empty :=
  ⟨fun h ↦ CStr.ext h, fun h ↦ by rw [h]; rfl⟩

theorem sdbAlen_eq (str : Option CStr) : sdbAlen str = checkedInt (elementCount str) := by
  cases str with
  | none => rfl
  | some s =>
      simp only [sdbAlen, elementCount, val_eq_nil_iff]
      split
      · rfl
      · rw [alenLoop_eq _ (Nat.zero_le _), Nat.zero_add, ← map_bytes_elements, List.length_map]

theorem sdbAlenIgnoreEmpty_eq (str : Option CStr) :
    sdbAlenIgnoreEmpty str = checkedInt (nonEmptyCount str) := by
  cases str with
  | none => rfl
  | some s =>
      have hfilled : (nonEmpty s).length = (filled sdbRs s.val).length := by
        rw [← map_bytes_nonEmpty, List.length_map]
      simp only [sdbAlenIgnoreEmpty, nonEmptyCount]
      split
      · next h =>
          rw [hfilled, h]
          rfl
      · rw [alenIgnoreEmptyLoop_eq _ (Nat.zero_le _), if_neg (head?_dropWhile_ne s.val),
          filled_dropWhile, hfilled, Nat.zero_add, Nat.add_zero]

theorem nonEmptyCount_le (str : Option CStr) : nonEmptyCount str ≤ elementCount str := by
  cases str with
  | none => exact Nat.le_refl 0
  | some s =>
      simp only [nonEmptyCount, elementCount]
      split
      · next h =>
          rw [h]
          decide
      · exact List.length_filter_le _ _

/-- **The two counts**: all the elements, and those that are not empty, exactly as long as an `int`
holds the number of all of them. -/
theorem sdbAlen_counts_iff (str : Option CStr) :
    (sdbAlen str = some (elementCount str) ∧ sdbAlenIgnoreEmpty str = some (nonEmptyCount str)) ↔
      elementCount str ≤ 2147483647 := by
  rw [sdbAlen_eq, sdbAlenIgnoreEmpty_eq, checkedInt_eq_some_iff, checkedInt_eq_some_iff]
  constructor
  · intro h
    exact h.1.2
  · intro h
    exact ⟨⟨rfl, h⟩, ⟨rfl, Nat.le_trans (nonEmptyCount_le str) h⟩⟩

/-- 2147483647 commas. -/
def longCommas : CStr :=
  ⟨List.replicate 2147483647 sdbRs, fun h ↦ absurd (List.eq_of_mem_replicate h) (by decide)⟩

/-- There are 2147483648 empty elements between and around them. -/
theorem not_sdbAlen_counts : ¬ ∀ str : Option CStr,
    sdbAlen str = some (elementCount str) ∧ sdbAlenIgnoreEmpty str = some (nonEmptyCount str) := by
  intro h
  have hle := (sdbAlen_counts_iff (some longCommas)).mp (h (some longCommas))
  have hne : longCommas ≠ CStr.empty := by
    intro hempty
    have hlen : longCommas.length = 2147483647 := List.length_replicate
    rw [hempty] at hlen
    exact absurd hlen (by decide)
  have hcount : (elements longCommas).length = 2147483648 := by
    have halen := sdbAlen_joinElems (L := elements longCommas) (by rwa [joinElems_elements])
    rw [joinElems_elements, SdbStore.sdbAlen, if_neg hne] at halen
    rw [← halen]
    exact congrArg (· + 1) List.count_replicate_self
  rw [elementCount, if_neg hne, hcount] at hle
  omega

/-! ## Dropping the empty elements -/

/-- No comma is right behind another. -/
def NoDouble (p : Bytes) : Prop := p.IsChain fun a b ↦ ¬ (a = sdbRs ∧ b = sdbRs)

theorem compactPass_cons_sep (p : Bytes) :
    (compactPass (sdbRs :: p)).1 = sdbRs :: (compactPass (p.dropWhile (· = sdbRs))).1 := by
  rw [compactPass]
  by_cases hp : p.head? = some sdbRs
  · obtain ⟨q, rfl⟩ := List.head?_eq_some_iff.mp hp
    rw [if_pos ⟨rfl, hp⟩, List.tail_cons, List.dropWhile_cons_of_pos (by simp)]
  · have hdrop : p.dropWhile (· = sdbRs) = p := by
      cases p with
      | nil => rfl
      | cons c p => exact List.dropWhile_cons_of_neg fun h ↦ hp (by simpa using h)
    rw [if_neg fun h ↦ hp h.2, hdrop]

theorem compactPass_append {x : Bytes} (hx : sdbRs ∉ x) (p : Bytes) :
    (compactPass (x ++ p)).1 = x ++ (compactPass p).1 := by
  induction x with
  | nil => rfl
  | cons c x ih =>
      rw [List.mem_cons, not_or] at hx
      rw [List.cons_append, compactPass, if_neg fun h ↦ hx.1 h.1.symm, List.cons_append, ih hx.2]

theorem head?_compactPass (p : Bytes) : (compactPass p).1.head? = p.head? := by
  cases p with
  | nil =>
      rw [compactPass]
  | cons c p =>
      rw [compactPass]
      split
      · rfl
      · rfl

/-- A time through the string leaves no comma right behind another. -/
theorem noDouble_compactPass (p : Bytes) : NoDouble (compactPass p).1 := by
  induction p using compactPass.induct with
  | case1 =>
      rw [compactPass]
      exact List.isChain_nil
  | case2 c p h ih =>
      rw [compactPass, if_pos h]
      refine List.isChain_cons.mpr ⟨fun d hd hsep ↦ ?_, ih⟩
      rw [head?_compactPass] at hd
      exact head?_dropWhile_ne p.tail (hsep.2 ▸ hd)
  | case3 c p h ih =>
      rw [compactPass, if_neg h]
      refine List.isChain_cons.mpr ⟨fun d hd hsep ↦ h ⟨hsep.1, ?_⟩, ih⟩
      rw [head?_compactPass] at hd
      exact hsep.2 ▸ hd

/-- Such a string stays as it is. -/
theorem compactPass_noDouble {p : Bytes} (h : NoDouble p) : compactPass p = (p, false) := by
  induction p with
  | nil => rw [compactPass]
  | cons c p ih =>
      obtain ⟨hhead, htail⟩ := List.isChain_cons.mp h
      rw [compactPass, if_neg fun hsep ↦ hhead sdbRs hsep.2 ⟨hsep.1, rfl⟩, ih htail]

/-- **The loop ends** after the second time at the latest. -/
theorem compactTurn_ends (p : Bytes) : LoopEnds compactTurn p (compactPass p).1 := by
  by_cases hmore : (compactPass p).2 = true ∧ (compactPass p).1 ≠ []
  · refine @LoopEnds.turn _ _ compactTurn p (compactPass p).1 (compactPass p).1 ?_ (.stop ?_)
    · simp only [compactTurn]
      rw [if_pos hmore]
    · simp only [compactTurn, compactPass_noDouble (noDouble_compactPass p)]
      rfl
  · refine .stop ?_
    simp only [compactTurn]
    rw [if_neg hmore]

theorem sdbArrayCompact_eq (s : CStr) :
    sdbArrayCompact s = some (CStr.ofBytes (compactPass s.val).1) := by
  rw [sdbArrayCompact, (compactTurn_ends s.val).result, Option.map_some]

/-- What is left of a string without a comma in front: the elements that are not empty, and a comma
if there was one at the end. -/
theorem compactPass_eq (p : Bytes) (h : p.head? ≠ some sdbRs) : (compactPass p).1 =
    joinSep sdbRs (filled sdbRs p) ++ (if p.getLast? = some sdbRs then [sdbRs] else []) := by
  refine field_induction ?_ (fun x hne hx ↦ ?_) (fun x l hne hx ih ↦ ?_) p h
  · rw [compactPass]
    rfl
  · have hpass := compactPass_append hx []
    have hlast : x.getLast? ≠ some sdbRs := fun h ↦ hx (List.mem_of_getLast? h)
    rw [List.append_nil, compactPass, List.append_nil] at hpass
    rw [hpass, filled_of_notMem hx, if_neg hne, if_neg hlast, joinSep_singleton, List.append_nil]
  · rw [compactPass_append hx, compactPass_cons_sep, ih, filled_append hx, if_neg hne,
      filled_dropWhile, List.singleton_append, joinSep_cons,
      List.getLast?_append_of_ne_nil _ (List.cons_ne_nil _ _), getLast?_cons_sep, List.append_assoc]
    by_cases hdrop : l.dropWhile (· = sdbRs) = []
    · -- nothing but commas behind the field
      have hnone := @filled_dropWhile _ _ sdbRs l
      rw [hdrop] at hnone
      rw [if_pos hdrop, ← hnone, hdrop]
      rfl
    · have hsome := filled_ne_nil hdrop (head?_dropWhile_ne l)
      rw [filled_dropWhile] at hsome
      rw [if_neg hdrop, led_eq sdbRs hsome, List.cons_append]

theorem compactPass_subset (p : Bytes) : (compactPass p).1 ⊆ p := by
  induction p using compactPass.induct with
  | case1 =>
      rw [compactPass]
      exact List.Subset.refl []
  | case2 c p h ih =>
      rw [compactPass, if_pos h]
      refine List.cons_subset_cons c (List.Subset.trans ih ?_)
      exact List.Subset.trans (List.dropWhile_sublist _).subset (List.tail_subset p)
  | case3 c p h ih =>
      rw [compactPass, if_neg h]
      exact List.cons_subset_cons c ih

theorem val_ofBytes_compactPass (s : CStr) :
    (CStr.ofBytes (compactPass s.val).1).val = (compactPass s.val).1 :=
  CStr.val_ofBytes fun h ↦ s.property (compactPass_subset s.val h)

/-- **The second time** changes nothing. -/
theorem sdbArrayCompact_idem {s t : CStr} (h : sdbArrayCompact s = some t) :
    sdbArrayCompact t = some t := by
  rw [sdbArrayCompact_eq, Option.some.injEq] at h
  rw [sdbArrayCompact_eq, ← h, val_ofBytes_compactPass,
    compactPass_noDouble (noDouble_compactPass s.val)]

theorem head?_joinSep_filled (p : Bytes) : (joinSep sdbRs (filled sdbRs p)).head? ≠ some sdbRs := by
  cases hf : filled sdbRs p with
  | nil => simp
  | cons e L =>
      obtain ⟨hne, hfree⟩ := of_mem_filled (hf ▸ List.mem_cons_self)
      obtain ⟨c, x, rfl⟩ := List.exists_cons_of_ne_nil hne
      rw [joinSep_cons, List.cons_append, List.head?_cons]
      exact fun hc ↦ hfree (Option.some.inj hc ▸ List.mem_cons_self)

theorem val_joinElems_nonEmpty (s : CStr) :
    (joinElems (nonEmpty s)).val = joinSep sdbRs (filled sdbRs s.val) := by
  rw [val_joinElems, map_bytes_nonEmpty]

theorem sdbArrayCompact_eq_iff (s : CStr) :
    sdbArrayCompact s = some (joinElems (nonEmpty s)) ↔
      s.val.head? ≠ some sdbRs ∧ s.val.getLast? ≠ some sdbRs := by
  rw [sdbArrayCompact_eq, Option.some.injEq, CStr.ext_iff, val_ofBytes_compactPass,
    val_joinElems_nonEmpty]
  constructor
  · intro h
    have hhead : s.val.head? ≠ some sdbRs := by
      rw [← head?_compactPass, h]
      exact head?_joinSep_filled s.val
    refine ⟨hhead, fun hlast ↦ ?_⟩
    rw [compactPass_eq s.val hhead, if_pos hlast] at h
    exact absurd (List.append_right_eq_self.mp h) (List.cons_ne_nil _ _)
  · rintro ⟨hhead, hlast⟩
    rw [compactPass_eq s.val hhead, if_neg hlast, List.append_nil]

/-- **`sdb_array_compact`** drops the empty elements exactly of the strings that neither begin nor
end with a comma.  It comes back, and is idempotent, in any case. -/
theorem sdbArrayCompact_drops_iff (s : CStr) :
    (sdbArrayCompact s = some (joinElems (nonEmpty s)) ∧
        (sdbArrayCompact s).bind sdbArrayCompact = sdbArrayCompact s) ↔
      s.val.head? ≠ some sdbRs ∧ s.val.getLast? ≠ some sdbRs := by
  rw [sdbArrayCompact_eq_iff, and_iff_left_iff_imp]
  rintro -
  rw [sdbArrayCompact_eq, Option.bind_some]
  exact sdbArrayCompact_idem (sdbArrayCompact_eq s)

/-- `,a` stays as it is, with its empty element. -/
theorem not_sdbArrayCompact_drops :
    ¬ ∀ s : CStr, sdbArrayCompact s = some (joinElems (nonEmpty s)) ∧
      (sdbArrayCompact s).bind sdbArrayCompact = sdbArrayCompact s := fun h ↦
  ((sdbArrayCompact_eq_iff (CStr.ofBytes [44, 97])).mp (h (CStr.ofBytes [44, 97])).1).1 (by decide)

/-! ## Slices -/

/-- The elements from the index `i` on, before the index `j`. -/
def sliceOf (s : CStr) (i j : Nat) : Option CStr :=
  if (elements s).length ≤ i then none else some (joinElems (((elements s).drop i).take (j - i)))

section Loop

variable {f t : Nat} {off idx : Nat} {str : Option Nat}

theorem asliceLoop_cons (hstr : str ≠ none ∨ idx ≠ f) (ht : idx ≠ t) (c : UInt8) (p : Bytes) :
    asliceLoop f t (c :: p) off idx str =
      asliceLoop f t p (off + 1) (if c = sdbRs then idx + 1 else idx) str := by
  have hf : ¬ (str = none ∧ (idx : Int) = f) := fun h ↦
    hstr.elim (fun hne ↦ hne h.1) fun hne ↦ hne (Int.ofNat.inj h.2)
  have ht' : ¬ (idx : Int) = t := fun h ↦ ht (Int.ofNat.inj h)
  rw [asliceLoop, if_neg hf, if_neg ht']

/-- The loop goes over a field. -/
theorem asliceLoop_field (hstr : str ≠ none ∨ idx ≠ f) (ht : idx ≠ t) {x : Bytes} (hx : sdbRs ∉ x)
    (p : Bytes) :
    asliceLoop f t (x ++ p) off idx str = asliceLoop f t p (off + x.length) idx str := by
  induction x generalizing off with
  | nil => rfl
  | cons c x ih =>
      rw [List.mem_cons, not_or] at hx
      rw [List.cons_append, asliceLoop_cons hstr ht, if_neg fun h ↦ hx.1 h.symm, ih hx.2,
        List.length_cons]
      congr 1
      omega

/-- It goes over fields with a comma behind each. -/
theorem asliceLoop_ended {L : List Bytes} (hL : ∀ x ∈ L, sdbRs ∉ x)
    (hstr : str ≠ none ∨ idx + L.length ≤ f) (ht : idx + L.length ≤ t) (p : Bytes) :
    asliceLoop f t (ended sdbRs L ++ p) off idx str =
      asliceLoop f t p (off + (ended sdbRs L).length) ((idx + L.length : Nat) : Int) str := by
  induction L generalizing off idx with
  | nil => rfl
  | cons x L ih =>
      rw [List.length_cons] at hstr ht
      have hstr' : str ≠ none ∨ idx ≠ f := hstr.imp_right fun h ↦ by omega
      have hstr'' : str ≠ none ∨ idx + 1 + L.length ≤ f := hstr.imp_right fun h ↦ by omega
      have hnext := @ih (off + x.length + 1) (idx + 1)
          (fun y hy ↦ hL y (List.mem_cons_of_mem x hy)) hstr''
        (by omega)
      rw [ended_cons, List.append_assoc,
        asliceLoop_field hstr' (by omega) (hL x List.mem_cons_self), List.cons_append,
        asliceLoop_cons hstr' (by omega), if_pos rfl]
      refine hnext.trans ?_
      rw [List.length_append, List.length_cons, List.length_cons]
      congr 1
      · omega
      · push_cast
        omega

/-- At the element `from` it takes the place, if there is a byte. -/
theorem asliceLoop_start {p : Bytes} (hp : p ≠ []) :
    asliceLoop f t p off f none = asliceLoop f t p off f (some off) := by
  obtain ⟨c, p, rfl⟩ := List.exists_cons_of_ne_nil hp
  simp only [asliceLoop, and_self, if_true, reduceCtorEq, false_and, if_false]

/-- At the element `to` it stops. -/
theorem asliceLoop_stop (p : Bytes) (a : Nat) :
    asliceLoop f t p off t (some a) = (some a, if p = [] then none else some off) := by
  cases p with
  | nil => rfl
  | cons c p => simp only [asliceLoop, if_true, reduceCtorEq, false_and, if_false]

end Loop

theorem free_map (L : List Elem) : ∀ x ∈ L.map Elem.bytes, sdbRs ∉ x :=
  fun _ hx ↦ sep_notMem_of_mem hx

/-- The elements before are gone over. -/
theorem asliceLoop_split (P : List Elem) (e : Elem) (S : List Elem) {t : Nat} (ht : P.length ≤ t) :
    asliceLoop (P.length : Nat) t (joinElems (P ++ e :: S)).val 0 0 none =
      asliceLoop (P.length : Nat) t (joinElems (e :: S)).val (ended sdbRs (P.map Elem.bytes)).length
        P.length none := by
  have h := @asliceLoop_ended P.length t 0 0 none (P.map Elem.bytes) (free_map P)
    (.inr (by rw [List.length_map, Nat.zero_add])) (by rw [List.length_map, Nat.zero_add]; exact ht)
    (joinElems (e :: S)).val
  rw [List.length_map, Nat.zero_add, Nat.zero_add] at h
  rw [val_joinElems, List.map_append,
    joinSep_append sdbRs _ (map_bytes_ne_nil (List.cons_ne_nil e S))]
  exact h

section Slice

variable {P S M : List Elem} {e : Elem} {f t : Nat}

/-- From an index behind the last element there is nothing. -/
theorem sdbAslice_behind (hf : P.length < f) (hft : f < t) :
    sdbAslice (joinElems (P ++ [e])) f t = some none := by
  have hended := @asliceLoop_ended f t 0 0 none (P.map Elem.bytes) (free_map P)
    (.inr (by rw [List.length_map]; omega)) (by rw [List.length_map]; omega) (joinElems [e]).val
  have hfield := @asliceLoop_field f t (0 + (ended sdbRs (P.map Elem.bytes)).length)
    (0 + (P.map Elem.bytes).length) none (.inr (by rw [List.length_map]; omega))
    (by rw [List.length_map]; omega) _ e.sep_notMem []
  have hloop : asliceLoop f t (joinElems (P ++ [e])).val 0 0 none = (none, none) := by
    rw [val_joinElems, List.map_append,
      joinSep_append sdbRs _ (map_bytes_ne_nil (List.cons_ne_nil e []))]
    refine hended.trans ?_
    rw [joinElems_singleton]
    rw [List.append_nil] at hfield
    exact hfield
  rw [sdbAslice, if_neg (by omega), hloop]

/-- The last element is not found if it is empty. -/
theorem sdbAslice_last_empty (ht : P.length < t) :
    sdbAslice (joinElems (P ++ [Elem.empty])) (P.length : Nat) t = some none := by
  have hloop := asliceLoop_split P Elem.empty [] (Nat.le_of_lt ht)
  rw [joinElems_singleton] at hloop
  rw [sdbAslice, if_neg (by omega), hloop]
  rfl

theorem val_append (P : List Elem) (hS : S ≠ []) : (joinElems (P ++ S)).val =
    ended sdbRs (P.map Elem.bytes) ++ (joinElems S).val := by
  rw [val_joinElems, List.map_append, joinSep_append sdbRs _ (map_bytes_ne_nil hS)]
  rfl

theorem length_ofBytes_le (l : Bytes) : (CStr.ofBytes l).length ≤ l.length :=
  (List.takeWhile_prefix fun c : UInt8 ↦ c != 0).length_le

/-- The bytes that are moved are as many as there should be, if an `int` holds their number, and
fewer by 2^32 or a multiple of it otherwise. -/
theorem asliceMove_eq_some {out v : CStr} {str size : Nat} (h : asliceMove out str size = some v) :
    ∃ n, v = CStr.ofBytes (slice out.val str n) ∧
      (n = size ∧ size ≤ 2147483647 ∨ n + 4294967296 ≤ size) := by
  rw [asliceMove] at h
  split at h
  · cases h
  · next hlen =>
      refine ⟨_, (Option.some.inj h).symm, ?_⟩
      rw [intOfSize, BitVec.toInt_eq_toNat_cond, BitVec.toNat_ofNat] at hlen ⊢
      split at hlen
      · next hhalf =>
          rw [if_pos hhalf, Int.toNat_natCast]
          omega
      · omega

theorem asliceMove_of_le (out : CStr) (str : Nat) {size : Nat} (h : size ≤ 2147483647) :
    asliceMove out str size = some (CStr.ofBytes (slice out.val str size)) := by
  rw [asliceMove, intOfSize_of_lt (by omega)]
  exact if_neg (by omega)

/-- Up to the end of the string the slice is right, if an `int` holds its length. -/
theorem sdbAslice_all (ht : P.length + S.length < t) (hne : joinElems (e :: S) ≠ CStr.empty) :
    sdbAslice (joinElems (P ++ e :: S)) (P.length : Nat) t = some (some (joinElems (e :: S))) ↔
      (joinElems (e :: S)).length ≤ 2147483647 := by
  have hval : (joinElems (e :: S)).val ≠ [] := fun h ↦ hne (CStr.ext h)
  obtain ⟨D, d, hD⟩ := (List.eq_nil_or_concat' (e :: S)).resolve_left (List.cons_ne_nil e S)
  have hlen : D.length = S.length := by
    have h := congrArg List.length hD
    rw [List.length_append, List.length_cons, List.length_singleton] at h
    omega
  obtain ⟨off, hoff⟩ : ∃ off, (ended sdbRs (P.map Elem.bytes)).length = off := ⟨_, rfl⟩
  have hended := @asliceLoop_ended P.length t off P.length (some off) (D.map Elem.bytes)
      (free_map D)
    (.inl (Option.some_ne_none off)) (by rw [List.length_map]; omega) d.bytes
  have hfield := @asliceLoop_field P.length t (off + (ended sdbRs (D.map Elem.bytes)).length)
    (P.length + (D.map Elem.bytes).length) (some off) (.inl (Option.some_ne_none off))
    (by rw [List.length_map]; omega) _ d.sep_notMem []
  have hrest : (joinElems (e :: S)).val = ended sdbRs (D.map Elem.bytes) ++ d.bytes := by
    rw [hD, val_append D (List.cons_ne_nil d []), joinElems_singleton]
    rfl
  have hloop : asliceLoop (P.length : Nat) t (joinElems (P ++ e :: S)).val 0 0 none =
      (some off, none) := by
    rw [asliceLoop_split P e S (by omega), hoff, asliceLoop_start hval, hrest]
    refine hended.trans ?_
    rw [List.append_nil] at hfield
    exact hfield
  have hsplit := val_append P (List.cons_ne_nil e S)
  have hslice (n : Nat) : slice (joinElems (P ++ e :: S)).val off n =
      (joinElems (e :: S)).val.take n := by
    rw [hsplit, slice_append_right' 0 _ (by rw [hoff]; rfl), slice, List.drop_zero]
  have hsize : (joinElems (P ++ e :: S)).length - off = (joinElems (e :: S)).length := by
    rw [CStr.length, hsplit, List.length_append, hoff, Nat.add_sub_cancel_left]
    rfl
  rw [sdbAslice, if_neg (by omega), hloop]
  dsimp only
  rw [Option.getD_none, hsize]
  constructor
  · intro h
    obtain ⟨v, hmove, hv⟩ := Option.map_eq_some_iff.mp h
    obtain rfl := Option.some.inj hv
    obtain ⟨n, hn, ⟨-, hle⟩ | hcut⟩ := asliceMove_eq_some hmove
    · exact hle
    · have hlen := congrArg CStr.length hn
      rw [hslice] at hlen
      have hle := length_ofBytes_le ((joinElems (e :: S)).val.take n)
      rw [List.length_take] at hle
      omega
  · intro h
    rw [asliceMove_of_le _ _ h, hslice, CStr.length, List.take_length, CStr.ofBytes_val]
    rfl

theorem ofBytes_concat_sep_ne (s : CStr) : CStr.ofBytes (s.val ++ [sdbRs]) ≠ s := by
  intro h
  have hval := CStr.val_ofBytes_append s.property [sdbRs]
  rw [h] at hval
  exact absurd (List.append_right_eq_self.mp hval.symm) (List.cons_ne_nil _ _)

/-- A slice that ends before takes the comma with it, or is cut off far before. -/
theorem sdbAslice_inner (hM : M ≠ []) (hS : S ≠ []) (ht : t = P.length + M.length) :
    sdbAslice (joinElems (P ++ (M ++ S))) (P.length : Nat) t ≠ some (some (joinElems M)) := by
  obtain ⟨off, hoff⟩ : ∃ off, (ended sdbRs (P.map Elem.bytes)).length = off := ⟨_, rfl⟩
  have hended := @asliceLoop_ended P.length t off P.length (some off) (M.map Elem.bytes)
      (free_map M)
    (.inl (Option.some_ne_none off)) (by rw [List.length_map]; omega) (joinElems S).val
  rw [List.length_map, ← ht, asliceLoop_stop] at hended
  have hmid := ended_eq sdbRs (map_bytes_ne_nil hM)
  have hrest := val_append M hS
  have hval : (joinElems (M ++ S)).val ≠ [] := by
    rw [hrest, hmid]
    simp
  have hloop : asliceLoop (P.length : Nat) t (joinElems (P ++ (M ++ S))).val 0 0 none =
      (some off, if (joinElems S).val = [] then none
        else some (off + (ended sdbRs (M.map Elem.bytes)).length)) := by
    obtain ⟨m, M', rfl⟩ := List.exists_cons_of_ne_nil hM
    rw [List.cons_append, asliceLoop_split P m (M' ++ S) (by omega), ← List.cons_append, hoff,
      asliceLoop_start hval, hrest]
    exact hended
  have hlen : 0 < M.length := List.length_pos_of_ne_nil hM
  have hsplit : (joinElems (P ++ (M ++ S))).val = ended sdbRs (P.map Elem.bytes) ++
      (ended sdbRs (M.map Elem.bytes) ++ (joinElems S).val) := by
    rw [val_append P (List.append_ne_nil_of_right_ne_nil M hS), hrest]
  have hend : ((if (joinElems S).val = [] then none
      else some (off + (ended sdbRs (M.map Elem.bytes)).length)).getD
        (joinElems (P ++ (M ++ S))).length) - off = (ended sdbRs (M.map Elem.bytes)).length := by
    split
    · next hnil =>
        rw [Option.getD_none, CStr.length, hsplit, hnil, List.append_nil, List.length_append, hoff,
          Nat.add_sub_cancel_left]
    · rw [Option.getD_some, Nat.add_sub_cancel_left]
  rw [sdbAslice, if_neg (by omega), hloop]
  dsimp only
  rw [hend]
  intro h
  obtain ⟨v, hmove, hv⟩ := Option.map_eq_some_iff.mp h
  obtain rfl := Option.some.inj hv
  obtain ⟨n, hn, ⟨rfl, -⟩ | hcut⟩ := asliceMove_eq_some hmove
  · rw [hsplit, slice_mid hoff.symm rfl, hmid] at hn
    exact ofBytes_concat_sep_ne (joinElems M) hn.symm
  · have hlen' := congrArg CStr.length hn
    have hle := length_ofBytes_le (slice (joinElems (P ++ (M ++ S))).val off n)
    have hcount := congrArg List.length hmid
    have hval' : (joinElems M).length = (joinSep sdbRs (M.map Elem.bytes)).length := rfl
    have htake := List.length_take_le n ((joinElems (P ++ (M ++ S))).val.drop off)
    rw [List.length_append, List.length_singleton] at hcount
    rw [slice] at hle hlen'
    omega

end Slice

/-- **`sdb_aslice`** is right for the slices up to the end of the string, if they are more than an
empty last element and an `int` holds their length: where it ends before, a comma is left over. -/
theorem sdbAslice_slices_iff (s : CStr) {i j : Nat} (hij : i < j) :
    sdbAslice s i j = some (sliceOf s i j) ↔ (elements s).length ≤ i ∨
      ((elements s).length ≤ j ∧
        ¬ (i + 1 = (elements s).length ∧ (elements s).getLast? = some Elem.empty) ∧
          (joinElems ((elements s).drop i)).length ≤ 2147483647) := by
  obtain ⟨L, hL⟩ : ∃ L, elements s = L := ⟨_, rfl⟩
  have hne : L ≠ [] := hL ▸ elements_ne_nil s
  have hs : s = joinElems L := by rw [← hL, joinElems_elements]
  rw [sliceOf, hL, hs]
  rcases Nat.lt_or_ge i L.length with hi | hi
  · rw [if_neg (Nat.not_le.mpr hi), or_iff_right (Nat.not_le.mpr hi)]
    obtain ⟨P, e, S, rfl, rfl⟩ := exists_split hi
    have hlen : (P ++ e :: S).length = P.length + S.length + 1 := by
      rw [List.length_append, List.length_cons]
      omega
    rw [List.drop_left, hlen]
    by_cases hempty : e :: S = [Elem.empty]
    · rw [hempty, sdbAslice_last_empty hij]
      cases hempty
      refine iff_of_false (fun h ↦ by cases h) fun h ↦ h.2.1 ⟨by simp, by simp⟩
    · have hval : joinElems (e :: S) ≠ CStr.empty := fun h ↦
        (joinElems_eq_empty.mp h).elim (List.cons_ne_nil e S) hempty
      rcases Nat.lt_or_ge (P.length + S.length) j with hj | hj
      · rw [List.take_of_length_le (by rw [List.length_cons]; omega), sdbAslice_all hj hval]
        refine ⟨fun hle ↦ ⟨by omega, fun h ↦ hempty ?_, hle⟩, fun h ↦ h.2.2⟩
        have hnil : S = [] := List.eq_nil_of_length_eq_zero (by omega)
        subst hnil
        have hlast := h.2
        rw [List.getLast?_concat] at hlast
        rw [Option.some.inj hlast]
      · obtain ⟨k, hk⟩ := Nat.exists_eq_add_of_lt hij
        have hsplit := List.take_append_drop (k + 1) (e :: S)
        have htake : ((e :: S).take (k + 1)).length = k + 1 := by
          rw [List.length_take, List.length_cons]
          omega
        have hM : (e :: S).take (k + 1) ≠ [] := by simp
        have hS : (e :: S).drop (k + 1) ≠ [] := fun h ↦ by
          have hlen := congrArg List.length h
          rw [List.length_drop, List.length_cons, List.length_nil] at hlen
          omega
        have hinner := @sdbAslice_inner P ((e :: S).drop (k + 1)) ((e :: S).take (k + 1)) j hM hS
            (by omega)
        rw [hsplit] at hinner
        have hkj : j - P.length = k + 1 := by omega
        rw [hkj]
        exact iff_of_false hinner fun h ↦ by omega
  · obtain ⟨P, e, rfl⟩ := (List.eq_nil_or_concat' L).resolve_left hne
    rw [if_pos hi, sdbAslice_behind
      (by rw [List.length_append, List.length_singleton] at hi; omega) hij]
    exact iff_of_true rfl (.inl hi)

/-- The last three elements of `a,b,,c`. -/
theorem sdbAslice_slices_last :
    (1 : Nat) < 4 ∧ sdbAslice (CStr.ofBytes [97, 44, 98, 44, 44, 99]) 1 4 =
      some (some (CStr.ofBytes [98, 44, 44, 99])) := by
  refine ⟨by decide, ?_⟩
  have h := (sdbAslice_slices_iff (CStr.ofBytes [97, 44, 98, 44, 44, 99]) (i := 1) (j := 4)
    (by decide)).mpr (.inr ⟨by decide, by decide, by decide⟩)
  exact h.trans (by decide)

/-- The first element of `a,b` comes with its comma. -/
theorem not_sdbAslice_slices : ¬ ∀ (s : CStr), s ≠ CStr.empty → ∀ i j : Nat, i < j →
    sdbAslice s i j = some (sliceOf s i j) := fun h ↦ by
  have hab := h (CStr.ofBytes [97, 44, 98]) (by decide) 0 1 (by decide)
  revert hab
  decide

end SdbStore.Util
