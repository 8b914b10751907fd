import SdbStore.Match

/-!
# What a pattern matches

`sdb_match` on a pattern without `%`, over lists of bytes and without its pointers, and from this
the laws of the three kinds of patterns: with a star, without one, and with the suffix `?i`.

The lengths of the string and of the pattern are `int`s.  The laws are about patterns that fit into
one, and say for which of the strings that do not they still hold.
-/

namespace SdbStore

open Lib

/-! ## The pattern without pointers -/

/-- A leading `^` with something behind it is taken off. -/
def stripStart (q : Bytes) : Bool × Bytes :=
  if 1 < q.length ∧ q.head? = some 94 then (true, q.tail) else (false, q)

/-- A `$` at the end with something before it is taken off. -/
def stripEnd (q : Bytes) : Bool × Bytes :=
  if 1 < q.length ∧ q.getLast? = some 36 then (true, q.dropLast) else (false, q)

/-- The comparison with a pattern that has a star. -/
def matchGlob (icase : Bool) (s q : Bytes) : Bool :=
  Pattern.glob (fun c d ↦ chareq c d icase) (· == 42) s q

/-- The anchors of a pattern: `^`, `$` and what is between them.  With the suffix `?i` the `$` is
not seen. -/
def stripAnchors (icase : Bool) (q : Bytes) : Bool × Bool × Bytes :=
  let r := stripStart q
  (r.1, if icase then (false, r.2) else stripEnd r.2)

/-- With a star in it, the pattern loses the `$` that was not seen. -/
def stripHidden (e : Bool × Bytes) : Bytes :=
  if 42 ∈ e.2 ∧ e.1 = false ∧ e.2.getLast? = some 36 then e.2.dropLast else e.2

/-- The suffix `?i`: whether it is there, and the pattern before it. -/
def stripIcase (p : Bytes) : Bool × Bytes :=
  if 2 < p.length ∧ p.drop (p.length - 2) = [63, 105] then (true, p.take (p.length - 2))
  else (false, p)

theorem haveSuffix_icase (p : Bytes) :
    haveSuffix p p.length [63, 105] = (stripIcase p).1 := by
  have hidx : ((p.length : Int) - ([63, 105] : Bytes).length).toNat = p.length - 2 := by
    simp only [List.length_cons, List.length_nil]
    omega
  have hlt : (p.length : Int) > ([63, 105] : Bytes).length ↔ 2 < p.length := by
    simp only [List.length_cons, List.length_nil]
    omega
  rw [stripIcase, haveSuffix, hidx, decide_eq_decide.mpr (and_congr_left' hlt)]
  split
  · next h => exact decide_eq_true h
  · next h => exact decide_eq_false h

theorem drop_length_sub_one {q : Bytes} (h : 0 < q.length) (sfx : Bytes) (c : UInt8) :
    (q ++ sfx).drop (q.length - 1) = [c] ↔ sfx = [] ∧ q.getLast? = some c := by
  obtain ⟨q', a, rfl⟩ := List.eq_nil_or_concat q |>.resolve_left (List.ne_nil_of_length_pos h)
  simp [and_comm]

theorem haveSuffix_end (q sfx : Bytes) :
    haveSuffix (q ++ sfx) q.length [36] = (decide (sfx = []) && (stripEnd q).1) := by
  have hidx : ((q.length : Int) - ([36] : Bytes).length).toNat = q.length - 1 := by
    simp only [List.length_cons, List.length_nil]
    omega
  have hlt : (q.length : Int) > ([36] : Bytes).length ↔ 1 < q.length := by
    simp only [List.length_cons, List.length_nil]
    omega
  rw [haveSuffix, hidx, stripEnd]
  rcases Nat.lt_or_ge 1 q.length with h | h
  · have hiff := and_congr hlt (drop_length_sub_one (q := q) (by omega) sfx 36)
    rw [Bool.eq_iff_iff, decide_eq_true_iff, hiff]
    by_cases hsfx : sfx = [] <;> by_cases hlast : q.getLast? = some 36 <;> simp [hsfx, hlast, h]
  · simp [Nat.not_lt.mpr h]

theorem havePrefix_singleton (q sfx : Bytes) {c : UInt8} (hc : c ≠ 0) :
    havePrefix (q ++ sfx) q.length [c] = decide (1 < q.length ∧ q.head? = some c) := by
  have hone : strncmpEq (q ++ sfx) [c] ([c] : Bytes).length = true ↔ [c] <+: q ++ sfx :=
    strncmpEq_length _ (by simpa using hc.symm)
  rw [havePrefix, decide_eq_decide, hone]
  cases q with
  | nil => simp
  | cons a q => simp [eq_comm]

theorem stripStart_subset (q : Bytes) : (stripStart q).2 ⊆ q := by
  rw [stripStart]
  split
  · exact (List.tail_suffix q).subset
  · exact List.Subset.refl q

theorem stripEnd_prefix (q : Bytes) : (stripEnd q).2 <+: q := by
  rw [stripEnd]
  split
  · exact List.dropLast_prefix q
  · exact List.prefix_refl q

theorem isPrefix_stripHidden (e : Bool × Bytes) : stripHidden e <+: e.2 := by
  rw [stripHidden]
  split
  · exact List.dropLast_prefix e.2
  · exact List.prefix_refl e.2

theorem isPrefix_stripAnchors (icase : Bool) (q : Bytes) :
    (stripAnchors icase q).2.2 <+: (stripStart q).2 := by
  rw [stripAnchors]
  cases icase with
  | true => exact List.prefix_refl _
  | false => exact stripEnd_prefix _

theorem memchr_append (l t : Bytes) (c : UInt8) : memchr (l ++ t) c l.length = decide (c ∈ l) := by
  rw [memchr, if_neg (by omega), Int.toNat_natCast, List.take_left, List.contains_eq_mem]

theorem getElem?_last_append {l : Bytes} (h : 0 < l.length) (t : Bytes) :
    (l ++ t)[((l.length : Int) - 1).toNat]? = l.getLast? := by
  have hidx : ((l.length : Int) - 1).toNat = l.length - 1 := by omega
  rw [hidx, List.getElem?_append_left (by omega), List.getLast?_eq_getElem?]

section Flags

variable {q sfx : Bytes} {icase : Bool} (hsfx : sfx = if icase then [63, 105] else [])
include hsfx

theorem stripAnchors_end :
    (stripAnchors icase q).2.1 =
      haveSuffix ((stripStart q).2 ++ sfx) (stripStart q).2.length [36] := by
  rw [haveSuffix_end, stripAnchors, hsfx]
  cases icase with
  | true => rfl
  | false => rfl

theorem length_stripAnchors :
    ((stripAnchors icase q).2.2.length : Int) =
      if (stripAnchors icase q).2.1 then ((stripStart q).2.length : Int) - 1
      else (stripStart q).2.length := by
  rw [stripAnchors]
  cases icase with
  | true => rfl
  | false =>
      simp only [Bool.false_eq_true, if_false, stripEnd]
      split
      · next h =>
          rw [if_pos rfl, List.length_dropLast]
          omega
      · rfl

/-- What the code makes of a pattern that is followed by its suffix. -/
theorem matchFlags_append (hlen : (q ++ sfx).length < 2147483648)
    (hicase : haveSuffix (q ++ sfx) (q ++ sfx).length [63, 105] = icase)
    (hpct : q.head? ≠ some 37) :
    matchFlags (q ++ sfx) =
      ((stripStart q).2 ++ sfx, ((stripHidden (stripAnchors icase q).2).length : Int),
        ⟨icase, (stripStart q).1, (stripAnchors icase q).2.1, false,
          decide (42 ∈ (stripAnchors icase q).2.2)⟩) := by
  have hq : (if icase = true then ((q ++ sfx).length : Int) - 2 else (q ++ sfx).length) =
      q.length := by
    rw [hsfx]
    cases icase with
    | true => simp
    | false => simp
  have hstart : havePrefix (q ++ sfx) q.length [94] = (stripStart q).1 := by
    rw [havePrefix_singleton q sfx (by decide), stripStart]
    split
    · next h => exact decide_eq_true h
    · next h => exact decide_eq_false h
  have hdrop : (if (stripStart q).1 = true then ((q ++ sfx).drop 1, (q.length : Int) - 1)
      else (q ++ sfx, (q.length : Int))) =
        ((stripStart q).2 ++ sfx, ((stripStart q).2.length : Int)) := by
    rw [stripStart]
    split
    · next h =>
        cases q with
        | nil => exact absurd h.1 (by simp)
        | cons a q => simp
    · simp
  simp only [matchFlags, intOfSize_of_lt hlen, hicase, hq,
    havePrefix_singleton q sfx (by decide : (37 : UInt8) ≠ 0), hpct, and_false, decide_false,
    Bool.false_eq_true, if_false, hstart, hdrop, ← stripAnchors_end hsfx,
      ← length_stripAnchors hsfx]
  obtain ⟨t, ht⟩ := isPrefix_stripAnchors icase q
  rw [← ht, List.append_assoc, memchr_append, stripHidden]
  refine Prod.ext rfl (Prod.ext ?_ rfl)
  dsimp only
  by_cases hstar : 42 ∈ (stripAnchors icase q).2.2
  · have hpos : 0 < (stripAnchors icase q).2.2.length := List.length_pos_of_mem hstar
    rw [getElem?_last_append hpos]
    by_cases hlast : (stripAnchors icase q).2.1 = false ∧
        (stripAnchors icase q).2.2.getLast? = some 36
    · rw [if_pos ⟨decide_eq_true hstar, by simp [hlast.1], by omega, hlast.2⟩,
        if_pos ⟨hstar, hlast⟩, List.length_dropLast]
      omega
    · rw [if_neg, if_neg fun h ↦ hlast h.2]
      rintro ⟨-, hend, -, h⟩
      exact hlast ⟨by simpa using hend, h⟩
  · rw [if_neg fun h ↦ hstar (of_decide_eq_true h.1), if_neg fun h ↦ hstar h.1]

end Flags

/-! ## The comparison -/

theorem mycmpLoop_any (b q a : Bytes) :
    mycmpLoop b true q a = !Pattern.scan (fun c d ↦ toLower d == toLower c) b q a := by
  induction a generalizing q with
  | nil => cases q <;> rfl
  | cons d a ih =>
      cases q with
      | nil => rfl
      | cons c q =>
          rw [mycmpLoop, Pattern.scan]
          split
          · exact ih q
          · rw [if_neg (by decide)]
            exact ih b

theorem mycmpLoop_all (b : Bytes) {q a : Bytes} (h : q.length ≤ a.length) :
    mycmpLoop b false q a = true ↔ q.map toLower <+: a.map toLower := by
  induction q generalizing a with
  | nil =>
      rw [mycmpLoop]
      exact iff_of_true rfl List.nil_prefix
  | cons c q ih =>
      cases a with
      | nil => exact absurd h (by simp)
      | cons d a =>
          rw [mycmpLoop, List.map_cons, List.map_cons, List.cons_prefix_cons,
            ← ih (Nat.le_of_succ_le_succ h), Bool.beq_comm]
          by_cases hcd : toLower c = toLower d
          · simp [hcd]
          · simp [hcd]

/-- A search that does not look at the case is one in the small letters. -/
theorem scan_toLower (q a : Bytes) :
    Pattern.scan (fun c d ↦ toLower d == toLower c) q q a =
      Pattern.scan (· == ·) (q.map toLower) (q.map toLower) (a.map toLower) := by
  rw [← Pattern.scan_map]
  congr 1
  funext c d
  exact Bool.beq_comm

section Compare

variable (a t : Bytes) {q : Bytes}

theorem mycmp_any : mycmp a (q ++ t) q.length true =
    !Pattern.scan (· == ·) (q.map toLower) (q.map toLower) (a.map toLower) := by
  rw [mycmp, List.take_left, mycmpLoop_any, scan_toLower]

theorem mycmp_all {a : Bytes} (h : q.length ≤ a.length) :
    mycmp a (q ++ t) q.length false = true ↔ q.map toLower <+: a.map toLower := by
  rw [mycmp, List.take_left, mycmpLoop_all _ h]

theorem strstr2_append : strstr2 a (q ++ t) q.length = Pattern.scan (· == ·) q q a := by
  rw [strstr2, List.take_left]

theorem compareMem_glob (alen : Int) (icase start atEnd base64 : Bool) :
    compareMem a alen (q ++ t) q.length ⟨icase, start, atEnd, base64, true⟩ =
      matchGlob icase (a.take alen.toNat) q := by
  rw [compareMem, if_pos rfl, globmatch, matchGlob, Int.toNat_natCast, List.take_left]

/-- The comparison without a star and without the suffix `?i`, of a string that is taken to have
the length `n`. -/
def ComparesAt (n : Int) (start atEnd : Bool) (q s : Bytes) : Prop :=
  q.length ≤ n ∧
    match start, atEnd with
    | true, true => n = q.length ∧ q <+: s
    | true, false => q <+: s
    | false, true => q <+: s.drop (n - q.length).toNat
    | false, false => Pattern.Found (· == ·) q s

theorem compareMem_text {a : Bytes} (ha : (0 : UInt8) ∉ a) (hq : (0 : UInt8) ∉ q) (alen : Int)
    (start atEnd base64 : Bool) :
    compareMem a alen (q ++ t) q.length ⟨false, start, atEnd, base64, false⟩ = true ↔
      ComparesAt alen start atEnd q a := by
  have hself : (CStr.ofBytes a).val = a := CStr.val_ofBytes ha
  have hdrop (n : Nat) : (CStr.ofBytes (a.drop n)).val = a.drop n :=
    CStr.val_ofBytes fun h ↦ ha (List.mem_of_mem_drop h)
  have hpre (x : Bytes) := strncmpEq_append x hq t
  rw [compareMem, if_neg Bool.false_ne_true, ComparesAt.eq_def]
  by_cases hle : (q.length : Int) ≤ alen
  · rw [if_pos hle, and_iff_right hle]
    simp only [hself, hdrop, Int.toNat_natCast, strstr2_append, ← Pattern.scan_iff]
    cases start <;> cases atEnd <;> simp [hpre]
  · rw [if_neg hle]
    exact iff_of_false Bool.false_ne_true fun h ↦ hle h.1

/-- The comparison with the suffix `?i` is turned around behind a `^`. -/
theorem compareMem_icase {a : Bytes} (ha : (0 : UInt8) ∉ a) {alen : Int} (hlen : alen ≤ a.length)
    (start base64 : Bool) :
    compareMem a alen (q ++ t) q.length ⟨true, start, false, base64, false⟩ = true ↔
      q.length ≤ alen ∧
        if start then ¬ q.map toLower <+: a.map toLower
        else Pattern.Found (· == ·) (q.map toLower) (a.map toLower) := by
  have hself : (CStr.ofBytes a).val = a := CStr.val_ofBytes ha
  rw [compareMem, if_neg Bool.false_ne_true]
  by_cases hle : (q.length : Int) ≤ alen
  · have hall := mycmp_all t (q := q) (a := a) (by omega)
    rw [if_pos hle, and_iff_right hle]
    simp only [hself, Int.toNat_natCast, mycmp_any, ← Pattern.scan_iff]
    cases start <;> simp [← hall]
  · rw [if_neg hle]
    exact iff_of_false Bool.false_ne_true fun h ↦ hle h.1

end Compare

theorem compareString_natCast (a : CStr) (b : Bytes) (blen : Nat) (icase start atEnd glob : Bool) :
    compareString a b blen ⟨icase, start, atEnd, false, glob⟩ =
      compareMem a.val (intOfSize a.length) b blen ⟨icase, start, atEnd, false, glob⟩ := by
  rw [compareString, if_neg (by omega), if_neg Bool.false_ne_true]

theorem stripIcase_append (p : Bytes) :
    p = (stripIcase p).2 ++ if (stripIcase p).1 then [63, 105] else [] := by
  rw [stripIcase]
  split
  · next h =>
      rw [if_pos rfl, ← h.2, List.take_append_drop]
  · rw [if_neg Bool.false_ne_true, List.append_nil]

theorem head?_stripIcase {p : Bytes} {c : UInt8} (h : p.head? ≠ some c) :
    (stripIcase p).2.head? ≠ some c := by
  rw [stripIcase]
  split
  · next hlen =>
      rw [List.head?_take, if_neg (by omega)]
      exact h
  · exact h

/-- A pattern without `%` comes to the comparison without its suffix and its anchors. -/
theorem sdbMatch_stripped (s : CStr) {p : CStr} (hp : p.length < 2147483648)
    (hpct : p.val.head? ≠ some 37) {icase : Bool} {q : Bytes} (hq : stripIcase p.val = (icase, q)) :
    ∃ t, sdbMatch (some s) (some p) =
      compareMem s.val (intOfSize s.length) (stripHidden (stripAnchors icase q).2 ++ t)
        (stripHidden (stripAnchors icase q).2).length
        ⟨icase, (stripStart q).1, (stripAnchors icase q).2.1, false,
          decide (42 ∈ (stripAnchors icase q).2.2)⟩ := by
  have hcode : sdbMatch (some s) (some p) = compareString s (matchFlags p.val).1
      (matchFlags p.val).2.1 (matchFlags p.val).2.2 := rfl
  have hsplit := stripIcase_append p.val
  have hicase := haveSuffix_icase p.val
  have hhead := head?_stripIcase hpct
  rw [hq] at hsplit hicase hhead
  rw [CStr.length] at hp
  rw [hcode]
  clear hcode
  rw [hsplit] at hp hicase ⊢
  rw [matchFlags_append rfl hp hicase hhead]
  obtain ⟨t, ht⟩ := (isPrefix_stripHidden (stripAnchors icase q).2).trans
    (isPrefix_stripAnchors icase q)
  refine ⟨t ++ if icase then [63, 105] else [], ?_⟩
  dsimp only
  rw [compareString_natCast, ← List.append_assoc, ht]

/-! ## Patterns with a star -/

/-- The suffix `?i` is dropped. -/
def dropIcase (p : Bytes) : Bool × Bytes :=
  if [63, 105] <:+ p then (true, p.take (p.length - 2)) else (false, p)

/-- A leading `^` is dropped. -/
def dropCaret (q : Bytes) : Bytes := if q.head? = some 94 then q.tail else q

/-- A `$` at the end is dropped. -/
def dropDollar (q : Bytes) : Bytes := if q.getLast? = some 36 then q.dropLast else q

/-- The documented meaning of a pattern with a star: without its anchors and the suffix, it matches
the whole string. -/
def GlobMatches (p s : CStr) : Prop :=
  Pattern.Matches (fun c d ↦ chareq c d (dropIcase p.val).1) (· == 42)
    (dropDollar (dropCaret (dropIcase p.val).2)) s.val

section Star

variable {q : Bytes} (hstar : 42 ∈ q)
include hstar

theorem stripIcase_star : stripIcase q = dropIcase q := by
  have hiff : (2 < q.length ∧ q.drop (q.length - 2) = [63, 105]) ↔ [63, 105] <:+ q := by
    rw [List.suffix_iff_eq_drop, eq_comm (b := q.drop _)]
    refine and_iff_right_of_imp fun (h : q.drop (q.length - 2) = [63, 105]) ↦ ?_
    have hsplit := List.take_append_drop (q.length - 2) q
    rw [h] at hsplit
    rw [← hsplit] at hstar ⊢
    have hmem : 42 ∈ q.take (q.length - 2) := by simpa using hstar
    have hpos := List.length_pos_of_mem hmem
    rw [List.length_append]
    exact Nat.lt_add_of_pos_left hpos
  rw [stripIcase, dropIcase, if_congr hiff rfl rfl]

theorem star_mem_stripIcase : 42 ∈ (stripIcase q).2 := by
  rw [stripIcase_append q] at hstar
  rcases List.mem_append.mp hstar with h | h
  · exact h
  · split at h
    · exact absurd h (by decide)
    · exact absurd h List.not_mem_nil

theorem stripStart_star : (stripStart q).2 = dropCaret q := by
  rw [stripStart, dropCaret]
  by_cases h : q.head? = some 94
  · obtain ⟨t, rfl⟩ := List.head?_eq_some_iff.mp h
    have hmem : 42 ∈ t := by simpa using hstar
    have hpos := List.length_pos_of_mem hmem
    rw [if_pos ⟨by rw [List.length_cons]; omega, h⟩, if_pos h]
  · rw [if_neg fun h' ↦ h h'.2, if_neg h]

theorem star_mem_dropCaret : 42 ∈ dropCaret q := by
  rw [dropCaret]
  split
  · next h =>
      obtain ⟨t, rfl⟩ := List.head?_eq_some_iff.mp h
      simpa using hstar
  · exact hstar

theorem star_mem_dropLast (h : q.getLast? = some 36) : 42 ∈ q.dropLast := by
  obtain ⟨l, rfl⟩ := List.getLast?_eq_some_iff.mp h
  simpa using hstar

theorem stripEnd_star :
    stripEnd q = if q.getLast? = some 36 then (true, q.dropLast) else (false, q) := by
  rw [stripEnd]
  by_cases h : q.getLast? = some 36
  · have hpos := List.length_pos_of_mem (star_mem_dropLast hstar h)
    rw [List.length_dropLast] at hpos
    rw [if_pos ⟨by omega, h⟩, if_pos h]
  · rw [if_neg fun h' ↦ h h'.2, if_neg h]

/-- The `$` is dropped with the suffix and without it. -/
theorem stripHidden_star (icase : Bool) : 42 ∈ (stripAnchors icase q).2.2 ∧
    stripHidden (stripAnchors icase q).2 = dropDollar (dropCaret q) := by
  have hmem := star_mem_dropCaret hstar
  rw [stripAnchors]
  dsimp only
  rw [stripStart_star hstar, dropDollar, stripHidden]
  cases icase with
  | true =>
      rw [if_pos rfl]
      refine ⟨hmem, if_congr ?_ rfl rfl⟩
      simp [hmem]
  | false =>
      rw [if_neg Bool.false_ne_true, stripEnd_star hmem]
      by_cases h : (dropCaret q).getLast? = some 36
      · rw [if_pos h, if_pos h]
        exact ⟨star_mem_dropLast hmem h, if_neg (by simp)⟩
      · rw [if_neg h, if_neg h]
        exact ⟨hmem, if_neg fun h' ↦ h h'.2.2⟩

end Star

/-- The part of a string that its length as an `int` covers. -/
def intCut (s : CStr) : CStr :=
  ⟨s.val.take (intOfSize s.length).toNat, fun h ↦ s.property (List.mem_of_mem_take h)⟩

theorem intCut_of_neg {s : CStr} (h : intOfSize s.length < 0) : (intCut s).val = [] := by
  change s.val.take (intOfSize s.length).toNat = []
  rw [Int.toNat_of_nonpos (Int.le_of_lt h), List.take_zero]

theorem intCut_of_lt {s : CStr} (hs : s.length < 2147483648) : intCut s = s := by
  apply CStr.ext
  change s.val.take (intOfSize s.length).toNat = s.val
  rw [intOfSize_of_lt hs, Int.toNat_natCast]
  exact List.take_length

/-- A pattern with a star is compared with what the `int` covers. -/
theorem sdbMatch_star (s : CStr) {p : CStr} (hp : p.length < 2147483648)
    (hstar : 42 ∈ p.val) (hpct : p.val.head? ≠ some 37) :
    sdbMatch (some s) (some p) = true ↔ GlobMatches p (intCut s) := by
  obtain ⟨icase, q, hq⟩ : ∃ icase q, stripIcase p.val = (icase, q) := ⟨_, _, rfl⟩
  have hmem := star_mem_stripIcase hstar
  rw [hq] at hmem
  obtain ⟨hmem', hbody⟩ := stripHidden_star hmem icase
  obtain ⟨t, ht⟩ := sdbMatch_stripped s hp hpct hq
  rw [ht, decide_eq_true hmem', compareMem_glob, hbody, matchGlob, Pattern.glob_iff, GlobMatches,
    ← stripIcase_star hstar, hq]
  rfl

/-- A pattern with a star matches as documented exactly when it makes no difference to the pattern
that the length of the string is cut to an `int`. -/
theorem sdbMatch_glob_iff (s : CStr) {p : CStr} (hp : p.length < 2147483648)
    (hstar : 42 ∈ p.val) (hpct : p.val.head? ≠ some 37) :
    (sdbMatch (some s) (some p) = true ↔ GlobMatches p s) ↔
      (s.length < 2147483648 ∨ (GlobMatches p (intCut s) ↔ GlobMatches p s)) := by
  rw [sdbMatch_star s hp hstar hpct]
  refine ⟨.inr, fun h ↦ h.elim (fun hs ↦ ?_) id⟩
  rw [intCut_of_lt hs]

/-- The pattern `a*`. -/
def aStar : CStr := CStr.ofBytes [97, 42]

theorem sdbMatch_glob_iff_abc :
    (sdbMatch (some (CStr.ofBytes [97, 98, 99])) (some aStar) = true ↔
      GlobMatches aStar (CStr.ofBytes [97, 98, 99])) ↔
      ((CStr.ofBytes [97, 98, 99]).length < 2147483648 ∨
        (GlobMatches aStar (intCut (CStr.ofBytes [97, 98, 99])) ↔
          GlobMatches aStar (CStr.ofBytes [97, 98, 99]))) :=
  sdbMatch_glob_iff _ (by decide) (by decide) (by decide)

/-- Nothing is left to match `a*` when the length of the string is negative as an `int`. -/
theorem not_sdbMatch_aStar {s : CStr} {l : Bytes} (hs : s.val = 97 :: l)
    (hneg : intOfSize s.length < 0) :
    ¬ (sdbMatch (some s) (some aStar) = true ↔ GlobMatches aStar s) := by
  have hbody : dropDollar (dropCaret (dropIcase aStar.val).2) = [97, 42] := by decide
  rw [sdbMatch_star s (by decide) (by decide) (by decide), GlobMatches, GlobMatches,
    intCut_of_neg hneg, hbody, Pattern.matches_nil_iff, hs, Pattern.matches_char (by decide),
    Pattern.matches_star (by decide)]
  refine fun h ↦ absurd (h.mpr ⟨by decide, [], List.nil_suffix, rfl⟩) (by decide)

/-- 2^31 letters `a`. -/
def longA : CStr :=
  ⟨List.replicate 2147483648 97, fun h ↦ absurd (List.eq_of_mem_replicate h) (by decide)⟩

theorem length_longA : longA.length = 2147483648 := List.length_replicate

theorem not_sdbMatch_longA :
    ¬ (sdbMatch (some longA) (some aStar) = true ↔ GlobMatches aStar longA) :=
  not_sdbMatch_aStar (l := List.replicate 2147483647 97) List.replicate_succ
    (intOfSize_neg (Nat.le_of_eq length_longA.symm) (by rw [length_longA]; omega))

/-! ## Patterns without a star -/

theorem stripIcase_of_not_mem {p : Bytes} (h : 63 ∉ p) : stripIcase p = (false, p) := by
  rw [stripIcase, if_neg]
  rintro ⟨-, hdrop⟩
  have hmem : (63 : UInt8) ∈ p.drop (p.length - 2) := by
    rw [hdrop]
    decide
  exact h (List.mem_of_mem_drop hmem)

section Text

variable {bad : Bytes} {p : Anchored} (hp : p.Plain bad)
include hp

theorem Anchored.Plain.stripStart_text (h : 94 ∈ bad) :
    stripStart p.text.val = (p.start, p.body.val ++ if p.atEnd then [36] else []) := by
  have hpos := hp.length_pos
  rw [stripStart, p.val_text]
  cases p.start with
  | true =>
      rw [if_pos rfl, if_pos]
      · rfl
      · refine ⟨?_, rfl⟩
        simp only [List.length_append, List.length_singleton]
        omega
  | false =>
      rw [if_neg Bool.false_ne_true, List.nil_append, if_neg]
      rintro ⟨-, hhead⟩
      rw [List.head?_append_of_ne_nil _ (List.ne_nil_of_length_pos hpos)] at hhead
      exact hp.head?_ne h hhead

theorem Anchored.Plain.stripEnd_body (h : 36 ∈ bad) :
    stripEnd (p.body.val ++ if p.atEnd then [36] else []) = (p.atEnd, p.body.val) := by
  have hpos := hp.length_pos
  rw [stripEnd]
  cases p.atEnd with
  | true =>
      rw [if_pos rfl, if_pos]
      · rw [List.dropLast_concat]
      · refine ⟨?_, List.getLast?_concat⟩
        simp only [List.length_append, List.length_singleton]
        omega
  | false =>
      rw [if_neg Bool.false_ne_true, List.append_nil, if_neg]
      exact fun hlast ↦ hp.getLast?_ne h hlast.2

theorem Anchored.Plain.not_mem_text_of {c : UInt8} (h : c ∈ bad) (h94 : c ≠ 94) (h36 : c ≠ 36) :
    c ∉ p.text.val := by
  rw [p.val_text]
  intro hmem
  rcases List.mem_append.mp hmem with hmem | hmem
  · split at hmem
    · exact h94 (List.mem_singleton.mp hmem)
    · exact absurd hmem List.not_mem_nil
  · rcases List.mem_append.mp hmem with hmem | hmem
    · exact hp.not_mem h hmem
    · split at hmem
      · exact h36 (List.mem_singleton.mp hmem)
      · exact absurd hmem List.not_mem_nil

end Text

/-- The characters with a meaning in the patterns of `sdb_match`. -/
def matchChars : Bytes := [42, 94, 36, 37, 63]

/-- The characters that are neither anchors nor stand for themselves. -/
def specials : Bytes := [42, 37, 63]

theorem specials_subset : specials ⊆ matchChars ∧ ∀ c ∈ specials, c ≠ 94 ∧ c ≠ 36 := by
  decide +kernel

theorem zero_not_mem_stripAnchors (icase : Bool) (p : CStr) :
    (0 : UInt8) ∉ (stripAnchors icase p.val).2.2 :=
  fun h ↦ p.property (stripStart_subset _ ((isPrefix_stripAnchors icase _).subset h))

/-- A pattern without a star and the suffix `?i` is compared without its anchors. -/
theorem sdbMatch_plain (s : CStr) {p : CStr} (hlen : p.length < 2147483648)
    (hpct : p.val.head? ≠ some 37) (hicase : stripIcase p.val = (false, p.val))
    (hfree : 42 ∉ p.val) {start atEnd : Bool} {q : Bytes}
    (hq : stripAnchors false p.val = (start, atEnd, q)) :
    sdbMatch (some s) (some p) = true ↔
      ComparesAt (intOfSize s.length) start atEnd q s.val := by
  have hstart : (stripStart p.val).1 = start := congrArg Prod.fst hq
  have hzero := zero_not_mem_stripAnchors false p
  have hstar : 42 ∉ (stripAnchors false p.val).2.2 := fun h ↦
    hfree (stripStart_subset _ ((isPrefix_stripAnchors false _).subset h))
  rw [hq] at hzero hstar
  obtain ⟨t, ht⟩ := sdbMatch_stripped s hlen hpct hicase
  rw [ht, hq, hstart, stripHidden, if_neg fun h ↦ hstar h.1, decide_eq_false hstar]
  exact compareMem_text t s.property hzero _ _ _ _

theorem sdbMatch_free (s : CStr) {p : CStr} (hlen : p.length < 2147483648)
    (hfree : ∀ c ∈ p.val, c ∉ specials) {start atEnd : Bool} {q : Bytes}
    (hq : stripAnchors false p.val = (start, atEnd, q)) :
    sdbMatch (some s) (some p) = true ↔
      ComparesAt (intOfSize s.length) start atEnd q s.val :=
  sdbMatch_plain s hlen (fun h ↦ hfree 37 (List.mem_of_mem_head? h) (by decide))
    (stripIcase_of_not_mem fun h ↦ hfree 63 h (by decide)) (fun h ↦ hfree 42 h (by decide)) hq

/-- A pattern without a star comes to the comparison as its body. -/
theorem sdbMatch_text (s : CStr) {p : Anchored} (hp : p.Plain matchChars)
    (hlen : p.text.length < 2147483648) :
    sdbMatch (some s) (some p.text) = true ↔
      ComparesAt (intOfSize s.length) p.start p.atEnd p.body.val s.val := by
  have hfree : ∀ c ∈ p.text.val, c ∉ specials := fun c hmem hc ↦
    hp.not_mem_text_of (specials_subset.1 hc) (specials_subset.2 c hc).1 (specials_subset.2 c hc).2
      hmem
  have hanchors : stripAnchors false p.text.val = (p.start, p.atEnd, p.body.val) := by
    rw [stripAnchors, hp.stripStart_text (by decide)]
    exact Prod.ext rfl (hp.stripEnd_body (by decide))
  exact sdbMatch_free s hlen hfree hanchors

/-- What has to hold of a string that is too long for an `int`: the comparison goes by the `int`
that its length becomes. -/
def Anchored.LongAgrees (p : Anchored) (s : CStr) : Prop :=
  ComparesAt (intOfSize s.length) p.start p.atEnd p.body.val s.val ↔ p.Matches s

theorem infix_of_found {q s : Bytes} (h : Pattern.Found (· == ·) q s) : q <:+: s := by
  obtain ⟨ws, m, t, hs, -, hm⟩ := h
  rw [Pattern.fits_beq] at hm
  exact ⟨ws.flatten, t, by rw [hs, hm, List.append_assoc]⟩

/-- A pattern without a star matches a string that fits into an `int` as documented exactly when
the pattern has an anchor, or its body does not occur in the string, or the body occurs behind
attempts that fail. -/
theorem sdbMatch_text_iff_of_lt {s : CStr} {p : Anchored} (hp : p.Plain matchChars)
    (hlen : p.text.length < 2147483648) (hs : s.length < 2147483648) :
    (sdbMatch (some s) (some p.text) = true ↔ p.Matches s) ↔
      (p.start = false → p.atEnd = false → p.body.val <:+: s.val →
        Pattern.Found (· == ·) p.body.val s.val) := by
  have hsub : ((s.val.length : Int) - p.body.val.length).toNat =
      s.val.length - p.body.val.length := by omega
  rw [sdbMatch_text s hp hlen, intOfSize_of_lt hs, CStr.length, ComparesAt.eq_def, Int.ofNat_le,
    Int.ofNat_inj, hsub]
  clear hp hlen hsub
  obtain ⟨start, body, atEnd⟩ := p
  cases start with
  | true =>
      refine iff_of_true ?_ fun h ↦ absurd h (by simp)
      cases atEnd with
      | true =>
          refine (and_congr_right' prefix_and_length_iff).trans ?_
          exact ⟨fun h ↦ CStr.ext h.2, fun h ↦ ⟨h ▸ Nat.le_refl _, congrArg Subtype.val h⟩⟩
      | false => exact and_iff_right_of_imp List.IsPrefix.length_le
  | false =>
      cases atEnd with
      | true =>
          refine iff_of_true ?_ fun _ h ↦ absurd h (by simp)
          refine (and_congr_right fun hle ↦ prefix_drop_iff hle).trans ?_
          exact and_iff_right_of_imp List.IsSuffix.length_le
      | false =>
          constructor
          · exact fun h _ _ hin ↦ (h.mpr hin).2
          · intro h
            exact ⟨fun hf ↦ infix_of_found hf.2, fun hin ↦ ⟨hin.length_le, h rfl rfl hin⟩⟩

/-- The same for every string. -/
theorem sdbMatch_text_iff (s : CStr) {p : Anchored} (hp : p.Plain matchChars)
    (hlen : p.text.length < 2147483648) :
    (sdbMatch (some s) (some p.text) = true ↔ p.Matches s) ↔
      if s.length < 2147483648 then
        p.start = false → p.atEnd = false → p.body.val <:+: s.val →
          Pattern.Found (· == ·) p.body.val s.val
      else p.LongAgrees s := by
  split
  · next hs => exact sdbMatch_text_iff_of_lt hp hlen hs
  · next hs =>
      rw [sdbMatch_text s hp hlen]
      rfl

/-- The pattern `ab`, without anchors. -/
def plainAb : Anchored := ⟨false, CStr.ofBytes [97, 98], false⟩

theorem plainAb_plain : plainAb.Plain matchChars := ⟨by decide, by decide +kernel⟩

theorem sdbMatch_text_iff_cab :
    (sdbMatch (some (CStr.ofBytes [99, 97, 98])) (some plainAb.text) = true ↔
      plainAb.Matches (CStr.ofBytes [99, 97, 98])) ↔
      if (CStr.ofBytes [99, 97, 98]).length < 2147483648 then
        plainAb.start = false → plainAb.atEnd = false →
          plainAb.body.val <:+: (CStr.ofBytes [99, 97, 98]).val →
          Pattern.Found (· == ·) plainAb.body.val (CStr.ofBytes [99, 97, 98]).val
      else plainAb.LongAgrees (CStr.ofBytes [99, 97, 98]) :=
  sdbMatch_text_iff _ plainAb_plain (by decide)

/-- `ab` is not found in `aab`: the second `a` ends the attempt that the first one began. -/
theorem not_sdbMatch_aab :
    ¬ (sdbMatch (some (CStr.ofBytes [97, 97, 98])) (some plainAb.text) = true ↔
      plainAb.Matches (CStr.ofBytes [97, 97, 98])) := by
  have hcode : sdbMatch (some (CStr.ofBytes [97, 97, 98])) (some plainAb.text) = false := by decide
  rw [hcode]
  exact fun h ↦ absurd (h.mpr ⟨[97], [], rfl⟩) Bool.false_ne_true

/-! ## Patterns with the suffix `?i` -/

/-- Only letters change. -/
theorem toLower_eq_iff {d : UInt8} (hd : d.toNat < 65 ∨ 90 < d.toNat ∧ d.toNat < 97) (c : UInt8) :
    toLower c = d ↔ c = d := by
  rw [toLower]
  split
  · next h =>
      have h65 : 65 ≤ c.toNat := UInt8.le_iff_toNat_le.mp h.1
      have h90 : c.toNat ≤ 90 := UInt8.le_iff_toNat_le.mp h.2
      have hadd : (c + 32).toNat = c.toNat + 32 := by
        rw [UInt8.toNat_add]
        exact Nat.mod_eq_of_lt (by have h32 : (32 : UInt8).toNat = 32 := rfl; omega)
      rw [← UInt8.toNat_inj, ← UInt8.toNat_inj, hadd]
      omega
  · exact Iff.rfl

theorem mem_map_toLower {d : UInt8} (hd : d.toNat < 65 ∨ 90 < d.toNat ∧ d.toNat < 97) (l : Bytes) :
    d ∈ l.map toLower ↔ d ∈ l := by
  simp [List.mem_map, toLower_eq_iff hd]

/-- The string in small letters. -/
def lower (s : CStr) : CStr :=
  ⟨s.val.map toLower, fun h ↦ s.property ((mem_map_toLower (.inl (by decide)) s.val).mp h)⟩

theorem length_lower (s : CStr) : (lower s).length = s.length := List.length_map toLower

theorem head?_map_toLower {d : UInt8} (hd : d.toNat < 65 ∨ 90 < d.toNat ∧ d.toNat < 97)
    (q : Bytes) : (q.map toLower).head? = some d ↔ q.head? = some d := by
  rw [List.head?_map, Option.map_eq_some_iff]
  simp [toLower_eq_iff hd]

theorem getLast?_map_toLower {d : UInt8} (hd : d.toNat < 65 ∨ 90 < d.toNat ∧ d.toNat < 97)
    (q : Bytes) : (q.map toLower).getLast? = some d ↔ q.getLast? = some d := by
  rw [List.getLast?_map, Option.map_eq_some_iff]
  simp [toLower_eq_iff hd]

theorem stripStart_map (q : Bytes) :
    stripStart (q.map toLower) = ((stripStart q).1, (stripStart q).2.map toLower) := by
  have hiff : 1 < (q.map toLower).length ∧ (q.map toLower).head? = some 94 ↔
      1 < q.length ∧ q.head? = some 94 := by
    rw [head?_map_toLower (.inr (by decide)), List.length_map]
  rw [stripStart, stripStart, if_congr hiff rfl rfl]
  split
  · rw [List.map_tail]
  · rfl

theorem stripEnd_map (q : Bytes) :
    stripEnd (q.map toLower) = ((stripEnd q).1, (stripEnd q).2.map toLower) := by
  have hiff : 1 < (q.map toLower).length ∧ (q.map toLower).getLast? = some 36 ↔
      1 < q.length ∧ q.getLast? = some 36 := by
    rw [getLast?_map_toLower (.inl (by decide)), List.length_map]
  rw [stripEnd, stripEnd, if_congr hiff rfl rfl]
  split
  · rw [List.map_dropLast]
  · rfl

/-- The suffix that makes a pattern look at small letters only. -/
def icaseSuffix : CStr := CStr.ofBytes [63, 105]

/-- The comparison with the suffix `?i`, of a string that is taken to have the length `n`: behind
a `^` it is turned around, and `$` stands for itself.  Without a pattern before it, the suffix
stands for itself. -/
def IcaseComparesAt (n : Int) (p s : CStr) : Prop :=
  let r := stripStart p.val
  if p = CStr.empty then ComparesAt n false false icaseSuffix.val s.val
  else r.2.length ≤ n ∧
    if r.1 then ¬ r.2.map toLower <+: s.val.map toLower
    else Pattern.Found (· == ·) (r.2.map toLower) (s.val.map toLower)

/-- The comparison in small letters. -/
def LowerComparesAt (n : Int) (p s : CStr) : Prop :=
  let r := stripStart p.val
  let e := stripEnd r.2
  ComparesAt n r.1 e.1 (e.2.map toLower) (s.val.map toLower)

/-- When the suffix `?i` makes a pattern look at small letters: with neither anchor always, with
`^` only on strings that are too short, with `$` when the string ends with the pattern if and only
if the pattern occurs in it together with the `$`. -/
def IcaseAgrees (p s : CStr) : Prop :=
  let r := stripStart p.val
  let e := stripEnd r.2
  if p = CStr.empty then Pattern.Found (· == ·) icaseSuffix.val s.val
  else
    match r.1, e.1 with
    | false, false => True
    | true, false => s.val.length < r.2.length
    | false, true =>
        Pattern.Found (· == ·) (r.2.map toLower) (s.val.map toLower) ↔
          e.2.map toLower <:+ s.val.map toLower
    | true, true =>
        s.val.length ≤ e.2.length ∧ s.val.map toLower ≠ e.2.map toLower ∨
          r.2.map toLower <+: s.val.map toLower

section Icase

variable (s : CStr) {p : CStr} (hlen : p.length + 2 < 2147483648)
  (hfree : ∀ c ∈ p.val, c ∉ specials)
include hlen hfree

/-- The pattern in small letters. -/
theorem sdbMatch_lower :
    sdbMatch (some (lower s)) (some (lower p)) = true ↔
      LowerComparesAt (intOfSize s.length) p s := by
  have hfree' : ∀ c ∈ (lower p).val, c ∉ specials := by
    intro c hmem hc
    obtain ⟨d, hd, rfl⟩ := List.mem_map.mp hmem
    refine hfree d hd ?_
    simp only [specials, List.mem_cons, List.not_mem_nil, or_false] at hc ⊢
    rwa [toLower_eq_iff (.inl (by decide)), toLower_eq_iff (.inl (by decide)),
      toLower_eq_iff (.inl (by decide))] at hc
  have hq : stripAnchors false (lower p).val = ((stripStart p.val).1,
      (stripEnd (stripStart p.val).2).1, (stripEnd (stripStart p.val).2).2.map toLower) := by
    change stripAnchors false (p.val.map toLower) = _
    rw [stripAnchors, stripStart_map, if_neg Bool.false_ne_true, stripEnd_map]
  rw [sdbMatch_free (lower s) (by rw [length_lower]; omega) hfree' hq, length_lower]
  rfl

/-- The pattern with the suffix. -/
theorem sdbMatch_icase :
    sdbMatch (some s) (some (p ++ icaseSuffix)) = true ↔
      IcaseComparesAt (intOfSize s.length) p s := by
  rw [IcaseComparesAt]
  by_cases hne : p = CStr.empty
  · rw [if_pos hne, hne]
    exact sdbMatch_plain s (by decide) (by decide) (by decide) (by decide) rfl
  rw [if_neg hne]
  have hpos : 0 < p.val.length := Nat.pos_of_ne_zero fun h ↦ hne (CStr.length_eq_zero.mp h)
  have hval : (p ++ icaseSuffix).val = p.val ++ [63, 105] := rfl
  have hpct : (p ++ icaseSuffix).val.head? ≠ some 37 := by
    rw [hval, List.head?_append_of_ne_nil _ (List.ne_nil_of_length_pos hpos)]
    exact fun h ↦ hfree 37 (List.mem_of_mem_head? h) (by decide)
  have hq : stripIcase (p ++ icaseSuffix).val = (true, p.val) := by
    rw [hval, stripIcase, if_pos]
    · simp
    · simp
      omega
  have hlen' : (p ++ icaseSuffix).length < 2147483648 := by
    rw [CStr.length, hval, List.length_append]
    exact hlen
  have hstar : 42 ∉ (stripStart p.val).2 := fun h ↦ hfree 42 (stripStart_subset _ h) (by decide)
  have hzero : (0 : UInt8) ∉ (stripStart p.val).2 := fun h ↦ p.property (stripStart_subset _ h)
  obtain ⟨t, ht⟩ := sdbMatch_stripped s hlen' hpct hq
  rw [ht, stripAnchors, if_pos rfl, stripHidden, if_neg fun h ↦ hstar h.1, decide_eq_false hstar]
  exact compareMem_icase t s.property (intOfSize_le s.length) _ _

end Icase

/-- What stands between the anchors, and the `$` behind it. -/
theorem stripEnd_append (q : Bytes) :
    q = (stripEnd q).2 ++ if (stripEnd q).1 then [36] else [] := by
  rw [stripEnd]
  split
  · next h =>
      obtain ⟨l, rfl⟩ := List.getLast?_eq_some_iff.mp h.2
      rw [if_pos rfl, List.dropLast_concat]
  · rw [if_neg Bool.false_ne_true, List.append_nil]

theorem length_le_of_found {q s : Bytes} (h : Pattern.Found (· == ·) q s) : q.length ≤ s.length :=
  (infix_of_found h).length_le

theorem length_le_of_prefix_map {q s : Bytes} (h : q.map toLower <+: s.map toLower) :
    q.length ≤ s.length := by
  simpa using h.length_le

/-- For a string that fits into an `int`. -/
theorem icaseComparesAt_iff (p s : CStr) :
    (IcaseComparesAt s.val.length p s ↔ LowerComparesAt s.val.length p s) ↔ IcaseAgrees p s := by
  simp only [IcaseComparesAt, LowerComparesAt, IcaseAgrees]
  by_cases hne : p = CStr.empty
  · rw [if_pos hne, if_pos hne, hne]
    have hempty : ComparesAt s.val.length false false [] (s.val.map toLower) :=
      ⟨by simp, Pattern.Found.of_fits .nil _⟩
    refine (iff_true_right hempty).trans ?_
    exact and_iff_right_of_imp fun h ↦ Int.ofNat_le.mpr (length_le_of_found h)
  rw [if_neg hne, if_neg hne]
  generalize (stripStart p.val).1 = start
  generalize (stripStart p.val).2 = q
  have hq := stripEnd_append q
  generalize (stripEnd q).1 = atEnd at hq ⊢
  generalize (stripEnd q).2 = b at hq ⊢
  have hlen : (b.map toLower).length = b.length := List.length_map toLower
  have hsub : ((s.val.length : Int) - b.length).toNat = (s.val.map toLower).length - b.length := by
    rw [List.length_map]
    omega
  rw [ComparesAt.eq_def, hlen, hsub, Int.ofNat_le, Int.ofNat_le, Int.ofNat_inj, ← hlen]
  cases atEnd with
  | false =>
      rw [if_neg Bool.false_ne_true, List.append_nil] at hq
      subst hq
      rw [hlen]
      cases start with
      | false => exact iff_of_true Iff.rfl trivial
      | true =>
          rw [if_pos rfl]
          constructor
          · intro h
            by_contra hle
            have hnot (hpre : q.map toLower <+: s.val.map toLower) : False :=
              (h.mpr ⟨by omega, hpre⟩).2 hpre
            exact hnot (h.mp ⟨by omega, hnot⟩).2
          · intro h
            exact ⟨fun h' ↦ absurd h'.1 (by omega), fun h' ↦ absurd h'.1 (by omega)⟩
  | true =>
      rw [if_pos rfl] at hq
      have hqlen : q.length = b.length + 1 := by
        rw [hq, List.length_append, List.length_singleton]
      cases start with
      | false =>
          refine iff_congr ?_ ?_
          · exact and_iff_right_of_imp fun h ↦ by simpa using length_le_of_found h
          · have hmap (h : (b.map toLower).length ≤ s.val.length) := prefix_drop_iff
              (a := s.val.map toLower) (b := b.map toLower)
              (h.trans_eq (List.length_map toLower).symm)
            constructor
            · exact fun h ↦ (hmap h.1).mp h.2
            · intro h
              have hle : (b.map toLower).length ≤ s.val.length := by simpa using h.length_le
              exact ⟨hle, (hmap hle).mpr h⟩
      | true =>
          have hwhole : s.val.length = b.length ∧ b.map toLower <+: s.val.map toLower ↔
              s.val.map toLower = b.map toLower := by
            rw [← prefix_and_length_iff, List.length_map, List.length_map]
          rw [if_pos rfl, hlen]
          constructor
          · intro h
            by_cases hpre : q.map toLower <+: s.val.map toLower
            · exact .inr hpre
            · left
              constructor
              · by_contra hlong
                have hall := (h.mp ⟨by omega, hpre⟩).2.1
                omega
              · intro heq
                have hlens := congrArg List.length heq
                rw [List.length_map, List.length_map] at hlens
                have hle := (h.mpr ⟨by omega, hwhole.mpr heq⟩).1
                omega
          · rintro (⟨hle, hne'⟩ | hpre)
            · exact iff_of_false (fun h ↦ by omega) fun h ↦ hne' (hwhole.mp h.2)
            · have hle := length_le_of_prefix_map hpre
              refine iff_of_false (fun h ↦ h.2 hpre) fun h ↦ ?_
              have hall := h.2.1
              omega

/-- The suffix `?i` makes a pattern without a star look at small letters exactly in the cases of
`IcaseAgrees`; the length of a string that is too long for an `int` is taken for another one. -/
theorem sdbMatch_icase_iff (s : CStr) {p : CStr} (hlen : p.length + 2 < 2147483648)
    (hfree : ∀ c ∈ p.val, c ∉ specials) :
    sdbMatch (some s) (some (p ++ icaseSuffix)) = sdbMatch (some (lower s)) (some (lower p)) ↔
      if s.length < 2147483648 then IcaseAgrees p s
      else IcaseComparesAt (intOfSize s.length) p s ↔ LowerComparesAt (intOfSize s.length) p s := by
  rw [Bool.eq_iff_iff, sdbMatch_icase s hlen hfree, sdbMatch_lower s hlen hfree]
  split
  · next hs =>
      rw [intOfSize_of_lt hs]
      exact icaseComparesAt_iff p s
  · rfl

/-- The pattern `^foo`. -/
def caretFoo : CStr := CStr.ofBytes [94, 102, 111, 111]

theorem sdbMatch_icase_iff_fo :
    sdbMatch (some (CStr.ofBytes [70, 111])) (some (caretFoo ++ icaseSuffix)) =
        sdbMatch (some (lower (CStr.ofBytes [70, 111]))) (some (lower caretFoo)) ↔
      if (CStr.ofBytes [70, 111]).length < 2147483648 then
        IcaseAgrees caretFoo (CStr.ofBytes [70, 111])
      else
        IcaseComparesAt (intOfSize (CStr.ofBytes [70, 111]).length) caretFoo
            (CStr.ofBytes [70, 111]) ↔
          LowerComparesAt (intOfSize (CStr.ofBytes [70, 111]).length) caretFoo
            (CStr.ofBytes [70, 111]) :=
  sdbMatch_icase_iff _ (by decide) (by decide +kernel)

/-- `FOOD` begins with `foo` in small letters, and `^foo?i` does not match it. -/
theorem not_sdbMatch_food :
    sdbMatch (some (CStr.ofBytes [70, 79, 79, 68])) (some (caretFoo ++ icaseSuffix)) ≠
      sdbMatch (some (lower (CStr.ofBytes [70, 79, 79, 68]))) (some (lower caretFoo)) := by
  decide

end SdbStore
