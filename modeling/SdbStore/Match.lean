import Mathlib.Data.List.Infix
import SdbStore.Base64
import SdbStore.Lib.Pattern

/-!
# Matching strings

`match.c`: a pattern without a star is looked for in a string, at the places that `^` and `$`
allow; a pattern with a star has to match the whole string.  The pattern carries its options: the
suffix `?i`, and `%` before it for a string in base64.

The `match` of `sdb.c`, which the queries use, knows `^` and `$` only.
-/

namespace SdbStore

open Lib

/-! ## `match.c` -/

/-- `tolower`, in the locale `C`. -/
def toLower (c : UInt8) : UInt8 := if 65 ≤ c ∧ c ≤ 90 then c + 32 else c

/-- `!strncmp`, for strings that are given by their bytes before the NUL. -/
def strncmpEq (a b : Bytes) (n : Nat) : Bool := (a ++ [0]).take n = (b ++ [0]).take n

/-- `haveSuffix`. -/
def haveSuffix (glob : Bytes) (globLen : Int) (sfx : Bytes) : Bool :=
  globLen > sfx.length ∧ glob.drop (globLen - sfx.length).toNat = sfx

/-- `havePrefix`. -/
def havePrefix (glob : Bytes) (globLen : Int) (pfx : Bytes) : Bool :=
  pfx.length < globLen ∧ strncmpEq glob pfx pfx.length

/-- `MatchFlag`. -/
structure MatchFlags where
  icase : Bool
  start : Bool
  atEnd : Bool
  base64 : Bool
  glob : Bool

/-- `chareq`. -/
def chareq (a b : UInt8) (icase : Bool) : Bool :=
  if icase then toLower a == toLower b else a == b

/-- `globmatch`. -/
def globmatch (a : Bytes) (alen : Int) (b : Bytes) (blen : Int) (icase : Bool) : Bool :=
  Pattern.glob (fun c d ↦ chareq c d icase) (· == 42) (a.take alen.toNat) (b.take blen.toNat)

/-- The loop of `mycmp`; `q` is what is left of the pattern `b`. -/
def mycmpLoop (b : Bytes) (any : Bool) : Bytes → Bytes → Bool
  | [], _ => !any
  | _ :: _, [] => true
  | c :: q, d :: a =>
      if toLower d == toLower c then mycmpLoop b any q a
      else if !any then false
      else mycmpLoop b any b a

/-- `mycmp`. -/
def mycmp (a b : Bytes) (n : Nat) (any : Bool) : Bool := mycmpLoop (b.take n) any (b.take n) a

/-- `strstr2`. -/
def strstr2 (a b : Bytes) (n : Nat) : Bool := Pattern.scan (· == ·) (b.take n) (b.take n) a

/-- `compareString`, from the comparison on: the string is `alen` bytes in memory. -/
def compareMem (a : Bytes) (alen : Int) (b : Bytes) (blen : Int) (flags : MatchFlags) : Bool :=
  if flags.glob then globmatch a alen b blen flags.icase
  else if blen ≤ alen then
    let s := (CStr.ofBytes a).val
    let e := (CStr.ofBytes (a.drop (alen - blen).toNat)).val
    let n := blen.toNat
    if flags.icase then
      if flags.start ∧ flags.atEnd then alen = blen ∧ !mycmp s b n false
      else if flags.start then !mycmp s b n false
      else if flags.atEnd then !mycmp e b n false
      else !mycmp s b n true
    else
      if flags.start ∧ flags.atEnd then alen = blen ∧ strncmpEq s b n
      else if flags.start then strncmpEq s b n
      else if flags.atEnd then strncmpEq e b n
      else strstr2 s b n
  else false

/-- `compareString`. -/
def compareString (a : CStr) (b : Bytes) (blen : Int) (flags : MatchFlags) : Bool :=
  if blen < 0 then false
  else if flags.base64 then
    match sdbDecode (some a) with
    | none => false
    | some (aa, alen) => compareMem aa alen b blen flags
  else compareMem a.val (intOfSize a.length) b blen flags

/-- `memchr`, in a string with `n` bytes or more. -/
def memchr (s : Bytes) (c : UInt8) (n : Int) : Bool :=
  if n < 0 then s.contains c else (s.take n.toNat).contains c

/-- The part of `sdb_match` that takes the pattern to pieces: what is left of it, its length and
the flags. -/
def matchFlags (glob : Bytes) : Bytes × Int × MatchFlags :=
  let globLen := intOfSize glob.length
  let icase := haveSuffix glob globLen [63, 105]
  let globLen := if icase then globLen - 2 else globLen
  let base64 := havePrefix glob globLen [37]
  let r := if base64 then (glob.drop 1, globLen - 1) else (glob, globLen)
  let start := havePrefix r.1 r.2 [94]
  let r := if start then (r.1.drop 1, r.2 - 1) else r
  let atEnd := haveSuffix r.1 r.2 [36]
  let globLen := if atEnd then r.2 - 1 else r.2
  let star := memchr r.1 42 globLen
  let globLen :=
    if star ∧ !atEnd ∧ globLen > 0 ∧ r.1[(globLen - 1).toNat]? = some 36 then globLen - 1
    else globLen
  (r.1, globLen, ⟨icase, start, atEnd, base64, star⟩)

/-- `sdb_match`. -/
def sdbMatch (str glob : Option CStr) : Bool :=
  match str, glob with
  | some str, some glob =>
      let r := matchFlags glob.val
      compareString str r.1 r.2.1 r.2.2
  | _, _ => false

/-! ## `sdb.c` -/

/-- `lastChar`. -/
def lastChar (str : CStr) : UInt8 := str.bytesZ.getD (str.length - 1) 0

/-- `match`, of `sdb.c`. -/
def matchExpr (str expr : CStr) : Bool :=
  let startsWith := expr.bytesZ.head? = some 94
  let endsWith := lastChar expr = 36
  let strLen := str.length
  let exprLen := expr.length
  if startsWith ∧ endsWith then
    strLen = exprLen - 2 ∧ strncmpEq str.val (expr.val.drop 1) (exprLen - 2)
  else if startsWith then strncmpEq str.val (expr.val.drop 1) (exprLen - 1)
  else if endsWith then
    let blen := exprLen - 1
    if strLen ≤ blen then false
    else strncmpEq (str.val.drop (strLen - blen)) expr.val blen
  else expr.val <:+: str.val

/-- `sdbkv_match`, for the key and the value of the pair. -/
def sdbkvMatch (key value expr : CStr) : Bool :=
  match expr.val.idxOf? 61 with
  | some i =>
      let e := CStr.ofBytes (expr.val.take i)
      let ep := CStr.ofBytes (expr.val.drop (i + 1))
      let res := e = CStr.empty ∨ matchExpr key e
      let res2 := ep = CStr.empty ∨ matchExpr value ep
      res ∧ res2
  | none => matchExpr key expr

/-! ## Comparing strings -/

/-- `strncmp` finds a beginning. -/
theorem strncmpEq_append (a : Bytes) {b : Bytes} (hb : (0 : UInt8) ∉ b) (r : Bytes) :
    strncmpEq a (b ++ r) b.length = true ↔ b <+: a := by
  rw [strncmpEq, decide_eq_true_iff, List.append_assoc, List.take_left]
  constructor
  · intro h
    rcases Nat.lt_or_ge a.length b.length with hlt | hge
    · -- the NUL of the first string would be in the second
      rw [List.take_of_length_le (by simp only [List.length_append, List.length_singleton]; omega)]
        at h
      exact absurd (h ▸ List.mem_append_right a List.mem_cons_self) hb
    · rw [List.take_append_of_le_length hge] at h
      rw [← h]
      exact List.take_prefix _ a
  · intro h
    rw [List.take_append_of_le_length h.length_le]
    exact (List.prefix_iff_eq_take.mp h).symm

theorem strncmpEq_length (a : Bytes) {b : Bytes} (hb : (0 : UInt8) ∉ b) :
    strncmpEq a b b.length = true ↔ b <+: a := by
  have h := strncmpEq_append a hb []
  rwa [List.append_nil] at h

/-- What stands at the end of a string begins there. -/
theorem prefix_drop_iff {α : Type} {a b : List α} (h : b.length ≤ a.length) :
    b <+: a.drop (a.length - b.length) ↔ b <:+ a := by
  have hlen : (a.drop (a.length - b.length)).length = b.length := by
    rw [List.length_drop]
    omega
  rw [List.suffix_iff_eq_drop]
  constructor
  · exact fun hp ↦ hp.eq_of_length hlen.symm
  · exact fun heq ↦ heq ▸ List.prefix_refl _

/-- A beginning of the same length is everything. -/
theorem prefix_and_length_iff {α : Type} {s b : List α} :
    s.length = b.length ∧ b <+: s ↔ s = b := by
  constructor
  · rintro ⟨hlen, hpre⟩
    exact (hpre.eq_of_length hlen.symm).symm
  · rintro rfl
    exact ⟨rfl, List.prefix_refl _⟩

/-- An end that is not everything is shorter. -/
theorem length_lt_and_suffix_iff {s b : CStr} :
    b.val.length < s.val.length ∧ b.val <:+ s.val ↔ b.val <:+ s.val ∧ s ≠ b := by
  constructor
  · rintro ⟨hlt, hsuf⟩
    exact ⟨hsuf, fun h ↦ Nat.lt_irrefl _ (h ▸ hlt)⟩
  · rintro ⟨hsuf, hne⟩
    refine ⟨Nat.lt_of_le_of_ne hsuf.length_le fun hlen ↦ hne ?_, hsuf⟩
    exact (CStr.ext (hsuf.eq_of_length hlen)).symm

/-! ## The patterns of `sdb.c` -/

/-- A pattern with its anchors. -/
structure Anchored where
  start : Bool
  body : CStr
  atEnd : Bool

namespace Anchored

/-- The text of a pattern. -/
def text (p : Anchored) : CStr :=
  (if p.start then CStr.ofBytes [94] else CStr.empty) ++
    (p.body ++ if p.atEnd then CStr.ofBytes [36] else CStr.empty)

/-- The documented meaning: the body occurs in the string, at the places that the anchors allow. -/
def Matches (p : Anchored) (s : CStr) : Prop :=
  match p.start, p.atEnd with
  | false, false => p.body.val <:+: s.val
  | true, false => p.body.val <+: s.val
  | false, true => p.body.val <:+ s.val
  | true, true => s = p.body

/-- The body is not empty and has none of the characters `bad`. -/
structure Plain (bad : Bytes) (p : Anchored) : Prop where
  ne : p.body ≠ CStr.empty
  free : ∀ c ∈ p.body.val, c ∉ bad

/-- The string is the body of a pattern that ends with `$` and does not begin with `^`. -/
def Whole (p : Anchored) (s : CStr) : Prop := p.start = false ∧ p.atEnd = true ∧ s = p.body

theorem val_text (p : Anchored) :
    p.text.val = (if p.start then [94] else []) ++
      (p.body.val ++ if p.atEnd then [36] else []) := by
  change (if p.start then CStr.ofBytes [94] else CStr.empty).val ++
    (p.body.val ++ (if p.atEnd then CStr.ofBytes [36] else CStr.empty).val) = _
  cases p.start <;> cases p.atEnd <;> rfl

section Plain

variable {bad : Bytes} {p : Anchored} (hp : p.Plain bad)
include hp

theorem Plain.length_pos : 0 < p.body.val.length := by
  rcases Nat.eq_zero_or_pos p.body.val.length with h | h
  · exact absurd (CStr.length_eq_zero.mp h) hp.ne
  · exact h

theorem Plain.head?_ne {c : UInt8} (hc : c ∈ bad) : p.body.val.head? ≠ some c :=
  fun h ↦ hp.free c (List.mem_of_mem_head? h) hc

theorem Plain.getLast?_ne {c : UInt8} (hc : c ∈ bad) : p.body.val.getLast? ≠ some c :=
  fun h ↦ hp.free c (List.mem_of_mem_getLast? h) hc

theorem Plain.not_mem {c : UInt8} (hc : c ∈ bad) : c ∉ p.body.val := fun h ↦ hp.free c h hc

end Plain

end Anchored

theorem lastChar_eq {str : CStr} (h : str ≠ CStr.empty) (c : UInt8) :
    lastChar str = c ↔ str.val.getLast? = some c := by
  have hpos : 0 < str.val.length := Nat.pos_of_ne_zero fun h0 ↦ h (CStr.length_eq_zero.mp h0)
  rw [lastChar, CStr.bytesZ, CStr.length, List.getD_eq_getElem?_getD,
    List.getElem?_append_left (by omega), List.getLast?_eq_getElem?,
    List.getElem?_eq_getElem (by omega)]
  simp

theorem head?_bytesZ (str : CStr) {c : UInt8} (hc : c ≠ 0) :
    str.bytesZ.head? = some c ↔ str.val.head? = some c := by
  rw [CStr.bytesZ]
  cases str.val with
  | nil => simpa using hc.symm
  | cons a l => rfl

section Expr

variable {p : Anchored} (hp : p.Plain [94, 36])
include hp

theorem Anchored.Plain.starts : p.text.bytesZ.head? = some 94 ↔ p.start = true := by
  rw [head?_bytesZ _ (by decide), p.val_text]
  cases p.start with
  | true => exact iff_of_true rfl rfl
  | false =>
      rw [if_neg Bool.false_ne_true, List.nil_append, List.head?_append_of_ne_nil]
      · exact iff_of_false (hp.head?_ne (by decide)) Bool.false_ne_true
      · exact List.ne_nil_of_length_pos hp.length_pos

theorem Anchored.Plain.ends : lastChar p.text = 36 ↔ p.atEnd = true := by
  have hne : p.body.val ≠ [] := List.ne_nil_of_length_pos hp.length_pos
  rw [lastChar_eq, p.val_text]
  · cases p.atEnd with
    | true => exact iff_of_true (by simp) rfl
    | false =>
        rw [if_neg Bool.false_ne_true, List.append_nil, List.getLast?_append_of_ne_nil _ hne]
        exact iff_of_false (hp.getLast?_ne (by decide)) Bool.false_ne_true
  · intro h
    have hval := congrArg Subtype.val h
    rw [p.val_text] at hval
    exact hne (List.append_eq_nil_iff.mp (List.append_eq_nil_iff.mp hval).2).1

/-- The `match` of `sdb.c` goes by the documented meaning, except that a pattern with `$` alone is
not found when it is the whole string. -/
theorem matchExpr_iff (s : CStr) :
    matchExpr s p.text = true ↔ p.Matches s ∧ ¬ p.Whole s := by
  have hbody := p.body.property
  simp only [matchExpr, hp.starts, hp.ends, Anchored.Matches, Anchored.Whole, CStr.length,
    p.val_text]
  cases p.start with
  | true =>
      cases p.atEnd with
      | true =>
          rw [CStr.ext_iff, ← prefix_and_length_iff, ← strncmpEq_append s.val hbody [36]]
          simp
      | false => simpa using strncmpEq_length s.val hbody
  | false =>
      cases p.atEnd with
      | true =>
          have hdrop : p.body.val.length < s.val.length →
              (strncmpEq (s.val.drop (s.val.length - p.body.val.length)) (p.body.val ++ [36])
                p.body.val.length = true ↔ p.body.val <:+ s.val) := fun hlt ↦
            (strncmpEq_append _ hbody [36]).trans (prefix_drop_iff (Nat.le_of_lt hlt))
          have hlt := and_congr_right hdrop
          rw [length_lt_and_suffix_iff] at hlt
          simpa using hlt
      | false => simp

end Expr

/-- An expression for the key, and one for the value behind a `=`. -/
def grepExpr (K : Anchored) : Option Anchored → CStr
  | none => K.text
  | some V => K.text ++ (CStr.ofBytes [61] ++ V.text)

/-- The key matches its pattern and the value its own, if there is one. -/
def GrepMatches (K : Anchored) (V : Option Anchored) (k v : CStr) : Prop :=
  K.Matches k ∧ ∀ P ∈ V, P.Matches v

/-- One of the two strings is the whole body of a pattern with `$` alone. -/
def GrepWhole (K : Anchored) (V : Option Anchored) (k v : CStr) : Prop :=
  K.Whole k ∨ ∃ P ∈ V, P.Whole v

theorem Anchored.Plain.not_mem_text {p : Anchored} (hp : p.Plain [94, 36, 61]) :
    61 ∉ p.text.val := by
  rw [p.val_text]
  intro h
  rcases List.mem_append.mp h with h | h
  · split at h
    · exact absurd h (by decide)
    · exact absurd h List.not_mem_nil
  · rcases List.mem_append.mp h with h | h
    · exact hp.not_mem (by decide) h
    · split at h
      · exact absurd h (by decide)
      · exact absurd h List.not_mem_nil

theorem Anchored.Plain.mono {bad bad' : Bytes} {p : Anchored} (hp : p.Plain bad)
    (h : bad' ⊆ bad) : p.Plain bad' :=
  ⟨hp.ne, fun c hc hbad ↦ hp.free c hc (h hbad)⟩

theorem Anchored.Plain.text_ne {bad : Bytes} {p : Anchored} (hp : p.Plain bad) :
    p.text ≠ CStr.empty := by
  intro h
  have hval := congrArg Subtype.val h
  rw [p.val_text] at hval
  exact List.ne_nil_of_length_pos hp.length_pos
    (List.append_eq_nil_iff.mp (List.append_eq_nil_iff.mp hval).2).1

/-- The expression is cut at its first `=`. -/
theorem sdbkvMatch_grepExpr {K : Anchored} {V : Option Anchored} (hK : K.Plain [94, 36, 61])
    (hV : ∀ P ∈ V, P.Plain [94, 36, 61]) (k v : CStr) :
    sdbkvMatch k v (grepExpr K V) = true ↔
      matchExpr k K.text = true ∧ ∀ P ∈ V, matchExpr v P.text = true := by
  cases V with
  | none =>
      have hno : (grepExpr K none).val.idxOf? 61 = none := by
        rw [List.idxOf?_eq_none_iff]
        exact hK.not_mem_text
      rw [sdbkvMatch, hno]
      simp [grepExpr]
  | some V =>
      have hval : (grepExpr K (some V)).val = K.text.val ++ 61 :: V.text.val := rfl
      have hnone : K.text.val.findIdx? (· == 61) = none := by
        rw [List.findIdx?_eq_none_iff]
        intro c hc
        have hne : c ≠ 61 := fun h ↦ hK.not_mem_text (h ▸ hc)
        simpa using hne
      have hidx : (grepExpr K (some V)).val.idxOf? 61 = some K.text.val.length := by
        rw [hval, List.idxOf?, List.findIdx?_append, hnone]
        simp [List.findIdx?_cons]
      rw [sdbkvMatch, hidx]
      dsimp only
      rw [hval, List.take_left, CStr.ofBytes_val, List.drop_append,
        List.drop_of_length_le (by simp), Nat.add_sub_cancel_left, List.nil_append, List.drop_one,
        List.tail_cons, CStr.ofBytes_val]
      simp [hK.text_ne, (hV V rfl).text_ne]

/-- `sdbkv_match` goes by the documented meaning of the patterns exactly when neither string is the
whole body of a pattern with `$` alone while both match. -/
theorem sdbkvMatch_iff {K : Anchored} {V : Option Anchored} (hK : K.Plain [94, 36, 61])
    (hV : ∀ P ∈ V, P.Plain [94, 36, 61]) (k v : CStr) :
    (sdbkvMatch k v (grepExpr K V) = true ↔ GrepMatches K V k v) ↔
      ¬ (GrepMatches K V k v ∧ GrepWhole K V k v) := by
  have hanchors : ([94, 36] : Bytes) ⊆ [94, 36, 61] := by decide
  have hcode : sdbkvMatch k v (grepExpr K V) = true ↔
      GrepMatches K V k v ∧ ¬ GrepWhole K V k v := by
    rw [sdbkvMatch_grepExpr hK hV, matchExpr_iff (hK.mono hanchors), GrepMatches, GrepWhole]
    constructor
    · rintro ⟨⟨hk, hkw⟩, hv⟩
      have hv' : ∀ P ∈ V, P.Matches v ∧ ¬ P.Whole v := fun P hP ↦
        (matchExpr_iff ((hV P hP).mono hanchors) v).mp (hv P hP)
      refine ⟨⟨hk, fun P hP ↦ (hv' P hP).1⟩, ?_⟩
      rintro (h | ⟨P, hP, h⟩)
      · exact hkw h
      · exact (hv' P hP).2 h
    · rintro ⟨⟨hk, hv⟩, hw⟩
      refine ⟨⟨hk, fun h ↦ hw (.inl h)⟩, fun P hP ↦ ?_⟩
      exact (matchExpr_iff ((hV P hP).mono hanchors) v).mpr ⟨hv P hP, fun h ↦ hw (.inr ⟨P, hP, h⟩)⟩
  rw [hcode]
  tauto

/-- The patterns `ab$` and `^ab$`. -/
def endAb (start : Bool) : Anchored := ⟨start, CStr.ofBytes [97, 98], true⟩

theorem plain_endAb (start : Bool) : (endAb start).Plain [94, 36, 61] :=
  ⟨(by decide : CStr.ofBytes [97, 98] ≠ CStr.empty),
    (by decide +kernel : ∀ c ∈ (CStr.ofBytes [97, 98]).val, c ∉ ([94, 36, 61] : Bytes))⟩

theorem sdbkvMatch_iff_endAb :
    (sdbkvMatch (CStr.ofBytes [97, 98]) (CStr.ofBytes [49]) (grepExpr (endAb true) none) = true ↔
      GrepMatches (endAb true) none (CStr.ofBytes [97, 98]) (CStr.ofBytes [49])) ↔
      ¬ (GrepMatches (endAb true) none (CStr.ofBytes [97, 98]) (CStr.ofBytes [49]) ∧
        GrepWhole (endAb true) none (CStr.ofBytes [97, 98]) (CStr.ofBytes [49])) :=
  sdbkvMatch_iff (plain_endAb true) (by simp) _ _

/-- The key `ab` ends with `ab`, and `ab$` does not find it. -/
theorem not_sdbkvMatch_whole :
    ¬ (sdbkvMatch (CStr.ofBytes [97, 98]) (CStr.ofBytes [49]) (grepExpr (endAb false) none) = true ↔
      GrepMatches (endAb false) none (CStr.ofBytes [97, 98]) (CStr.ofBytes [49])) := by
  have hcode : sdbkvMatch (CStr.ofBytes [97, 98]) (CStr.ofBytes [49])
      (grepExpr (endAb false) none) = false := by
    decide
  rw [hcode]
  refine fun h ↦ Bool.false_ne_true (h.mpr ⟨?_, by simp⟩)
  exact List.suffix_refl _

end SdbStore
