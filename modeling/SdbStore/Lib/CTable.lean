import Mathlib.Data.List.Basic
import Mathlib.Tactic.Common

/-!
# Tables in C

How an array of pairs of string literals is read in C.  White space and comments to the end of the
line stand between the tokens, and the array ends with a pair of `NULL`.  Of the escapes in a
literal only those of one character are read, and there are no trigraphs.
-/

namespace SdbStore.Lib

/-- A text in the source of a program. -/
def ascii (s : String) : List UInt8 := s.toList.map fun c ↦ UInt8.ofNat c.toNat

/-- What is behind white space and comments; `comment` says if the text begins in one. -/
def cSkip (comment : Bool) : List UInt8 → List UInt8
  | [] => []
  | c :: l =>
      if comment then cSkip (c ≠ 10) l
      else if c = 32 ∨ 9 ≤ c ∧ c ≤ 13 then cSkip false l
      else if c = 47 ∧ l.head? = some 47 then cSkip true l
      else c :: l

/-- The character that an escape stands for. -/
def cEscape (c : UInt8) : Option UInt8 :=
  if c = 34 ∨ c = 39 ∨ c = 63 ∨ c = 92 then some c
  else if c = 97 then some 7
  else if c = 98 then some 8
  else if c = 102 then some 12
  else if c = 110 then some 10
  else if c = 114 then some 13
  else if c = 116 then some 9
  else if c = 118 then some 11
  else none

/-- A literal behind its first quote, and what is behind it. -/
def cLiteral : List UInt8 → Option (List UInt8 × List UInt8)
  | [] => none
  | c :: l =>
      if c = 34 then some ([], l)
      else if c = 10 then none
      else if c = 92 then
        match l with
        | [] => none
        | d :: l => (cEscape d).bind fun b ↦ (cLiteral l).map fun r ↦ (b :: r.1, r.2)
      else (cLiteral l).map fun r ↦ (c :: r.1, r.2)

/-- A token of one character. -/
def cToken (c : UInt8) (l : List UInt8) : Option (List UInt8) :=
  match cSkip false l with
  | [] => none
  | d :: l => if d = c then some l else none

def cString (l : List UInt8) : Option (List UInt8 × List UInt8) := (cToken 34 l).bind cLiteral

def cNull (l : List UInt8) : Option (List UInt8) :=
  match cSkip false l with
  | 78 :: 85 :: 76 :: 76 :: l => some l
  | _ => none

/-- `{"...","..."}`. -/
def cPair (l : List UInt8) : Option ((List UInt8 × List UInt8) × List UInt8) := do
  let l ← cToken 123 l
  let a ← cString l
  let l ← cToken 44 a.2
  let b ← cString l
  let l ← cToken 125 b.2
  some ((a.1, b.1), l)

/-- `{NULL, NULL}};`. -/
def cEnd (l : List UInt8) : Option (List UInt8) := do
  let l ← cToken 123 l
  let l ← cNull l
  let l ← cToken 44 l
  let l ← cNull l
  let l ← cToken 125 l
  let l ← cToken 125 l
  cToken 59 l

/-- The pairs behind the first brace of the array; there are fewer than `n` of them. -/
def cPairs : Nat → List UInt8 → Option (List (List UInt8 × List UInt8))
  | 0, _ => none
  | n + 1, l =>
      match cPair l with
      | some r => do
          let l ← cToken 44 r.2
          let ps ← cPairs n l
          some (r.1 :: ps)
      | none => (cEnd l).map fun _ ↦ []

/-! ## White space -/

theorem cSkip_space {c : UInt8} (h : c = 32 ∨ 9 ≤ c ∧ c ≤ 13) (l : List UInt8) :
    cSkip false (c :: l) = cSkip false l := by
  rw [cSkip, if_neg Bool.false_ne_true, if_pos h]

/-- A comment goes to the end of its line. -/
theorem cSkip_comment {t : List UInt8} (ht : 10 ∉ t) (l : List UInt8) :
    cSkip true (t ++ 10 :: l) = cSkip false l := by
  induction t with
  | nil =>
      rw [List.nil_append, cSkip, if_pos rfl]
      rfl
  | cons c t ih =>
      obtain ⟨hc, ht⟩ := not_or.mp (mt List.mem_cons.mpr ht)
      have hne : decide (c ≠ 10) = true := decide_eq_true (Ne.symm hc)
      rw [List.cons_append, cSkip, if_pos rfl, hne, ih ht]

theorem cToken_congr {l l' : List UInt8} (h : cSkip false l = cSkip false l') (c : UInt8) :
    cToken c l = cToken c l' := by
  rw [cToken, cToken, h]

/-- White space in front of a table does not matter. -/
theorem cPairs_congr {l l' : List UInt8} (h : cSkip false l = cSkip false l') (n : Nat) :
    cPairs n l = cPairs n l' := by
  cases n with
  | zero => rfl
  | succ n => rw [cPairs, cPairs, cPair, cPair, cEnd, cEnd, cToken_congr h]

/-- A token that stands at the beginning. -/
theorem cToken_cons {c : UInt8} (hspace : ¬ (c = 32 ∨ 9 ≤ c ∧ c ≤ 13)) (hslash : c ≠ 47)
    (l : List UInt8) :
    cToken c (c :: l) = some l := by
  rw [cToken, cSkip, if_neg Bool.false_ne_true, if_neg hspace, if_neg fun h ↦ hslash h.1]
  exact if_pos rfl

/-! ## Literals -/

@[simp] theorem cLiteral_quote (l : List UInt8) : cLiteral (34 :: l) = some ([], l) := by
  rw [cLiteral.eq_def]
  exact if_pos rfl

theorem cLiteral_escape {d b : UInt8} (h : cEscape d = some b) (l : List UInt8) :
    cLiteral (92 :: d :: l) = (cLiteral l).map fun r ↦ (b :: r.1, r.2) := by
  rw [cLiteral.eq_def]
  dsimp only
  rw [if_neg (by decide), if_neg (by decide), if_pos rfl, h]
  rfl

theorem cLiteral_cons {c : UInt8} (hquote : c ≠ 34) (hline : c ≠ 10) (hesc : c ≠ 92)
    (l : List UInt8) :
    cLiteral (c :: l) = (cLiteral l).map fun r ↦ (c :: r.1, r.2) := by
  rw [cLiteral.eq_def]
  dsimp only
  rw [if_neg hquote, if_neg hline, if_neg hesc]

/-- A text that is read as the literal `x`, whatever comes behind its last quote. -/
def ReadsLiteral (t x : List UInt8) : Prop := ∀ l, cLiteral (t ++ 34 :: l) = some (x, l)

theorem cString_of_reads {t x : List UInt8} (h : ReadsLiteral t x) (l : List UInt8) :
    cString (34 :: (t ++ 34 :: l)) = some (x, l) := by
  rw [cString, cToken_cons (by decide) (by decide)]
  exact h l

/-- A row of the table. -/
theorem cPair_of_reads {t x u y : List UInt8} (ht : ReadsLiteral t x) (hu : ReadsLiteral u y)
    (l : List UInt8) :
    cPair (123 :: 34 :: (t ++ 34 :: 44 :: 34 :: (u ++ 34 :: 125 :: l))) = some ((x, y), l) := by
  have hfirst := cString_of_reads ht (44 :: 34 :: (u ++ 34 :: 125 :: l))
  have hsecond := cString_of_reads hu (125 :: l)
  have hcomma := cToken_cons (c := 44) (by decide) (by decide) (34 :: (u ++ 34 :: 125 :: l))
  have hclose := cToken_cons (c := 125) (by decide) (by decide) l
  rw [cPair, cToken_cons (by decide) (by decide)]
  simp only [Option.bind_eq_bind, Option.bind_some, hfirst, hcomma, hsecond, hclose]

theorem cPairs_cons {n : Nat} {p : List UInt8 × List UInt8} {l l' : List UInt8}
    (h : cPair l = some (p, 44 :: l')) :
    cPairs (n + 1) l = (cPairs n l').map (p :: ·) := by
  rw [cPairs, h]
  dsimp only
  rw [cToken_cons (by decide) (by decide)]
  change (cPairs n l').bind _ = _
  cases cPairs n l' with
  | none => rfl
  | some ps => rfl

theorem cPairs_end {n : Nat} {l l' : List UInt8} (hpair : cPair l = none)
    (hend : cEnd l = some l') :
    cPairs (n + 1) l = some [] := by
  rw [cPairs, hpair]
  dsimp only
  rw [hend]
  rfl

end SdbStore.Lib
