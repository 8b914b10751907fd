import Mathlib.Data.List.Basic
import Mathlib.Tactic.Common

/-!
# Escaped tokens

Tokens are written one after another with separators between them.  An escape character in
front of a character takes its meaning as a separator away, so that a token may hold any
character: `escape` writes a token, `splitEsc` and `cutEsc` find the tokens again, and
`unescape` reads one.  What is written is read back, whatever the characters are, as long as
the escape character and the separator are among those that are escaped.
-/

namespace SdbStore.Lib

universe u

variable {α : Type u} [DecidableEq α]

/-- The pieces of a list between the separators that are not escaped. -/
def splitEsc (e sep : α) : List α → List (List α)
  | [] => [[]]
  | a :: l =>
      if a = e then
        match l with
        | [] => [[a]]
        | b :: l => (splitEsc e sep l).modifyHead fun x ↦ a :: b :: x
      else if a = sep then [] :: splitEsc e sep l
      else (splitEsc e sep l).modifyHead fun x ↦ a :: x

/-- The list before the first separator that is not escaped, and the list behind it. -/
def cutEsc (e sep : α) : List α → Option (List α × List α)
  | [] => none
  | a :: l =>
      if a = e then
        match l with
        | [] => none
        | b :: l => (cutEsc e sep l).map fun r ↦ (a :: b :: r.1, r.2)
      else if a = sep then some ([], l)
      else (cutEsc e sep l).map fun r ↦ (a :: r.1, r.2)

/-- A token is read: an escape character stands for what `dec` makes of the next character,
and for nothing at the end. -/
def unescape (e : α) (dec : α → α) : List α → List α
  | [] => []
  | a :: l =>
      if a = e then
        match l with
        | [] => []
        | b :: l => dec b :: unescape e dec l
      else a :: unescape e dec l

/-- A character is written; `enc` gives what follows the escape character. -/
def escapeChar (e : α) (enc : α → Option α) (a : α) : List α :=
  match enc a with
  | none => [a]
  | some b => [e, b]

/-- A token is written. -/
def escape (e : α) (enc : α → Option α) (l : List α) : List α := l.flatMap (escapeChar e enc)

section Equations

variable (e sep : α) (dec : α → α) (b : α) (l : List α)

@[simp] theorem splitEsc_nil : splitEsc e sep [] = [[]] := rfl

@[simp] theorem splitEsc_esc : splitEsc e sep [e] = [[e]] := if_pos rfl

@[simp] theorem splitEsc_esc_cons :
    splitEsc e sep (e :: b :: l) = (splitEsc e sep l).modifyHead fun x ↦ e :: b :: x := if_pos rfl

@[simp] theorem cutEsc_nil : cutEsc e sep [] = none := rfl

@[simp] theorem cutEsc_esc : cutEsc e sep [e] = none := if_pos rfl

@[simp] theorem cutEsc_esc_cons :
    cutEsc e sep (e :: b :: l) = (cutEsc e sep l).map fun r ↦ (e :: b :: r.1, r.2) := if_pos rfl

@[simp] theorem unescape_nil : unescape e dec [] = [] := rfl

@[simp] theorem unescape_esc : unescape e dec [e] = [] := if_pos rfl

@[simp] theorem unescape_esc_cons : unescape e dec (e :: b :: l) = dec b :: unescape e dec l :=
  if_pos rfl

variable {e sep} {a : α} (ha : a ≠ e)
include ha

theorem splitEsc_cons : splitEsc e sep (a :: l) =
    if a = sep then [] :: splitEsc e sep l else (splitEsc e sep l).modifyHead fun x ↦ a :: x := by
  cases l with
  | nil => exact if_neg ha
  | cons b l => exact if_neg ha

theorem cutEsc_cons : cutEsc e sep (a :: l) =
    if a = sep then some ([], l) else (cutEsc e sep l).map fun r ↦ (a :: r.1, r.2) := by
  cases l with
  | nil => exact if_neg ha
  | cons b l => exact if_neg ha

theorem unescape_cons : unescape e dec (a :: l) = a :: unescape e dec l := by
  cases l with
  | nil => exact if_neg ha
  | cons b l => exact if_neg ha

end Equations

/-! ## Reading character by character -/

/-- What has been read of a token, and whether the next character is escaped. -/
structure Token (α : Type u) where
  read : List α
  esc : Bool

/-- The character ends the token. -/
def Token.ends (t : Token α) (sep c : α) : Prop := t.esc = false ∧ c = sep

instance (t : Token α) (sep c : α) : Decidable (t.ends sep c) := inferInstanceAs (Decidable (_ ∧ _))

/-- A character that does not end the token. -/
def Token.next (e : α) (dec : α → α) (t : Token α) (c : α) : Token α :=
  if t.esc then ⟨t.read ++ [dec c], false⟩
  else if c = e then { t with esc := true }
  else ⟨t.read ++ [c], false⟩

section Next

variable {e : α} {dec : α → α}

theorem Token.next_esc (x : List α) (c : α) :
    Token.next e dec ⟨x, true⟩ c = ⟨x ++ [dec c], false⟩ :=
  rfl

theorem Token.next_self (x : List α) : Token.next e dec ⟨x, false⟩ e = ⟨x, true⟩ := by
  simp [Token.next]

theorem Token.next_of_ne {c : α} (hc : c ≠ e) (x : List α) :
    Token.next e dec ⟨x, false⟩ c = ⟨x ++ [c], false⟩ := by
  simp [Token.next, hc]

/-- **Reading a token** character by character. -/
theorem Token.foldl_next (x l : List α) :
    (l.foldl (Token.next e dec) ⟨x, false⟩).read = x ++ unescape e dec l := by
  induction l using unescape.induct e generalizing x with
  | case1 => rw [unescape_nil, List.append_nil, List.foldl_nil]
  | case2 => rw [List.foldl_cons, next_self, unescape_esc, List.foldl_nil, List.append_nil]
  | case3 b l ih =>
      rw [List.foldl_cons, next_self, List.foldl_cons, next_esc, ih, unescape_esc_cons,
        List.append_assoc, List.singleton_append]
  | case4 a l ha ih =>
      rw [List.foldl_cons, next_of_ne ha, ih, unescape_cons _ _ ha, List.append_assoc,
        List.singleton_append]

end Next

/-! ## Writing and reading back -/

section Escape

variable {e : α} {enc : α → Option α} {dec : α → α} {sep : α}

omit [DecidableEq α] in
@[simp] theorem escape_nil : escape e enc [] = [] := rfl

omit [DecidableEq α] in
theorem escape_cons (a : α) (l : List α) :
    escape e enc (a :: l) = escapeChar e enc a ++ escape e enc l := rfl

omit [DecidableEq α] in
/-- A character is written as it is, and then it is not the escape character or one that is
escaped, or behind an escape character. -/
theorem escapeChar_cases (enc : α → Option α) (a : α) :
    (escapeChar e enc a = [a] ∧ ∀ c, enc c ≠ none → a ≠ c) ∨
      ∃ b, escapeChar e enc a = [e, b] ∧ enc a = some b := by
  rw [escapeChar]
  cases ha : enc a with
  | none =>
      refine .inl ⟨rfl, ?_⟩
      rintro c hc rfl
      exact hc ha
  | some b => exact .inr ⟨b, rfl, rfl⟩

/-- **A token is read back** from what is written for it. -/
theorem unescape_escape (he : enc e ≠ none) (hdec : ∀ a b, enc a = some b → dec b = a)
    (l : List α) : unescape e dec (escape e enc l) = l := by
  induction l with
  | nil => rw [escape_nil, unescape_nil]
  | cons a l ih =>
      rw [escape_cons]
      rcases escapeChar_cases enc a with ⟨hchar, hne⟩ | ⟨b, hchar, hb⟩
      · rw [hchar, List.singleton_append, unescape_cons _ _ (hne e he), ih]
      · rw [hchar, List.cons_append, List.singleton_append, unescape_esc_cons, ih, hdec a b hb]

variable (he : enc e ≠ none) (hsep : enc sep ≠ none)
include he hsep

/-- A written token has no separator that is not escaped. -/
theorem splitEsc_escape_append (l r : List α) :
    splitEsc e sep (escape e enc l ++ r) =
      (splitEsc e sep r).modifyHead fun x ↦ escape e enc l ++ x := by
  induction l with
  | nil =>
      rw [escape_nil, List.nil_append]
      cases splitEsc e sep r with
      | nil => rfl
      | cons x xs => rfl
  | cons a l ih =>
      rw [escape_cons, List.append_assoc]
      rcases escapeChar_cases enc a with ⟨hchar, hne⟩ | ⟨b, hchar, hb⟩
      · rw [hchar, List.singleton_append, splitEsc_cons _ (hne e he), if_neg (hne sep hsep), ih,
          List.modifyHead_modifyHead]
        rfl
      · rw [hchar, List.cons_append, List.singleton_append, splitEsc_esc_cons, ih,
          List.modifyHead_modifyHead]
        rfl

theorem splitEsc_escape (l : List α) : splitEsc e sep (escape e enc l) = [escape e enc l] := by
  have h := splitEsc_escape_append he hsep l []
  rw [List.append_nil] at h
  rw [h, splitEsc_nil, List.modifyHead_cons, List.append_nil]

/-- The token before a separator. -/
theorem splitEsc_escape_cons (hne : sep ≠ e) (l r : List α) :
    splitEsc e sep (escape e enc l ++ sep :: r) = escape e enc l :: splitEsc e sep r := by
  rw [splitEsc_escape_append he hsep, splitEsc_cons _ hne, if_pos rfl, List.modifyHead_cons,
    List.append_nil]

theorem cutEsc_escape_cons (hne : sep ≠ e) (l r : List α) :
    cutEsc e sep (escape e enc l ++ sep :: r) = some (escape e enc l, r) := by
  induction l with
  | nil => rw [escape_nil, List.nil_append, cutEsc_cons _ hne, if_pos rfl]
  | cons a l ih =>
      rw [escape_cons, List.append_assoc]
      rcases escapeChar_cases enc a with ⟨hchar, hne'⟩ | ⟨b, hchar, hb⟩
      · rw [hchar, List.singleton_append, cutEsc_cons _ (hne' e he), if_neg (hne' sep hsep), ih]
        rfl
      · rw [hchar, List.cons_append, List.singleton_append, cutEsc_esc_cons, ih]
        rfl

end Escape

end SdbStore.Lib
