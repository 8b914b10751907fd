import SdbStore.Json.Indent

/-!
# Well-formed JSON

A document with all its characters: the blanks between the tokens, the escapes in the strings and
the way a number is written are kept, so that `text` gives back the document that it stands for.

A name or a string is what stands between the quotes.  What is behind an opening bracket is one list
with its closing bracket.
-/

namespace SdbStore.Json

open Lib

/-- Blanks between two tokens. -/
structure Blanks where
  val : Bytes
  blank : ∀ c ∈ val, isBlank c = true

/-- No blanks. -/
def Blanks.none : Blanks := ⟨[], fun _ h ↦ absurd h List.not_mem_nil⟩

def isDigit (c : UInt8) : Bool := 48 ≤ c && c ≤ 57

def isHex (c : UInt8) : Bool := isDigit c || (65 ≤ c && c ≤ 70) || (97 ≤ c && c ≤ 102)

/-- A character of a string, or an escape. -/
inductive Piece
  | char (c : Char) (plain : 32 ≤ c.val.toNat ∧ c.val.toNat ≠ 34 ∧ c.val.toNat ≠ 92)
  | escape (c : UInt8) (short : c ∈ [34, 92, 47, 98, 102, 110, 114, 116])
  | unicode (a b c d : UInt8) (hex : isHex a ∧ isHex b ∧ isHex c ∧ isHex d)

def Piece.text : Piece → Bytes
  | .char c _ => String.utf8EncodeChar c
  | .escape c _ => [92, c]
  | .unicode a b c d _ => [92, 117, a, b, c, d]

/-- What stands between the quotes. -/
def strText (s : List Piece) : Bytes := s.flatMap Piece.text

/-- One digit or more. -/
def IsDigits (s : Bytes) : Prop := s ≠ [] ∧ ∀ c ∈ s, isDigit c = true

/-- `0`, or digits that do not begin with `0`. -/
def IsInt (s : Bytes) : Prop := s = [48] ∨ IsDigits s ∧ s.head? ≠ some 48

/-- `.` and digits, or nothing. -/
def IsFrac (s : Bytes) : Prop := s = [] ∨ ∃ ds, IsDigits ds ∧ s = 46 :: ds

/-- `e` with or without a sign and digits, or nothing. -/
def IsExp (s : Bytes) : Prop :=
  s = [] ∨ ∃ e sign ds, e ∈ [101, 69] ∧ sign ∈ [[], [43], [45]] ∧ IsDigits ds ∧
    s = e :: (sign ++ ds)

def IsNumber (s : Bytes) : Prop :=
  ∃ sign int frac exp, sign ∈ [[], [45]] ∧ IsInt int ∧ IsFrac frac ∧ IsExp exp ∧
    s = sign ++ int ++ frac ++ exp

/-- `true`, `false` and `null`. -/
def literals : List Bytes := [[116, 114, 117, 101], [102, 97, 108, 115, 101], [110, 117, 108, 108]]

/-- A value without quotes and brackets. -/
structure Word where
  val : Bytes
  word : IsNumber val ∨ val ∈ literals

/-- A name with the blanks around it and around its colon. -/
structure Name where
  before : Blanks
  name : List Piece
  colon : Blanks
  after : Blanks

def Name.text (m : Name) : Bytes :=
  m.before.val ++ 34 :: (strText m.name ++ 34 :: (m.colon.val ++ 58 :: m.after.val))

inductive Kind
  | value
  | elems
  | members

/-- A value, or the rest of an array or of an object from an element or a member on. -/
inductive Node : Kind → Type
  | word (w : Word) : Node .value
  | string (s : List Piece) : Node .value
  | noElems (ws : Blanks) : Node .value
  | array (es : Node .elems) : Node .value
  | noMembers (ws : Blanks) : Node .value
  | object (ms : Node .members) : Node .value
  | lastElem (ws : Blanks) (v : Node .value) (ws' : Blanks) : Node .elems
  | elem (ws : Blanks) (v : Node .value) (ws' : Blanks) (es : Node .elems) : Node .elems
  | lastMember (m : Name) (v : Node .value) (ws' : Blanks) : Node .members
  | member (m : Name) (v : Node .value) (ws' : Blanks) (ms : Node .members) : Node .members

def Node.text {k : Kind} : Node k → Bytes
  | .word w => w.val
  | .string s => 34 :: (strText s ++ [34])
  | .noElems ws => 91 :: (ws.val ++ [93])
  | .array es => 91 :: es.text
  | .noMembers ws => 123 :: (ws.val ++ [125])
  | .object ms => 123 :: ms.text
  | .lastElem ws v ws' => ws.val ++ (v.text ++ (ws'.val ++ [93]))
  | .elem ws v ws' es => ws.val ++ (v.text ++ (ws'.val ++ 44 :: es.text))
  | .lastMember m v ws' => m.text ++ (v.text ++ (ws'.val ++ [125]))
  | .member m v ws' ms => m.text ++ (v.text ++ (ws'.val ++ 44 :: ms.text))

abbrev Value := Node .value

/-- An array or an object. -/
def Node.isContainer : Value → Bool
  | .word _ => false
  | .string _ => false
  | .noElems _ => true
  | .array _ => true
  | .noMembers _ => true
  | .object _ => true

/-- A document whose root is an array or an object. -/
structure Doc where
  before : Blanks
  root : Value
  after : Blanks
  container : root.isContainer = true

def Doc.text (d : Doc) : Bytes := d.before.val ++ (d.root.text ++ d.after.val)

end SdbStore.Json
