import Mathlib.Tactic.Ring
import SdbStore.CStr
import SdbStore.Lib.Checked

/-!
# Indenting JSON

`sdb_json_indent` goes over the text twice: the first pass computes how much to allocate, the second
one writes.  Both keep track of strings and of the depth, and not in the same way.
`sdb_json_unindent` allocates as much as the text has and goes over it once; it keeps the length in
an `int`, so that it has no result for a text of 2 GiB.
-/

namespace SdbStore.Json

open Lib

/-- The characters that are left out. -/
def isBlank (c : UInt8) : Bool := c = 10 || c = 13 || c = 9 || c = 32

/-- `{` and `[`. -/
def opens (c : UInt8) : Bool := c = 123 || c = 91

/-- `}` and `]`. -/
def closes (c : UInt8) : Bool := c = 125 || c = 93

/-- A backslash with a quote behind it. -/
def escapesQuote (c : UInt8) (s : Bytes) : Bool := c = 92 && s.headD 0 = 34

/-! ## The code -/

/-- `indent * tab_len + 2`, in `size_t`. -/
def indentRoom (indent tabLen : Nat) : UInt64 := UInt64.ofNat indent * UInt64.ofNat tabLen + 2

/-- `o_size++`, if it is not `SIZE_MAX`. -/
def sizeSucc (size : UInt64) : Option UInt64 :=
  if size = 0xffffffffffffffff then none else some (size + 1)

/-- The first pass of `sdb_json_indent` from the byte `s` on; `none` where it returns `NULL`. -/
def indentSize (tabLen : Nat) : Bytes → Bool → Nat → UInt64 → Option UInt64
  | [], _, _, size => some size
  | c :: s, true, indent, size =>
      (if c ≠ 34 ∧ escapesQuote c s then (sizeSucc size).bind sizeSucc else sizeSucc size).bind
        (indentSize tabLen s (c ≠ 34) indent)
  | c :: s, false, indent, size =>
      if size > 0x7fffffff - indentRoom indent tabLen then none
      else if opens c then
        indentSize tabLen s (c = 34) (indent + 1) (size + indentRoom (indent + 1) tabLen)
      else if closes c then
        -- the depth is never negative here
        indentSize tabLen s (c = 34) (indent - 1) (size + indentRoom (indent - 1) tabLen)
      else if c = 44 then indentSize tabLen s (c = 34) indent (size + indentRoom indent tabLen)
      else if c = 58 then indentSize tabLen s (c = 34) indent (size + 2)
      else indentSize tabLen s (c = 34) indent (size + 1)

/-- `doIndent`. -/
def doIndent (indent : Int) (tab : CStr) : Bytes := (List.replicate indent.toNat tab.val).flatten

/-- What the second pass writes from the byte `s` on, without the line end and the NUL. -/
def indentLoop (tab : CStr) : Bytes → Bool → Int → Bytes
  | [], _, _ => []
  | c :: s, true, indent =>
      (if c ≠ 34 ∧ escapesQuote c s then [c] else []) ++ c :: indentLoop tab s (c ≠ 34) indent
  | c :: s, false, indent =>
      if isBlank c then indentLoop tab s (c = 34) indent
      else if c = 58 then c :: 32 :: indentLoop tab s (c = 34) indent
      else if c = 44 then c :: 10 :: (doIndent indent tab ++ indentLoop tab s (c = 34) indent)
      else if opens c then
        c :: (if indent ≠ -1 then 10 else 32) ::
          (doIndent (indent + 1) tab ++ indentLoop tab s (c = 34) (indent + 1))
      else if closes c then
        10 :: (doIndent (indent - 1) tab ++ c :: indentLoop tab s (c = 34) (indent - 1))
      else c :: indentLoop tab s (c = 34) indent

/-- What `sdb_json_indent` computes before it allocates one byte more. -/
def sdbJsonIndentSize (s tab : CStr) : Option UInt64 :=
  (indentSize tab.length s.val false 0 0).map (· + 2)

/-- What `sdb_json_indent` writes. -/
def sdbJsonIndentWrite (s tab : CStr) : Bytes := indentLoop tab s.val false 0 ++ [10, 0]

/-- `sdb_json_indent`. -/
def sdbJsonIndent (s tab : CStr) : Option CStr :=
  (sdbJsonIndentSize s tab).map fun _ ↦ CStr.ofBytes (sdbJsonIndentWrite s tab)

/-- What `sdb_json_unindent` writes from the byte `s` on, without the NUL. -/
def unindentLoop : Bytes → Bool → Bytes
  | [], _ => []
  | c :: s, true =>
      (if c ≠ 34 ∧ escapesQuote c s then [c] else []) ++ c :: unindentLoop s (c ≠ 34)
  | c :: s, false => if isBlank c then unindentLoop s (c = 34) else c :: unindentLoop s (c = 34)

/-- What `sdb_json_unindent` writes. -/
def sdbJsonUnindentWrite (s : CStr) : Bytes := unindentLoop s.val false ++ [0]

/-- What `sdb_json_unindent` allocates, `len + 1` with an `int`. -/
def sdbJsonUnindentSize (s : CStr) : Option Nat := checkedInt (s.length + 1)

/-- `sdb_json_unindent`. -/
def sdbJsonUnindent (s : CStr) : Option CStr :=
  (sdbJsonUnindentSize s).map fun _ ↦ CStr.ofBytes (sdbJsonUnindentWrite s)

/-! ## The two passes -/

theorem toNat_indentRoom {indent tabLen : Nat} (h : indent * tabLen < 2 ^ 32)
    (hindent : indent < 2 ^ 32) (htab : tabLen < 2 ^ 32) :
    (indentRoom indent tabLen).toNat = indent * tabLen + 2 := by
  have hindent' : (UInt64.ofNat indent).toNat = indent := by
    rw [UInt64.toNat_ofNat', Nat.mod_eq_of_lt (by omega)]
  have htab' : (UInt64.ofNat tabLen).toNat = tabLen := by
    rw [UInt64.toNat_ofNat', Nat.mod_eq_of_lt (by omega)]
  rw [indentRoom, UInt64.toNat_add, UInt64.toNat_mul, hindent', htab']
  change (indent * tabLen % 2 ^ 64 + 2) % 2 ^ 64 = _
  omega

theorem length_doIndent (indent : Int) (tab : CStr) :
    (doIndent indent tab).length = indent.toNat * tab.length := by
  rw [doIndent, List.length_flatten, List.map_replicate, List.sum_replicate_nat]
  rfl

theorem length_doIndent_le {indent : Int} {depth : Nat} (h : indent ≤ depth) (tab : CStr) :
    (doIndent indent tab).length ≤ depth * tab.length := by
  rw [length_doIndent]
  exact Nat.mul_le_mul_right _ (by omega)

theorem toNat_sizeSucc {size size' : UInt64} (h : sizeSucc size = some size') :
    size'.toNat = size.toNat + 1 := by
  rw [sizeSucc] at h
  split at h
  · cases h
  · next hmax =>
      cases h
      have hlt := size.toNat_lt
      have hne : size.toNat ≠ 18446744073709551615 := fun hno ↦ hmax (UInt64.toNat_inj.mp hno)
      rw [UInt64.toNat_add]
      change (size.toNat + 1) % 2 ^ 64 = _
      omega

/-- A step of the first pass in a string. -/
theorem indentSize_string {tabLen : Nat} {c : UInt8} {s : Bytes} {depth : Nat} {size n : UInt64}
    (h : indentSize tabLen (c :: s) true depth size = some n) :
    ∃ size', indentSize tabLen s (c ≠ 34) depth size' = some n ∧
      size'.toNat = size.toNat + (if c ≠ 34 ∧ escapesQuote c s then [c] else []).length + 1 := by
  rw [indentSize] at h
  obtain ⟨size', hmore, h⟩ := Option.bind_eq_some_iff.mp h
  refine ⟨size', h, ?_⟩
  split at hmore
  · next hesc =>
      obtain ⟨size'', hfirst, hsecond⟩ := Option.bind_eq_some_iff.mp hmore
      rw [if_pos hesc, toNat_sizeSucc hsecond, toNat_sizeSucc hfirst]
      rfl
  · next hesc =>
      rw [if_neg hesc, toNat_sizeSucc hmore]
      rfl

/-- What a bracket is not. -/
theorem of_opens {c : UInt8} (h : opens c = true) :
    isBlank c = false ∧ c ≠ 58 ∧ c ≠ 44 ∧ c ≠ 34 := by
  rw [opens, Bool.or_eq_true, decide_eq_true_iff, decide_eq_true_iff] at h
  rcases h with rfl | rfl
  · decide
  · decide

theorem of_closes {c : UInt8} (h : closes c = true) :
    isBlank c = false ∧ c ≠ 58 ∧ c ≠ 44 ∧ opens c = false := by
  rw [closes, Bool.or_eq_true, decide_eq_true_iff, decide_eq_true_iff] at h
  rcases h with rfl | rfl
  · decide
  · decide

section Room

variable {tabLen depth k : Nat} (hroom : (depth + (k + 1)) * (tabLen + 1) < 2 ^ 31)
include hroom

/-- One level more fits. -/
theorem room_succ : (depth + 1) * tabLen + depth < 2 ^ 31 ∧ depth * tabLen + 2 < 2 ^ 31 ∧
    tabLen < 2 ^ 31 := by
  have hle : (depth + 1) * (tabLen + 1) ≤ (depth + (k + 1)) * (tabLen + 1) :=
    Nat.mul_le_mul_right _ (by omega)
  have hmul : (depth + 1) * (tabLen + 1) = depth * tabLen + tabLen + depth + 1 := by ring
  have hmul' : (depth + 1) * tabLen = depth * tabLen + tabLen := by ring
  rcases Nat.eq_zero_or_pos tabLen with h0 | hpos
  · subst h0
    omega
  · omega

/-- What the first pass adds for a level. -/
theorem toNat_add_room {d : Nat} (hd : d ≤ depth + 1) {size : UInt64}
    (hsize : size.toNat < 2 ^ 31) :
    (size + indentRoom d tabLen).toNat = size.toNat + (d * tabLen + 2) := by
  obtain ⟨hsucc, -, htab⟩ := room_succ hroom
  have hle : d * tabLen ≤ (depth + 1) * tabLen := Nat.mul_le_mul_right _ hd
  rw [UInt64.toNat_add, toNat_indentRoom (by omega) (by omega) (by omega),
    Nat.mod_eq_of_lt (by omega)]

/-- What the check of the first pass gives. -/
theorem lt_of_not_room {size : UInt64} (h : ¬ size > 0x7fffffff - indentRoom depth tabLen) :
    size.toNat < 2 ^ 31 := by
  obtain ⟨hsucc, htwo, htab⟩ := room_succ hroom
  have hle : depth * tabLen ≤ (depth + 1) * tabLen := Nat.mul_le_mul_right _ (by omega)
  have hnat : (indentRoom depth tabLen).toNat = depth * tabLen + 2 :=
    toNat_indentRoom (by omega) (by omega) (by omega)
  have hsub : ((0x7fffffff : UInt64) - indentRoom depth tabLen).toNat ≤ 0x7fffffff := by
    rw [UInt64.toNat_sub_of_le]
    · exact Nat.sub_le _ _
    · rw [UInt64.le_iff_toNat_le, hnat]
      change depth * tabLen + 2 ≤ 2147483647
      omega
  have hle' := UInt64.le_iff_toNat_le.mp (UInt64.not_lt.mp h)
  omega

end Room

/-- **The first pass** counts at least what the second one writes, as long as its depth is not below
that of the second one and the text cannot make it overflow. -/
theorem indentSize_le {tab : CStr} {s : Bytes} {instr : Bool} {depth : Nat} {indent : Int}
    {size n : UInt64} (hsize : indentSize tab.length s instr depth size = some n)
    (hdepth : indent ≤ depth) (hroom : (depth + s.length) * (tab.length + 1) < 2 ^ 31) :
    size.toNat + (indentLoop tab s instr indent).length ≤ n.toNat ∧
      n.toNat ≤ size.toNat + s.length * 2 ^ 32 := by
  induction s generalizing instr depth indent size with
  | nil =>
      cases hsize
      exact ⟨Nat.le_refl _, Nat.le_add_right _ _⟩
  | cons c s ih =>
      have hnext : ∀ {d : Nat}, d ≤ depth + 1 → (d + s.length) * (tab.length + 1) < 2 ^ 31 :=
        fun hd ↦
        Nat.lt_of_le_of_lt (Nat.mul_le_mul_right _ (by rw [List.length_cons]; omega)) hroom
      cases instr with
      | true =>
          obtain ⟨size', hsize', hnat⟩ := indentSize_string hsize
          have hrest := ih hsize' hdepth (hnext (by omega))
          have hesc : (if c ≠ 34 ∧ escapesQuote c s then [c] else []).length ≤ 1 := by
            split
            · exact Nat.le_refl 1
            · exact Nat.zero_le 1
          rw [indentLoop, List.length_append, List.length_cons, List.length_cons]
          omega
      | false =>
          rw [indentSize] at hsize
          split at hsize
          · cases hsize
          · next hcheck =>
              have hlt := lt_of_not_room hroom hcheck
              have hpad := length_doIndent_le hdepth tab
              have hadd : ∀ {d : Nat}, d ≤ depth + 1 →
                  (size + indentRoom d tab.length).toNat = size.toNat + (d * tab.length + 2) :=
                fun hd ↦ toNat_add_room hroom hd hlt
              have hone : (size + 1).toNat = size.toNat + 1 := by
                rw [UInt64.toNat_add, Nat.mod_eq_of_lt (by simp; omega)]
                rfl
              have htwo : (size + 2).toNat = size.toNat + 2 := by
                rw [UInt64.toNat_add, Nat.mod_eq_of_lt (by simp; omega)]
                rfl
              rw [indentLoop]
              split at hsize
              · next hopen =>
                  obtain ⟨hblank, hcolon, hcomma, -⟩ := of_opens hopen
                  have hrest := ih hsize (show indent + 1 ≤ ((depth + 1 : Nat) : Int) by omega)
                    (hnext (Nat.le_refl _))
                  have hpad : (doIndent (indent + 1) tab).length ≤ (depth + 1) * tab.length :=
                    length_doIndent_le (by omega) tab
                  rw [hadd (Nat.le_refl _)] at hrest
                  have hmax := (room_succ hroom).1
                  rw [if_neg (by simp [hblank]), if_neg hcolon, if_neg hcomma, if_pos hopen]
                  simp only [List.length_cons, List.length_append]
                  omega
              · next hopen =>
                  split at hsize
                  · next hclose =>
                      obtain ⟨hblank, hcolon, hcomma, -⟩ := of_closes hclose
                      have hrest := ih hsize (show indent - 1 ≤ ((depth - 1 : Nat) : Int) by omega)
                        (hnext (by omega))
                      have hpad : (doIndent (indent - 1) tab).length ≤ (depth - 1) * tab.length :=
                        length_doIndent_le (by omega) tab
                      rw [hadd (by omega)] at hrest
                      have hmax : (depth - 1) * tab.length ≤ (depth + 1) * tab.length :=
                        Nat.mul_le_mul_right _ (by omega)
                      have hmax' := (room_succ hroom).1
                      rw [if_neg (by simp [hblank]), if_neg hcolon, if_neg hcomma, if_neg hopen,
                        if_pos hclose]
                      simp only [List.length_cons, List.length_append]
                      omega
                  · next hclose =>
                      split at hsize
                      · next hcomma =>
                          have hrest := ih hsize hdepth (hnext (by omega))
                          have hpad := length_doIndent_le hdepth tab
                          rw [hadd (by omega)] at hrest
                          have hmax := (room_succ hroom).2.1
                          subst hcomma
                          rw [if_neg (by decide), if_neg (by decide), if_pos rfl]
                          simp only [List.length_cons, List.length_append]
                          omega
                      · next hcomma =>
                          split at hsize
                          · next hcolon =>
                              have hrest := ih hsize hdepth (hnext (by omega))
                              rw [htwo] at hrest
                              subst hcolon
                              rw [if_neg (by decide), if_pos rfl]
                              simp only [List.length_cons]
                              omega
                          · next hcolon =>
                              have hrest := ih hsize hdepth (hnext (by omega))
                              rw [hone] at hrest
                              rw [if_neg hcolon, if_neg hcomma, if_neg hopen, if_neg hclose]
                              split
                              · rw [List.length_cons]
                                omega
                              · rw [List.length_cons, List.length_cons]
                                omega

/-- **Indenting never overruns**: what is written, with the last line end and the NUL, fits into
what is allocated. -/
theorem sdbJsonIndent_fits {s tab : CStr} (hroom : s.length * (tab.length + 1) < 2 ^ 31)
    {size : UInt64} (hsize : sdbJsonIndentSize s tab = some size) :
    (sdbJsonIndentWrite s tab).length ≤ (size + 1).toNat := by
  obtain ⟨n, hn, rfl⟩ := Option.map_eq_some_iff.mp hsize
  have hlen : s.length < 2 ^ 31 := by
    refine Nat.lt_of_le_of_lt ?_ hroom
    exact Nat.le_mul_of_pos_right _ (Nat.succ_pos _)
  obtain ⟨hfits, hbound⟩ := indentSize_le hn (Int.le_refl 0) (by rw [Nat.zero_add]; exact hroom)
  have hlen' : s.val.length = s.length := rfl
  have hnat : (n + 2 + 1).toNat = n.toNat + 3 := by
    rw [UInt64.toNat_add, UInt64.toNat_add]
    change ((n.toNat + 2) % 2 ^ 64 + 1) % 2 ^ 64 = _
    rw [hlen'] at hbound
    change n.toNat ≤ 0 + _ at hbound
    omega
  rw [sdbJsonIndentWrite, List.length_append, hnat]
  change 0 + _ ≤ _ at hfits
  change _ + 2 ≤ _
  omega

/-- A text with everything in it. -/
theorem sdbJsonIndent_fits_object :
    (sdbJsonIndentWrite (CStr.ofBytes [123, 34, 97, 34, 58, 91, 49, 93, 125])
      (CStr.ofBytes [9, 9])).length ≤ ((24 : UInt64) + 1).toNat :=
  @sdbJsonIndent_fits (CStr.ofBytes [123, 34, 97, 34, 58, 91, 49, 93, 125]) (CStr.ofBytes [9, 9])
    (by decide) 24 (by decide)

/-! ## What is left of a text -/

/-- Where the lexer of JSON is. -/
inductive Lex
  | out
  | str
  | esc
deriving DecidableEq

/-- The next byte. -/
def Lex.step : Lex → UInt8 → Lex
  | .out, c => if c = 34 then .str else .out
  | .str, c => if c = 92 then .esc else if c = 34 then .out else .str
  | .esc, _ => .str

/-- The strings that both scanners see. -/
def Lex.inString : Lex → Bool
  | .out => false
  | .str => true
  | .esc => true

/-- The text without the blanks outside of its strings. -/
def strip : Lex → Bytes → Bytes
  | _, [] => []
  | q, c :: s => if q = .out ∧ isBlank c then strip q s else c :: strip (q.step c) s

/-- In no string there is a quote right behind a backslash. -/
def NoQuoteEscaped (q : Lex) (s : Bytes) : Prop :=
  ∀ u v, s = u ++ 92 :: 34 :: v → u.foldl Lex.step q = .out

/-- Only the blanks outside of strings differ, and no more is written than there is room for. -/
def OnlyBlanks (s tab : CStr) : Prop :=
  (∀ o, sdbJsonIndent s tab = some o → strip .out o.val = strip .out s.val) ∧
    (∃ o, sdbJsonUnindent s = some o ∧ o.val = strip .out s.val) ∧
      ∃ size, sdbJsonUnindentSize s = some size ∧ (sdbJsonUnindentWrite s).length ≤ size

theorem noQuoteEscaped_nil (q : Lex) : NoQuoteEscaped q [] := by
  intro u v h
  cases u with
  | nil => cases h
  | cons c u => cases h

theorem noQuoteEscaped_cons {q : Lex} {c : UInt8} {s : Bytes} : NoQuoteEscaped q (c :: s) ↔
    (escapesQuote c s = true → q = .out) ∧ NoQuoteEscaped (q.step c) s := by
  constructor
  · refine fun h ↦ ⟨fun hesc ↦ ?_, fun u v hs ↦ h (c :: u) v (by rw [hs, List.cons_append])⟩
    rw [escapesQuote, Bool.and_eq_true, decide_eq_true_iff, decide_eq_true_iff] at hesc
    obtain ⟨rfl, hhead⟩ := hesc
    cases s with
    | nil => cases hhead
    | cons c s =>
        cases hhead
        exact h [] s rfl
  · rintro ⟨hfirst, hrest⟩ u v hs
    cases u with
    | nil =>
        cases hs
        exact hfirst rfl
    | cons c' u =>
        cases hs
        exact hrest u v rfl

/-- A blank is no quote. -/
theorem ne_quote_of_isBlank {c : UInt8} (h : isBlank c = true) : c ≠ 34 := by
  rintro rfl
  exact absurd h (by decide)

section Step

variable {q : Lex} {c : UInt8} {s : Bytes}

theorem inString_out : (Lex.out.step c).inString = decide (c = 34) := by
  rw [Lex.step]
  split
  · next h => rw [h]; rfl
  · next h => rw [decide_eq_false h]; rfl

/-- Both scanners take a string for one as long as no quote in it is escaped. -/
theorem inString_step (hin : q ≠ .out) (hq : q = .esc → c ≠ 34) :
    (q.step c).inString = decide (c ≠ 34) := by
  cases q with
  | out => exact absurd rfl hin
  | str =>
      rw [Lex.step]
      split
      · next h => rw [h]; rfl
      · split
        · next h => rw [h]; rfl
        · next h => rw [decide_eq_true h]; rfl
  | esc => rw [decide_eq_true (hq rfl)]; rfl

theorem Lex.inString_of_ne (hin : q ≠ .out) : q.inString = true := by
  cases q with
  | out => exact absurd rfl hin
  | str => rfl
  | esc => rfl

/-- Behind a backslash there is no quote. -/
theorem ne_quote_step (hesc : escapesQuote c s = true → q = .out) (h : q.step c = .esc) :
    s.headD 0 ≠ 34 := by
  intro hhead
  cases q with
  | out =>
      rw [Lex.step] at h
      split at h
      · cases h
      · cases h
  | str =>
      rw [Lex.step] at h
      split at h
      · next hc => cases hesc (by rw [escapesQuote, hhead, hc]; rfl)
      · split at h
        · cases h
        · cases h
  | esc => cases h

/-- A step of `sdb_json_unindent`. -/
theorem unindentLoop_cons (hq : q = .esc → c ≠ 34) (hesc : escapesQuote c s = true → q = .out) :
    unindentLoop (c :: s) q.inString =
      if q = .out ∧ isBlank c then unindentLoop s q.inString
      else c :: unindentLoop s (q.step c).inString := by
  by_cases hin : q = .out
  · subst hin
    rw [inString_out, Lex.inString, unindentLoop]
    by_cases hblank : isBlank c = true
    · rw [if_pos hblank, if_pos ⟨rfl, hblank⟩, decide_eq_false (ne_quote_of_isBlank hblank)]
    · rw [if_neg hblank, if_neg fun h ↦ hblank h.2]
  · rw [inString_step hin hq, Lex.inString_of_ne hin, unindentLoop, if_neg fun h ↦ hin (hesc h.2),
      if_neg fun h ↦ hin h.1]
    rfl

end Step

/-- **Unindenting** takes away the blanks exactly if no quote is escaped. -/
theorem unindentLoop_eq_iff {q : Lex} {s : Bytes} (hq : q = .esc → s.headD 0 ≠ 34) :
    unindentLoop s q.inString = strip q s ↔ NoQuoteEscaped q s := by
  induction s generalizing q with
  | nil => exact iff_of_true (by cases q <;> rfl) (noQuoteEscaped_nil q)
  | cons c s ih =>
      have hq' : q = .esc → c ≠ 34 := hq
      rw [noQuoteEscaped_cons]
      by_cases hesc : escapesQuote c s = true → q = .out
      · rw [unindentLoop_cons hq' hesc, strip, ← ih (ne_quote_step hesc), and_iff_right hesc]
        split
        · next h =>
            obtain ⟨rfl, hblank⟩ := h
            rw [Lex.step, if_neg (ne_quote_of_isBlank hblank)]
        · rw [List.cons_inj_right]
      · -- the backslash is doubled
        refine iff_of_false (fun heq ↦ ?_) fun h ↦ hesc h.1
        obtain ⟨hesc, hin⟩ := Classical.not_imp.mp hesc
        rw [escapesQuote, Bool.and_eq_true, decide_eq_true_iff, decide_eq_true_iff] at hesc
        obtain ⟨rfl, hhead⟩ := hesc
        obtain ⟨s, rfl⟩ : ∃ s', s = 34 :: s' := by
          cases s with
          | nil => cases hhead
          | cons c s => exact ⟨s, by rw [show c = 34 from hhead]⟩
        rw [Lex.inString_of_ne hin, unindentLoop, if_pos ⟨by decide, rfl⟩, strip,
          if_neg fun h ↦ hin h.1, strip, if_neg fun h ↦ absurd h.2 (by decide)] at heq
        cases heq

/-! ## The two scanners -/

theorem strip_blanks {l : Bytes} (hl : ∀ c ∈ l, isBlank c = true) (r : Bytes) :
    strip .out (l ++ r) = strip .out r := by
  induction l with
  | nil => rfl
  | cons c l ih =>
      rw [List.cons_append, strip, if_pos ⟨rfl, hl c List.mem_cons_self⟩]
      exact ih fun c hc ↦ hl c (List.mem_cons_of_mem _ hc)

theorem length_strip_le (q : Lex) (s : Bytes) : (strip q s).length ≤ s.length := by
  induction s generalizing q with
  | nil => exact Nat.le_refl 0
  | cons c s ih =>
      rw [strip]
      split
      · exact Nat.le_succ_of_le (ih q)
      · exact Nat.succ_le_succ (ih _)

theorem mem_unindentLoop {s : Bytes} {instr : Bool} {c : UInt8} (h : c ∈ unindentLoop s instr) :
    c ∈ s := by
  induction s generalizing instr with
  | nil =>
      cases instr with
      | true => exact h
      | false => exact h
  | cons c' s ih =>
      cases instr with
      | true =>
          rw [unindentLoop, List.mem_append] at h
          rcases h with h | h
          · split at h
            · rw [List.mem_singleton.mp h]
              exact List.mem_cons_self
            · cases h
          · rcases List.mem_cons.mp h with rfl | h
            · exact List.mem_cons_self
            · exact List.mem_cons_of_mem _ (ih h)
      | false =>
          rw [unindentLoop] at h
          split at h
          · exact List.mem_cons_of_mem _ (ih h)
          · rcases List.mem_cons.mp h with rfl | h
            · exact List.mem_cons_self
            · exact List.mem_cons_of_mem _ (ih h)

theorem val_sdbJsonUnindentWrite (s : CStr) :
    (CStr.ofBytes (sdbJsonUnindentWrite s)).val = unindentLoop s.val false := by
  have hzero : (0 : UInt8) ∉ unindentLoop s.val false := fun h ↦ s.property (mem_unindentLoop h)
  rw [sdbJsonUnindentWrite, CStr.val_ofBytes_append hzero]
  exact List.append_nil _

theorem sdbJsonUnindentSize_eq_some_iff {s : CStr} {size : Nat} :
    sdbJsonUnindentSize s = some size ↔ s.length + 1 = size ∧ s.length < 2147483647 :=
      checkedInt_eq_some_iff

section Tab

variable {tab : CStr} (htab : ∀ c ∈ tab.val, isBlank c = true)
include htab

theorem isBlank_doIndent (indent : Int) : ∀ c ∈ doIndent indent tab, isBlank c = true := by
  intro c hc
  obtain ⟨l, hl, hc⟩ := List.mem_flatten.mp hc
  rw [List.eq_of_mem_replicate hl] at hc
  exact htab c hc

/-- What is written outside of strings loses its blanks again. -/
theorem strip_indentLoop_out {c : UInt8} {s : Bytes} {indent : Int} {r t : Bytes}
    (hrest : ∀ indent, strip (Lex.out.step c)
      (indentLoop tab s (Lex.out.step c).inString indent ++ r) = t) :
    strip .out (indentLoop tab (c :: s) false indent ++ r) = if isBlank c then t else c :: t := by
  rw [inString_out] at hrest
  have hkeep : ∀ {c : UInt8} {l : Bytes}, isBlank c = false →
      strip .out (c :: l) = c :: strip (Lex.out.step c) l := fun hc ↦ by
    rw [strip, if_neg fun h ↦ absurd h.2 (by rw [hc]; decide)]
  rw [indentLoop]
  split
  · next hblank =>
      rw [Lex.step, if_neg (ne_quote_of_isBlank hblank)] at hrest
      exact hrest indent
  · next hblank =>
      have hblank := Bool.eq_false_iff.mpr hblank
      split
      · next hcolon =>
          subst hcolon
          rw [List.cons_append, hkeep hblank]
          exact congrArg _ (hrest indent)
      · split
        · next hcomma =>
            subst hcomma
            rw [List.cons_append, hkeep hblank]
            change 44 :: strip .out (doIndent indent tab ++ _ ++ r) = _
            rw [List.append_assoc, strip_blanks (isBlank_doIndent htab indent)]
            exact congrArg _ (hrest indent)
        · split
          · next hopen =>
              have hblanks : ∀ b ∈ (if indent ≠ -1 then 10 else 32) :: doIndent (indent + 1) tab,
                  isBlank b = true := by
                refine List.forall_mem_cons.mpr ⟨?_, isBlank_doIndent htab _⟩
                split
                · rfl
                · rfl
              have hstep : Lex.out.step c = .out := if_neg (of_opens hopen).2.2.2
              rw [List.cons_append, hkeep hblank, hstep, ← List.cons_append, List.append_assoc,
                strip_blanks hblanks]
              rw [hstep] at hrest
              exact congrArg _ (hrest (indent + 1))
          · split
            · next hclose =>
                have hblanks : ∀ b ∈ 10 :: doIndent (indent - 1) tab, isBlank b = true :=
                  List.forall_mem_cons.mpr ⟨rfl, isBlank_doIndent htab _⟩
                rw [← List.cons_append, List.append_assoc, strip_blanks hblanks, List.cons_append,
                  hkeep hblank]
                exact congrArg _ (hrest (indent - 1))
            · rw [List.cons_append, hkeep hblank]
              exact congrArg _ (hrest indent)

/-- **Indenting** adds blanks only, as long as no quote is escaped. -/
theorem strip_indentLoop {q : Lex} {s : Bytes} (hq : q = .esc → s.headD 0 ≠ 34)
    (hs : NoQuoteEscaped q s) (indent : Int) (r : Bytes) :
    strip q (indentLoop tab s q.inString indent ++ r) =
      strip q s ++ strip (s.foldl Lex.step q) r := by
  induction s generalizing q indent with
  | nil =>
      cases q with
      | out => rfl
      | str => rfl
      | esc => rfl
  | cons c s ih =>
      have hq' : q = .esc → c ≠ 34 := hq
      obtain ⟨hesc, hs⟩ := noQuoteEscaped_cons.mp hs
      have hrest := fun indent ↦ ih (ne_quote_step hesc) hs indent
      by_cases hin : q = .out
      · subst hin
        rw [Lex.inString, strip_indentLoop_out htab hrest, strip]
        split
        · next hblank =>
            have hstep : Lex.out.step c = .out := if_neg (ne_quote_of_isBlank hblank)
            rw [if_pos ⟨rfl, hblank⟩, List.foldl_cons, hstep]
        · next hblank => rw [if_neg fun h ↦ hblank h.2]; rfl
      · rw [Lex.inString_of_ne hin, indentLoop, if_neg fun h ↦ hin (hesc h.2), List.nil_append,
          List.cons_append, strip, if_neg fun h ↦ hin h.1, ← inString_step hin hq', hrest, strip,
          if_neg fun h ↦ hin h.1]
        rfl

end Tab

theorem zero_not_mem_indentLoop {tab : CStr} {s : Bytes} (hs : (0 : UInt8) ∉ s) {instr : Bool}
    {indent : Int} : (0 : UInt8) ∉ indentLoop tab s instr indent := by
  induction s generalizing instr indent with
  | nil =>
      cases instr with
      | true => exact List.not_mem_nil
      | false => exact List.not_mem_nil
  | cons c s ih =>
      obtain ⟨hc, hs⟩ : 0 ≠ c ∧ (0 : UInt8) ∉ s :=
        ⟨List.ne_of_not_mem_cons hs, List.not_mem_of_not_mem_cons hs⟩
      have hrest : ∀ {instr indent}, (0 : UInt8) ∉ indentLoop tab s instr indent := ih hs
      have hpad : ∀ indent, (0 : UInt8) ∉ doIndent indent tab := fun indent h ↦ by
        obtain ⟨l, hl, h⟩ := List.mem_flatten.mp h
        rw [List.eq_of_mem_replicate hl] at h
        exact tab.property h
      cases instr with
      | true =>
          rw [indentLoop, List.mem_append, List.mem_cons]
          rintro (h | h | h)
          · split at h
            · exact hc (List.mem_singleton.mp h)
            · cases h
          · exact hc h
          · exact hrest h
      | false =>
          rw [indentLoop]
          split
          · exact hrest
          · split
            · simp [hc, hrest]
            · split
              · simp [hc, hrest, hpad]
              · split
                · split
                  · simp [hc, hrest, hpad]
                  · simp [hc, hrest, hpad]
                · split
                  · simp [hc, hrest, hpad]
                  · simp [hc, hrest]

/-- **Only whitespace is touched** by both, and nothing is written out of bounds, exactly if the
text is shorter than 2 GiB and no string of it has a quote right behind a backslash. -/
theorem onlyBlanks_iff {s tab : CStr} (htab : ∀ c ∈ tab.val, isBlank c = true)
    (hclosed : s.val.foldl Lex.step .out = .out) :
    OnlyBlanks s tab ↔ s.length < 2147483647 ∧ NoQuoteEscaped .out s.val := by
  have hiff : unindentLoop s.val false = strip .out s.val ↔ NoQuoteEscaped .out s.val :=
    unindentLoop_eq_iff (q := .out) (fun h ↦ by cases h)
  constructor
  · rintro ⟨-, ⟨o, ho, hun⟩, -⟩
    obtain ⟨size, hsize, rfl⟩ := Option.map_eq_some_iff.mp ho
    rw [val_sdbJsonUnindentWrite] at hun
    exact ⟨(sdbJsonUnindentSize_eq_some_iff.mp hsize).2, hiff.mp hun⟩
  · rintro ⟨hlen, hs⟩
    have hsize : sdbJsonUnindentSize s = some (s.length + 1) :=
      sdbJsonUnindentSize_eq_some_iff.mpr ⟨rfl, hlen⟩
    refine ⟨?_, ⟨_, ?_, (val_sdbJsonUnindentWrite s).trans (hiff.mpr hs)⟩, s.length + 1, hsize, ?_⟩
    · intro o ho
      obtain ⟨size, -, rfl⟩ := Option.map_eq_some_iff.mp ho
      have hval : (CStr.ofBytes (sdbJsonIndentWrite s tab)).val =
          indentLoop tab s.val false 0 ++ [10] := by
        rw [sdbJsonIndentWrite, CStr.val_ofBytes_append (zero_not_mem_indentLoop s.property)]
        rfl
      rw [hval]
      refine (strip_indentLoop htab (q := .out) (fun h ↦ by cases h) hs 0 [10]).trans ?_
      rw [hclosed]
      exact List.append_nil _
    · rw [sdbJsonUnindent, hsize]
      rfl
    · rw [sdbJsonUnindentWrite, hiff.mpr hs, List.length_append]
      exact Nat.succ_le_succ (length_strip_le _ _)

/-- `{"a" : 1}`. -/
theorem onlyBlanks_object :
    OnlyBlanks (CStr.ofBytes [123, 34, 97, 34, 32, 58, 32, 49, 125]) (CStr.ofBytes [9]) := by
  refine (onlyBlanks_iff (List.all_eq_true.mp rfl) (by decide)).mpr ⟨by decide, fun u v h ↦ ?_⟩
  have hmem : (92 : UInt8) ∈ (CStr.ofBytes [123, 34, 97, 34, 32, 58, 32, 49, 125]).val := by
    rw [h]
    exact List.mem_append_right _ List.mem_cons_self
  exact absurd hmem (by decide)

/-- An escaped quote. -/
theorem not_onlyBlanks : ¬ OnlyBlanks (CStr.ofBytes [34, 92, 34, 34]) (CStr.ofBytes [9]) := by
  rintro ⟨-, ⟨o, ho, hval⟩, -⟩
  obtain ⟨size, -, rfl⟩ := Option.map_eq_some_iff.mp ho
  exact absurd hval (by decide)

end SdbStore.Json
