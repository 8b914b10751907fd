import SdbStore.Json.Indent

/-!
# The tokeniser of JSON

`sdb_js0n` writes, for each token directly inside of the outermost brackets, the offset of its first
character and its length.  It is compiled as jumps over tables, or as a `switch`, for compilers
without computed jumps.

`Lexer` is what both keep besides the offsets, `lex` what a byte does to it, and `marks` says
whether the byte makes an offset.  The two differ in one byte: behind `0xef` in a string, the
`switch` waits for three more bytes.

The texts are shorter than 4 GiB.
-/

namespace SdbStore.Json

open Lib

/-! ## Jumps over tables -/

/-- The table that the next byte is looked up in. -/
inductive Go
  | gostruct
  | gobare
  | gostring
  | goutf8
  | goesc
deriving DecidableEq

/-- Where a byte jumps to. -/
inductive Label
  | loop
  | bad
  | up
  | down
  | qup
  | qdown
  | esc
  | unesc
  | bare
  | unbare
  | utf8_2
  | utf8_3
  | utf8_4
  | utfContinue
deriving DecidableEq

/-- A number, `true`, `false` or `null` begins with the byte. -/
def startsBare (c : UInt8) : Bool := c = 45 || (48 ≤ c && c ≤ 57) || c = 116 || c = 102 || c = 110

/-- The byte may stand behind a backslash. -/
def escapable (c : UInt8) : Bool :=
  c = 34 || c = 92 || c = 47 || c = 98 || c = 102 || c = 110 || c = 114 || c = 116 || c = 117

/-- `10xxxxxx`. -/
def continues (c : UInt8) : Bool := 128 ≤ c && c ≤ 191

/-- The tables. -/
def Go.label : Go → UInt8 → Label
  | .gostruct, c =>
      if isBlank c || c = 58 || c = 44 then .loop
      else if c = 34 then .qup
      else if opens c then .up
      else if closes c then .down
      else if startsBare c then .bare
      else .bad
  | .gobare, c =>
      if isBlank c || c = 44 || closes c then .unbare
      else if 32 ≤ c && c ≤ 126 then .loop
      else .bad
  | .gostring, c =>
      if c = 92 then .esc
      else if c = 34 then .qdown
      else if 32 ≤ c && c ≤ 126 then .loop
      else if 192 ≤ c && c ≤ 223 then .utf8_2
      else if 224 ≤ c && c ≤ 239 then .utf8_3
      else if 240 ≤ c && c ≤ 247 then .utf8_4
      else .bad
  | .goutf8, c => if continues c then .utfContinue else .bad
  | .goesc, c => if escapable c then .unesc else .bad

/-- The variables of `sdb_js0n`, and what it has written. -/
structure Js0n (μ : Type) where
  go : μ
  depth : Int
  utf8Remain : Int
  prev : Nat
  out : List Nat
deriving DecidableEq

attribute [ext] Js0n

/-- `PUSH`, with the offset. -/
def Js0n.push {μ : Type} (st : Js0n μ) (i : Nat) : Js0n μ :=
  if st.depth = 1 then { st with prev := i, out := st.out ++ [i] } else st

/-- `CAP`, with the offset of the end. -/
def Js0n.cap {μ : Type} (st : Js0n μ) (i : Nat) : Js0n μ :=
  if st.depth = 1 then { st with prev := i - st.prev, out := st.out ++ [i - st.prev] } else st

/-- What is done at a label, but for `l_unbare`; `none` where 1 is returned. -/
def Label.exec (cur : Nat) (st : Js0n Go) : Label → Option (Js0n Go)
  | .loop => some st
  | .bad => none
  | .up => some { st.push cur with depth := st.depth + 1 }
  | .down => some (Js0n.cap { st with depth := st.depth - 1 } (cur + 1))
  | .qup => some { st.push (cur + 1) with go := .gostring }
  | .qdown => some { st.cap cur with go := .gostruct }
  | .esc => some { st with go := .goesc }
  | .unesc => some { st with go := .gostring }
  | .bare => some { st.push cur with go := .gobare }
  | .unbare => none
  | .utf8_2 => some { st with go := .goutf8, utf8Remain := 1 }
  | .utf8_3 => some { st with go := .goutf8, utf8Remain := 2 }
  | .utf8_4 => some { st with go := .goutf8, utf8Remain := 3 }
  | .utfContinue =>
      let n := st.utf8Remain - 1
      some { st with utf8Remain := n, go := if n = 0 then .gostring else st.go }

/-- One byte, at `cur`. -/
def js0nStep (c : UInt8) (cur : Nat) (st : Js0n Go) : Option (Js0n Go) :=
  if st.go.label c = .unbare then
    (Go.gostruct.label c).exec cur { st.cap cur with go := .gostruct }
  else (st.go.label c).exec cur st

/-- The loop over the bytes: what is returned, and the offsets. -/
def js0nLoop {μ : Type} (step : UInt8 → Nat → Js0n μ → Option (Js0n μ)) :
    Bytes → Nat → Js0n μ → Int × List Nat
  | [], _, st => (st.depth, st.out)
  | c :: s, cur, st =>
      match step c cur st with
      | none => (1, st.out)
      | some st => js0nLoop step s (cur + 1) st

/-- `sdb_js0n`. -/
def sdbJs0n (js : Bytes) : Int × List Nat := js0nLoop js0nStep js 0 ⟨.gostruct, 0, 0, 0, []⟩

/-! ## Without computed jumps -/

/-- `what_did`. -/
inductive WhatDid
  | down
  | up
  | qDown
  | qUp
  | bare
  | unbare
  | escape
  | unescape
  | utf8
  | utf8Continue
deriving DecidableEq

/-- The last `switch`. -/
def switchStruct (c : UInt8) (cur : Nat) (st : Js0n WhatDid) : Option (Js0n WhatDid) :=
  if isBlank c || c = 44 || c = 58 then some st
  else if c = 34 then some { st.push (cur + 1) with go := .qUp }
  else if opens c then some { st.push cur with depth := st.depth + 1, go := .up }
  else if closes c then
    some { Js0n.cap { st with depth := st.depth - 1 } (cur + 1) with go := .down }
  else if startsBare c then some { st.push cur with go := .bare }
  else none

/-- The `switch` in a string. -/
def switchString (c : UInt8) (cur : Nat) (st : Js0n WhatDid) : Option (Js0n WhatDid) :=
  if c = 92 then some { st with go := .escape }
  else if c = 34 then some { st.cap cur with go := .qDown }
  else if c ≤ 31 || (127 ≤ c && c ≤ 191) || 248 ≤ c then none
  else if c < 127 then some st
  else if c < 224 then some { st with go := .utf8, utf8Remain := 1 }
  else if c < 239 then some { st with go := .utf8, utf8Remain := 2 }
  else some { st with go := .utf8, utf8Remain := 3 }

/-- One byte, after a bare word has ended at it. -/
def switchRest (c : UInt8) (cur : Nat) (st : Js0n WhatDid) : Option (Js0n WhatDid) :=
  if st.go = .utf8 then
    if c < 128 || 192 ≤ c then none
    else
      let n := st.utf8Remain - 1
      some { st with utf8Remain := n, go := if n = 0 then .utf8Continue else st.go }
  else if st.go = .escape then (if escapable c then some { st with go := .unescape } else none)
  else if st.go = .qUp ∨ st.go = .utf8Continue ∨ st.go = .unescape then switchString c cur st
  else switchStruct c cur st

/-- One byte, at `cur`. -/
def switchStep (c : UInt8) (cur : Nat) (st : Js0n WhatDid) : Option (Js0n WhatDid) :=
  if st.go = .bare then
    if isBlank c || c = 44 || closes c then switchRest c cur { st.cap cur with go := .unbare }
    else if 32 ≤ c && c ≤ 126 then some st
    else none
  else switchRest c cur st

/-- `sdb_js0n`, as it is compiled without computed jumps. -/
def sdbJs0nSwitch (js : Bytes) : Int × List Nat := js0nLoop switchStep js 0 ⟨.down, 0, 0, 0, []⟩

/-! ## What a byte does -/

/-- Where the tokeniser is. -/
structure Lexer where
  go : Go
  depth : Int
  remain : Int
deriving DecidableEq

/-- The tokeniser without the offsets.  Behind `0xef` it waits for `wide` bytes. -/
def lex (wide : Int) (c : UInt8) (q : Lexer) : Option Lexer :=
  match q.go with
  | .gostruct =>
      if isBlank c || c = 58 || c = 44 then some q
      else if c = 34 then some { q with go := .gostring }
      else if opens c then some { q with depth := q.depth + 1 }
      else if closes c then some { q with depth := q.depth - 1 }
      else if startsBare c then some { q with go := .gobare }
      else none
  | .gobare =>
      if isBlank c || c = 44 then some { q with go := .gostruct }
      else if closes c then some { q with go := .gostruct, depth := q.depth - 1 }
      else if 32 ≤ c && c ≤ 126 then some q
      else none
  | .gostring =>
      if c = 92 then some { q with go := .goesc }
      else if c = 34 then some { q with go := .gostruct }
      else if 32 ≤ c && c ≤ 126 then some q
      else if 192 ≤ c && c ≤ 223 then some { q with go := .goutf8, remain := 1 }
      else if c = 239 then some { q with go := .goutf8, remain := wide }
      else if 224 ≤ c && c ≤ 238 then some { q with go := .goutf8, remain := 2 }
      else if 240 ≤ c && c ≤ 247 then some { q with go := .goutf8, remain := 3 }
      else none
  | .goutf8 =>
      if continues c then
        some { q with
          remain := q.remain - 1
          go := if q.remain - 1 = 0 then .gostring else .goutf8 }
      else none
  | .goesc => if escapable c then some { q with go := .gostring } else none

/-- The byte begins or ends a token directly inside of the outermost brackets. -/
def marks (c : UInt8) (q : Lexer) : Bool :=
  match q.go with
  | .gostruct => q.depth = 1 && (c = 34 || opens c || startsBare c) || q.depth = 2 && closes c
  | .gobare => q.depth = 1 && (isBlank c || c = 44 || closes c) || q.depth = 2 && closes c
  | .gostring => q.depth = 1 && c = 34
  | .goutf8 => false
  | .goesc => false

/-- The table that `what_did` stands for. -/
def WhatDid.table : WhatDid → Go
  | .down | .up | .qDown | .unbare => .gostruct
  | .qUp | .utf8Continue | .unescape => .gostring
  | .bare => .gobare
  | .escape => .goesc
  | .utf8 => .goutf8

/-- The same variables, with the table instead of `what_did`. -/
def Js0n.tabled (st : Js0n WhatDid) : Js0n Go := { st with go := st.go.table }

/-- What is kept besides the offsets. -/
def Js0n.lexer (st : Js0n Go) : Lexer := ⟨st.go, st.depth, st.utf8Remain⟩

/-! ## One byte -/

@[simp]
theorem Js0n.push_go {μ : Type} (st : Js0n μ) (i : Nat) : (st.push i).go = st.go := by
  rw [Js0n.push]
  split
  · rfl
  · rfl

@[simp]
theorem Js0n.cap_go {μ : Type} (st : Js0n μ) (i : Nat) : (st.cap i).go = st.go := by
  rw [Js0n.cap]
  split
  · rfl
  · rfl

theorem Js0n.tabled_push (st : Js0n WhatDid) (i : Nat) : (st.push i).tabled = st.tabled.push i := by
  rw [Js0n.push, Js0n.push, apply_ite Js0n.tabled]
  rfl

theorem Js0n.tabled_cap (st : Js0n WhatDid) (i : Nat) : (st.cap i).tabled = st.tabled.cap i := by
  rw [Js0n.cap, Js0n.cap, apply_ite Js0n.tabled]
  rfl

/-- Only a bare word ends at a byte that is read again. -/
theorem label_ne_unbare {go : Go} (h : go ≠ .gobare) (c : UInt8) : go.label c ≠ .unbare := by
  cases go with
  | gobare => exact absurd rfl h
  | _ => rw [Go.label]; grind

/-- The table does not change. -/
theorem Js0n.tabled_go {st : Js0n WhatDid} {did : WhatDid} (h : st.go.table = did.table) :
    Js0n.tabled { st with go := did } = st.tabled :=
  Js0n.ext h.symm rfl rfl rfl rfl

section Switch

variable (c : UInt8) (cur : Nat) (st : Js0n WhatDid)

theorem switchStruct_tabled (h : st.go.table = .gostruct) :
    (switchStruct c cur st).map Js0n.tabled = (Go.gostruct.label c).exec cur st.tabled := by
  have hgo : st.tabled.go = .gostruct := h
  rw [switchStruct, Go.label, Bool.or_right_comm]
  by_cases hblank : (isBlank c || c = 58 || c = 44) = true
  · rw [if_pos hblank, if_pos hblank]
    rfl
  rw [if_neg hblank, if_neg hblank]
  by_cases hquote : c = 34
  · rw [if_pos hquote, if_pos hquote, Label.exec, ← Js0n.tabled_push]
    rfl
  rw [if_neg hquote, if_neg hquote]
  by_cases hopen : opens c = true
  · rw [if_pos hopen, if_pos hopen, Label.exec, ← Js0n.tabled_push]
    have hpushGo : (st.push cur).go.table = WhatDid.up.table := by
      rw [Js0n.push_go]
      exact h
    refine congrArg some ?_
    exact @Js0n.tabled_go { st.push cur with depth := st.depth + 1 } .up hpushGo
  rw [if_neg hopen, if_neg hopen]
  by_cases hclose : closes c = true
  · rw [if_pos hclose, if_pos hclose, Label.exec]
    have hcapGo : (Js0n.cap { st with depth := st.depth - 1 } (cur + 1)).go.table =
        WhatDid.down.table := by
      rw [Js0n.cap_go]
      exact h
    exact congrArg some ((Js0n.tabled_go hcapGo).trans (Js0n.tabled_cap _ (cur + 1)))
  rw [if_neg hclose, if_neg hclose]
  by_cases hbare : startsBare c = true
  · rw [if_pos hbare, if_pos hbare, Label.exec, ← Js0n.tabled_push]
    rfl
  · rw [if_neg hbare, if_neg hbare]
    rfl

/-- In a string the two tables differ in one byte. -/
theorem switchString_tabled (hwide : c ≠ 239) :
    (switchString c cur st).map Js0n.tabled = (Go.gostring.label c).exec cur st.tabled := by
  rw [switchString, Go.label]
  by_cases hback : c = 92
  · rw [if_pos hback, if_pos hback]
    rfl
  rw [if_neg hback, if_neg hback]
  by_cases hquote : c = 34
  · rw [if_pos hquote, if_pos hquote, Label.exec, ← Js0n.tabled_cap]
    rfl
  rw [if_neg hquote, if_neg hquote]
  by_cases hplain : (32 ≤ c && c ≤ 126) = true
  · rw [if_pos hplain, if_neg (by grind), if_pos (by grind)]
    rfl
  rw [if_neg hplain]
  by_cases htwo : (192 ≤ c && c ≤ 223) = true
  · rw [if_pos htwo, if_neg (by grind), if_neg (by grind), if_pos (by grind)]
    rfl
  rw [if_neg htwo]
  by_cases hthree : (224 ≤ c && c ≤ 239) = true
  · rw [if_pos hthree, if_neg (by grind), if_neg (by grind), if_neg (by grind), if_pos (by grind)]
    rfl
  rw [if_neg hthree]
  by_cases hfour : (240 ≤ c && c ≤ 247) = true
  · rw [if_pos hfour, if_neg (by grind), if_neg (by grind), if_neg (by grind), if_neg (by grind)]
    rfl
  · rw [if_neg hfour, if_pos (by simp [UInt8.le_iff_toNat_le] at *; omega)]
    rfl

theorem switchRest_tabled (hbare : st.go ≠ .bare) (hwide : ¬ (st.go.table = .gostring ∧ c = 239)) :
    (switchRest c cur st).map Js0n.tabled = (st.go.table.label c).exec cur st.tabled := by
  have hrest : ∀ did : WhatDid, st.go = did → did.table = .gostruct →
      (switchStruct c cur st).map Js0n.tabled = (did.table.label c).exec cur st.tabled := by
    intro did hdid htable
    rw [htable]
    exact switchStruct_tabled c cur st (hdid ▸ htable)
  have hstring : ∀ did : WhatDid, st.go = did → did.table = .gostring →
      (switchString c cur st).map Js0n.tabled = (did.table.label c).exec cur st.tabled := by
    intro did hdid htable
    rw [htable]
    exact switchString_tabled c cur st fun hc ↦ hwide ⟨hdid ▸ htable, hc⟩
  cases hgo : st.go with
  | down => rw [switchRest, hgo]; exact hrest .down hgo rfl
  | up => rw [switchRest, hgo]; exact hrest .up hgo rfl
  | qDown => rw [switchRest, hgo]; exact hrest .qDown hgo rfl
  | qUp => rw [switchRest, hgo]; exact hstring .qUp hgo rfl
  | bare => exact absurd hgo hbare
  | unbare => rw [switchRest, hgo]; exact hrest .unbare hgo rfl
  | escape =>
      rw [switchRest, hgo, if_neg (by decide), if_pos rfl]
      change _ = (if escapable c then Label.unesc else Label.bad).exec cur st.tabled
      by_cases hesc : escapable c = true
      · rw [if_pos hesc, if_pos hesc]
        rfl
      · rw [if_neg hesc, if_neg hesc]
        rfl
  | unescape => rw [switchRest, hgo]; exact hstring .unescape hgo rfl
  | utf8 =>
      have hgoTable : st.tabled.go = .goutf8 := congrArg WhatDid.table hgo
      rw [switchRest, hgo, if_pos rfl]
      change _ = (if continues c then Label.utfContinue else Label.bad).exec cur st.tabled
      by_cases hc : continues c = true
      · rw [if_neg (by grind [continues]), if_pos hc, Label.exec, hgoTable]
        refine congrArg some (Js0n.ext ?_ rfl rfl rfl rfl)
        exact apply_ite WhatDid.table _ _ _
      · rw [if_pos (by grind [continues]), if_neg hc]
        rfl
  | utf8Continue => rw [switchRest, hgo]; exact hstring .utf8Continue hgo rfl

/-- A byte, in the two versions. -/
theorem switchStep_tabled (hwide : ¬ (st.go.table = .gostring ∧ c = 239)) :
    (switchStep c cur st).map Js0n.tabled = js0nStep c cur st.tabled := by
  by_cases hbare : st.go = .bare
  · have hgo : st.tabled.go = .gobare := congrArg WhatDid.table hbare
    rw [switchStep, if_pos hbare, js0nStep, hgo]
    by_cases hend : (isBlank c || c = 44 || closes c) = true
    · have hlabel : Go.gobare.label c = .unbare := if_pos hend
      have hrest := switchRest_tabled c cur { st.cap cur with go := .unbare }
          (fun h ↦ WhatDid.noConfusion h)
        fun h ↦ Go.noConfusion h.1
      rw [if_pos hend, if_pos hlabel, hrest, ← Js0n.tabled_cap]
      rfl
    have hlabel : Go.gobare.label c = if 32 ≤ c && c ≤ 126 then .loop else .bad := if_neg hend
    rw [if_neg hend, hlabel]
    by_cases hplain : (32 ≤ c && c ≤ 126) = true
    · rw [if_pos hplain, if_pos hplain, if_neg (by decide)]
      rfl
    · rw [if_neg hplain, if_neg hplain, if_neg (by decide)]
      rfl
  · have hgo : st.tabled.go ≠ .gobare := by
      intro hgo
      change st.go.table = .gobare at hgo
      cases hst : st.go with
      | bare => exact hbare hst
      | _ => rw [hst] at hgo; cases hgo
    rw [switchStep, if_neg hbare, switchRest_tabled c cur st hbare hwide, js0nStep,
      if_neg (label_ne_unbare hgo c)]
    rfl

/-- The byte that the two versions read differently. -/
theorem switchStep_wide (hgo : st.go.table = .gostring) :
    switchStep 239 cur st = some { st with go := .utf8, utf8Remain := 3 } ∧
      js0nStep 239 cur st.tabled = some { st.tabled with go := .goutf8, utf8Remain := 2 } := by
  have hlabel : js0nStep 239 cur st.tabled =
      some { st.tabled with go := .goutf8, utf8Remain := 2 } := by
    rw [js0nStep, show st.tabled.go = .gostring from hgo]
    rfl
  refine ⟨?_, hlabel⟩
  have hstring : switchString 239 cur st = some { st with go := .utf8, utf8Remain := 3 } := by
    rw [switchString, if_neg (by decide), if_neg (by decide), if_neg (by decide),
      if_neg (by decide), if_neg (by decide), if_neg (by decide)]
  cases hst : st.go with
  | qUp =>
      rw [switchStep, hst, if_neg (by decide), switchRest, hst, if_neg (by decide),
        if_neg (by decide), if_pos (by decide)]
      exact hstring
  | unescape =>
      rw [switchStep, hst, if_neg (by decide), switchRest, hst, if_neg (by decide),
        if_neg (by decide), if_pos (by decide)]
      exact hstring
  | utf8Continue =>
      rw [switchStep, hst, if_neg (by decide), switchRest, hst, if_neg (by decide),
        if_neg (by decide), if_pos (by decide)]
      exact hstring
  | _ => rw [hst] at hgo; cases hgo

end Switch

/-- What is written where `marks` says. -/
def written (c : UInt8) (cur prev : Nat) (q : Lexer) : Nat :=
  match q.go with
  | .gostruct => if closes c then cur + 1 - prev else if c = 34 then cur + 1 else cur
  | .gobare => if q.depth = 1 then cur - prev else cur + 1 - prev
  | _ => cur - prev

/-- The variables after the byte. -/
def Js0n.next (c : UInt8) (cur : Nat) (st : Js0n Go) (q : Lexer) : Js0n Go :=
  if marks c st.lexer then
    ⟨q.go, q.depth, q.remain, written c cur st.prev st.lexer,
      st.out ++ [written c cur st.prev st.lexer]⟩
  else ⟨q.go, q.depth, q.remain, st.prev, st.out⟩

/-- One byte, through `lex` and `marks`. -/
def lexStep (wide : Int) (c : UInt8) (cur : Nat) (st : Js0n Go) : Option (Js0n Go) :=
  (lex wide c st.lexer).map (st.next c cur)

theorem lexStep_of_not_marks {wide : Int} {c : UInt8} {cur : Nat} {st : Js0n Go} {q : Lexer}
    (h : lex wide c st.lexer = some q) (hmarks : marks c st.lexer = false) :
    lexStep wide c cur st = some ⟨q.go, q.depth, q.remain, st.prev, st.out⟩ := by
  rw [lexStep, h, Option.map_some, Js0n.next, hmarks, if_neg Bool.false_ne_true]

theorem lexStep_of_none {wide : Int} {c : UInt8} {cur : Nat} {st : Js0n Go}
    (h : lex wide c st.lexer = none) :
    lexStep wide c cur st = none := by
  rw [lexStep, h, Option.map_none]

/-- Blanks, colons and commas neither begin nor end a token. -/
theorem of_idle {c : UInt8} (h : (isBlank c || c = 58 || c = 44) = true) :
    c ≠ 34 ∧ opens c = false ∧ closes c = false ∧ startsBare c = false := by
  simp only [isBlank, Bool.or_eq_true, decide_eq_true_iff] at h
  rcases h with ((((rfl | rfl) | rfl) | rfl) | rfl) | rfl
  all_goals decide

theorem opens_not_closes {c : UInt8} (h : opens c = true) : closes c = false := by
  rw [opens, Bool.or_eq_true, decide_eq_true_iff, decide_eq_true_iff] at h
  rcases h with rfl | rfl
  · decide
  · decide

theorem closes_not_startsBare {c : UInt8} (h : closes c = true) : startsBare c = false := by
  rw [closes, Bool.or_eq_true, decide_eq_true_iff, decide_eq_true_iff] at h
  rcases h with rfl | rfl
  · decide
  · decide

/-- Between tokens. -/
theorem js0nStep_gostruct (c : UInt8) (cur : Nat) (depth remain : Int) (prev : Nat)
    (out : List Nat) :
    js0nStep c cur ⟨.gostruct, depth, remain, prev, out⟩ =
      lexStep 2 c cur ⟨.gostruct, depth, remain, prev, out⟩ := by
  have hlex : lex 2 c ⟨.gostruct, depth, remain⟩ =
      if isBlank c || c = 58 || c = 44 then some ⟨.gostruct, depth, remain⟩
      else if c = 34 then some ⟨.gostring, depth, remain⟩
      else if opens c then some ⟨.gostruct, depth + 1, remain⟩
      else if closes c then some ⟨.gostruct, depth - 1, remain⟩
      else if startsBare c then some ⟨.gobare, depth, remain⟩
      else none := rfl
  have hmarks : marks c ⟨.gostruct, depth, remain⟩ =
      (depth = 1 && (c = 34 || opens c || startsBare c) || depth = 2 && closes c) := rfl
  rw [js0nStep, if_neg (@label_ne_unbare .gostruct (fun h ↦ Go.noConfusion h) c)]
  change (Go.gostruct.label c).exec cur _ = _
  rw [Go.label]
  by_cases hblank : (isBlank c || c = 58 || c = 44) = true
  · obtain ⟨hquote, hopen, hclose, hbare⟩ := of_idle hblank
    rw [if_pos hblank, lexStep_of_not_marks (hlex.trans (if_pos hblank))]
    · rfl
    · rw [Js0n.lexer, hmarks, hopen, hclose, hbare]
      simp only [hquote, Bool.and_false, Bool.or_false, decide_false]
  rw [if_neg hblank] at hlex ⊢
  by_cases hquote : c = 34
  · subst hquote
    rw [if_pos rfl] at hlex ⊢
    grind [Label.exec, Js0n.push, lexStep, Js0n.next, Js0n.lexer, written, opens, closes]
  rw [if_neg hquote] at hlex ⊢
  by_cases hopen : opens c = true
  · have hclose := opens_not_closes hopen
    rw [if_pos hopen] at hlex ⊢
    grind [Label.exec, Js0n.push, lexStep, Js0n.next, Js0n.lexer, written]
  rw [if_neg hopen] at hlex ⊢
  by_cases hclose : closes c = true
  · have hbare := closes_not_startsBare hclose
    rw [if_pos hclose] at hlex ⊢
    grind [Label.exec, Js0n.cap, lexStep, Js0n.next, Js0n.lexer, written]
  rw [if_neg hclose] at hlex ⊢
  by_cases hbare : startsBare c = true
  · rw [if_pos hbare] at hlex ⊢
    grind [Label.exec, Js0n.push, lexStep, Js0n.next, Js0n.lexer, written]
  · rw [if_neg hbare] at hlex ⊢
    rw [lexStep_of_none hlex]
    rfl

/-- In a string. -/
theorem js0nStep_gostring (c : UInt8) (cur : Nat) (depth remain : Int) (prev : Nat)
    (out : List Nat) :
    js0nStep c cur ⟨.gostring, depth, remain, prev, out⟩ =
      lexStep 2 c cur ⟨.gostring, depth, remain, prev, out⟩ := by
  have hlex : lex 2 c ⟨.gostring, depth, remain⟩ =
      if c = 92 then some ⟨.goesc, depth, remain⟩
      else if c = 34 then some ⟨.gostruct, depth, remain⟩
      else if 32 ≤ c && c ≤ 126 then some ⟨.gostring, depth, remain⟩
      else if 192 ≤ c && c ≤ 223 then some ⟨.goutf8, depth, 1⟩
      else if c = 239 then some ⟨.goutf8, depth, 2⟩
      else if 224 ≤ c && c ≤ 238 then some ⟨.goutf8, depth, 2⟩
      else if 240 ≤ c && c ≤ 247 then some ⟨.goutf8, depth, 3⟩
      else none := rfl
  have hmarks : marks c ⟨.gostring, depth, remain⟩ = (depth = 1 && c = 34) := rfl
  rw [js0nStep, if_neg (@label_ne_unbare .gostring (fun h ↦ Go.noConfusion h) c)]
  change (Go.gostring.label c).exec cur _ = _
  rw [Go.label]
  by_cases hback : c = 92
  · subst hback
    rw [if_pos rfl] at hlex ⊢
    grind [Label.exec, lexStep, Js0n.next, Js0n.lexer]
  rw [if_neg hback] at hlex ⊢
  by_cases hquote : c = 34
  · subst hquote
    rw [if_pos rfl] at hlex ⊢
    grind [Label.exec, Js0n.cap, lexStep, Js0n.next, Js0n.lexer, written]
  rw [if_neg hquote] at hlex ⊢
  by_cases hplain : (32 ≤ c && c ≤ 126) = true
  · rw [if_pos hplain] at hlex ⊢
    grind [Label.exec, lexStep, Js0n.next, Js0n.lexer]
  rw [if_neg hplain] at hlex ⊢
  by_cases htwo : (192 ≤ c && c ≤ 223) = true
  · rw [if_pos htwo] at hlex ⊢
    grind [Label.exec, lexStep, Js0n.next, Js0n.lexer]
  rw [if_neg htwo] at hlex ⊢
  by_cases hthree : (224 ≤ c && c ≤ 239) = true
  · have hlex' : lex 2 c ⟨.gostring, depth, remain⟩ = some ⟨.goutf8, depth, 2⟩ := by grind
    rw [if_pos hthree]
    grind [Label.exec, lexStep, Js0n.next, Js0n.lexer]
  rw [if_neg (by grind), if_neg (by grind)] at hlex
  rw [if_neg hthree]
  by_cases hfour : (240 ≤ c && c ≤ 247) = true
  · rw [if_pos hfour] at hlex ⊢
    grind [Label.exec, lexStep, Js0n.next, Js0n.lexer]
  · rw [if_neg hfour] at hlex ⊢
    rw [lexStep_of_none hlex]
    rfl

theorem js0nStep_eq (c : UInt8) (cur : Nat) (st : Js0n Go) :
    js0nStep c cur st = lexStep 2 c cur st := by
  obtain ⟨go, depth, remain, prev, out⟩ := st
  cases go with
  | gostruct => exact js0nStep_gostruct c cur depth remain prev out
  | gobare =>
      grind [js0nStep, lexStep, lex, Js0n.lexer, Js0n.next, Go.label, Label.exec, Js0n.cap, marks,
        written, isBlank, opens, closes, startsBare]
  | gostring => exact js0nStep_gostring c cur depth remain prev out
  | goutf8 => grind [js0nStep, lexStep, lex, Js0n.lexer, Js0n.next, Go.label, Label.exec, marks]
  | goesc => grind [js0nStep, lexStep, lex, Js0n.lexer, Js0n.next, Go.label, Label.exec, marks]

theorem lex_of_not_wide {c : UInt8} {q : Lexer} (h : ¬ (q.go = .gostring ∧ c = 239))
    (wide wide' : Int) :
    lex wide c q = lex wide' c q := by
  obtain ⟨go, depth, remain⟩ := q
  cases go with
  | gostring =>
      have hc : c ≠ 239 := fun hc ↦ h ⟨rfl, hc⟩
      rw [lex, lex]
      simp only [if_neg hc]
  | _ => rfl

theorem switchStep_eq (c : UInt8) (cur : Nat) (st : Js0n WhatDid) :
    (switchStep c cur st).map Js0n.tabled = lexStep 3 c cur st.tabled := by
  by_cases hwide : st.go.table = .gostring ∧ c = 239
  · obtain ⟨hgo, rfl⟩ := hwide
    have hlex : lex 3 239 st.tabled.lexer = some ⟨.goutf8, st.depth, 3⟩ := by
      rw [lex, show st.tabled.lexer.go = .gostring from hgo]
      rfl
    have hmarks : marks 239 st.tabled.lexer = false := by
      rw [marks, show st.tabled.lexer.go = .gostring from hgo]
      exact Bool.and_false _
    rw [(switchStep_wide cur st hgo).1, lexStep_of_not_marks hlex hmarks]
    rfl
  · rw [switchStep_tabled c cur st hwide, js0nStep_eq, lexStep, lexStep,
      @lex_of_not_wide c st.tabled.lexer hwide 2 3]

/-! ## The texts that the two versions read alike -/

theorem js0nLoop_js0nStep (s : Bytes) (cur : Nat) (st : Js0n Go) :
    js0nLoop js0nStep s cur st = js0nLoop (lexStep 2) s cur st := by
  rw [show js0nStep = lexStep 2 from funext fun c ↦ funext fun cur ↦ funext fun st ↦ js0nStep_eq c
    cur st]

theorem js0nLoop_switchStep (s : Bytes) (cur : Nat) (st : Js0n WhatDid) :
    js0nLoop switchStep s cur st = js0nLoop (lexStep 3) s cur st.tabled := by
  induction s generalizing cur st with
  | nil => rfl
  | cons c s ih =>
      rw [js0nLoop, js0nLoop, ← switchStep_eq]
      cases switchStep c cur st with
      | none => rfl
      | some st' => exact ih (cur + 1) st'

/-- The rest of the text makes no offset, and 1 is returned: it holds a byte that is refused, or one
bracket is open at its end. -/
def Mute (wide : Int) : Bytes → Lexer → Prop
  | [], q => q.depth = 1
  | c :: s, q =>
      match lex wide c q with
      | none => True
      | some q' => marks c q = false ∧ Mute wide s q'

/-- What is behind `0xef` in a string is not two bytes of a character and a further byte, or nothing
that the versions read from there on has an effect.  One has read the whole character with the two
bytes, and the other one takes the further byte to it. -/
def Parted (depth : Int) : Bytes → Prop
  | a :: b :: d :: v =>
      continues a → continues b →
        if continues d then Mute 3 v ⟨.gostring, depth, 0⟩
        else Mute 2 (d :: v) ⟨.gostring, depth, 0⟩
  | _ => True

/-- The first `0xef` in a string has no effect. -/
def Alike : Bytes → Lexer → Prop
  | [], _ => True
  | c :: s, q =>
      if q.go = .gostring ∧ c = 239 then Parted q.depth s
      else
        match lex 2 c q with
        | none => True
        | some q' => Alike s q'

section Loops

variable {wide : Int} {c : UInt8} {s : Bytes} {cur : Nat} {st : Js0n Go}

theorem js0nLoop_of_none (h : lex wide c st.lexer = none) :
    js0nLoop (lexStep wide) (c :: s) cur st = (1, st.out) := by
  rw [js0nLoop, lexStep_of_none h]

theorem js0nLoop_of_some {q : Lexer} (h : lex wide c st.lexer = some q) :
    js0nLoop (lexStep wide) (c :: s) cur st =
      js0nLoop (lexStep wide) s (cur + 1) (st.next c cur q) := by
  rw [js0nLoop, lexStep, h, Option.map_some]

theorem lexer_next (q : Lexer) : (st.next c cur q).lexer = q := by
  rw [Js0n.next]
  split
  · rfl
  · rfl

theorem next_of_not_marks (h : marks c st.lexer = false) (q : Lexer) :
    st.next c cur q = ⟨q.go, q.depth, q.remain, st.prev, st.out⟩ := by
  rw [Js0n.next, h, if_neg Bool.false_ne_true]

theorem length_out_next (q : Lexer) :
    (st.next c cur q).out.length = st.out.length + if marks c st.lexer then 1 else 0 := by
  rw [Js0n.next]
  split
  · exact List.length_append
  · rfl

end Loops

/-- Offsets are only added. -/
theorem length_le_js0nLoop (wide : Int) (s : Bytes) (cur : Nat) (st : Js0n Go) :
    st.out.length ≤ (js0nLoop (lexStep wide) s cur st).2.length := by
  induction s generalizing cur st with
  | nil => exact le_rfl
  | cons c s ih =>
      cases hlex : lex wide c st.lexer with
      | none => rw [js0nLoop_of_none hlex]
      | some q =>
          rw [js0nLoop_of_some hlex]
          exact (Nat.le_add_right _ _).trans ((@length_out_next c cur st q).symm.le.trans (ih _ _))

theorem mute_iff (wide : Int) (s : Bytes) (cur : Nat) (st : Js0n Go) :
    js0nLoop (lexStep wide) s cur st = (1, st.out) ↔ Mute wide s st.lexer := by
  induction s generalizing cur st with
  | nil => exact ⟨fun h ↦ congrArg Prod.fst h, fun h ↦ congrArg (·, st.out) h⟩
  | cons c s ih =>
      rw [Mute]
      cases hlex : lex wide c st.lexer with
      | none =>
          rw [js0nLoop_of_none hlex]
          exact iff_of_true rfl trivial
      | some q =>
          rw [js0nLoop_of_some hlex]
          cases hmarks : marks c st.lexer with
          | false =>
              have hnext := ih (cur + 1) (st.next c cur q)
              rw [lexer_next, next_of_not_marks hmarks] at hnext
              rw [next_of_not_marks hmarks]
              exact hnext.trans ⟨fun h ↦ ⟨rfl, h⟩, And.right⟩
          | true =>
              have hle := length_le_js0nLoop wide s (cur + 1) (st.next c cur q)
              rw [length_out_next, hmarks, if_pos rfl] at hle
              refine iff_of_false (fun h ↦ ?_) fun h ↦ Bool.noConfusion h.1
              rw [h] at hle
              exact Nat.not_succ_le_self _ hle

section Character

variable (wide : Int) {c : UInt8} (s : Bytes) (cur : Nat) (depth : Int) {remain remain' : Int}
  (prev : Nat) (out : List Nat)

/-- A byte of a character, with more of them to come. -/
theorem js0nLoop_goutf8 (h : continues c = true) (hremain : remain - 1 = remain')
    (hpos : remain' ≠ 0) :
    js0nLoop (lexStep wide) (c :: s) cur ⟨.goutf8, depth, remain, prev, out⟩ =
      js0nLoop (lexStep wide) s (cur + 1) ⟨.goutf8, depth, remain', prev, out⟩ := by
  have hlex : lex wide c ⟨.goutf8, depth, remain⟩ = some ⟨.goutf8, depth, remain'⟩ := by
    rw [lex, if_pos h, hremain, if_neg hpos]
  rw [js0nLoop, lexStep_of_not_marks hlex rfl]

/-- The last byte of a character. -/
theorem js0nLoop_goutf8_last (h : continues c = true) :
    js0nLoop (lexStep wide) (c :: s) cur ⟨.goutf8, depth, 1, prev, out⟩ =
      js0nLoop (lexStep wide) s (cur + 1) ⟨.gostring, depth, 0, prev, out⟩ := by
  have hlex : lex wide c ⟨.goutf8, depth, 1⟩ = some ⟨.gostring, depth, 0⟩ := if_pos h
  rw [js0nLoop, lexStep_of_not_marks hlex rfl]

theorem js0nLoop_goutf8_of_not (h : ¬ continues c = true) :
    js0nLoop (lexStep wide) (c :: s) cur ⟨.goutf8, depth, remain, prev, out⟩ = (1, out) :=
  js0nLoop_of_none (if_neg h)

theorem parted_of_not {a b : UInt8} (h : continues a = true → ¬ continues b = true) :
    Parted depth (a :: b :: s) := by
  cases s with
  | nil => trivial
  | cons d v =>
      rw [Parted]
      exact fun ha hb ↦ absurd hb (h ha)

/-- Behind `0xef` one version waits for two bytes and the other one for three. -/
theorem parted_iff :
    js0nLoop (lexStep 2) s cur ⟨.goutf8, depth, 2, prev, out⟩ =
      js0nLoop (lexStep 3) s cur ⟨.goutf8, depth, 3, prev, out⟩ ↔ Parted depth s := by
  match s with
  | [] => exact iff_of_true rfl trivial
  | [a] =>
      by_cases ha : continues a = true
      · rw [js0nLoop_goutf8 2 [] cur depth prev out ha rfl (by decide),
          js0nLoop_goutf8 3 [] cur depth prev out ha rfl (by decide)]
        exact iff_of_true rfl trivial
      · rw [js0nLoop_goutf8_of_not 2 [] cur depth prev out ha,
          js0nLoop_goutf8_of_not 3 [] cur depth prev out ha]
        exact iff_of_true rfl trivial
  | a :: b :: s =>
      by_cases ha : continues a = true
      · rw [js0nLoop_goutf8 2 (b :: s) cur depth prev out ha rfl (by decide),
          js0nLoop_goutf8 3 (b :: s) cur depth prev out ha rfl (by decide)]
        by_cases hb : continues b = true
        · rw [show (2 : Int) - 1 = 1 from rfl, js0nLoop_goutf8_last 2 s (cur + 1) depth prev out hb,
            js0nLoop_goutf8 3 s (cur + 1) depth prev out hb (show (3 : Int) - 1 - 1 = 1 from rfl)
              (by decide)]
          cases s with
          | nil => exact iff_of_true rfl trivial
          | cons d v =>
              have htwo := mute_iff 2 (d :: v) (cur + 1 + 1) ⟨.gostring, depth, 0, prev, out⟩
              have hthree := mute_iff 3 v (cur + 1 + 1 + 1) ⟨.gostring, depth, 0, prev, out⟩
              rw [Parted, imp_iff_right ha, imp_iff_right hb]
              by_cases hd : continues d = true
              · -- the string refuses the byte
                have hlex : lex 2 d ⟨.gostring, depth, 0⟩ = none := by grind [lex, continues]
                rw [if_pos hd, js0nLoop_goutf8_last 3 v (cur + 1 + 1) depth prev out hd,
                  js0nLoop_of_none hlex, eq_comm]
                exact hthree
              · rw [if_neg hd, js0nLoop_goutf8_of_not 3 v (cur + 1 + 1) depth prev out hd]
                exact htwo
        · rw [js0nLoop_goutf8_of_not 2 s (cur + 1) depth prev out hb,
            js0nLoop_goutf8_of_not 3 s (cur + 1) depth prev out hb]
          exact iff_of_true rfl (parted_of_not s depth fun _ ↦ hb)
      · rw [js0nLoop_goutf8_of_not 2 (b :: s) cur depth prev out ha,
          js0nLoop_goutf8_of_not 3 (b :: s) cur depth prev out ha]
        exact iff_of_true rfl (parted_of_not s depth fun ha' ↦ absurd ha' ha)

end Character

theorem alike_iff (s : Bytes) (cur : Nat) (st : Js0n Go) :
    js0nLoop (lexStep 2) s cur st = js0nLoop (lexStep 3) s cur st ↔ Alike s st.lexer := by
  induction s generalizing cur st with
  | nil => exact iff_of_true rfl trivial
  | cons c s ih =>
      rw [Alike]
      by_cases hwide : st.lexer.go = .gostring ∧ c = 239
      · obtain ⟨go, depth, remain, prev, out⟩ := st
        obtain ⟨hgo, rfl⟩ := hwide
        change go = .gostring at hgo
        subst hgo
        have htwo : lex 2 239 ⟨.gostring, depth, remain⟩ = some ⟨.goutf8, depth, 2⟩ := rfl
        have hthree : lex 3 239 ⟨.gostring, depth, remain⟩ = some ⟨.goutf8, depth, 3⟩ := rfl
        have hmarks : marks 239 ⟨.gostring, depth, remain⟩ = false := Bool.and_false _
        rw [if_pos ⟨rfl, rfl⟩, js0nLoop_of_some htwo, js0nLoop_of_some hthree,
          next_of_not_marks hmarks, next_of_not_marks hmarks]
        exact parted_iff s (cur + 1) depth prev out
      · rw [if_neg hwide]
        have hlex := lex_of_not_wide hwide 3 2
        cases h : lex 2 c st.lexer with
        | none =>
            rw [js0nLoop_of_none h, js0nLoop_of_none (hlex.trans h)]
            exact iff_of_true rfl trivial
        | some q =>
            rw [js0nLoop_of_some h, js0nLoop_of_some (hlex.trans h)]
            have hnext := ih (cur + 1) (st.next c cur q)
            rw [lexer_next] at hnext
            exact hnext

/-- The two versions return the same and write the same offsets. -/
theorem sdbJs0n_eq_switch_iff (s : Bytes) :
    sdbJs0n s = sdbJs0nSwitch s ↔ Alike s ⟨.gostruct, 0, 0⟩ := by
  rw [sdbJs0n, sdbJs0nSwitch, js0nLoop_js0nStep, js0nLoop_switchStep]
  exact alike_iff s 0 ⟨.gostruct, 0, 0, 0, []⟩

/-- `["Ａ"]`: one version reads two elements' ends, and the other one refuses the closing quote. -/
theorem sdbJs0n_ne_switch :
    sdbJs0n [91, 34, 0xef, 0xbc, 0xa1, 34, 93] ≠
      sdbJs0nSwitch [91, 34, 0xef, 0xbc, 0xa1, 34, 93] := by
  decide

end SdbStore.Json
