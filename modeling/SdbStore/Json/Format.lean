import SdbStore.Num

/-!
# Writing JSON by a format

`sdb_json_format` appends to a buffer that grows.  Each directive reserves some room before it
writes.  `Option` is `none` where the code would write past the buffer or read past the format.

Allocations succeed.  The text of a `double` is the one that `%f` of `snprintf` makes.
-/

namespace SdbStore.Json

open Lib

/-! ## The code -/

/-- `SdbJsonString`: the buffer, as far as there is one, with its size and the length of the
text. -/
structure JsonString where
  buf : Bool
  data : Nat → UInt8
  blen : Nat
  len : Nat

/-- An argument. -/
inductive FormatArg
  | int (n : BitVec 32)
  | ut64 (v : UInt64)
  | double (text : CStr)
  | str (s : CStr)

namespace JsonString

/-- `JSONSTR_ALLOCATE`. -/
def allocate (s : JsonString) (y : Nat) : JsonString :=
  if s.len + y > s.blen then
    { s with blen := if s.len + y > s.blen * 2 then s.len + y else s.blen * 2 }
  else s

/-- `s->buf[s->len++] = c`. -/
def put (s : JsonString) (c : UInt8) : Option JsonString :=
  if s.len < s.blen then some { s with data := Function.update s.data s.len c, len := s.len + 1 }
  else none

/-- `s->buf[s->len] = 0`. -/
def terminate (s : JsonString) : Option JsonString :=
  if s.len < s.blen then some { s with data := Function.update s.data s.len 0 } else none

/-- `memcpy` to the end of the text, which grows by `n`. -/
def memcpy (s : JsonString) (l : Bytes) (n : Nat) : Option JsonString :=
  if s.len + l.length ≤ s.blen then
    some { s with
      data := fun i ↦ if s.len ≤ i ∧ i < s.len + l.length then l.getD (i - s.len) 0 else s.data i
      len := s.len + n }
  else none

end JsonString

/-- The characters of a string, with a backslash in front of each quote. -/
def quoted (s : CStr) : Bytes := s.val.flatMap fun c ↦ if c = 34 then [92, c] else [c]

/-- What `snprintf` writes into `tmp` for a number in base 16. -/
def hexText (v : UInt64) : Bytes := 48 :: 120 :: digits 16 v.toNat

/-- What `snprintf` writes into `tmp` for an `int`. -/
def intText (n : Int) : Bytes := if n < 0 then 45 :: digits 10 n.natAbs else digits 10 n.natAbs

/-- What the `switch` of `sdb_json_format` does for a character behind a `%`. -/
def formatDirective (d : UInt8) (args : List FormatArg) (s : JsonString) :
    Option (List FormatArg × JsonString) :=
  if d = 98 then
    match args with
    | .int n :: args =>
        let n := if n ≠ 0 then 4 else 5
        ((s.allocate 32).memcpy
          (if n = 4 then [116, 114, 117, 101, 0] else [102, 97, 108, 115, 101]) n).map
          (args, ·)
    | _ => none
  else if d = 102 then
    match args with
    | .double text :: args =>
        let tmp := text.val.take 127
        ((s.allocate 32).memcpy tmp tmp.length).map (args, ·)
    | _ => none
  else if d = 108 then
    match args with
    | .ut64 v :: args => ((s.allocate 32).memcpy (hexText v) (hexText v).length).map (args, ·)
    | _ => none
  else if d = 100 ∨ d = 105 then
    match args with
    | .int n :: args =>
        ((s.allocate 32).memcpy (intText n.toInt) (intText n.toInt).length).map (args, ·)
    | _ => none
  else if d = 115 then
    match args with
    | .str str :: args =>
        ((34 :: (quoted str ++ [34])).foldlM JsonString.put (s.allocate (str.length * 2 + 3))).map
        (args, ·)
    | _ => none
  else some (args, s)

/-- The loop of `sdb_json_format`. -/
def formatLoop : Bytes → List FormatArg → JsonString → Option JsonString
  | [], _, s => some s
  | c :: fmt, args, s =>
      if c = 37 then
        match fmt with
        -- the NUL is taken for a directive, and the loop goes on behind it
        | [] => none
        | d :: fmt =>
            (formatDirective d args s).bind fun r ↦ r.2.terminate.bind (formatLoop fmt r.1)
      else ((s.allocate 10).put c).bind fun s ↦ s.terminate.bind (formatLoop fmt args)

/-- The buffer is there from the first call on. -/
def JsonString.ready (s : JsonString) : JsonString :=
  if s.buf then s else { s with buf := true, data := Function.update s.data 0 0, blen := 1024 }

/-- `sdb_json_format`. -/
def sdbJsonFormat (s : JsonString) (fmt : CStr) (args : List FormatArg) : Option JsonString :=
  formatLoop fmt.val args s.ready

/-! ## What is asked of a call -/

/-- The arguments have the type that the directive takes. -/
def ArgFits (d : UInt8) (args : List FormatArg) : Prop :=
  if d = 98 ∨ d = 100 ∨ d = 105 then ∃ n rest, args = .int n :: rest
  else if d = 102 then ∃ text rest, args = .double text :: rest
  else if d = 108 then ∃ v rest, args = .ut64 v :: rest
  else if d = 115 then ∃ str rest, args = .str str :: rest
  else True

/-- The arguments that are left. -/
def argsLeft (d : UInt8) (args : List FormatArg) : List FormatArg :=
  if d = 98 ∨ d = 100 ∨ d = 105 ∨ d = 102 ∨ d = 108 ∨ d = 115 then args.tail else args

/-- The arguments match the format. -/
def Matches : Bytes → List FormatArg → Prop
  | [], _ => True
  | c :: fmt, args =>
      if c = 37 then
        match fmt with
        | [] => True
        | d :: fmt => ArgFits d args ∧ Matches fmt (argsLeft d args)
      else Matches fmt args

/-- Where the loop is. -/
structure FormatAt where
  fmt : Bytes
  args : List FormatArg
  str : JsonString

/-- One turn of the loop. -/
def formatTurn (p : FormatAt) : Option FormatAt :=
  match p.fmt with
  | [] => some p
  | c :: fmt =>
      if c = 37 then
        match fmt with
        | [] => none
        | d :: fmt =>
            (formatDirective d p.args p.str).bind fun r ↦ r.2.terminate.map fun s ↦ ⟨fmt, r.1, s⟩
      else ((p.str.allocate 10).put c).bind fun s ↦ s.terminate.map fun s ↦ ⟨fmt, p.args, s⟩

/-- Where the loop is after some turns. -/
def formatAfter : Nat → FormatAt → Option FormatAt
  | 0, p => some p
  | n + 1, p => (formatTurn p).bind (formatAfter n)

/-- The `%` of a turn has a directive, and a `double` fits with a NUL into what is there after 32
bytes have been reserved. -/
def TurnFits (p : FormatAt) : Prop :=
  p.fmt ≠ [37] ∧ ∀ fmt text args, p.fmt = 37 :: 102 :: fmt → p.args = .double text :: args →
    p.str.len + min 127 text.length < (p.str.allocate 32).blen

/-- There is a buffer, and the text in it has a NUL behind it. -/
structure Terminated (s : JsonString) : Prop where
  buf : s.buf = true
  lt : s.len < s.blen
  nul : s.data s.len = 0

/-- There is room for a NUL. -/
structure Room (s : JsonString) : Prop where
  buf : s.buf = true
  lt : s.len < s.blen

/-- All turns of a call fit. -/
def CallFits (s : JsonString) (c : CStr × List FormatArg) : Prop :=
  ∀ n p, formatAfter n ⟨c.1.val, c.2, s.ready⟩ = some p → TurnFits p

/-- A `SdbJsonString` without a buffer, of zeroes. -/
def JsonString.empty : JsonString := ⟨false, fun _ ↦ 0, 0, 0⟩

/-- The string after some calls. -/
def stringAfter (calls : List (CStr × List FormatArg)) : Nat → Option JsonString
  | 0 => some .empty
  | n + 1 => (stringAfter calls n).bind fun s ↦
      (calls[n]?).elim (some s) fun c ↦ sdbJsonFormat s c.1 c.2

/-! ## A turn -/

section Turn

variable (s : JsonString)

@[simp] theorem len_allocate (y : Nat) : (s.allocate y).len = s.len := by
  rw [JsonString.allocate]
  split
  · rfl
  · rfl

@[simp] theorem buf_allocate (y : Nat) : (s.allocate y).buf = s.buf := by
  rw [JsonString.allocate]
  split
  · rfl
  · rfl

/-- There is as much room as has been reserved. -/
theorem le_blen_allocate (y : Nat) : s.len + y ≤ (s.allocate y).blen := by
  rw [JsonString.allocate]
  split
  · dsimp only
    split
    · exact Nat.le_refl _
    · next h => exact Nat.le_of_not_lt h
  · next h => exact Nat.le_of_not_lt h

variable {s} {c : UInt8}

theorem Room.terminate (h : Room s) : ∃ s', s.terminate = some s' ∧ Terminated s' :=
  ⟨_, if_pos h.lt, h.buf, h.lt, Function.update_self _ _ _⟩

theorem put_of_lt (h : s.len < s.blen) :
    ∃ s', s.put c = some s' ∧ s'.len = s.len + 1 ∧ s'.blen = s.blen ∧ s'.buf = s.buf :=
  ⟨_, if_pos h, rfl, rfl, rfl⟩

/-- Characters that fit are written. -/
theorem foldlM_put {l : Bytes} (h : s.len + l.length ≤ s.blen) :
    ∃ s', l.foldlM JsonString.put s = some s' ∧ s'.len = s.len + l.length ∧ s'.blen = s.blen ∧
      s'.buf = s.buf := by
  induction l generalizing s with
  | nil => exact ⟨s, rfl, rfl, rfl, rfl⟩
  | cons c l ih =>
      rw [List.length_cons] at h
      obtain ⟨s', hs', hlen, hblen, hbuf⟩ := put_of_lt (s := s) (c := c) (by omega)
      obtain ⟨s'', hs'', hlen', hblen', hbuf'⟩ := ih (s := s') (by omega)
      refine ⟨s'', ?_, by rw [hlen', List.length_cons]; omega, hblen'.trans hblen, hbuf'.trans hbuf⟩
      rw [List.foldlM_cons, hs']
      exact hs''

/-- A copy into the room that has been reserved, with some left for a NUL. -/
theorem memcpy_of_lt {l : Bytes} {n y : Nat} (hbuf : s.buf = true)
    (hl : s.len + l.length ≤ (s.allocate y).blen) (hn : s.len + n < (s.allocate y).blen) :
    ∃ s', (s.allocate y).memcpy l n = some s' ∧ Room s' := by
  refine ⟨_, if_pos (by rw [len_allocate]; exact hl), ?_, ?_⟩
  · exact (buf_allocate s y).trans hbuf
  · dsimp only
    rw [len_allocate]
    exact hn

theorem length_quoted_le (str : CStr) : (quoted str).length ≤ str.length * 2 := by
  have hflat : ∀ l : Bytes, (l.flatMap fun c ↦ if c = 34 then [92, c] else [c]).length ≤
      l.length * 2 := by
    intro l
    induction l with
    | nil => exact Nat.le_refl 0
    | cons c l ih =>
        rw [List.flatMap_cons, List.length_append, List.length_cons]
        split
        · rw [List.length_cons, List.length_singleton]
          omega
        · rw [List.length_singleton]
          omega
  exact hflat str.val

theorem length_digits_le {base n k : Nat} (hb : 1 < base) (hk : 0 < k) (hn : n < base ^ k) :
    (digits base n).length ≤ k := by
  rw [digits, List.length_map]
  exact (Nat.length_toDigits_le_iff hb hk).mpr hn

theorem length_hexText_lt (v : UInt64) : (hexText v).length < 32 := by
  have hdigits : (digits 16 v.toNat).length ≤ 16 :=
    length_digits_le (by decide) (by decide) (Nat.lt_of_lt_of_le v.toNat_lt (by decide))
  rw [hexText, List.length_cons, List.length_cons]
  omega

theorem length_intText_lt (n : BitVec 32) : (intText n.toInt).length < 32 := by
  have hdigits : (digits 10 n.toInt.natAbs).length ≤ 10 := by
    refine length_digits_le (by decide) (by decide) ?_
    have hlt := BitVec.two_mul_toInt_lt (x := n)
    have hle := BitVec.le_two_mul_toInt (x := n)
    omega
  rw [intText]
  split
  · rw [List.length_cons]
    omega
  · omega

/-- Text that is no longer than what is left of 32 bytes fits. -/
theorem reserved_of_lt {tmp : Bytes} (hs : Room s)
    (hfit : s.len + tmp.length < (s.allocate 32).blen) (rest : List FormatArg) :
    ∃ s', ((s.allocate 32).memcpy tmp tmp.length).map (rest, ·) = some (rest, s') ∧ Room s' := by
  obtain ⟨s', hs', hroom⟩ := memcpy_of_lt hs.buf (Nat.le_of_lt hfit) hfit
  exact ⟨s', by rw [hs', Option.map_some], hroom⟩

theorem reserved_of_short {tmp : Bytes} (hs : Room s) (h : tmp.length < 32)
    (rest : List FormatArg) :
    ∃ s', ((s.allocate 32).memcpy tmp tmp.length).map (rest, ·) = some (rest, s') ∧ Room s' := by
  refine reserved_of_lt hs ?_ rest
  have hle := le_blen_allocate s 32
  omega

/-- **A directive** that fits is written, and leaves room for a NUL. -/
theorem formatDirective_of_fits {d : UInt8} {args : List FormatArg} (hargs : ArgFits d args)
    (hs : Room s)
    (hfit : ∀ text rest, d = 102 → args = .double text :: rest →
      s.len + min 127 text.length < (s.allocate 32).blen) :
    ∃ s', formatDirective d args s = some (argsLeft d args, s') ∧ Room s' := by
  by_cases hb : d = 98
  · subst hb
    obtain ⟨n, rest, rfl⟩ := hargs
    have hle := le_blen_allocate s 32
    have hcopy : ∀ l : Bytes, ∀ k, l.length = 5 → k ≤ 5 → ∃ s',
        ((s.allocate 32).memcpy l k).map (rest, ·) = some (rest, s') ∧ Room s' := by
      intro l k hl hk
      obtain ⟨s', hs', hroom⟩ :=
        memcpy_of_lt (y := 32) (l := l) (n := k) hs.buf (by omega) (by omega)
      exact ⟨s', by rw [hs', Option.map_some], hroom⟩
    refine hcopy _ (if n ≠ 0 then 4 else 5) ?_ ?_
    · split
      · rfl
      · rfl
    · split
      · decide
      · decide
  · by_cases hf : d = 102
    · subst hf
      obtain ⟨text, rest, rfl⟩ := hargs
      refine reserved_of_lt hs ?_ rest
      rw [List.length_take]
      exact hfit text rest rfl rfl
    · by_cases hl : d = 108
      · subst hl
        obtain ⟨v, rest, rfl⟩ := hargs
        exact reserved_of_short hs (length_hexText_lt v) rest
      · by_cases hd : d = 100 ∨ d = 105
        · have hint : ∃ n rest, args = .int n :: rest := by
            rcases hd with rfl | rfl
            · exact hargs
            · exact hargs
          obtain ⟨n, rest, rfl⟩ := hint
          have hshort := reserved_of_short hs (length_intText_lt n) rest
          rcases hd with rfl | rfl
          · exact hshort
          · exact hshort
        · by_cases hstr : d = 115
          · subst hstr
            obtain ⟨str, rest, rfl⟩ := hargs
            have hle := le_blen_allocate s (str.length * 2 + 3)
            have hquoted := length_quoted_le str
            have hlen : (34 :: (quoted str ++ [34])).length = (quoted str).length + 2 := by
              rw [List.length_cons, List.length_append]
              rfl
            obtain ⟨s', hs', hlen', hblen', hbuf'⟩ :=
              foldlM_put (s := s.allocate (str.length * 2 + 3))
              (l := 34 :: (quoted str ++ [34])) (by rw [len_allocate]; omega)
            rw [len_allocate] at hlen'
            rw [buf_allocate] at hbuf'
            refine ⟨s', ?_, hbuf'.trans hs.buf, by omega⟩
            change ((34 :: (quoted str ++ [34])).foldlM JsonString.put _).map _ = _
            rw [hs']
            rfl
          · refine ⟨s, ?_, hs⟩
            obtain ⟨hd', hi⟩ := not_or.mp hd
            have hleft : argsLeft d args = args := by simp [argsLeft, hb, hf, hl, hd', hi, hstr]
            unfold formatDirective
            rw [if_neg hb, if_neg hf, if_neg hl, if_neg hd, if_neg hstr, hleft]

/-- **A turn** that fits. -/
theorem formatTurn_of_fits {p : FormatAt} (hm : Matches p.fmt p.args) (ht : Terminated p.str)
    (hfit : TurnFits p) :
    ∃ p', formatTurn p = some p' ∧ Matches p'.fmt p'.args ∧ Terminated p'.str ∧
      p'.fmt.length ≤ p.fmt.length - 1 := by
  obtain ⟨fmt, args, s⟩ := p
  cases fmt with
  | nil => exact ⟨_, rfl, hm, ht, Nat.le_refl 0⟩
  | cons c fmt =>
      rw [formatTurn]
      dsimp only at hm ht ⊢
      rw [Matches.eq_def] at hm
      dsimp only at hm
      by_cases hc : c = 37
      · subst hc
        rw [if_pos rfl] at hm ⊢
        cases fmt with
        | nil => exact absurd rfl hfit.1
        | cons d fmt =>
            obtain ⟨s', hs', hroom⟩ := formatDirective_of_fits hm.1 ⟨ht.buf, ht.lt⟩
              fun text rest hd hargs ↦ hfit.2 fmt text rest (by rw [hd]) hargs
            obtain ⟨s'', hs'', hterm⟩ := hroom.terminate
            refine ⟨⟨fmt, argsLeft d args, s''⟩, ?_, hm.2, hterm, ?_⟩
            · dsimp only
              rw [hs', Option.bind_some, hs'', Option.map_some]
            · exact Nat.le_succ _
      · rw [if_neg hc] at hm ⊢
        have hle := le_blen_allocate s 10
        obtain ⟨s₁, hput, hlen, hblen, hbuf⟩ := put_of_lt (s := s.allocate 10) (c := c)
          (by rw [len_allocate]; omega)
        rw [len_allocate] at hlen
        rw [buf_allocate] at hbuf
        have hroom : Room s₁ := ⟨hbuf.trans ht.buf, by omega⟩
        obtain ⟨s', hs', hterm⟩ := hroom.terminate
        refine ⟨⟨fmt, args, s'⟩, ?_, hm, hterm, Nat.le_refl _⟩
        rw [hput, Option.bind_some, hs', Option.map_some]

/-- A turn that does not fit leaves the buffer or the format. -/
theorem formatTurn_eq_none {p : FormatAt} (hfit : ¬ TurnFits p) : formatTurn p = none := by
  obtain ⟨fmt, args, s⟩ := p
  rcases not_and_or.mp hfit with hfit | hfit
  · obtain rfl := not_not.mp hfit
    rfl
  · push Not at hfit
    obtain ⟨fmt', text, rest, hfmt, hargs, hle⟩ := hfit
    dsimp only at hfmt hargs hle
    subst hfmt hargs
    change (((s.allocate 32).memcpy (text.val.take 127) (text.val.take 127).length).map
        (rest, ·)).bind _ = _
    rw [JsonString.memcpy]
    split
    · have hno : ¬ (s.allocate 32).len + (text.val.take 127).length < (s.allocate 32).blen := by
        rw [List.length_take, len_allocate]
        exact Nat.not_lt_of_le hle
      rw [Option.map_some, Option.bind_some, JsonString.terminate, if_neg hno]
      rfl
    · rfl

end Turn

/-! ## Calls -/

theorem formatLoop_cons (c : UInt8) (fmt : Bytes) (args : List FormatArg) (s : JsonString) :
    formatLoop (c :: fmt) args s =
      (formatTurn ⟨c :: fmt, args, s⟩).bind fun p ↦ formatLoop p.fmt p.args p.str := by
  rw [formatLoop.eq_def, formatTurn]
  dsimp only
  split
  · cases fmt with
    | nil => rfl
    | cons d fmt =>
        dsimp only
        cases formatDirective d args s with
        | none => rfl
        | some r =>
            rw [Option.bind_some, Option.bind_some]
            cases r.2.terminate with
            | none => rfl
            | some s => rfl
  · cases (s.allocate 10).put c with
    | none => rfl
    | some s =>
        rw [Option.bind_some, Option.bind_some]
        cases s.terminate with
        | none => rfl
        | some s => rfl

theorem formatLoop_turn {p p' : FormatAt} (h : formatTurn p = some p') :
    formatLoop p.fmt p.args p.str = formatLoop p'.fmt p'.args p'.str := by
  obtain ⟨fmt, args, s⟩ := p
  cases fmt with
  | nil =>
      cases h
      rfl
  | cons c fmt =>
      rw [formatLoop_cons, show formatTurn ⟨c :: fmt, args, s⟩ = some p' from h]
      rfl

theorem turnFits_nil (args : List FormatArg) (s : JsonString) : TurnFits ⟨[], args, s⟩ :=
  ⟨(List.cons_ne_nil _ _).symm, fun _ _ _ h ↦ absurd h.symm (List.cons_ne_nil _ _)⟩

theorem formatAfter_nil (n : Nat) (args : List FormatArg) (s : JsonString) :
    formatAfter n ⟨[], args, s⟩ = some ⟨[], args, s⟩ := by
  induction n with
  | zero => rfl
  | succ n ih => exact ih

/-- **The loop** gets to the end of the format exactly if all its turns fit, and leaves a text with
a NUL behind it. -/
theorem formatLoop_iff {p : FormatAt} (hm : Matches p.fmt p.args) (ht : Terminated p.str) :
    ((∃ s, formatLoop p.fmt p.args p.str = some s) ↔ ∀ n p', formatAfter n p = some p' →
      TurnFits p') ∧ ∀ s, formatLoop p.fmt p.args p.str = some s → Terminated s := by
  obtain ⟨k, hk⟩ : ∃ k, p.fmt.length ≤ k := ⟨_, Nat.le_refl _⟩
  induction k generalizing p with
  | zero =>
      obtain ⟨fmt, args, s⟩ := p
      obtain rfl := List.length_eq_zero_iff.mp (Nat.le_zero.mp hk)
      refine ⟨iff_of_true ⟨s, rfl⟩ fun n p' hp' ↦ ?_, fun s' hs' ↦ ?_⟩
      · obtain rfl := Option.some.inj ((formatAfter_nil n args s).symm.trans hp')
        exact turnFits_nil args s
      · cases hs'
        exact ht
  | succ k ih =>
      by_cases hfit : TurnFits p
      · obtain ⟨p', hturn, hm', ht', hlen⟩ := formatTurn_of_fits hm ht hfit
        obtain ⟨hiff, hterm⟩ := ih hm' ht' (by omega)
        rw [formatLoop_turn hturn, hiff]
        refine ⟨⟨fun h n q hq ↦ ?_, fun h n q hq ↦ h (n + 1) q ?_⟩, hterm⟩
        · cases n with
          | zero =>
              cases hq
              exact hfit
          | succ n =>
              rw [formatAfter, hturn] at hq
              exact h n q hq
        · rw [formatAfter, hturn]
          exact hq
      · have hnone : ∀ s, formatLoop p.fmt p.args p.str ≠ some s := by
          intro s hs
          obtain ⟨fmt, args, str⟩ := p
          cases fmt with
          | nil => exact hfit (turnFits_nil args str)
          | cons c fmt =>
              rw [formatLoop_cons, formatTurn_eq_none hfit] at hs
              cases hs
        exact ⟨iff_of_false (fun ⟨s, hs⟩ ↦ hnone s hs) fun h ↦ hfit (h 0 p rfl),
          fun s hs ↦ absurd hs (hnone s)⟩

/-- A string before a call: there is no buffer yet, or the text in it has a NUL behind it. -/
def Ready (s : JsonString) : Prop := s.buf = false ∧ s.len = 0 ∨ Terminated s

theorem Ready.terminated {s : JsonString} (h : Ready s) : Terminated s.ready := by
  rw [JsonString.ready]
  rcases h with ⟨hbuf, hlen⟩ | h
  · rw [if_neg (by rw [hbuf]; decide)]
    refine ⟨rfl, ?_, ?_⟩
    · dsimp only
      omega
    · dsimp only
      rw [hlen]
      exact Function.update_self _ _ _
  · rw [if_pos h.buf]
    exact h

/-- **A call** stays in bounds exactly if all its turns fit. -/
theorem sdbJsonFormat_iff {s : JsonString} (hs : Ready s) {c : CStr × List FormatArg}
    (hc : Matches c.1.val c.2) :
    ((∃ s', sdbJsonFormat s c.1 c.2 = some s') ↔ CallFits s c) ∧
      ∀ s', sdbJsonFormat s c.1 c.2 = some s' → Terminated s' :=
  formatLoop_iff (p := ⟨c.1.val, c.2, s.ready⟩) hc hs.terminated

theorem stringAfter_succ {calls : List (CStr × List FormatArg)} {n : Nat}
    {c : CStr × List FormatArg} {s : JsonString} (hc : calls[n]? = some c)
    (hs : stringAfter calls n = some s) :
    stringAfter calls (n + 1) = sdbJsonFormat s c.1 c.2 := by
  rw [stringAfter, hs, hc]
  rfl

section Run

variable {calls : List (CStr × List FormatArg)} (hcalls : ∀ c ∈ calls, Matches c.1.val c.2)
include hcalls

theorem ready_stringAfter {n : Nat} {s : JsonString} (hs : stringAfter calls n = some s) :
    Ready s := by
  induction n generalizing s with
  | zero =>
      cases hs
      exact .inl ⟨rfl, rfl⟩
  | succ n ih =>
      obtain ⟨s', hs', hcall⟩ := Option.bind_eq_some_iff.mp hs
      cases hc : calls[n]? with
      | none =>
          rw [hc] at hcall
          cases hcall
          exact ih hs'
      | some c =>
          rw [hc] at hcall
          exact .inr ((sdbJsonFormat_iff (ih hs') (hcalls c (List.mem_of_getElem? hc))).2 s hcall)

end Run

/-! ## Formats that fit -/

/-- The format does not end in a `%` that starts a directive. -/
def Complete : Bytes → Prop
  | [] => True
  | c :: fmt =>
      if c = 37 then
        match fmt with
        | [] => False
        | _ :: fmt => Complete fmt
      else Complete fmt

theorem formatDirective_subset {d : UInt8} {args args' : List FormatArg} {s s' : JsonString}
    (h : formatDirective d args s = some (args', s')) : args' ⊆ args := by
  have hmap : ∀ {o : Option JsonString} {a : FormatArg} {rest : List FormatArg},
      o.map (rest, ·) = some (args', s') → args' ⊆ a :: rest := by
    intro o a rest h
    obtain ⟨s, -, h⟩ := Option.map_eq_some_iff.mp h
    cases h
    exact List.subset_cons_self _ _
  unfold formatDirective at h
  repeat' split at h
  all_goals first | exact hmap h | cases h
  exact List.Subset.refl _

theorem formatTurn_complete {p p' : FormatAt} (h : formatTurn p = some p') (hc : Complete p.fmt) :
    Complete p'.fmt ∧ p'.args ⊆ p.args := by
  obtain ⟨fmt, args, s⟩ := p
  cases fmt with
  | nil =>
      cases h
      exact ⟨hc, List.Subset.refl _⟩
  | cons c fmt =>
      rw [formatTurn] at h
      rw [Complete.eq_def] at hc
      dsimp only at h hc
      split at h
      · next h37 =>
          rw [if_pos h37] at hc
          cases fmt with
          | nil => cases h
          | cons d fmt =>
              obtain ⟨r, hr, h⟩ := Option.bind_eq_some_iff.mp h
              obtain ⟨s', -, rfl⟩ := Option.map_eq_some_iff.mp h
              exact ⟨hc, formatDirective_subset hr⟩
      · next h37 =>
          rw [if_neg h37] at hc
          obtain ⟨s', -, h⟩ := Option.bind_eq_some_iff.mp h
          obtain ⟨s'', -, rfl⟩ := Option.map_eq_some_iff.mp h
          exact ⟨hc, List.Subset.refl _⟩

/-- **A call fits** whose format is complete and whose renderings have at most 31 characters. -/
theorem callFits_of_short {s : JsonString} {c : CStr × List FormatArg} (hc : Complete c.1.val)
    (hshort : ∀ text, FormatArg.double text ∈ c.2 → text.length < 32) : CallFits s c := by
  have hrun : ∀ n p p', Complete p.fmt →
      (∀ text, FormatArg.double text ∈ p.args → text.length < 32) → formatAfter n p = some p' →
        TurnFits p' := by
    intro n
    induction n with
    | zero =>
        intro p p' hp hargs h
        cases h
        refine ⟨fun h37 ↦ ?_, fun fmt text args _ h ↦ ?_⟩
        · rw [h37, Complete.eq_def] at hp
          exact hp
        · have hlt := hargs text (by rw [h]; exact List.mem_cons_self)
          have hle := le_blen_allocate p.str 32
          omega
    | succ n ih =>
        intro p p' hp hargs h
        obtain ⟨q, hq, h⟩ := Option.bind_eq_some_iff.mp h
        obtain ⟨hcomplete, hsub⟩ := formatTurn_complete hq hp
        exact ih q p' hcomplete (fun text ht ↦ hargs text (hsub ht)) h
  exact fun n p ↦ hrun n _ p hc hshort

end SdbStore.Json
