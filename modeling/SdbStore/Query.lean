import SdbStore.Num

/-!
# Queries

`query.c`: a query is a text of segments, each of which reads or changes the database.  The text
is not split into segments first: a segment finds its own end, and on the way it looks for a `=`
in all of the text that is left.  What is printed is collected until the end, and is lost when a
segment fails.

What the functions of the other files do to a database is not a matter of `query.c`.  They are
the fields of `QueryApi`, over any type of states and of databases.
-/

namespace SdbStore

open Lib

/-- The functions that queries call, on databases of type `ρ` in states of type `σ`. -/
structure QueryApi (σ ρ : Type) where
  sdbConstGet : σ → ρ → Bytes → Option Bytes × σ
  sdbNs : σ → ρ → Bytes → Bool → Option ρ × σ
  /-- `SDB_OPTION_FS`. -/
  optionFs : σ → ρ → Bool
  /-- The lines of a dump with all namespaces, `***`. -/
  walkNamespaces : σ → ρ → Bool → List Bytes × σ
  nsNames : σ → ρ → List Bytes
  sdbForeachList : σ → ρ → List (Bytes × Bytes) × σ
  sdbForeachMatch : σ → ρ → Bytes → List (Bytes × Bytes) × σ
  sdbArrayGetNum : σ → ρ → Bytes → Int → UInt64 × σ
  sdbArrayGet : σ → ρ → Bytes → Int → Option Bytes × σ
  sdbArrayLength : σ → ρ → Bytes → Int × σ
  sdbJsonGet : σ → ρ → Bytes → Bytes → Option Bytes × σ
  sdbType : Option Bytes → Bytes
  sdbJsonIndent : Option Bytes → Option Bytes
  sdbEncode : Bytes → Bytes
  sdbDecode : Bytes → Option Bytes
  sdbSet : σ → ρ → Bytes → Bytes → σ
  sdbSetOwned : σ → ρ → Bytes → Bytes → σ
  sdbUnsetLike : σ → ρ → Bytes → σ
  sdbNumInc : σ → ρ → Bytes → UInt64 → UInt64 × σ
  sdbNumDec : σ → ρ → Bytes → UInt64 → UInt64 × σ
  sdbConcat : σ → ρ → Bytes → Bytes → σ
  sdbUncat : σ → ρ → Bytes → Bytes → σ
  sdbJsonNumInc : σ → ρ → Bytes → Bytes → UInt64 × σ
  sdbJsonNumDec : σ → ρ → Bytes → Bytes → UInt64 × σ
  sdbJsonSet : σ → ρ → Bytes → Bytes → Bytes → σ
  sdbArraySetNum : σ → ρ → Bytes → Int → UInt64 → σ
  sdbArrayPush : σ → ρ → Bytes → Option Bytes → σ
  sdbArrayPop : σ → ρ → Bytes → Option Bytes × σ
  sdbArrayAdd : σ → ρ → Bytes → Option Bytes → σ
  sdbArrayRemove : σ → ρ → Bytes → Option Bytes → σ
  sdbArrayDelete : σ → ρ → Bytes → Int → σ
  sdbArrayInsert : σ → ρ → Bytes → Int → Option Bytes → σ
  sdbArraySet : σ → ρ → Bytes → Int → Option Bytes → σ
  sdbArrayAddSorted : σ → ρ → Bytes → Option Bytes → σ
  sdbArraySort : σ → ρ → Bytes → σ
  sdbArrayAddSortedNum : σ → ρ → Bytes → UInt64 → σ
  sdbArraySortNum : σ → ρ → Bytes → σ
  sdbQueryFile : σ → ρ → Bytes → Bool × σ
deriving Inhabited

/-- `QStatus`. -/
inductive QStatus where
  | next
  | stop
  | err
deriving DecidableEq

/-- What is appended to a `StrBuf`; it has no text before the first time. -/
abbrev StrBuf := Option Bytes

/-- `strbuf_append` with an end of line. -/
def strbufAppend (str : Bytes) : StrBuf := some (str ++ [10])

/-- One append after another. -/
def StrBuf.cat (out out' : StrBuf) : StrBuf :=
  match out' with
  | none => out
  | some text => some (out.getD [] ++ text)

/-- Lines that are appended. -/
def strbufLines (lines : List Bytes) : StrBuf :=
  lines.foldl (fun out line ↦ StrBuf.cat out (strbufAppend line)) none

/-- `q_puts`. -/
def qPuts (s : Option Bytes) : StrBuf :=
  match s with
  | none => none
  | some s => if s = [] then none else strbufAppend s

/-- A `Query`, without its buffer: the functions below return what they append to it.  `eq` is the
text that begins where the `=` was cut, and `json` what is after the `:`; `cut` is `cmd` up to
there, when the two are in one buffer. -/
structure Query (ρ : Type) where
  s : ρ
  encode : Bool
  cmd : Bytes
  p : Bytes
  val : Option Bytes
  eq : Option Bytes
  json : Option Bytes
  cut : Bytes

section Run

variable {σ ρ : Type} (api : QueryApi σ ρ)

/-! ## Kinds of segments -/

/-- `foreach_list_cb` without a root. -/
def foreachListLine (encode : Bool) (kv : Bytes × Bytes) : Bytes :=
  kv.1 ++ 61 :: (if encode then (api.sdbDecode kv.2).getD kv.2 else kv.2)

/-- `q_dump`: `none` when it is no dump. -/
def qDump (q : Query ρ) (st : σ) : Option (StrBuf × σ) :=
  if q.cmd = [42, 42, 42] then
    let r := api.walkNamespaces st q.s q.encode
    some (strbufLines r.1, r.2)
  else if q.cmd = [42, 42] then
    some (strbufLines ((api.nsNames st q.s).filter (· ≠ [])), st)
  else if q.cmd = [42] then
    let r := api.sdbForeachList st q.s
    some (strbufLines (r.1.map (foreachListLine api q.encode)), r.2)
  else none

/-- `q_grep`. -/
def qGrep (q : Query ρ) (st : σ) : StrBuf × σ :=
  match q.cmd.drop 1 with
  | 126 :: expr =>
      let r := api.sdbForeachMatch st q.s expr
      (strbufLines (r.1.map fun kv ↦ kv.1 ++ 61 :: kv.2), r.2)
  | key => (none, api.sdbUnsetLike st q.s key)

/-- `PRId64`. -/
def signedDigits (n : UInt64) : Bytes :=
  if n.toNat < 2 ^ 63 then digits 10 n.toNat else 45 :: digits 10 (2 ^ 64 - n.toNat)

/-- The end of `q_incdec`: a step by one, which is printed. -/
def qStep (q : Query ρ) (st : σ) : StrBuf × σ :=
  let plus : Bool := q.cmd.head? = some 43
  let key := q.cmd.drop 1
  let g := api.sdbConstGet st q.s key
  match q.json with
  | some json =>
      let key := q.cut.drop 1
      let r := if plus then api.sdbJsonNumInc g.2 q.s key json
          else api.sdbJsonNumDec g.2 q.s key json
      (qPuts (some (signedDigits r.1)), r.2)
  | none =>
      let r := if plus then api.sdbNumInc g.2 q.s key 1 else api.sdbNumDec g.2 q.s key 1
      let text := if sdbNumBase g.1 = 16 then 48 :: 120 :: digits 16 r.1.toNat else signedDigits r.1
      (qPuts (some text), r.2)

/-- `q_incdec`. -/
def qIncdec (q : Query ρ) (st : σ) : QStatus × StrBuf × σ :=
  let plus : Bool := q.cmd.head? = some 43
  match q.cmd.drop 1 with
  | 91 :: idx =>
      match idx.dropWhile (· ≠ 93) with
      | [] => (.stop, none, st)
      | _ :: key =>
          let i := toInt (sdbAtoi (some idx))
          let r := api.sdbArrayGetNum st q.s key i
          match q.eq with
          | some eq =>
              let n := sdbAtoi (some eq)
              let curnum := if plus then r.1 + n else r.1 - n
              (.next, none, api.sdbArraySetNum r.2 q.s key i curnum)
          | none =>
              let curnum := if plus then r.1 + 1 else r.1 - 1
              (.next, qPuts (some (sdbItoa curnum 10)), r.2)
  | key =>
      match q.val with
      | some val =>
          if sdbIsnum val then
            let neg : Bool := val.head? = some 45
            let d := ofInt (toInt (sdbAtoi (some (if neg then val.tail else val))))
            if plus ≠ neg then (.next, none, (api.sdbNumInc st q.s key d).2)
            else (.next, none, (api.sdbNumDec st q.s key d).2)
          else if plus then (.next, none, api.sdbConcat st q.s key val)
          else (.next, none, api.sdbUncat st q.s key val)
      | none =>
          let r := qStep api q st
          (.next, r)

/-- `[-n]key=v` of `q_array_pm`: the element is printed and deleted. -/
def qArrayDrop (q : Query ρ) (i : Int) (st : σ) : QStatus × StrBuf × σ :=
  let r := api.sdbArrayGet st q.s q.p i
  match r.1 with
  | none => (.stop, none, r.2)
  | some arr =>
      match if q.encode then api.sdbDecode arr else some arr with
      | none => (.stop, none, r.2)
      | some arr => (.next, qPuts (some arr), api.sdbArrayDelete r.2 q.s q.p i)

/-- The value of a `[..]key=v`. -/
def Query.arrayVal (q : Query ρ) : Option Bytes :=
  if q.encode then q.val.map api.sdbEncode else q.val

/-- `q_array_pm`; `sign` is the first character of the text in the brackets, and `spec` the rest
of it. -/
def qArrayPm (q : Query ρ) (sign : UInt8) (spec : Bytes) (st : σ) : QStatus × StrBuf × σ :=
  if spec.head? = some sign then
    match q.eq with
    | some _ => (.next, none, if sign = 43 then api.sdbArrayPush st q.s q.p q.val else st)
    | none =>
        if sign = 45 then
          let r := api.sdbArrayPop st q.s q.p
          (.next, qPuts r.1, r.2)
        else (.next, none, st)
  else if spec = [] then
    match q.eq with
    | some _ =>
        (.next, none, if sign = 43 then api.sdbArrayAdd st q.s q.p q.val
          else api.sdbArrayRemove st q.s q.p q.val)
    | none =>
        let idx := if sign = 43 then 0 else -1
        let r := api.sdbArrayGet st q.s q.p idx
        (.next, qPuts r.1, api.sdbArrayDelete r.2 q.s q.p idx)
  else
    let i := atoi (sign :: spec)
    match q.eq with
    | some _ =>
        if i < 0 then qArrayDrop api q (-i) st
        else
          (.next, none, if sign = 43 then api.sdbArrayInsert st q.s q.p i (q.arrayVal api)
            else api.sdbArraySet st q.s q.p i (q.arrayVal api))
    | none =>
        if i = 0 then
          (.next, none, if sign = 45 then api.sdbArrayRemove st q.s q.p (some spec) else st)
        else
          let r := api.sdbArrayGet st q.s q.p (if i < 0 then -i else i)
          if r.1.getD [] = [] then (.next, none, r.2)
          else
            (.next, qPuts r.1, if i < 0 then api.sdbArrayDelete r.2 q.s q.p (-i) else r.2)

/-- The end of `q_array`, `[n]key` and `[]key`: elements are printed. -/
def qArrayPrint (q : Query ρ) (spec : Bytes) (st : σ) : QStatus × StrBuf × σ :=
  if spec = [] then
    let r := api.sdbConstGet st q.s q.p
    match r.1 with
    | none => (.stop, none, r.2)
    | some sval =>
        -- a separator at the end stays
        let line := sval.dropLast.map (fun c ↦ if c = 44 then 10 else c) ++
            sval.drop (sval.length - 1)
        (.next, qPuts (some (if q.encode then (api.sdbDecode line).getD line else line)), r.2)
  else
    let r := api.sdbArrayGet st q.s q.p (atoi spec)
    let el := if q.encode then (r.1.bind api.sdbDecode).orElse fun _ ↦ r.1 else r.1
    (.next, qPuts el, r.2)

/-- `q_array`, for `[spec` in `cmd`. -/
def qArray (q : Query ρ) (st : σ) : QStatus × StrBuf × σ :=
  match q.cmd.drop 1 with
  | 63 :: _ =>
      let r := api.sdbArrayLength st q.s q.p
      let text := if r.1 < 0 then 45 :: digits 10 r.1.natAbs else digits 10 r.1.natAbs
      (.next, qPuts (some text), r.2)
  | 33 :: 43 :: _ => (.next, none, api.sdbArrayAddSorted st q.s q.p q.val)
  | 33 :: _ => (.next, none, api.sdbArraySort st q.s q.p)
  | 35 :: 43 :: _ => (.next, none, api.sdbArrayAddSortedNum st q.s q.p (sdbAtoi q.val))
  | 35 :: _ => (.next, none, api.sdbArraySortNum st q.s q.p)
  | 43 :: spec => qArrayPm api q 43 spec st
  | 45 :: spec => qArrayPm api q 45 spec st
  | spec =>
      match q.eq with
      | some _ =>
          if spec ≠ [] then (.next, none, api.sdbArraySet st q.s q.p (atoi spec) (q.arrayVal api))
          else if q.encode then
            (.next, none, api.sdbSetOwned st q.s q.p ((q.arrayVal api).getD []))
          else (.next, none, api.sdbSet st q.s q.p ((q.arrayVal api).getD []))
      | none => qArrayPrint api q spec st

/-- The part of `q_kv` that prints. -/
def qKvGet (q : Query ρ) (st : σ) : QStatus × StrBuf × σ :=
  match q.json with
  | some [] =>
      let r := api.sdbConstGet st q.s q.cut
      (.next, qPuts (api.sdbJsonIndent r.1), r.2)
  | some json =>
      let r := api.sdbJsonGet st q.s q.cut json
      match r.1 with
      | none => (.next, none, r.2)
      | some js =>
          match if q.encode then api.sdbDecode js else some js with
          | none => (.stop, none, r.2)
          | some js => (.next, qPuts (some js), r.2)
  | none =>
      let r := api.sdbConstGet st q.s q.cmd
      (.next, qPuts (if q.encode then r.1.bind api.sdbDecode else r.1), r.2)

/-- `q_kv`.  A `:` in `cmd` is always before the `=`. -/
def qKv (q : Query ρ) (st : σ) : QStatus × StrBuf × σ :=
  match q.eq with
  | some _ =>
      let val := (q.arrayVal api).getD []
      match q.json with
      | some json => (.next, none, api.sdbJsonSet st q.s q.cut json val)
      | none =>
          if q.cmd = [] then (.next, none, st)
          else
            let key := (q.cmd.reverse.dropWhile isSpace).reverse
            (.next, none, api.sdbSet st q.s key (val.dropWhile isSpace))
  | none => qKvGet api q st

/-! ## One segment -/

/-- `strchr`, where the text is cut: what is before the character, and what is after it. -/
def cutAt (c : UInt8) (l : Bytes) : Bytes × Option Bytes :=
  match l.dropWhile (· ≠ c) with
  | [] => (l, none)
  | _ :: rest => (l.takeWhile (· ≠ c), some rest)

/-- What is after the `=`. -/
inductive QValue where
  | absent
  | ref (name : Bytes)
  | text (val : Bytes)
  | unclosed
deriving DecidableEq

/-- A segment, and what is left of the query after its end. -/
structure QText where
  cmd : Bytes
  eq : Option Bytes
  val : QValue
  rest : Option Bytes
deriving DecidableEq

/-- The loop that looks for the closing quote, after what has been read of the value. -/
def unquote (val : Bytes) : Bytes → Option (Bytes × Bytes)
  | [] => none
  | c :: l =>
      if c = 34 then
        if val.getLast? = some 92 then unquote (val.dropLast ++ [34]) l else some (val, l)
      else unquote (val ++ [c]) l

/-- A segment whose `=` comes after `cmd`. -/
def qParseEq (cmd eq : Bytes) : QText :=
  match eq with
  | 36 :: name =>
      let r := cutAt 59 name
      ⟨cmd, some (36 :: r.1), .ref r.1, r.2⟩
  | 34 :: quoted =>
      match unquote [] quoted with
      | none => ⟨cmd, some eq, .unclosed, none⟩
      | some (val, l) => ⟨cmd, some (34 :: val), .text val, (cutAt 59 l).2⟩
  | _ =>
      let r := cutAt 59 eq
      ⟨cmd, some r.1, .text r.1, r.2⟩

/-- The first part of `q_segment`: the `=` is looked for in the whole text. -/
def qParse (cmd : Bytes) : QText :=
  let r := cutAt 61 cmd
  match r.2 with
  | some eq => qParseEq r.1 eq
  | none =>
      let r := cutAt 59 cmd
      ⟨r.1, none, .absent, r.2⟩

/-- The way along the names before the last `/`. -/
def qPath (create : Bool) : List Bytes → ρ → σ → Option ρ × σ
  | [], s, st => (some s, st)
  | name :: names, s, st =>
      let r := api.sdbNs st s name create
      match r.1 with
      | none => (none, r.2)
      | some s => qPath create names s r.2

/-- The last part of `q_segment`. -/
def qRun (q : Query ρ) (st : σ) : QStatus × StrBuf × σ :=
  match q.cmd with
  | 46 :: file =>
      if api.optionFs st q.s then
        let r := api.sdbQueryFile st q.s file
        (if r.1 then .next else .stop, none, r.2)
      else (.next, none, st)
  | 126 :: _ => (.next, qGrep api q st)
  | 43 :: _ => qIncdec api q st
  | 45 :: _ => qIncdec api q st
  | 91 :: _ => qArray api q st
  | _ => qKv api q st

/-- The middle of `q_segment`: the segment `cmd` on the database `s`. -/
def qDispatch (encode : Bool) (eq val : Option Bytes) (s : ρ) (cmd : Bytes) (st : σ) :
    QStatus × StrBuf × σ :=
  let json := (cutAt 58 cmd).2
  let q : Query ρ := ⟨s, encode, cmd, cmd, val, eq, json, (cutAt 58 cmd).1⟩
  match cmd with
  | 63 :: key =>
      let r := api.sdbConstGet st s key
      let t := qRun api q r.2
      (t.1, StrBuf.cat (qPuts (some (api.sdbType r.1))) t.2.1, t.2.2)
  | 42 :: _ =>
      match qDump api q st with
      | some r => (.stop, r)
      | none => qRun api q st
  | 91 :: _ =>
      match cutAt 93 cmd with
      | (_, none) => (.stop, none, st)
      | (spec, some key) => qRun api { q with cmd := spec, p := key } st
  | 36 :: key =>
      let r := api.sdbConstGet st s key
      let cmd := r.1.getD []
      qRun api { q with cmd := cmd, p := cmd, cut := cmd } r.2
  | _ => qRun api q st

/-- The namespaces of a segment, and the segment in the last of them. -/
def qWalk (encode : Bool) (eq val : Option Bytes) (r : ρ) (cmd : Bytes) (st : σ) :
    QStatus × StrBuf × σ :=
  let parts := cmd.splitOn 47
  let t := qPath api eq.isSome parts.dropLast r st
  match t.1 with
  | none => (.err, none, t.2)
  | some s => qDispatch api encode eq val s (parts.getLastD []) t.2

/-- A segment that has been cut out. -/
def qExec (encode : Bool) (t : QText) (r : ρ) (st : σ) : QStatus × StrBuf × σ :=
  match t.val with
  | .absent => qWalk api encode t.eq none r t.cmd st
  | .text val => qWalk api encode t.eq (some val) r t.cmd st
  | .unclosed => (.err, none, st)
  | .ref name =>
      let g := api.sdbConstGet st r name
      match g.1 with
      | none => (.stop, none, g.2)
      | some val => qWalk api encode t.eq (some val) r t.cmd g.2

/-- `0x%08x` and an end of line. -/
def hashLine (text : Bytes) : Bytes :=
  let d := digits 16 (sdbHash (CStr.ofBytes text))
  48 :: 120 :: (List.replicate (8 - d.length) 48 ++ d ++ [10])

/-- `q_segment`: its status, what is left of the query, what has been printed, and the state. -/
def qSegment (r : ρ) (cmd : Bytes) (st : σ) :
    (QStatus × StrBuf × σ) × Option Bytes :=
  match cmd.dropWhile fun c ↦ c = 32 ∨ c = 9 with
  | 35 :: text =>
      let t := cutAt 59 text
      ((.next, strbufAppend (hashLine t.1), st), t.2)
  | 37 :: cmd =>
      let t := qParse cmd
      (qExec api true t r st, t.rest)
  | cmd =>
      let t := qParse cmd
      (qExec api false t r st, t.rest)

end Run

/-! ## Where a segment ends -/

theorem cutAt_of_notMem {c : UInt8} {l : Bytes} (h : c ∉ l) : cutAt c l = (l, none) := by
  have hdrop : l.dropWhile (· ≠ c) = [] := by
    rw [List.dropWhile_eq_nil_iff]
    intro x hx
    simpa using fun heq : x = c ↦ h (heq ▸ hx)
  rw [cutAt, hdrop]

theorem cutAt_append {c : UInt8} {l : Bytes} (h : c ∉ l) (m : Bytes) :
    cutAt c (l ++ c :: m) = (l, some m) := by
  have hall : ∀ x ∈ l, decide (x ≠ c) = true := by
    intro x hx
    simpa using fun heq : x = c ↦ h (heq ▸ hx)
  rw [cutAt, List.dropWhile_append_of_pos hall, List.takeWhile_append_of_pos hall,
    List.dropWhile_cons_of_neg (by simp), List.takeWhile_cons_of_neg (by simp), List.append_nil]

/-- A character that occurs cuts the text at its first place. -/
theorem cutAt_of_mem {c : UInt8} {l : Bytes} (h : c ∈ l) :
    ∃ pre post, l = pre ++ c :: post ∧ c ∉ pre ∧ cutAt c l = (pre, some post) := by
  obtain ⟨pre, post, hl, hpre⟩ := List.eq_append_cons_of_mem h
  exact ⟨pre, post, hl, hpre, by rw [hl, cutAt_append hpre]⟩

theorem length_cutAt {c : UInt8} {l m : Bytes} (h : (cutAt c l).2 = some m) :
    m.length < l.length := by
  by_cases hc : c ∈ l
  · obtain ⟨pre, post, hl, -, hcut⟩ := cutAt_of_mem hc
    rw [hcut] at h
    obtain rfl := Option.some.inj h
    rw [hl, List.length_append, List.length_cons]
    omega
  · rw [cutAt_of_notMem hc] at h
    cases h

theorem length_unquote {val l v m : Bytes} (h : unquote val l = some (v, m)) :
    m.length < l.length := by
  induction l generalizing val with
  | nil => cases h
  | cons c l ih =>
      rw [unquote] at h
      split at h
      · split at h
        · exact (ih h).trans (Nat.lt_succ_self _)
        · obtain ⟨-, rfl⟩ := Prod.mk.inj (Option.some.inj h)
          exact Nat.lt_succ_self _
      · exact (ih h).trans (Nat.lt_succ_self _)

theorem length_qParseEq {cmd eq m : Bytes} (h : (qParseEq cmd eq).rest = some m) :
    m.length < eq.length := by
  unfold qParseEq at h
  split at h
  · exact (length_cutAt h).trans (Nat.lt_succ_self _)
  · split at h
    · cases h
    · next hun =>
        have hlt := length_unquote hun
        have hcut := length_cutAt h
        rw [List.length_cons]
        omega
  · exact length_cutAt h

theorem length_qParse {cmd m : Bytes} (h : (qParse cmd).rest = some m) : m.length < cmd.length := by
  unfold qParse at h
  dsimp only at h
  split at h
  · next heq => exact (length_qParseEq h).trans (length_cutAt heq)
  · exact length_cutAt h

section Querys

variable {σ ρ : Type} (api : QueryApi σ ρ)

/-- What is left is shorter. -/
theorem length_qSegment {r : ρ} {cmd m : Bytes} {st : σ} (h : (qSegment api r cmd st).2 = some m) :
    m.length < cmd.length := by
  have hle : (cmd.dropWhile fun c ↦ c = 32 ∨ c = 9).length ≤ cmd.length :=
    (List.dropWhile_sublist _).length_le
  unfold qSegment at h
  split at h
  · next heq =>
      rw [heq, List.length_cons] at hle
      have hlt := length_cutAt h
      omega
  · next heq =>
      rw [heq, List.length_cons] at hle
      have hlt := length_qParse h
      omega
  · exact (length_qParse h).trans_le hle

/-- The loop of `sdb_querys`. -/
def querysLoop (r : ρ) (cmd : Bytes) (st : σ) : QStatus × StrBuf × σ :=
  let t := (qSegment api r cmd st).1
  match t.1, _h : (qSegment api r cmd st).2 with
  | .next, some rest =>
      let t' := querysLoop r rest t.2.2
      (t'.1, StrBuf.cat t.2.1 t'.2.1, t'.2.2)
  | _, _ => t
termination_by cmd.length
decreasing_by exact length_qSegment api _h

/-- `sdb_querys`. -/
def sdbQuerys (r : ρ) (cmd : CStr) (st : σ) : StrBuf × σ :=
  let t := querysLoop api r cmd.val st
  (if t.1 = .err then none else t.2.1, t.2.2)

end Querys

end SdbStore
