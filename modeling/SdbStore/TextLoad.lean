import SdbStore.Lib.Escape
import SdbStore.Ns

/-!
# Loading a text

`sdb_text_load_buf` reads a text in place: what a token is unescaped to is written over the
token, and the strings that are handed on are pointers into the buffer.  The grammar of the
format knows nothing of this: `textGrammar` splits the text into lines and the lines into
tokens.  The two do the same to the databases.

In between stands `Reading`, what has been read of a line so far.  `Reads` says how the
buffer holds it: the tokens that are finished, each with its terminator, then what has been
read of the current token, then bytes that are not needed any more, one for each backslash,
and then the part of the text that is still to come, which has not been touched.
-/

namespace SdbStore

open Lib

/-! ## What is done to the databases -/

/-- The databases, the world, and `cur_db`. -/
structure TextState where
  heap : Heap
  world : World
  cur : Ref

/-- The loop of `load_process_line` over the names of a path: empty names are skipped, and if
a namespace cannot be made the current one is the root. -/
def loadPath (root : Ref) : Heap → Ref → List CStr → Ref × Heap
  | h, cur, [] => (cur, h)
  | h, cur, name :: names =>
      if name = CStr.empty then loadPath root h cur names
      else
        match sdbNs h cur name true with
        | (none, h) => (root, h)
        | (some r, h) => loadPath root h r names

/-- `sdb_set` on a database of the heap. -/
def heapSet (h : Heap) (w : World) (s : Ref) (key val : CStr) (cas : Nat) : Heap × World :=
  match h[s]? with
  | none => (h, w)
  | some node =>
      let r := (sdbSet node.sdb w key val cas).2
      (h.set s { node with sdb := r.1 }, r.2)

/-- A call is made. -/
def TextCall.run (root : Ref) (st : TextState) : TextCall → TextState
  | .path names =>
      let r := loadPath root st.heap root names
      { st with heap := r.2, cur := r.1 }
  | .set key val =>
      let r := heapSet st.heap st.world st.cur key val 0
      { st with heap := r.1, world := r.2 }

/-- The calls are made one after another, beginning in the root. -/
def runTextCalls (h : Heap) (w : World) (root : Ref) (calls : List TextCall) : TextState :=
  calls.foldl (TextCall.run root) ⟨h, w, root⟩

/-- `sdb_text_load_buf`, into a database of the heap. -/
def sdbTextLoadInto (junk : UInt8) (h : Heap) (w : World) (root : Ref) (buf : Bytes) : TextState :=
  runTextCalls h w root (loadCalls junk buf)

/-! ## The grammar -/

/-- The end of a line. -/
def lineEnd (c : UInt8) : Bool := c = 10 || c = 13

/-- The string of a token. -/
def tokenStr (token : Bytes) : CStr := CStr.ofBytes (unescape 92 unescapeRawChar token)

/-- What a line asks for.  A line that begins with `/` is a path; any other is a pair if it
has a `=` that is not escaped, and neither side is empty. -/
def lineCall : Bytes → Option TextCall
  | 47 :: line => some (.path ((splitEsc 92 47 line).map tokenStr))
  | line =>
      (cutEsc 92 61 line).bind fun kv ↦
        if tokenStr kv.1 = CStr.empty ∨ tokenStr kv.2 = CStr.empty then none
        else some (.set (tokenStr kv.1) (tokenStr kv.2))

/-- **The grammar of the format**: what a text asks for. -/
def textGrammar (buf : Bytes) : List TextCall := (buf.splitOnP lineEnd).filterMap lineCall

/-! ## Reading a line -/

/-- What has been read of a line. -/
inductive Reading where
  | newline
  | path (done : List Bytes) (token : Token UInt8)
  | key (token : Token UInt8)
  | value (key : Bytes) (token : Token UInt8)

/-- One more byte of a token. -/
abbrev nextByte (token : Token UInt8) (c : UInt8) : Token UInt8 := token.next 92 unescapeRawChar c

/-- One more byte of a key. -/
def Reading.keyStep (token : Token UInt8) (c : UInt8) : Reading :=
  if token.ends 61 c then .value token.read ⟨[], false⟩ else .key (nextByte token c)

/-- One more byte of a line. -/
def Reading.step : Reading → UInt8 → Reading
  | .newline, c => if c = 47 then .path [] ⟨[], false⟩ else keyStep ⟨[], false⟩ c
  | .path done token, c =>
      if token.ends 47 c then .path (done ++ [token.read]) ⟨[], false⟩
      else .path done (nextByte token c)
  | .key token, c => keyStep token c
  | .value k token, c => .value k (nextByte token c)

/-- What is asked for at the end of the line. -/
def Reading.call : Reading → Option TextCall
  | .newline => none
  | .path done token => some (.path ((done ++ [token.read]).map CStr.ofBytes))
  | .key _ => none
  | .value k token =>
      if CStr.ofBytes k = CStr.empty ∨ CStr.ofBytes token.read = CStr.empty then none
      else some (.set (CStr.ofBytes k) (CStr.ofBytes token.read))

theorem ends_esc (x : Bytes) (sep c : UInt8) : ¬ Token.ends ⟨x, true⟩ sep c :=
  fun h ↦ nomatch h.1

/-- A path is read up to the end of its line. -/
theorem call_foldl_path (done : List Bytes) (x l : Bytes) :
    (l.foldl Reading.step (.path done ⟨x, false⟩)).call =
      some (.path ((done ++ ((splitEsc 92 47 l).map (unescape 92 unescapeRawChar)).modifyHead
        fun y ↦ x ++ y).map CStr.ofBytes)) := by
  induction l using splitEsc.induct (92 : UInt8) 47 generalizing done x with
  | case1 => simp [Reading.call]
  | case2 =>
      rw [splitEsc_esc, List.foldl_cons, Reading.step, if_neg (by simp [Token.ends]),
        nextByte, Token.next_self]
      simp [Reading.call]
  | case3 b l ih =>
      rw [splitEsc_esc_cons, List.foldl_cons, Reading.step, if_neg (by simp [Token.ends]), nextByte,
        Token.next_self, List.foldl_cons, Reading.step, if_neg (ends_esc x 47 b), nextByte,
        Token.next_esc, ih]
      cases splitEsc 92 47 l with
      | nil => rfl
      | cons y ys => simp
  | case4 l hne ih =>
      rw [splitEsc_cons _ (by decide), if_pos rfl, List.foldl_cons, Reading.step,
        if_pos ⟨rfl, rfl⟩, ih]
      cases splitEsc 92 47 l with
      | nil => simp
      | cons y ys => simp
  | case5 a l hne hsep ih =>
      rw [splitEsc_cons _ hne, if_neg hsep, List.foldl_cons, Reading.step,
        if_neg (by simp [Token.ends, hsep]), nextByte, Token.next_of_ne hne, ih]
      cases splitEsc 92 47 l with
      | nil => rfl
      | cons y ys => simp [unescape_cons _ _ hne]

/-- A value is read up to the end of its line. -/
theorem call_foldl_value (k x l : Bytes) :
    (l.foldl Reading.step (.value k ⟨x, false⟩)).call =
      Reading.call (.value k ⟨x ++ unescape 92 unescapeRawChar l, false⟩) := by
  have hfold : ∀ token : Token UInt8,
      l.foldl Reading.step (.value k token) = .value k (l.foldl nextByte token) := by
    induction l with
    | nil => exact fun _ ↦ rfl
    | cons c l ih => exact fun token ↦ ih (nextByte token c)
  rw [hfold, Reading.call, Reading.call, Token.foldl_next]

/-- A pair is read up to the end of its line. -/
theorem call_foldl_key (x l : Bytes) :
    (l.foldl Reading.step (.key ⟨x, false⟩)).call =
      (cutEsc 92 61 l).bind fun kv ↦
        Reading.call (.value (x ++ unescape 92 unescapeRawChar kv.1)
          ⟨unescape 92 unescapeRawChar kv.2, false⟩) := by
  induction l using cutEsc.induct (92 : UInt8) 61 generalizing x with
  | case1 => rw [cutEsc_nil]; rfl
  | case2 => rw [cutEsc_esc]; rfl
  | case3 b l ih =>
      rw [cutEsc_esc_cons, List.foldl_cons, Reading.step, Reading.keyStep,
        if_neg (by simp [Token.ends]), nextByte, Token.next_self, List.foldl_cons, Reading.step,
        Reading.keyStep, if_neg (ends_esc x 61 b), nextByte, Token.next_esc, ih]
      cases cutEsc 92 61 l with
      | none => rfl
      | some kv => simp
  | case4 l hne =>
      rw [cutEsc_cons _ (by decide), if_pos rfl, List.foldl_cons, Reading.step, Reading.keyStep,
        if_pos ⟨rfl, rfl⟩, call_foldl_value]
      simp
  | case5 a l hne hsep ih =>
      rw [cutEsc_cons _ hne, if_neg hsep, List.foldl_cons, Reading.step, Reading.keyStep,
        if_neg (by simp [Token.ends, hsep]), nextByte, Token.next_of_ne hne, ih]
      cases cutEsc 92 61 l with
      | none => rfl
      | some kv => simp [unescape_cons _ _ hne]

/-- **Reading a line** byte by byte gives what the grammar says. -/
theorem call_foldl (line : Bytes) : (line.foldl Reading.step .newline).call = lineCall line := by
  unfold lineCall
  split
  · next line =>
      rw [List.foldl_cons, Reading.step, if_pos rfl, call_foldl_path]
      cases splitEsc 92 47 line with
      | nil => rfl
      | cons y ys => simp [tokenStr]
  · next hne =>
      have hkey : (line.foldl Reading.step .newline).call =
          (line.foldl Reading.step (.key ⟨[], false⟩)).call := by
        cases line with
        | nil => rfl
        | cons c line =>
            rw [List.foldl_cons, List.foldl_cons, Reading.step, if_neg, Reading.step]
            rintro rfl
            exact hne line rfl
      rw [hkey, call_foldl_key]
      rfl

/-! ## Reading a text -/

/-- What has been read of a text: the calls that its lines ask for, what has been read of the
last line, and where the token begins that is being read. -/
structure Scan where
  calls : List TextCall
  reading : Reading
  start : Nat
  pos : Nat

/-- Before the first byte. -/
def Scan.init : Scan := ⟨[], .newline, 0, 0⟩

/-- The byte is a separator, so that a token begins behind it. -/
def Reading.ends : Reading → UInt8 → Bool
  | .newline, c => c = 47 ∨ c = 61
  | .path _ token, c => token.ends 47 c
  | .key token, c => token.ends 61 c
  | .value _ _, _ => false

/-- One more byte of a text. -/
def Scan.step (t : Scan) (c : UInt8) : Scan :=
  if lineEnd c then ⟨t.calls ++ t.reading.call.toList, .newline, t.pos + 1, t.pos + 1⟩
  else ⟨t.calls, t.reading.step c, if t.reading.ends c then t.pos + 1 else t.start, t.pos + 1⟩

/-- The text has been read. -/
def scanText (buf : Bytes) : Scan := buf.foldl Scan.step .init

/-- The calls that have been asked for when the text is at its end. -/
def Scan.allCalls (t : Scan) : List TextCall := t.calls ++ t.reading.call.toList

/-- The rest of a text: the line that is being read goes up to the first line end. -/
def restCalls (reading : Reading) : List Bytes → List TextCall
  | [] => []
  | line :: lines => (line.foldl Reading.step reading).call.toList ++ lines.filterMap lineCall

theorem allCalls_foldl (buf : Bytes) (t : Scan) :
    (buf.foldl Scan.step t).allCalls = t.calls ++ restCalls t.reading (buf.splitOnP lineEnd) := by
  induction buf generalizing t with
  | nil => simp [Scan.allCalls, restCalls]
  | cons c buf ih =>
      rw [List.foldl_cons, ih, List.splitOnP_cons_eq_if_modifyHead, Scan.step]
      obtain ⟨line, lines, hlines⟩ : ∃ line lines, buf.splitOnP lineEnd = line :: lines :=
        List.exists_cons_of_ne_nil (List.splitOnP_ne_nil lineEnd buf)
      rw [hlines]
      split
      · -- the next line is read from its start
        rw [restCalls, restCalls, call_foldl, List.filterMap_cons, List.foldl_nil]
        cases lineCall line with
        | none => simp
        | some call => simp
      · rw [List.modifyHead_cons, restCalls, restCalls, List.foldl_cons]

/-- **Reading a text** byte by byte gives what the grammar says. -/
theorem allCalls_scanText (buf : Bytes) : (scanText buf).allCalls = textGrammar buf := by
  rw [scanText, allCalls_foldl, textGrammar]
  obtain ⟨line, lines, hlines⟩ : ∃ line lines, buf.splitOnP lineEnd = line :: lines :=
    List.exists_cons_of_ne_nil (List.splitOnP_ne_nil lineEnd buf)
  rw [hlines, Scan.init, restCalls, call_foldl, List.nil_append, List.filterMap_cons]
  cases lineCall line with
  | none => rfl
  | some call => rfl

/-! ## The buffer -/

/-- What has been read of the current token. -/
def Reading.token : Reading → Token UInt8
  | .newline => ⟨[], false⟩
  | .path _ token => token
  | .key token => token
  | .value _ token => token

/-- The state of the loader. -/
def Reading.state : Reading → LoadState
  | .newline => .newline
  | .path _ _ => .path
  | .key _ => .key
  | .value _ _ => .value

/-- The bytes hold a token at an offset, with its terminator. -/
def TokenAt (pre : Bytes) (off : Nat) (x : Bytes) : Prop :=
  0 ∉ x ∧ ∃ r, pre.drop off = x ++ 0 :: r

/-- The buffer holds the bytes `pre`, then what has been read of a token, then bytes that are
not needed any more, and then `rest`, which is still to be read. -/
structure Held (ctx : LoadCtx) (pre : Bytes) (token : Token UInt8) (rest : Bytes) : Prop where
  noNul : 0 ∉ token.read
  unescape : ctx.unescape = token.esc
  buf : ∃ junk, ctx.shift = junk.length ∧ ctx.pos = pre.length + token.read.length + junk.length ∧
    ctx.buf = pre ++ token.read ++ (junk ++ rest)

/-- The offsets of the tokens of the line. -/
def Begins (ctx : LoadCtx) (pre : Bytes) : Reading → Prop
  | .newline => ctx.shift = 0 ∧ ctx.path = []
  | .path done _ => ctx.tokenBegin = pre.length ∧ List.Forall₂ (TokenAt pre) ctx.path done
  | .key _ => ctx.lineBegin = pre.length ∧ ctx.path = []
  | .value k _ => ctx.tokenBegin = pre.length ∧ TokenAt pre ctx.lineBegin k ∧ ctx.path = []

/-- The loader has read this much of a line. -/
structure Reads (ctx : LoadCtx) (reading : Reading) (pre rest : Bytes) : Prop where
  held : Held ctx pre reading.token rest
  state : ctx.state = reading.state
  begins : Begins ctx pre reading
  line : reading.state ≠ .newline → ctx.lineBegin ≤ pre.length ∧ ctx.lineBegin < ctx.pos ∧
    ∀ off ∈ ctx.path, ctx.lineBegin ≤ off

theorem TokenAt.append {pre x : Bytes} {off : Nat} (h : TokenAt pre off x) (l : Bytes) :
    TokenAt (pre ++ l) off x := by
  obtain ⟨hx, r, hr⟩ := h
  have hoff : off ≤ pre.length := by
    by_contra hlt
    rw [List.drop_eq_nil_of_le (by omega)] at hr
    simp at hr
  exact ⟨hx, r ++ l, by rw [List.drop_append_of_le_length hoff, hr]; simp⟩

/-- The string at the offset of a token. -/
theorem TokenAt.strAt {pre x : Bytes} {off : Nat} (h : TokenAt pre off x) {ctx : LoadCtx}
    {l : Bytes} (hbuf : ctx.buf = pre ++ l) : ctx.strAt off = CStr.ofBytes x := by
  obtain ⟨hx, r, hr⟩ := h.append l
  rw [LoadCtx.strAt, hbuf, hr, CStr.ofBytes_append_zero hx]

section Held

variable {ctx : LoadCtx} {pre rest : Bytes} {token : Token UInt8} {c : UInt8}

/-- The byte that is read next. -/
theorem Held.char (h : Held ctx pre token (c :: rest)) : ctx.buf.getD ctx.pos 0 = c := by
  obtain ⟨junk, -, hpos, hbuf⟩ := h.buf
  have hlen : (pre ++ token.read ++ junk).length = ctx.pos := by
    rw [hpos, List.length_append, List.length_append]
  rw [hbuf, ← List.append_assoc, List.getD_append_right _ _ _ _ (by omega), hlen, Nat.sub_self]
  rfl

/-- What is written goes behind what has been read of the token. -/
theorem Held.write (h : Held ctx pre token (c :: rest)) (y : UInt8) :
    ∃ junk', junk'.length = ctx.shift ∧
      ctx.buf.set (ctx.pos - ctx.shift) y = pre ++ token.read ++ y :: (junk' ++ rest) := by
  obtain ⟨junk, hshift, hpos, hbuf⟩ := h.buf
  refine ⟨(junk ++ [c]).tail, by simp [hshift], ?_⟩
  have hidx : ctx.pos - ctx.shift = (pre ++ token.read).length := by
    rw [hpos, hshift, List.length_append]
    omega
  have htail : junk ++ c :: rest =
      (junk ++ [c]).head (by simp) :: ((junk ++ [c]).tail ++ rest) := by
    rw [← List.cons_append, List.cons_head_tail]
    simp
  rw [hbuf, hidx, htail, List.set_append_right _ _ (Nat.le_refl _), Nat.sub_self,
    List.set_cons_zero]

/-- Where it is written. -/
theorem Held.index (h : Held ctx pre token rest) :
    pre.length ≤ ctx.pos - ctx.shift ∧ ctx.pos - ctx.shift ≤ ctx.pos := by
  obtain ⟨junk, hshift, hpos, -⟩ := h.buf
  omega

/-- The current token, once its terminator is written. -/
theorem Held.tokenAt (h : Held ctx pre token rest) :
    TokenAt (pre ++ token.read ++ [0]) pre.length token.read := by
  refine ⟨h.noNul, [], ?_⟩
  rw [List.append_assoc, List.drop_left]

/-- A separator: the token gets its terminator, and the next one begins behind it. -/
theorem Held.sep (h : Held ctx pre token (c :: rest)) :
    ∃ pre', pre'.length = ctx.pos + 1 ∧ TokenAt pre' pre.length token.read ∧
      (∀ off x, TokenAt pre off x → TokenAt pre' off x) ∧
    ∀ ctx' : LoadCtx, ctx'.buf = ctx.buf.set (ctx.pos - ctx.shift) 0 → ctx'.pos = ctx.pos + 1 →
      ctx'.shift = 0 → ctx'.unescape = false → Held ctx' pre' ⟨[], false⟩ rest := by
  obtain ⟨junk, hjunk, hbuf⟩ := h.write 0
  obtain ⟨junk', hshift, hpos, -⟩ := h.buf
  have hlen : (pre ++ token.read ++ 0 :: junk).length = ctx.pos + 1 := by
    simp only [List.length_append, List.length_cons]
    omega
  refine ⟨pre ++ token.read ++ 0 :: junk, hlen, ?_, fun off x hx ↦ ?_, fun ctx' h₁ h₂ h₃ h₄ ↦ ?_⟩
  · have htoken := h.tokenAt.append junk
    rwa [List.append_assoc _ [0], List.singleton_append] at htoken
  · rw [List.append_assoc]
    exact hx.append _
  · refine ⟨by simp, h₄, [], h₃, ?_, ?_⟩
    · rw [h₂, hlen]
      rfl
    · rw [h₁, hbuf]
      simp

end Held

section Steps

variable {ctx : LoadCtx} {pre rest : Bytes} {reading : Reading} {c : UInt8}

/-- The strings of a path. -/
theorem strAt_path {offs : List Nat} {done : List Bytes} (h : List.Forall₂ (TokenAt pre) offs done)
    {l : Bytes} (hbuf : ctx.buf = pre ++ l) : offs.map ctx.strAt = done.map CStr.ofBytes := by
  induction h with
  | nil => rfl
  | cons hx _ ih => rw [List.map_cons, List.map_cons, hx.strAt hbuf, ih]

/-- The context once the terminator is written. -/
def LoadCtx.terminated (ctx : LoadCtx) : LoadCtx :=
  { ctx with unescape := false, buf := ctx.buf.set (ctx.pos - ctx.shift) 0 }

/-- The calls that `load_process_line` makes. -/
def LoadCtx.lineCalls (ctx : LoadCtx) : List TextCall :=
  match ctx.state with
  | .path => [.path ((ctx.path ++ [ctx.tokenBegin]).map ctx.terminated.strAt)]
  | .value =>
      let k := ctx.terminated.strAt ctx.lineBegin
      let v := ctx.terminated.strAt ctx.tokenBegin
      if k = CStr.empty ∨ v = CStr.empty then [] else [.set k v]
  | _ => []

theorem loadProcessLine_eq (ctx : LoadCtx) :
    loadProcessLine ctx = { ctx.terminated with
      shift := 0
      state := .newline
      path := if ctx.state = .path then [] else ctx.path
      calls := ctx.calls ++ ctx.lineCalls } := by
  unfold loadProcessLine LoadCtx.lineCalls LoadCtx.terminated
  cases ctx.state with
  | path => rfl
  | value =>
      dsimp only
      split
      · simp
      · simp
  | newline => simp
  | key => simp

/-- The calls that the line asks for are made. -/
theorem Reads.lineCalls (h : Reads ctx reading pre (c :: rest)) :
    ctx.lineCalls = reading.call.toList := by
  obtain ⟨junk, -, hbuf⟩ := h.held.write 0
  have hstate := h.state
  have hbegins := h.begins
  have hpre : ctx.terminated.buf = pre ++ (reading.token.read ++ 0 :: (junk ++ rest)) :=
    hbuf.trans (List.append_assoc _ _ _)
  have hlast : ctx.terminated.strAt pre.length = CStr.ofBytes reading.token.read := by
    apply h.held.tokenAt.strAt (l := junk ++ rest)
    rw [hpre]
    simp
  unfold LoadCtx.lineCalls
  rw [hstate]
  cases reading with
  | newline => rfl
  | path done token =>
      obtain ⟨htoken, hpath⟩ := hbegins
      dsimp only [Reading.state, Reading.call]
      rw [List.map_append, List.map_append, strAt_path hpath hpre, List.map_singleton,
        List.map_singleton, htoken, hlast]
      rfl
  | key token => rfl
  | value k token =>
      obtain ⟨htoken, hkey, -⟩ := hbegins
      have hval : ctx.terminated.strAt pre.length = CStr.ofBytes token.read := hlast
      dsimp only [Reading.state, Reading.call]
      rw [hkey.strAt hpre, htoken, hval]
      by_cases hempty : CStr.ofBytes k = CStr.empty ∨ CStr.ofBytes token.read = CStr.empty
      · rw [if_pos hempty, if_pos hempty]
        rfl
      · rw [if_neg hempty, if_neg hempty]
        rfl

/-- **The end of a line**: the calls that it asks for are made, and the next line begins behind
its last byte. -/
theorem Reads.endLine (h : Reads ctx reading pre (c :: rest)) :
    ∃ pre', pre'.length = ctx.pos + 1 ∧
      (loadProcessLine ctx).calls = ctx.calls ++ reading.call.toList ∧
      Reads { loadProcessLine ctx with pos := ctx.pos + 1 } .newline pre' rest := by
  obtain ⟨pre', hlen, -, -, hheld⟩ := h.held.sep
  have hpath : (if ctx.state = .path then [] else ctx.path) = [] := by
    have hbegins := h.begins
    rw [h.state]
    cases reading with
    | newline => exact hbegins.2
    | path => rfl
    | key => exact hbegins.2
    | value => exact hbegins.2.2
  rw [loadProcessLine_eq, h.lineCalls, hpath]
  exact ⟨pre', hlen, rfl, hheld _ rfl rfl rfl rfl, rfl, ⟨rfl, rfl⟩, fun hne ↦ absurd rfl hne⟩

/-- The part of `load_process_single_char` for a byte of a token or behind it. -/
def loadTokenChar (ctx : LoadCtx) (c : UInt8) : LoadCtx :=
  let ctx :=
    if ctx.unescape then
      { ctx with
        buf := ctx.buf.set (ctx.pos - ctx.shift) (unescapeRawChar c), unescape := false }
    else if c = 92 then { ctx with shift := ctx.shift + 1, unescape := true }
    else if ctx.state = .path ∧ c = 47 then
      { ctx with
        buf := ctx.buf.set (ctx.pos - ctx.shift) 0
        path := ctx.path ++ [ctx.tokenBegin], tokenBegin := ctx.pos + 1, shift := 0 }
    else if ctx.state = .key ∧ c = 61 then
      { ctx with
        buf := ctx.buf.set (ctx.pos - ctx.shift) 0
        tokenBegin := ctx.pos + 1, shift := 0, state := .value }
    else if ctx.shift ≠ 0 then { ctx with buf := ctx.buf.set (ctx.pos - ctx.shift) c }
    else ctx
  { ctx with pos := ctx.pos + 1 }

theorem loadProcessSingleChar_line (hc : ctx.buf.getD ctx.pos 0 = c) (hend : lineEnd c = true) :
    loadProcessSingleChar ctx = { loadProcessLine ctx with pos := ctx.pos + 1 } := by
  have hor : c = 10 ∨ c = 13 := by simpa [lineEnd] using hend
  rw [loadProcessSingleChar, hc]
  dsimp only
  rw [if_pos hor, loadProcessLine_eq]
  rfl

theorem loadProcessSingleChar_slash (hc : ctx.buf.getD ctx.pos 0 = c) (hend : lineEnd c = false)
    (hstate : ctx.state = .newline) (hslash : c = 47) :
    loadProcessSingleChar ctx = { ctx with
      lineBegin := ctx.pos, state := .path, tokenBegin := ctx.pos + 1, pos := ctx.pos + 1 } := by
  have hor : ¬ (c = 10 ∨ c = 13) := by simpa [lineEnd] using hend
  rw [loadProcessSingleChar, hc]
  dsimp only
  rw [if_neg hor, if_pos ⟨hstate, hslash⟩]

theorem loadProcessSingleChar_key (hc : ctx.buf.getD ctx.pos 0 = c) (hend : lineEnd c = false)
    (hstate : ctx.state = .newline) (hslash : c ≠ 47) :
    loadProcessSingleChar ctx =
      loadTokenChar { ctx with lineBegin := ctx.pos, state := .key } c := by
  have hor : ¬ (c = 10 ∨ c = 13) := by simpa [lineEnd] using hend
  rw [loadProcessSingleChar, hc]
  dsimp only
  rw [if_neg hor, if_neg fun h ↦ hslash h.2, if_pos hstate]
  rfl

theorem loadProcessSingleChar_token (hc : ctx.buf.getD ctx.pos 0 = c) (hend : lineEnd c = false)
    (hstate : ctx.state ≠ .newline) : loadProcessSingleChar ctx = loadTokenChar ctx c := by
  have hor : ¬ (c = 10 ∨ c = 13) := by simpa [lineEnd] using hend
  rw [loadProcessSingleChar, hc]
  dsimp only
  rw [if_neg hor, if_neg fun h ↦ hstate h.1, if_neg hstate]
  rfl

theorem unescapeRawChar_ne_zero (hc : c ≠ 0) : unescapeRawChar c ≠ 0 := by
  unfold unescapeRawChar
  split
  · decide
  · split
    · decide
    · split
      · decide
      · split
        · decide
        · exact hc

section Token

variable {token : Token UInt8} (h : Held ctx pre token (c :: rest))
include h

/-- A byte is written behind what has been read of the token. -/
theorem Held.set {y : UInt8} (hy : y ≠ 0) {u : Bool} (hu : u = false) : Held { ctx with
    buf := ctx.buf.set (ctx.pos - ctx.shift) y
    unescape := u
    pos := ctx.pos + 1 } pre ⟨token.read ++ [y], false⟩ rest := by
  obtain ⟨junk, hjunk, hbuf⟩ := h.write y
  obtain ⟨junk', hshift, hpos, -⟩ := h.buf
  refine ⟨?_, hu, junk, hjunk.symm, ?_, ?_⟩
  · rw [List.mem_append, List.mem_singleton]
    rintro (h0 | h0)
    · exact h.noNul h0
    · exact hy h0.symm
  · dsimp only
    rw [List.length_append, List.length_singleton]
    omega
  · dsimp only
    rw [hbuf]
    simp

/-- A byte of a token that does not end it. -/
theorem Held.next (hc : c ≠ 0) (hpath : ¬ (ctx.state = .path ∧ token.ends 47 c))
    (hkey : ¬ (ctx.state = .key ∧ token.ends 61 c)) :
    ∃ buf shift unescape, loadTokenChar ctx c =
        { ctx with buf := buf, shift := shift, unescape := unescape, pos := ctx.pos + 1 } ∧
      Held (loadTokenChar ctx c) pre (nextByte token c) rest := by
  obtain ⟨junk, hshift, hpos, hbuf⟩ := h.buf
  unfold loadTokenChar nextByte Token.next
  have hun := h.unescape
  by_cases hesc : token.esc = true
  · rw [if_pos hesc, if_pos (hun.trans hesc)]
    exact ⟨_, _, _, rfl, h.set (unescapeRawChar_ne_zero hc) rfl⟩
  · rw [if_neg hesc, if_neg (by rw [hun]; exact hesc)]
    have hfalse : token.esc = false := by simpa using hesc
    by_cases hback : c = 92
    · rw [if_pos hback, if_pos hback]
      refine ⟨_, _, _, rfl, h.noNul, rfl, junk ++ [c], ?_, ?_, ?_⟩
      · simp [hshift]
      · simp [hpos]
        omega
      · simp [hbuf]
    · rw [if_neg hback, if_neg hback, if_neg fun hp ↦ hpath ⟨hp.1, hfalse, hp.2⟩,
        if_neg fun hk ↦ hkey ⟨hk.1, hfalse, hk.2⟩]
      by_cases hzero : ctx.shift ≠ 0
      · rw [if_pos hzero]
        exact ⟨_, _, _, rfl, h.set hc (hun.trans hfalse)⟩
      · -- nothing has been escaped so far, and the byte stays where it is
        rw [if_neg hzero]
        have hnil : junk = [] := List.eq_nil_of_length_eq_zero (by omega)
        subst hnil
        refine ⟨_, _, _, rfl, ?_, hun.trans hfalse, [], hshift, ?_, ?_⟩
        · rw [List.mem_append, List.mem_singleton]
          rintro (h0 | h0)
          · exact h.noNul h0
          · exact hc h0.symm
        · simp [hpos]
          omega
        · simp [hbuf]

end Token

theorem loadTokenChar_path (hstate : ctx.state = .path) (hun : ctx.unescape = false) :
    loadTokenChar ctx 47 = { ctx with
      buf := ctx.buf.set (ctx.pos - ctx.shift) 0
      path := ctx.path ++ [ctx.tokenBegin]
      tokenBegin := ctx.pos + 1
      shift := 0
      pos := ctx.pos + 1 } := by
  unfold loadTokenChar
  rw [if_neg (by rw [hun]; decide), if_neg (by decide), if_pos ⟨hstate, rfl⟩]

theorem loadTokenChar_key (hstate : ctx.state = .key) (hun : ctx.unescape = false) :
    loadTokenChar ctx 61 = { ctx with
      buf := ctx.buf.set (ctx.pos - ctx.shift) 0
      tokenBegin := ctx.pos + 1
      shift := 0
      state := .value
      pos := ctx.pos + 1 } := by
  unfold loadTokenChar
  rw [if_neg (by rw [hun]; decide), if_neg (by decide), if_neg fun h ↦ absurd h.2 (by decide),
    if_pos ⟨hstate, rfl⟩]

/-- What one byte of a line does. -/
structure Stepped (ctx ctx' : LoadCtx) (reading : Reading) (start : Nat) (rest : Bytes) : Prop where
  calls : ctx'.calls = ctx.calls
  pos : ctx'.pos = ctx.pos + 1
  reads : ∃ pre, pre.length = start ∧ Reads ctx' reading pre rest

/-- One byte of a key. -/
theorem Held.keyStep {token : Token UInt8} (h : Held ctx pre token (c :: rest)) (hc : c ≠ 0)
    (hstate : ctx.state = .key) (hbegin : ctx.lineBegin = pre.length) (hpath : ctx.path = []) :
    Stepped ctx (loadTokenChar ctx c) (Reading.keyStep token c)
      (if token.ends 61 c then ctx.pos + 1 else pre.length) rest := by
  have hle : ctx.lineBegin ≤ ctx.pos := by
    obtain ⟨junk, -, hpos, -⟩ := h.buf
    omega
  have hoff : ∀ off ∈ ctx.path, ctx.lineBegin ≤ off := by
    rw [hpath]
    exact fun off hoff ↦ nomatch hoff
  rw [Reading.keyStep]
  by_cases hends : token.ends 61 c
  · obtain ⟨hesc, rfl⟩ := hends
    have hun := h.unescape.trans hesc
    obtain ⟨pre', hlen, htoken, -, hheld⟩ := h.sep
    rw [if_pos ⟨hesc, rfl⟩, if_pos ⟨hesc, rfl⟩, loadTokenChar_key hstate hun]
    rw [← hbegin] at htoken
    exact ⟨rfl, rfl, pre', hlen, hheld _ rfl rfl rfl hun, rfl, ⟨hlen.symm, htoken, hpath⟩,
      fun _ ↦ ⟨hlen.symm ▸ Nat.le_succ_of_le hle, Nat.lt_succ_of_le hle, hoff⟩⟩
  · rw [if_neg hends, if_neg hends]
    obtain ⟨buf, shift, un, heq, hheld⟩ :=
      h.next hc (fun hp ↦ by rw [hstate] at hp; exact nomatch hp.1) fun hk ↦ hends hk.2
    rw [heq] at hheld ⊢
    exact ⟨rfl, rfl, pre, rfl, hheld, hstate, ⟨hbegin, hpath⟩,
      fun _ ↦ ⟨hbegin.le, Nat.lt_succ_of_le hle, hoff⟩⟩

/-- The first byte of a line. -/
theorem Reads.step_newline (h : Reads ctx .newline pre (c :: rest)) (hc : c ≠ 0)
    (hend : lineEnd c = false) :
    Stepped ctx (loadProcessSingleChar ctx) (Reading.newline.step c)
      (if Reading.newline.ends c then ctx.pos + 1 else pre.length) rest := by
  have hchar := h.held.char
  have hstate := h.state
  obtain ⟨hshift, hpath⟩ := h.begins
  obtain ⟨junk, hjunk, hpos, hbuf⟩ := h.held.buf
  obtain rfl : junk = [] := List.eq_nil_of_length_eq_zero (hjunk.symm.trans hshift)
  have hpos' : ctx.pos = pre.length := hpos
  by_cases hslash : c = 47
  · subst hslash
    rw [loadProcessSingleChar_slash hchar hend hstate rfl, Reading.step, if_pos rfl]
    have hlen : (pre ++ [47]).length = ctx.pos + 1 := by
      rw [List.length_append, hpos']
      rfl
    refine ⟨rfl, rfl, pre ++ [47], hlen, ⟨List.not_mem_nil, h.held.unescape, [], hshift, ?_, ?_⟩,
      rfl, ⟨hlen.symm, ?_⟩, fun _ ↦ ⟨?_, Nat.lt_succ_self _, ?_⟩⟩
    · rw [hlen]
      rfl
    · rw [hbuf]
      simp [Reading.token]
    · rw [hpath]
      exact .nil
    · rw [hlen]
      exact Nat.le_succ _
    · rw [hpath]
      exact fun off hoff ↦ nomatch hoff
  · rw [loadProcessSingleChar_key hchar hend hstate hslash, Reading.step, if_neg hslash]
    have hheld : Held { ctx with lineBegin := ctx.pos, state := .key } pre ⟨[], false⟩
        (c :: rest) :=
      ⟨h.held.noNul, h.held.unescape, h.held.buf⟩
    have hkey := hheld.keyStep hc rfl hpos' hpath
    have hends : (Token.ends ⟨[], false⟩ 61 c ↔ Reading.newline.ends c = true) := by
      simp [Token.ends, Reading.ends, hslash]
    simp only [hends] at hkey
    exact ⟨hkey.calls, hkey.pos, hkey.reads⟩

/-- One byte of a path. -/
theorem Reads.step_path {done : List Bytes} {token : Token UInt8}
    (h : Reads ctx (.path done token) pre (c :: rest)) (hc : c ≠ 0) (hend : lineEnd c = false) :
    Stepped ctx (loadProcessSingleChar ctx) ((Reading.path done token).step c)
      (if (Reading.path done token).ends c then ctx.pos + 1 else pre.length) rest := by
  have hchar := h.held.char
  have hstate := h.state
  obtain ⟨htoken, hpath⟩ := h.begins
  obtain ⟨hle, hlt, hoff⟩ := h.line (by simp [Reading.state])
  have hends : (Reading.path done token).ends c = true ↔ token.ends 47 c := by
    simp [Reading.ends]
  rw [loadProcessSingleChar_token hchar hend (by rw [hstate]; exact nofun), Reading.step]
  by_cases hsep : token.ends 47 c
  · rw [if_pos hsep, if_pos (hends.mpr hsep)]
    obtain ⟨hesc, rfl⟩ := hsep
    have hun := h.held.unescape.trans hesc
    obtain ⟨pre', hlen, hlast, hkeep, hheld⟩ := h.held.sep
    rw [loadTokenChar_path hstate hun]
    refine ⟨rfl, rfl, pre', hlen, hheld _ rfl rfl rfl hun, hstate, ⟨hlen.symm, ?_⟩,
      fun _ ↦ ⟨?_, Nat.lt_succ_of_lt hlt, ?_⟩⟩
    · rw [← htoken] at hlast
      exact List.rel_append (hpath.imp hkeep) (.cons hlast .nil)
    · rw [hlen]
      exact Nat.le_succ_of_le hlt.le
    · intro off hmem
      rcases List.mem_append.mp hmem with hmem | hmem
      · exact hoff off hmem
      · rw [List.mem_singleton.mp hmem, htoken]
        exact hle
  · rw [if_neg hsep, if_neg fun he ↦ hsep (hends.mp he)]
    obtain ⟨buf, shift, un, heq, hheld⟩ :=
      h.held.next hc (fun hp ↦ hsep hp.2) fun hk ↦ by rw [hstate] at hk; exact nomatch hk.1
    rw [heq] at hheld ⊢
    exact ⟨rfl, rfl, pre, rfl, hheld, hstate, ⟨htoken, hpath⟩,
      fun _ ↦ ⟨hle, Nat.lt_succ_of_lt hlt, hoff⟩⟩

/-- **One byte of a line.** -/
theorem Reads.step (h : Reads ctx reading pre (c :: rest)) (hc : c ≠ 0) (hend : lineEnd c = false) :
    Stepped ctx (loadProcessSingleChar ctx) (reading.step c)
      (if reading.ends c then ctx.pos + 1 else pre.length) rest := by
  have hchar := h.held.char
  have hstate := h.state
  have hbegins := h.begins
  cases reading with
  | newline => exact h.step_newline hc hend
  | path done token => exact h.step_path hc hend
  | key token =>
      rw [loadProcessSingleChar_token hchar hend (by rw [hstate]; exact nofun)]
      have hheld : Held ctx pre token (c :: rest) := h.held
      have hkey := hheld.keyStep hc hstate hbegins.1 hbegins.2
      have hends : token.ends 61 c ↔ (Reading.key token).ends c = true := by
        simp [Reading.ends]
      simp only [hends] at hkey
      exact hkey
  | value k token =>
      rw [loadProcessSingleChar_token hchar hend (by rw [hstate]; exact nofun)]
      obtain ⟨hle, hlt, hoff⟩ := h.line (by simp [Reading.state])
      obtain ⟨buf, shift, un, heq, hheld⟩ :=
        h.held.next hc (fun hp ↦ by rw [hstate] at hp; exact nomatch hp.1) fun hk ↦ by
          rw [hstate] at hk
          exact nomatch hk.1
      rw [heq] at hheld ⊢
      exact ⟨rfl, rfl, pre, rfl, hheld, hstate, hbegins,
        fun _ ↦ ⟨hle, Nat.lt_succ_of_lt hlt, hoff⟩⟩

/-- A token keeps its place when the bytes before the line are left out. -/
theorem TokenAt.drop {off b : Nat} {x : Bytes} (h : TokenAt pre off x) (hb : b ≤ off) :
    TokenAt (pre.drop b) (off - b) x := by
  obtain ⟨hx, r, hr⟩ := h
  refine ⟨hx, r, ?_⟩
  rw [List.drop_drop, Nat.add_sub_cancel' hb, hr]

theorem forall₂_tokenAt_drop {offs : List Nat} {done : List Bytes}
    (h : List.Forall₂ (TokenAt pre) offs done) {b : Nat} (hb : ∀ off ∈ offs, b ≤ off) :
    List.Forall₂ (TokenAt (pre.drop b)) (offs.map (· - b)) done := by
  induction h with
  | nil => exact .nil
  | cons hx _ ih =>
      exact .cons (hx.drop (hb _ List.mem_cons_self))
        (ih fun off hoff ↦ hb off (List.mem_cons_of_mem _ hoff))

/-- The last line in its own buffer. -/
theorem Reads.finalLine (h : Reads ctx reading pre []) (hne : reading.state ≠ .newline)
    (junk : UInt8) :
    Reads (loadFinalLine junk ctx) reading (pre.drop ctx.lineBegin) [junk] := by
  obtain ⟨hle, hlt, hoff⟩ := h.line hne
  obtain ⟨skip, hshift, hpos, hbuf⟩ := h.held.buf
  have hlen : ctx.buf.length = ctx.pos := by
    rw [hbuf, hpos]
    simp only [List.length_append, List.length_nil]
    omega
  refine ⟨⟨h.held.noNul, h.held.unescape, skip, hshift, ?_, ?_⟩, h.state, ?_,
    fun _ ↦ ⟨Nat.zero_le _, ?_, ?_⟩⟩
  · show ctx.buf.length - ctx.lineBegin = _
    rw [hlen, hpos, List.length_drop]
    omega
  · show ctx.buf.drop ctx.lineBegin ++ [junk] = _
    rw [hbuf, List.append_nil, List.append_assoc, List.drop_append_of_le_length hle]
    simp only [List.append_assoc]
  · have hbegins := h.begins
    cases reading with
    | newline => exact absurd rfl hne
    | path done token =>
        refine ⟨?_, forall₂_tokenAt_drop hbegins.2 hoff⟩
        show ctx.tokenBegin - ctx.lineBegin = _
        rw [hbegins.1, List.length_drop]
    | key token =>
        refine ⟨?_, ?_⟩
        · show 0 = _
          rw [List.length_drop, hbegins.1, Nat.sub_self]
        · show ctx.path.map _ = []
          rw [hbegins.2]
          rfl
    | value k token =>
        refine ⟨?_, ?_, ?_⟩
        · show ctx.tokenBegin - ctx.lineBegin = _
          rw [hbegins.1, List.length_drop]
        · have hkey := hbegins.2.1.drop (Nat.le_refl _)
          rwa [Nat.sub_self] at hkey
        · show ctx.path.map _ = []
          rw [hbegins.2.2]
          rfl
  · show 0 < ctx.buf.length - ctx.lineBegin
    omega
  · exact fun _ _ ↦ Nat.zero_le _

end Steps

/-! ## The whole text -/

/-- The loader has read this much of a text. -/
structure Loads (ctx : LoadCtx) (t : Scan) (rest : Bytes) : Prop where
  calls : ctx.calls = t.calls
  pos : ctx.pos = t.pos
  reads : ∃ pre, pre.length = t.start ∧ Reads ctx t.reading pre rest

/-- **One byte of a text.** -/
theorem Loads.step {ctx : LoadCtx} {t : Scan} {c : UInt8} {rest : Bytes}
    (h : Loads ctx t (c :: rest)) (hc : c ≠ 0) :
    Loads (loadProcessSingleChar ctx) (t.step c) rest := by
  obtain ⟨pre, hpre, hreads⟩ := h.reads
  rw [Scan.step]
  by_cases hend : lineEnd c = true
  · rw [if_pos hend, loadProcessSingleChar_line hreads.held.char hend]
    obtain ⟨pre', hlen, hcalls, hreads'⟩ := hreads.endLine
    rw [h.calls] at hcalls
    rw [h.pos] at hlen hreads' ⊢
    exact ⟨hcalls, rfl, pre', hlen, hreads'⟩
  · have hstep := hreads.step hc (by simpa using hend)
    rw [if_neg hend, ← h.pos, ← hpre]
    exact ⟨hstep.calls.trans h.calls, hstep.pos, hstep.reads⟩

theorem scanText_append (buf : Bytes) (c : UInt8) :
    scanText (buf ++ [c]) = (scanText buf).step c := by
  rw [scanText, List.foldl_append]
  rfl

theorem pos_scanText (buf : Bytes) : (scanText buf).pos = buf.length := by
  induction buf using List.reverseRecOn with
  | nil => rfl
  | append_singleton buf c ih =>
      rw [scanText_append, List.length_append, ← ih, Scan.step]
      split
      · rfl
      · rfl

/-- **The loop** reads the text as the grammar does. -/
theorem loads_loadChars {buf : Bytes} (h0 : 0 ∉ buf) {n : Nat} (hn : n ≤ buf.length) :
    Loads (loadChars buf n) (scanText (buf.take n)) (buf.drop n) := by
  induction n with
  | zero =>
      refine ⟨rfl, rfl, [], rfl, ⟨List.not_mem_nil, rfl, [], rfl, rfl, ?_⟩, rfl, ⟨rfl, rfl⟩,
        fun hne ↦ absurd rfl hne⟩
      rfl
  | succ n ih =>
      have hlt : n < buf.length := hn
      have hloads := ih hlt.le
      rw [List.drop_eq_getElem_cons hlt] at hloads
      rw [List.take_succ_eq_append_getElem hlt, scanText_append]
      apply hloads.step
      intro hzero
      exact h0 (hzero ▸ List.getElem_mem hlt)

/-- **The calls of the loader** are those that the grammar asks for. -/
theorem loadCalls_eq (junk : UInt8) {buf : Bytes} (h0 : 0 ∉ buf) :
    loadCalls junk buf = textGrammar buf := by
  have hloads := loads_loadChars h0 (Nat.le_refl buf.length)
  rw [List.take_length, List.drop_length] at hloads
  obtain ⟨pre, -, hreads⟩ := hloads.reads
  rw [← allCalls_scanText, Scan.allCalls, ← hloads.calls, loadCalls]
  by_cases hstate : (scanText buf).reading.state = .newline
  · -- the text ends with a line end
    rw [if_neg fun h ↦ h.2 (hreads.state.trans hstate)]
    have hcall : (scanText buf).reading.call = none := by
      cases hreading : (scanText buf).reading with
      | newline => rfl
      | path | key | value =>
          rw [hreading] at hstate
          cases hstate
    rw [hcall, Option.toList_none, List.append_nil]
  · have hlt : (loadChars buf buf.length).lineBegin < buf.length := by
      have hlt := (hreads.line hstate).2.1
      rwa [hloads.pos, pos_scanText] at hlt
    rw [if_pos ⟨hlt, by rw [hreads.state]; exact hstate⟩]
    obtain ⟨-, -, hcalls, -⟩ := (hreads.finalLine hstate junk).endLine
    exact hcalls

/-! ## Where the loader writes -/

/-- A byte is written at one place, or nothing is. -/
theorem loadProcessSingleChar_buf (ctx : LoadCtx) :
    (loadProcessSingleChar ctx).buf = ctx.buf ∨
      ∃ y, (loadProcessSingleChar ctx).buf = ctx.buf.set (ctx.pos - ctx.shift) y := by
  have htoken : ∀ ctx : LoadCtx, ∀ c, (loadTokenChar ctx c).buf = ctx.buf ∨
      ∃ y, (loadTokenChar ctx c).buf = ctx.buf.set (ctx.pos - ctx.shift) y := by
    intro ctx c
    unfold loadTokenChar
    split
    · exact .inr ⟨_, rfl⟩
    · split
      · exact .inl rfl
      · split
        · exact .inr ⟨_, rfl⟩
        · split
          · exact .inr ⟨_, rfl⟩
          · split
            · exact .inr ⟨_, rfl⟩
            · exact .inl rfl
  cases hend : lineEnd (ctx.buf.getD ctx.pos 0) with
  | true =>
      rw [loadProcessSingleChar_line rfl hend, loadProcessLine_eq]
      exact .inr ⟨0, rfl⟩
  | false =>
      by_cases hstate : ctx.state = .newline
      · by_cases hslash : ctx.buf.getD ctx.pos 0 = 47
        · rw [loadProcessSingleChar_slash rfl hend hstate hslash]
          exact .inl rfl
        · rw [loadProcessSingleChar_key rfl hend hstate hslash]
          exact htoken _ _
      · rw [loadProcessSingleChar_token rfl hend hstate]
        exact htoken _ _

theorem start_le_pos (buf : Bytes) : (scanText buf).start ≤ buf.length := by
  induction buf using List.reverseRecOn with
  | nil => exact Nat.le_refl _
  | append_singleton buf c ih =>
      have hpos := pos_scanText buf
      rw [scanText_append, List.length_append, Scan.step, hpos]
      split
      · exact Nat.le_refl _
      · dsimp only
        split
        · exact Nat.le_refl _
        · exact Nat.le_succ_of_le ih

theorem token_step (reading : Reading) (c : UInt8) :
    (reading.step c).token = if reading.ends c then ⟨[], false⟩ else nextByte reading.token c := by
  cases reading with
  | newline =>
      by_cases hslash : c = 47
      · simp [Reading.step, Reading.ends, hslash, Reading.token]
      · rw [Reading.step, if_neg hslash, Reading.keyStep]
        by_cases heq : c = 61
        · simp [Token.ends, Reading.ends, heq, Reading.token]
        · simp [Token.ends, Reading.ends, heq, hslash, Reading.token]
  | path done token =>
      rw [Reading.step]
      by_cases h : token.ends 47 c
      · simp [Reading.ends, h, Reading.token]
      · simp [Reading.ends, h, Reading.token]
  | key token =>
      rw [Reading.step, Reading.keyStep]
      by_cases h : token.ends 61 c
      · simp [Reading.ends, h, Reading.token]
      · simp [Reading.ends, h, Reading.token]
  | value k token => rfl

/-- The token that is being read is what stands between its start and the position. -/
theorem token_scanText (buf : Bytes) :
    (scanText buf).reading.token = (buf.drop (scanText buf).start).foldl nextByte ⟨[], false⟩ := by
  induction buf using List.reverseRecOn with
  | nil => rfl
  | append_singleton buf c ih =>
      have hpos := pos_scanText buf
      have hend : (buf ++ [c]).drop (buf.length + 1) = [] := List.drop_eq_nil_of_le (by simp)
      rw [scanText_append, Scan.step, hpos]
      by_cases hc : lineEnd c = true
      · rw [if_pos hc, hend]
        rfl
      · rw [if_neg hc]
        dsimp only
        rw [token_step]
        split
        · rw [hend]
          rfl
        · rw [List.drop_append_of_le_length (start_le_pos buf), List.foldl_append, ← ih]
          rfl

/-- Nothing is written outside of the token that is being read and the separator behind it:
while the byte at `n` is processed, and when the last line is finished in its own buffer.  The
token that is being read at `n` is what stands between `start` and `n`. -/
structure WritesInToken (junk : UInt8) (buf : Bytes) : Prop where
  token : ∀ n, (scanText (buf.take n)).reading.token =
    ((buf.take n).drop (scanText (buf.take n)).start).foldl nextByte ⟨[], false⟩
  char : ∀ n < buf.length, ∀ i, i < (scanText (buf.take n)).start ∨ n < i →
    (loadChars buf (n + 1)).buf[i]? = (loadChars buf n).buf[i]?
  final : let ctx := loadChars buf buf.length
    ctx.state ≠ .newline → ∀ i,
      i < (scanText buf).start - ctx.lineBegin ∨ buf.length - ctx.lineBegin < i →
      (loadProcessFinalLine junk ctx).buf[i]? = (loadFinalLine junk ctx).buf[i]?

theorem writesInToken (junk : UInt8) {buf : Bytes} (h0 : 0 ∉ buf) : WritesInToken junk buf where
  token n := token_scanText (buf.take n)
  char n hn i hi := by
    have hloads := loads_loadChars h0 hn.le
    obtain ⟨pre, hpre, hreads⟩ := hloads.reads
    obtain ⟨hle, hle'⟩ := hreads.held.index
    have hpos : (loadChars buf n).pos = n := by
      rw [hloads.pos, pos_scanText, List.length_take, Nat.min_eq_left hn.le]
    rw [loadChars]
    rcases loadProcessSingleChar_buf (loadChars buf n) with h | ⟨y, h⟩
    · rw [h]
    · rw [h, List.getElem?_set_ne]
      omega
  final := by
    have hloads := loads_loadChars h0 (Nat.le_refl buf.length)
    rw [List.take_length, List.drop_length] at hloads
    obtain ⟨pre, hpre, hreads⟩ := hloads.reads
    intro ctx hstate i hi
    have hfinal := hreads.finalLine (fun h ↦ hstate (hreads.state.trans h)) junk
    obtain ⟨hle, hle'⟩ := hfinal.held.index
    have hlen : ctx.buf.length = buf.length := by
      obtain ⟨skip, -, hpos, hbuf⟩ := hreads.held.buf
      rw [hloads.pos, pos_scanText] at hpos
      rw [hpos]
      simp [ctx, hbuf, Nat.add_assoc]
    have hpos : (loadFinalLine junk ctx).pos = buf.length - ctx.lineBegin := by
      rw [← hlen]
      rfl
    rw [List.length_drop, hpre] at hle
    rw [hpos] at hle'
    have hne : (loadFinalLine junk ctx).pos - (loadFinalLine junk ctx).shift ≠ i := by
      intro heq
      subst heq
      rcases hi with hi | hi
      · exact absurd hle (Nat.not_le.mpr hi)
      · exact absurd hle' (Nat.not_le.mpr (hpos ▸ hi))
    rw [loadProcessFinalLine, loadProcessLine_eq]
    exact List.getElem?_set_ne hne

/-! ## What a text does -/

/-- Going along the names of a path, from the database `s` on: empty names are skipped, the others
are namespaces that are made if they are not there, and where one cannot be made the way ends in the
root. -/
inductive Along (root : Ref) : Heap → Ref → List CStr → Heap → Ref → Prop
  | done (h : Heap) (s : Ref) : Along root h s [] h s
  | skipped {h h' : Heap} {s r : Ref} {names : List CStr} (rest : Along root h s names h' r) :
      Along root h s (CStr.empty :: names) h' r
  | into {h h₁ h' : Heap} {s t r : Ref} {name : CStr} {names : List CStr} (hne : name ≠ CStr.empty)
      (hns : sdbNs h s name true = (some t, h₁)) (rest : Along root h₁ t names h' r) :
      Along root h s (name :: names) h' r
  | refused {h h' : Heap} {s : Ref} {name : CStr} {names : List CStr} (hne : name ≠ CStr.empty)
      (hns : sdbNs h s name true = (none, h')) : Along root h s (name :: names) h' root

/-- What a line does: one that begins with `/` goes from the root along its names; one with a `=`
that is not escaped, and something on both sides of it, is a pair that `sdb_set` sets in the current
namespace; any other does nothing.  There is no database at a place outside of the heap. -/
inductive LineEffect (root : Ref) (st : TextState) : Bytes → TextState → Prop
  | path {line : Bytes} {h' : Heap} {r : Ref}
      (along : Along root st.heap root ((splitEsc 92 47 line).map tokenStr) h' r) :
      LineEffect root st (47 :: line) ⟨h', st.world, r⟩
  | pair {line k v : Bytes} {node : SdbNode} (hpath : line.head? ≠ some 47)
      (hcut : cutEsc 92 61 line = some (k, v)) (hk : tokenStr k ≠ CStr.empty)
      (hv : tokenStr v ≠ CStr.empty)
      (hnode : st.heap[st.cur]? = some node) :
      LineEffect root st line
        ⟨st.heap.set st.cur { node with
          sdb := (sdbSet node.sdb st.world (tokenStr k) (tokenStr v) 0).2.1 },
          (sdbSet node.sdb st.world (tokenStr k) (tokenStr v) 0).2.2, st.cur⟩
  | nowhere {line : Bytes} (hpath : line.head? ≠ some 47) (hnode : st.heap[st.cur]? = none) :
      LineEffect root st line st
  | nothing {line : Bytes} (hpath : line.head? ≠ some 47)
      (hcut : ∀ k v, cutEsc 92 61 line = some (k, v) → tokenStr k = CStr.empty ∨
        tokenStr v = CStr.empty) :
      LineEffect root st line st

/-- What lines do, one after another. -/
inductive TextEffect (root : Ref) : TextState → List Bytes → TextState → Prop
  | done (st : TextState) : TextEffect root st [] st
  | line {st st₁ st' : TextState} {line : Bytes} {lines : List Bytes}
      (first : LineEffect root st line st₁) (rest : TextEffect root st₁ lines st') :
      TextEffect root st (line :: lines) st'

theorem along_iff {root : Ref} {h : Heap} {s : Ref} {names : List CStr} {h' : Heap} {r : Ref} :
    Along root h s names h' r ↔ loadPath root h s names = (r, h') := by
  constructor
  · intro along
    induction along with
    | done h s => rfl
    | skipped rest ih => rw [loadPath, if_pos rfl, ih]
    | into hne hns rest ih =>
        rw [loadPath, if_neg hne, hns]
        exact ih
    | refused hne hns => rw [loadPath, if_neg hne, hns]
  · intro hload
    induction names generalizing h s with
    | nil =>
        cases hload
        exact .done _ _
    | cons name names ih =>
        rw [loadPath] at hload
        split at hload
        · next hempty =>
            rw [hempty]
            exact .skipped (ih hload)
        · next hne =>
            split at hload
            · next hns =>
                cases hload
                exact .refused hne hns
            · next hns => exact .into hne hns (ih hload)

theorem lineCall_of_head {line : Bytes} (h : line.head? ≠ some 47) : lineCall line =
    (cutEsc 92 61 line).bind fun kv ↦
      if tokenStr kv.1 = CStr.empty ∨ tokenStr kv.2 = CStr.empty then none
      else some (.set (tokenStr kv.1) (tokenStr kv.2)) := by
  cases line with
  | nil => rfl
  | cons c line =>
      rw [lineCall]
      rintro _ heq
      cases heq
      exact h rfl

/-- What a line does is what is done for the call that it asks for. -/
theorem lineEffect_iff {root : Ref} {st st' : TextState} {line : Bytes} :
    LineEffect root st line st' ↔ st' = (lineCall line).elim st (TextCall.run root st) := by
  constructor
  · intro effect
    cases effect with
    | path along =>
        rw [lineCall, Option.elim_some, TextCall.run, along_iff.mp along]
    | pair hpath hcut hk hv hnode =>
        rw [lineCall_of_head hpath, hcut, Option.bind_some, if_neg (not_or.mpr ⟨hk, hv⟩),
          Option.elim_some, TextCall.run, heapSet, hnode]
    | nowhere hpath hnode =>
        rw [lineCall_of_head hpath]
        cases cutEsc 92 61 line with
        | none => rfl
        | some kv =>
            rw [Option.bind_some]
            split
            · rfl
            · rw [Option.elim_some, TextCall.run, heapSet, hnode]
    | nothing hpath hcut =>
        rw [lineCall_of_head hpath]
        cases h : cutEsc 92 61 line with
        | none => rfl
        | some kv =>
            rw [Option.bind_some, if_pos (hcut kv.1 kv.2 h)]
            rfl
  · rintro rfl
    by_cases hpath : line.head? = some 47
    · obtain ⟨line, rfl⟩ := List.head?_eq_some_iff.mp hpath
      exact .path (along_iff.mpr rfl)
    · rw [lineCall_of_head hpath]
      cases hcut : cutEsc 92 61 line with
      | none => exact .nothing hpath fun k v h ↦ by cases hcut.symm.trans h
      | some kv =>
          rw [Option.bind_some]
          by_cases hempty : tokenStr kv.1 = CStr.empty ∨ tokenStr kv.2 = CStr.empty
          · rw [if_pos hempty]
            refine .nothing hpath fun k v h ↦ ?_
            cases hcut.symm.trans h
            exact hempty
          · rw [if_neg hempty, Option.elim_some, TextCall.run, heapSet]
            cases hnode : st.heap[st.cur]? with
            | none => exact .nowhere hpath hnode
            | some node =>
                exact .pair hpath hcut (fun h ↦ hempty (.inl h)) (fun h ↦ hempty (.inr h)) hnode

theorem textEffect_iff {root : Ref} {st st' : TextState} {lines : List Bytes} :
    TextEffect root st lines st' ↔
      st' = (lines.filterMap lineCall).foldl (TextCall.run root) st := by
  have hfirst (line : Bytes) (lines : List Bytes) (st : TextState) :
      ((line :: lines).filterMap lineCall).foldl (TextCall.run root) st =
        (lines.filterMap lineCall).foldl (TextCall.run root)
        ((lineCall line).elim st (TextCall.run root st)) := by
    rw [List.filterMap_cons]
    cases lineCall line with
    | none => rfl
    | some call => rfl
  constructor
  · intro effect
    induction effect with
    | done st => rfl
    | line first rest ih => rw [hfirst, ← lineEffect_iff.mp first, ih]
  · rintro rfl
    induction lines generalizing st with
    | nil => exact .done st
    | cons line lines ih =>
        rw [hfirst]
        exact .line (lineEffect_iff.mpr rfl) ih

/-- **The loader implements the grammar** of its format: for every text without NUL it does to the
databases what the lines do, one after another, beginning in the root, and it writes nowhere but
into the token that it reads. -/
theorem sdbTextLoadInto_iff (junk : UInt8) {buf : Bytes} (h0 : 0 ∉ buf) (h : Heap) (w : World)
    (root : Ref) (st' : TextState) :
    (TextEffect root ⟨h, w, root⟩ (buf.splitOnP lineEnd) st' ↔
      st' = sdbTextLoadInto junk h w root buf) ∧ WritesInToken junk buf := by
  refine ⟨?_, writesInToken junk h0⟩
  rw [sdbTextLoadInto, loadCalls_eq junk h0]
  exact textEffect_iff

/-- The text `/a\/b`, `k\=1=v`, without a line end behind the last line: the pair is set in a
namespace that has been made. -/
theorem sdbTextLoadInto_escaped :
    let buf := [47, 97, 92, 47, 98, 10, 107, 92, 61, 49, 61, 118]
    let st' := sdbTextLoadInto 7 [sdbNode0] World.empty 0 buf
    TextEffect 0 ⟨[sdbNode0], World.empty, 0⟩
      [[47, 97, 92, 47, 98], [107, 92, 61, 49, 61, 118]] st' ∧
      (st'.heap[st'.cur]?.map fun node ↦ (node.sdb.ht.toList.map SdbKv.key, st'.cur)) =
        some ([CStr.ofBytes [107, 61, 49]], 1) ∧ WritesInToken 7 buf := by
  intro buf st'
  have buf0 : 0 ∉ buf := by decide
  have h := sdbTextLoadInto_iff 7 buf0 [sdbNode0] World.empty 0 st'
  exact ⟨h.1.mpr rfl, by decide, h.2⟩

end SdbStore
