import SdbStore.CStr

/-!
# Text files

`sdb_open` looks at the first bytes of a file and takes some files for plain text
(`text.c`).  Such a file is not opened as a database: its lines are parsed, in place,
and set one after another.  A line is the path of a namespace or a pair `k=v`; the
loader hands on the pairs with the path they stand under.
-/

namespace SdbStore

open Lib

/-- The flags of `sdb_text_check` while it looks at the first bytes. -/
structure TextFlags where
  isAscii : Bool
  hasEq : Bool
  hasNl : Bool

/-- One byte of the loop of `sdb_text_check`; `char` is signed. -/
def textCheckStep (t : TextFlags) (c : UInt8) : TextFlags :=
  if c = 61 then { t with hasEq := true }
  else if c = 10 then { t with hasNl := true }
  else if !t.hasEq && (c < 10 || c > 126) then { t with isAscii := false }
  else t

/-- The flags after the first bytes of a file. -/
def textFlags (f : Bytes) : TextFlags :=
  ((f.take 63).takeWhile (· != 0)).foldl textCheckStep ⟨true, false, false⟩

/-- `sdb_text_check`, on the contents of the file. -/
def sdbTextCheck : Option Bytes → Bool
  | none => false
  | some f => f.length > 4 && (textFlags f).isAscii && (textFlags f).hasNl && (textFlags f).hasEq

/-- `LoadState`. -/
inductive LoadState where
  | newline
  | path
  | key
  | value
deriving DecidableEq

/-- What the loader asks of the databases: to go to the namespace of a path line, from the
root, or to set a pair in the current namespace. -/
inductive TextCall where
  | path (names : List CStr)
  | set (key val : CStr)
deriving DecidableEq

/-- `LoadCtx`.  `calls` stands for the calls of `sdb_ns` and `sdb_set` that have been made so
far, and so for `cur_db`. -/
structure LoadCtx where
  buf : Bytes
  pos : Nat
  lineBegin : Nat
  tokenBegin : Nat
  shift : Nat
  path : List Nat
  state : LoadState
  unescape : Bool
  calls : List TextCall

/-- `load_ctx_init`. -/
def loadCtxInit (buf : Bytes) : LoadCtx :=
  { buf := buf, pos := 0, lineBegin := 0, tokenBegin := 0, shift := 0, path := [],
    state := .newline, unescape := false, calls := [] }

/-- The C string at an offset of the buffer. -/
def LoadCtx.strAt (ctx : LoadCtx) (off : Nat) : CStr := CStr.ofBytes (ctx.buf.drop off)

/-- `load_process_line`. -/
def loadProcessLine (ctx : LoadCtx) : LoadCtx :=
  let ctx := { ctx with unescape := false, buf := ctx.buf.set (ctx.pos - ctx.shift) 0 }
  let ctx : LoadCtx := match ctx.state with
    | .path =>
        let names := (ctx.path ++ [ctx.tokenBegin]).map ctx.strAt
        { ctx with calls := ctx.calls ++ [.path names], path := [] }
    | .value =>
        let k := ctx.strAt ctx.lineBegin
        let v := ctx.strAt ctx.tokenBegin
        if k = CStr.empty ∨ v = CStr.empty then ctx
        else { ctx with calls := ctx.calls ++ [.set k v] }
    | _ => ctx
  { ctx with shift := 0, state := .newline }

/-- `unescape_raw_char`. -/
def unescapeRawChar (c : UInt8) : UInt8 :=
  if c = 115 then 32 else if c = 110 then 10 else if c = 114 then 13 else if c = 116 then 9 else c

/-- `load_process_single_char`. -/
def loadProcessSingleChar (ctx : LoadCtx) : LoadCtx :=
  let c := ctx.buf.getD ctx.pos 0
  if c = 10 ∨ c = 13 then
    let ctx := loadProcessLine ctx
    { ctx with pos := ctx.pos + 1 }
  else if ctx.state = .newline ∧ c = 47 then
    { ctx with
      lineBegin := ctx.pos, state := .path, tokenBegin := ctx.pos + 1, pos := ctx.pos + 1 }
  else
    let ctx := if ctx.state = .newline then { ctx with lineBegin := ctx.pos, state := .key }
        else ctx
    let ctx :=
      if ctx.unescape then
        { ctx with
          buf := ctx.buf.set (ctx.pos - ctx.shift) (unescapeRawChar c), unescape := false }
      else if c = 92 then { ctx with shift := ctx.shift + 1, unescape := true }
      else if ctx.state = .path ∧ c = 47 then
        { ctx with
          buf := ctx.buf.set (ctx.pos - ctx.shift) 0
          path := ctx.path ++ [ctx.tokenBegin], tokenBegin := ctx.pos + 1, shift := 0 }
      else if ctx.state = .key ∧ c = 61 then
        { ctx with
          buf := ctx.buf.set (ctx.pos - ctx.shift) 0
          tokenBegin := ctx.pos + 1, shift := 0, state := .value }
      else if ctx.shift ≠ 0 then { ctx with buf := ctx.buf.set (ctx.pos - ctx.shift) c }
      else ctx
    { ctx with pos := ctx.pos + 1 }

/-- `load_process_final_line`, up to its call of `load_process_line`: the line is copied to a
new buffer with room for its terminator, whose last byte is `junk` until it is written, and the
offsets are moved along. -/
def loadFinalLine (junk : UInt8) (ctx : LoadCtx) : LoadCtx :=
  { ctx with
    buf := ctx.buf.drop ctx.lineBegin ++ [junk]
    pos := ctx.buf.length - ctx.lineBegin
    tokenBegin := ctx.tokenBegin - ctx.lineBegin
    path := ctx.path.map (· - ctx.lineBegin)
    lineBegin := 0 }

/-- `load_process_final_line`. -/
def loadProcessFinalLine (junk : UInt8) (ctx : LoadCtx) : LoadCtx :=
  loadProcessLine (loadFinalLine junk ctx)

/-- The loop of `sdb_text_load_buf` after `n` bytes. -/
def loadChars (buf : Bytes) : Nat → LoadCtx
  | 0 => loadCtxInit buf
  | n + 1 => loadProcessSingleChar (loadChars buf n)

/-- The calls that `sdb_text_load_buf` makes. -/
def loadCalls (junk : UInt8) (buf : Bytes) : List TextCall :=
  let ctx := loadChars buf buf.length
  if ctx.lineBegin < buf.length ∧ ctx.state ≠ .newline then (loadProcessFinalLine junk ctx).calls
  else ctx.calls

/-- A pair of the file and the namespace it belongs to. -/
structure TextSet where
  ns : List CStr
  key : CStr
  val : CStr
deriving DecidableEq

/-- The pairs that are set by calls, from the namespace `cur` on.  Empty names in a path are
skipped. -/
def textSets : List CStr → List TextCall → List TextSet
  | _, [] => []
  | _, .path names :: calls => textSets (names.filter (· ≠ CStr.empty)) calls
  | cur, .set key val :: calls => ⟨cur, key, val⟩ :: textSets cur calls

/-- `sdb_text_load_buf`: the pairs that it sets. -/
def sdbTextLoadBuf (buf : Bytes) : List TextSet := textSets [] (loadCalls 0 buf)

example : sdbTextLoadBuf [97, 61, 49, 10, 47, 110, 10, 98, 92, 61, 61, 50] =
    [⟨[], CStr.ofBytes [97], CStr.ofBytes [49]⟩,
     ⟨[CStr.ofBytes [110]], CStr.ofBytes [98, 61], CStr.ofBytes [50]⟩] := by
  decide

end SdbStore
