import SdbStore.Match
import SdbStore.Num

/-!
# The protocol of mcsdbd

`protocol.c`: one request, from the buffer of a client to the texts that are printed for it.  The
buffer is the memory of the client: the code ends its strings by writing NULs into it, and what
stood there before can be read again later.

The functions of `memcache.c` are called through `McApi`.  A call of one of them need not come
back, as the ones of `sdb.c` need not.
-/

namespace SdbStore.Mcsdb

open Lib

/-- A text. -/
def txt (l : List Char) : Bytes := l.map fun c ↦ UInt8.ofNat c.toNat

/-- A number, as `%u` and `%llu` print it. -/
def num (n : Nat) : Bytes := digits 10 n

/-- A number, as `%d` prints it. -/
def numInt (n : Nat) : Bytes :=
  if intOfSize n < 0 then 45 :: digits 10 (intOfSize n).natAbs else digits 10 (intOfSize n).toNat

/-- The end of a line. -/
def crlf : Bytes := txt ['\r', '\n']

/-! ## Memory -/

/-- The string that begins at a place of a buffer. -/
def cstrAt (buf : Bytes) (i : Nat) : Bytes := (buf.drop i).takeWhile (· ≠ 0)

/-- `strchr` from a place on. -/
def strchrAt (buf : Bytes) (i : Nat) (c : UInt8) : Option Nat :=
  ((cstrAt buf i).idxOf? c).map (i + ·)

/-- Bytes are written over those of a buffer. -/
def poke (buf : Bytes) (i : Nat) (bs : Bytes) : Bytes :=
  buf.take i ++ bs ++ buf.drop (i + bs.length)

/-! ## Numbers -/

/-- A number in base 10 behind spaces and a sign, and what follows it. -/
def scanDigits (s : Bytes) : Option ((Bool × Nat) × Bytes) :=
  let s := s.dropWhile isSpace
  let t := if s.head? = some 45 ∨ s.head? = some 43 then s.tail else s
  let d := t.takeWhile fun c ↦ digitVal c < 10
  if d = [] then none
  else some ((decide (s.head? = some 45), digitsVal 10 t), t.dropWhile fun c ↦ digitVal c < 10)

/-- A number as a `ut64`, as `strtoull` and `%llu` give it. -/
def toUt64 (r : Bool × Nat) : UInt64 :=
  if r.2 ≥ 2 ^ 64 then 0xffffffffffffffff
  else if r.1 then 0 - UInt64.ofNat r.2 else UInt64.ofNat r.2

/-- A number as an `int`, as `%d` gives it: by way of a `long`. -/
def toInt32 (r : Bool × Nat) : Int :=
  let n : Int := if r.1 then max (-(r.2 : Int)) (-2 ^ 63) else min r.2 (2 ^ 63 - 1)
  (BitVec.ofInt 32 n).toInt

/-- `strtoull` with the base 10. -/
def strtoull10 (s : Bytes) : UInt64 :=
  match scanDigits s with
  | none => 0
  | some r => toUt64 r.1

/-- `sscanf` with `%d %llu %d`: what it returns, when it is 3, and the second number when there is
one. -/
def scanStore (s : Bytes) : Option Int × Option UInt64 :=
  match scanDigits s with
  | none => (none, none)
  | some flags =>
      match scanDigits flags.2 with
      | none => (none, none)
      | some exptime => ((scanDigits exptime.2).map fun r ↦ toInt32 r.1, some (toUt64 exptime.1))

/-! ## `memcache.c` -/

/-- What `stats` prints of the process and of the counters. -/
structure McStats where
  pid : Nat
  time : Nat
  uptime : Nat
  user : Nat × Nat
  system : Nat × Nat
  gets : Nat
  sets : Nat
  hits : Nat
  misses : Nat
  evictions : Nat

/-- The functions of `memcache.c`, on some state: a lookup gives the value, the time and the
counter. -/
structure McApi (σ : Type) where
  flush : σ → Option σ
  get : σ → CStr → Option (Option (CStr × UInt64 × Nat) × σ)
  set : σ → CStr → CStr → UInt64 → Option σ
  append : σ → CStr → CStr → UInt64 → Option σ
  prepend : σ → CStr → CStr → UInt64 → Option σ
  add : σ → CStr → CStr → UInt64 → Option (Bool × σ)
  replace : σ → CStr → CStr → UInt64 → Option (Bool × σ)
  incr : σ → CStr → UInt64 → Option (Option CStr × σ)
  decr : σ → CStr → UInt64 → Option (Option CStr × σ)
  remove : σ → CStr → UInt64 → Option (Bool × σ)
  touch : σ → CStr → UInt64 → Option (Bool × σ)
  stats : σ → McStats

/-! ## The client -/

/-- `MCSDB_MAX_BUFFER`. -/
def maxBuffer : Nat := 4096

/-- `McSdbClient`.  `id` tells apart the clients that have had the same descriptor. -/
structure Client where
  id : Nat
  fd : Nat
  mode : Nat
  len : Nat
  idx : Nat
  next : Nat
  cmdhash : Nat
  buf : Bytes
  exptime : UInt64
  key : CStr

/-- The commands whose hash `cmds.c` prints. -/
inductive Cmd where
  | version | verbosity | flushAll | append | prepend | get | gets | incr | decr | delete | set
  | replace | cas | add | stats | quit | touch
deriving DecidableEq

/-- Their names. -/
def Cmd.name : Cmd → Bytes
  | .version => txt ['v', 'e', 'r', 's', 'i', 'o', 'n']
  | .verbosity => txt ['v', 'e', 'r', 'b', 'o', 's', 'i', 't', 'y']
  | .flushAll => txt ['f', 'l', 'u', 's', 'h', '_', 'a', 'l', 'l']
  | .append => txt ['a', 'p', 'p', 'e', 'n', 'd']
  | .prepend => txt ['p', 'r', 'e', 'p', 'e', 'n', 'd']
  | .get => txt ['g', 'e', 't']
  | .gets => txt ['g', 'e', 't', 's']
  | .incr => txt ['i', 'n', 'c', 'r']
  | .decr => txt ['d', 'e', 'c', 'r']
  | .delete => txt ['d', 'e', 'l', 'e', 't', 'e']
  | .set => txt ['s', 'e', 't']
  | .replace => txt ['r', 'e', 'p', 'l', 'a', 'c', 'e']
  | .cas => txt ['c', 'a', 's']
  | .add => txt ['a', 'd', 'd']
  | .stats => txt ['s', 't', 'a', 't', 's']
  | .quit => txt ['q', 'u', 'i', 't']
  | .touch => txt ['t', 'o', 'u', 'c', 'h']

/-- `MCSDB_CMD_...`. -/
def Cmd.hash (c : Cmd) : Nat := sdbHash (CStr.ofBytes c.name)

/-- All of them. -/
def Cmd.all : List Cmd :=
  [.version, .verbosity, .flushAll, .append, .prepend, .get, .gets, .incr, .decr, .delete, .set,
    .replace, .cas, .add, .stats, .quit, .touch]

/-- The `switch` over the hash. -/
def Cmd.ofHash (h : Nat) : Option Cmd := Cmd.all.find? (·.hash = h)

/-! ## One request -/

/-- What a request comes to: what `protocol_handle` returns, the client and the database after it,
and the texts that are printed for the client. -/
structure Handled (σ : Type) where
  ret : Int
  client : Client
  store : σ
  replies : List Bytes

variable {σ : Type} (api : McApi σ)

/-- The loop of `handle_get` over the words behind the command. -/
def handleGetLoop (smode : Bool) : List Bytes → σ → Option (List Bytes × σ)
  | [], st => some ([], st)
  | word :: words, st => do
      let r ← api.get st (CStr.ofBytes word)
      let rest ← handleGetLoop smode words r.2
      match r.1 with
      | none => some rest
      | some (value, exptime, cas) =>
          let line := txt ['V', 'A', 'L', 'U', 'E', ' '] ++ word ++ txt [' '] ++
              num exptime.toNat ++ txt [' '] ++ numInt value.length
          some ((line ++ (if smode then txt [' '] ++ numInt cas else []) ++ crlf) ::
            (value.val ++ crlf) :: rest.1, rest.2)

/-- `handle_get`: the spaces between the words become NULs. -/
def handleGet (st : σ) (buf : Bytes) (key : Nat) (smode : Bool) :
    Option (List Bytes × σ × Bytes) := do
  let s := cstrAt buf key
  let r ← handleGetLoop api smode (s.splitOn 32) st
  some (r.1 ++ [txt ['E', 'N', 'D'] ++ crlf], r.2,
    poke buf key (s.map fun c ↦ if c = 32 then 0 else c))

/-- The body of a storage command: what `mcsdb_set` and its kin do, and whether the value is
stored. -/
def storeBody (cmdhash : Nat) (st : σ) (key body : CStr) (exptime : UInt64) : Option (Bool × σ) :=
  match Cmd.ofHash cmdhash with
  | some .set => (api.set st key body exptime).map (true, ·)
  | some .append => (api.append st key body exptime).map (true, ·)
  | some .add => api.add st key body exptime
  | some .prepend => (api.prepend st key body exptime).map (true, ·)
  | some .replace => api.replace st key body exptime
  | _ => some (true, st)

/-- The texts of `stats`. -/
def statsLines (s : McStats) (nfds tfds bread bwrite : Nat) : List Bytes :=
  let stat (name : List Char) (value : Bytes) : Bytes :=
    txt ['S', 'T', 'A', 'T', ' '] ++ txt name ++ txt [' '] ++ value ++ crlf
  [stat ['p', 'i', 'd'] (num s.pid),
    stat ['v', 'e', 'r', 's', 'i', 'o', 'n'] (txt ['0', '.', '2']),
    stat ['p', 'o', 'i', 'n', 't', 'e', 'r', '_', 's', 'i', 'z', 'e'] (num 64),
    stat ['t', 'i', 'm', 'e'] (num s.time),
    stat ['u', 'p', 't', 'i', 'm', 'e'] (num s.uptime),
    stat ['r', 'u', 's', 'a', 'g', 'e', '_', 'u', 's', 'e', 'r']
      (num s.user.1 ++ txt ['.'] ++ num s.user.2),
    stat ['r', 'u', 's', 'a', 'g', 'e', '_', 's', 'y', 's', 't', 'e', 'm']
      (num s.system.1 ++ txt ['.'] ++ num s.system.2),
    stat ['c', 'u', 'r', 'r', '_', 'c', 'o', 'n', 'n', 'e', 'c', 't', 'i', 'o', 'n', 's']
      (num (nfds - 1)),
    stat ['t', 'o', 't', 'a', 'l', '_', 'c', 'o', 'n', 'n', 'e', 'c', 't', 'i', 'o', 'n', 's']
      (num tfds),
    stat ['c', 'm', 'd', '_', 'g', 'e', 't'] (num s.gets),
    stat ['c', 'm', 'd', '_', 's', 'e', 't'] (num s.sets),
    stat ['g', 'e', 't', '_', 'h', 'i', 't', 's'] (num s.hits),
    stat ['g', 'e', 't', '_', 'm', 'i', 's', 's', 'e', 's'] (num s.misses),
    stat ['e', 'v', 'i', 'c', 't', 'i', 'o', 'n', 's'] (num s.evictions),
    stat ['b', 'y', 't', 'e', 's', '_', 'r', 'e', 'a', 'd'] (num bread),
    stat ['b', 'y', 't', 'e', 's', '_', 'w', 'r', 'i', 't', 't', 'e', 'n'] (num bwrite),
    stat ['t', 'h', 'r', 'e', 'a', 'd', 's'] (num 1),
    txt ['E', 'N', 'D'] ++ crlf]

/-- `ERROR`. -/
def errorLine : Bytes := txt ['E', 'R', 'R', 'O', 'R'] ++ crlf

/-- `CLIENT_ERROR` and a reason. -/
def clientError (reason : List Char) : Bytes :=
  txt ['C', 'L', 'I', 'E', 'N', 'T', '_', 'E', 'R', 'R', 'O', 'R', ' '] ++ txt reason ++ crlf

/-- `OK`. -/
def okLine : Bytes := txt ['O', 'K'] ++ crlf

/-- `NOT_FOUND`. -/
def notFound : Bytes := txt ['N', 'O', 'T', '_', 'F', 'O', 'U', 'N', 'D'] ++ crlf

/-- The command word, the place behind its space (`key`), and the place behind the space after that
(`p`); the first space becomes a NUL, and the key is copied. -/
def splitLine (c : Client) : Client × Option Nat × Option Nat :=
  match strchrAt c.buf 0 32 with
  | none => (c, none, none)
  | some sp =>
      let buf := poke c.buf sp [0]
      let key := sp + 1
      let p := strchrAt buf key 32
      let word := match p with
        | none => cstrAt buf key
        | some p => (cstrAt buf key).take (p - key)
      ({ c with buf := buf, key := CStr.ofBytes (word.take 255) }, some key, p.map (· + 1))

/-- `strtolower` on the command. -/
def strtolower (buf : Bytes) : Bytes := poke buf 0 ((cstrAt buf 0).map toLower)

/-- The storage commands, up to their body. -/
def handleStore (c : Client) (st : σ) (cmdhash : Nat) (key p : Option Nat) : Handled σ :=
  match key, p with
  | some _, some p =>
      let r := scanStore (cstrAt c.buf p)
      let c := { c with exptime := r.2.getD c.exptime }
      match r.1 with
      | none =>
          ⟨0, c, st, [txt ['E', 'R', 'R', 'O', 'R', ' ', 'p', 'a', 'r', 's', 'i', 'n', 'g', ' ',
            '('] ++ cstrAt c.buf (p + 1) ++ txt [')'] ++ crlf]⟩
      | some bytes =>
          if bytes < 1 then
            ⟨0, c, st, [clientError
              ['i', 'n', 'v', 'a', 'l', 'i', 'd', ' ', 'l', 'e', 'n', 'g', 't', 'h'], errorLine]⟩
          else if bytes > maxBuffer - 2 then
            ⟨0, c, st, [clientError ['d', 'a', 't', 'a', ' ', 't', 'o', 'o', ' ', 'b', 'i', 'g']]⟩
          else
            ⟨1, { c with mode := 1, idx := c.next, len := bytes.toNat + 1, cmdhash := cmdhash }, st,
              []⟩
  | _, _ => ⟨0, c, st, [errorLine]⟩

/-- The answer to `incr` and `decr`. -/
def handleNum (f : σ → CStr → UInt64 → Option (Option CStr × σ)) (c : Client) (st : σ)
    (key p : Option Nat) : Option (Handled σ) :=
  match key, p with
  | some key, some p => do
      let n := strtoull10 (cstrAt c.buf p)
      let c := { c with buf := poke c.buf (p - 1) [0] }
      let r ← f st (CStr.ofBytes (cstrAt c.buf key)) n
      match r.1 with
      | some value => some ⟨0, c, r.2, [value.val ++ crlf]⟩
      | none => some ⟨0, c, r.2, [notFound]⟩
  | _, _ => some ⟨0, c, st, [errorLine]⟩

/-- `touch`; the key is not ended behind its first word. -/
def handleTouch (c : Client) (st : σ) (key p : Option Nat) : Option (Handled σ) :=
  match key, p with
  | some key, some p => do
      let n := match scanDigits (cstrAt c.buf p) with
        | none => 0
        | some r => toUt64 r.1
      let r ← api.touch st (CStr.ofBytes (cstrAt c.buf key)) n
      let reply := if r.1 then txt ['T', 'O', 'U', 'C', 'H', 'E', 'D']
        else txt ['N', 'O', 'T', '_', 'T', 'O', 'U', 'C', 'H', 'E', 'D']
      some ⟨0, c, r.2, [reply ++ crlf]⟩
  | _, _ => some ⟨0, c, st, [errorLine]⟩

/-- `delete`; the key is read as a time, too. -/
def handleDelete (c : Client) (st : σ) (key : Option Nat) : Option (Handled σ) :=
  match key with
  | none => some ⟨0, c, st, []⟩
  | some key => do
      let p := strchrAt c.buf key 32
      let noreply := match p with
        | none => false
        | some p => decide ((c.buf.drop (p + 1)).take 7 = txt ['n', 'o', 'r', 'e', 'p', 'l', 'y'])
      let buf := match p with
        | none => c.buf
        | some p => poke c.buf p [0]
      let s := cstrAt buf key
      let exptime := match scanDigits s with
        | none => 0
        | some r => toUt64 r.1
      let r ← api.remove st (CStr.ofBytes s) exptime
      let reply := if r.1 then txt ['D', 'E', 'L', 'E', 'T', 'E', 'D'] ++ crlf else notFound
      some ⟨0, { c with buf := buf, exptime := exptime }, r.2, if noreply then [] else [reply]⟩

/-- A request line.  `nfds`, `tfds`, `bread` and `bwrite` are counters of the server. -/
def handleLine (nfds tfds bread bwrite : Nat) (c : Client) (st : σ) : Option (Handled σ) :=
  let (c, key, p) := splitLine c
  let c := { c with buf := strtolower c.buf }
  let cmdhash := sdbHash (CStr.ofBytes (cstrAt c.buf 0))
  match Cmd.ofHash cmdhash with
  | some .flushAll => (api.flush st).map fun st ↦ ⟨0, c, st, [okLine]⟩
  | some .verbosity => some ⟨0, c, st, [okLine]⟩
  | some .quit => some ⟨-1, c, st, []⟩
  | some .get =>
      match key with
      | none => some ⟨0, c, st, []⟩
      | some key =>
          (handleGet api st c.buf key false).map fun r ↦ ⟨0, { c with buf := r.2.2 }, r.2.1, r.1⟩
  | some .gets =>
      match key with
      | none => some ⟨0, c, st, [errorLine]⟩
      | some key =>
          (handleGet api st c.buf key true).map fun r ↦ ⟨0, { c with buf := r.2.2 }, r.2.1, r.1⟩
  | some .touch => handleTouch api c st key p
  | some .incr => handleNum api.incr c st key p
  | some .decr => handleNum api.decr c st key p
  | some .stats => some ⟨0, c, st, statsLines (api.stats st) nfds tfds bread bwrite⟩
  | some .version =>
      some ⟨0, c, st, [txt ['V', 'E', 'R', 'S', 'I', 'O', 'N', ' ', '0', '.', '1'] ++ crlf]⟩
  | some .delete => handleDelete api c st key
  | some .add | some .set | some .append | some .prepend | some .replace =>
      some (handleStore c st cmdhash key p)
  | some .cas => some ⟨0, c, st, []⟩
  | none => some ⟨0, c, st, [errorLine]⟩

/-- `protocol_handle`, on the buffer of the client. -/
def protocolHandle (nfds tfds bread bwrite : Nat) (c : Client) (st : σ) : Option (Handled σ) :=
  if c.buf.head? = some 0 then some ⟨0, c, st, []⟩
  else if c.mode = 1 then do
    let buf := poke c.buf (c.len - 1) [0]
    let r ← storeBody api c.cmdhash st c.key (CStr.ofBytes (cstrAt buf 0)) c.exptime
    let reply := if r.1 then txt ['S', 'T', 'O', 'R', 'E', 'D']
      else txt ['N', 'O', 'T', '_', 'S', 'T', 'O', 'R', 'E', 'D']
    some ⟨1, { c with buf := buf, mode := 0, idx := c.next, cmdhash := 0 }, r.2, [reply ++ crlf]⟩
  else handleLine api nfds tfds bread bwrite c st

end SdbStore.Mcsdb
