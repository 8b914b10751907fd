import Mathlib.Logic.Function.Basic
import SdbStore.Mcsdb.Protocol

/-!
# The server loop of mcsdbd

`net.c` and the loop of `main.c`.  All replies go through one buffer, `netbuf`, which is written to
the descriptor of the client at hand.  `step` is the program from one system call to the next ones;
what the system calls return is given to it (`Ret`), so that every interleaving of the clients is a
sequence of steps.

Three things are kept that the code does not keep: for each byte of `netbuf` the client it was
printed for, the connection behind each descriptor, and what has been written to which connection.
A datagram over UDP may change the database in any way, and nothing is printed for it.
-/

namespace SdbStore.Mcsdb

open Lib

/-! ## `net.c` -/

/-- What `write` returns. -/
inductive WriteRet where
  | wrote (n : Nat)
  | intr
  | fail

/-- `net_write_all`: whether it succeeds, what has been written, and what the calls of `write` after
it return. -/
def netWriteAll {β : Type} : List WriteRet → List β → Option (Bool × List β × List WriteRet)
  | rets, [] => some (true, [], rets)
  | [], _ :: _ => none
  | .fail :: rets, _ :: _ => some (false, [], rets)
  | .intr :: rets, b :: buf => netWriteAll rets (b :: buf)
  | .wrote n :: rets, b :: buf =>
      if n > (b :: buf).length then none
      else if n = 0 then some (false, [], rets)
      else (netWriteAll rets ((b :: buf).drop n)).map fun r ↦ (r.1, (b :: buf).take n ++ r.2.1,
        r.2.2)

/-- A byte with the client that it was printed for. -/
abbrev Tagged := UInt8 × Nat

/-- `netbuf`, and what has been written: each byte with the connection that it was written to. -/
structure Out where
  netbuf : List Tagged
  sent : List (Option Nat × Tagged)

/-- Some bytes have been written to a connection. -/
def Out.write (o : Out) (conn : Option Nat) (bs : List Tagged) : Out :=
  { o with sent := o.sent ++ bs.map (conn, ·) }

/-- `net_flush`, to a descriptor with the connection `conn` behind it. -/
def netFlush (conn : Option Nat) (o : Out) (rets : List WriteRet) :
    Option (Int × Out × List WriteRet) :=
  if o.netbuf = [] then some (0, o, rets)
  else do
    let r ← netWriteAll rets o.netbuf
    let o' := { o.write conn r.2.1 with netbuf := [] }
    some (if r.1 then (o.netbuf.length : Int) else -1, o', r.2.2)

/-- `net_printf`, of a text that is printed for the client `owner`. -/
def netPrintf (conn : Option Nat) (owner : Nat) (text : Bytes) (o : Out) (rets : List WriteRet) :
    Option (Out × List WriteRet) :=
  let out : List Tagged := text.map (·, owner)
  if out.length > maxBuffer then do
    let r ← netFlush conn o rets
    if r.1 < 0 then some r.2
    else do
      let w ← netWriteAll r.2.2 out
      some (r.2.1.write conn w.2.1, w.2.2)
  else if out.length > maxBuffer - o.netbuf.length then do
    let r ← netFlush conn o rets
    if r.1 < 0 then some r.2 else some ({ r.2.1 with netbuf := r.2.1.netbuf ++ out }, r.2.2)
  else some ({ o with netbuf := o.netbuf ++ out }, rets)

/-- Several texts, one after another. -/
def netPrintAll (conn : Option Nat) (owner : Nat) :
    List Bytes → Out → List WriteRet → Option (Out × List WriteRet)
  | [], o, rets => some (o, rets)
  | text :: texts, o, rets => do
      let r ← netPrintf conn owner text o rets
      netPrintAll conn owner texts r.1 r.2

/-! ## Reading -/

/-- What `mcsdb_client_state` comes to: what it returns, the client after it, and what it adds to
the bytes read. -/
structure Fed where
  ret : Bool
  client : Client
  bread : Nat

/-- The beginning of `mcsdb_client_state`: what is behind the last line is moved to the front, and a
buffer that is full is emptied. -/
def shiftBuf (c : Client) : Client :=
  let c :=
    if c.next > 0 then
      let s := cstrAt c.buf c.next
      { c with buf := poke c.buf 0 (s ++ [0]), idx := s.length, next := 0 }
    else c
  if c.len + c.idx ≥ maxBuffer then { c with buf := poke c.buf 0 [0], idx := 0 } else c

/-- Mode 0 of `mcsdb_client_state`: one `read`, and the first line is cut out. -/
def readLine (c : Client) (rd : Option Bytes) : Option Fed :=
  match rd with
  | none => some ⟨true, c, 0⟩
  | some bs =>
      if bs.length > maxBuffer - 1 - c.idx then none
      else
        let buf := poke c.buf c.idx (bs ++ [0])
        match strchrAt buf c.idx 10 with
        | some p =>
            let buf := poke buf p [0]
            let buf := if 1 < p ∧ buf[p - 1]? = some 13 then poke buf (p - 1) [0] else buf
            some ⟨true, { c with buf := buf, next := p + 1, idx := c.idx + bs.length }, 0⟩
        | none => some ⟨true, { c with buf := buf, idx := c.idx + bs.length }, bs.length⟩

/-- The end of mode 1. -/
def endBody (c : Client) (r : Nat) : Fed :=
  let c := { c with idx := c.idx + r, buf := poke c.buf (c.idx + r) [0] }
  ⟨c.idx = c.len, c, 0⟩

/-- A body that did not come in one piece; at the end of the input what is behind the body is taken
for it. -/
def shortBody (c : Client) (r : Option Nat) : Fed :=
  let c := { c with buf := poke c.buf (maxBuffer - 1) [0], idx := 0 }
  if r = some 0 then
    let s := (cstrAt c.buf c.len).take (maxBuffer - 1)
    let buf := poke c.buf 0 (s ++ List.replicate (maxBuffer - 1 - s.length) 0)
    ⟨true, { c with buf := buf, len := (cstrAt buf 0).length }, 0⟩
  else ⟨false, c, 0⟩

/-- Mode 1 of `mcsdb_client_state`: one `read` for what is missing of the body. -/
def readBody (c : Client) (rd : Option Bytes) : Option Fed :=
  let c := if c.idx > c.len then { c with idx := 0 } else c
  let rlen := c.len - c.idx
  if rlen > maxBuffer - 1 - c.idx then
    some ⟨false, { c with buf := poke c.buf 0 [0], idx := 0, len := 0 }, 0⟩
  else if rlen > 0 ∧ c.len > 0 then
    match rd with
    | none => some (shortBody c none)
    | some bs =>
        if bs.length > rlen then none
        else
          let c := { c with buf := poke c.buf c.idx bs }
          some (if bs.length ≠ rlen then shortBody c (some bs.length) else endBody c bs.length)
  else some (endBody c 0)

/-- `mcsdb_client_state`; `rd` is what `read` returns, if it is called.  Nothing sets a mode other
than 0 and 1. -/
def clientState (c : Client) (rd : Option Bytes) : Option Fed :=
  let c := shiftBuf c
  match c.mode with
  | 0 => readLine c rd
  | 1 => readBody c rd
  | _ => none

/-! ## The loop -/

/-- `struct pollfd`. -/
structure PollFd where
  fd : Nat
  revents : Nat

/-- `POLLHUP`. -/
def pollHup : Nat := 0x10

/-- `MCSDB_MAX_CLIENTS`. -/
def maxClients : Nat := 16

/-- The place in `net_loop`. -/
inductive Pc where
  | poll
  | accept
  | udp
  | scan (i : Nat)
  | serve (i : Nat)
  | flush (i : Nat)

/-- The server: `McSdb`, the static variables and the local ones.  `udp` says whether there is a
socket for UDP, `conns` what is behind the descriptors, and `ids` how many connections there have
been. -/
structure Server (σ : Type) where
  store : σ
  fds : Nat → PollFd
  msc : Nat → Client
  nfds : Nat
  tfds : Nat
  udp : Bool
  bread : Nat
  bwrite : Nat
  out : Out
  conns : Nat → Option Nat
  ids : Nat
  pc : Pc

/-- What the system calls of one step return: `poll` the events of the descriptors or nothing,
`accept` a descriptor or nothing, a datagram a new state of the database, `read` some bytes or an
error. -/
structure Ret (σ : Type) where
  poll : Option (Nat → Nat)
  accept : Option Nat
  udp : σ
  read : Option Bytes
  writes : List WriteRet

variable {σ : Type}

/-- `i0`, the first client. -/
def Server.i0 (st : Server σ) : Nat := if st.udp then 2 else 1

/-- `mcsdb_client_new_fd`. -/
def clientNewFd (id fd : Nat) : Client where
  id := id
  fd := fd
  mode := 0
  len := 0
  idx := 0
  next := 0
  cmdhash := 0
  buf := List.replicate maxBuffer 0
  exptime := 0
  key := CStr.empty

/-- `ms->fds[i].revents = n`. -/
def Server.setRevents (st : Server σ) (i n : Nat) : Server σ :=
  { st with fds := Function.update st.fds i { st.fds i with revents := n } }

/-- `fds_add`. -/
def fdsAdd (st : Server σ) (fd : Nat) : Bool × Server σ :=
  if st.nfds > maxClients then (false, st)
  else
    (true, { st with
      fds := Function.update st.fds st.nfds { st.fds st.nfds with fd := fd }
      msc := Function.update st.msc st.nfds (clientNewFd st.ids fd)
      nfds := st.nfds + 1
      tfds := st.tfds + 1 })

/-- A descriptor that `accept` may return: one that is not open. -/
def Server.Unused (st : Server σ) (fd : Nat) : Prop :=
  st.conns fd = none ∧ ∀ i < st.i0, (st.fds i).fd ≠ fd

instance (st : Server σ) (fd : Nat) : Decidable (st.Unused fd) :=
  inferInstanceAs (Decidable (_ ∧ _))

/-- `net_close`. -/
def Server.close (st : Server σ) (fd : Nat) : Server σ :=
  { st with conns := Function.update st.conns fd none }

/-- `mcsdb_client_accept`. -/
def clientAccept (st : Server σ) (cfd : Option Nat) : Option (Server σ) :=
  match cfd with
  | none => some st
  | some fd =>
      if st.Unused fd then
        let r := fdsAdd { st with conns := Function.update st.conns fd (some st.ids) } fd
        some (if r.1 then { r.2.setRevents 0 0 with ids := st.ids + 1 }
          else { r.2.close fd with ids := st.ids + 1 })
      else none

/-- `fds_del`: the client is closed and freed. -/
def fdsDel (st : Server σ) (fd : Nat) : Server σ :=
  match (List.range st.nfds).find? fun i ↦ (st.fds i).fd = fd with
  | none => st
  | some i =>
      { st.close fd with
        fds := fun j ↦ if i ≤ j ∧ j + 1 < st.nfds then st.fds (j + 1) else st.fds j
        msc := fun j ↦ if i ≤ j ∧ j + 1 < st.nfds then st.msc (j + 1) else st.msc j
        nfds := st.nfds - 1 }

/-- The two places where a client is given up. -/
def dropClient (st : Server σ) (i : Nat) : Server σ :=
  { (fdsDel st (st.msc i).fd).setRevents i 0 with pc := .scan st.i0 }

variable (api : McApi σ)

/-- One round of the `do` loop over a client. -/
def serve (st : Server σ) (i : Nat) (r : Ret σ) : Option (Server σ) := do
  let fed ← clientState (st.msc i) r.read
  let bread := st.bread + fed.bread
  let h ← protocolHandle api st.nfds st.tfds bread st.bwrite fed.client st.store
  let o ← netPrintAll (st.conns h.client.fd) h.client.id h.replies st.out r.writes
  let st := { st with store := h.store, bread := bread, out := o.1 }
  let put (c : Client) (pc : Pc) : Server σ :=
    { st with msc := Function.update st.msc i c, pc := pc }
  if h.ret = -1 then some (dropClient (put h.client st.pc) i)
  else if h.ret = 0 then some (put { h.client with idx := 0, next := 0 } (.flush i))
  else some (put h.client (if fed.ret then .serve i else .flush i))

/-- What follows the `do` loop. -/
def flushClient (st : Server σ) (i : Nat) (r : Ret σ) : Option (Server σ) := do
  let f ← netFlush (st.conns (st.fds i).fd) st.out r.writes
  let st := { st with out := f.2.1, bwrite := st.bwrite + f.1.toNat }
  if (st.fds i).revents &&& pollHup ≠ 0 then some (dropClient st i)
  else some { st with pc := .scan (i + 1) }

/-- One step of `net_loop`. -/
def step (st : Server σ) (r : Ret σ) : Option (Server σ) :=
  match st.pc with
  | .poll =>
      let events : Nat → Nat := r.poll.getD fun _ ↦ 0
      some { st with
        fds := fun i ↦ if i < st.nfds then { st.fds i with revents := events i } else st.fds i
        pc := if r.poll.isSome then .accept else .poll }
  | .accept =>
      if (st.fds 0).revents ≠ 0 then (clientAccept st r.accept).map fun st ↦ { st with pc := .udp }
      else some { st with pc := .udp }
  | .udp =>
      let store := if st.udp ∧ (st.fds 1).revents ≠ 0 then r.udp else st.store
      some { st with store := store, pc := .scan st.i0 }
  | .scan i =>
      if i < st.nfds then
        some { st with pc := if (st.fds i).revents = 0 then .scan (i + 1) else .serve i }
      else some { st with pc := .poll }
  | .serve i => serve api st i r
  | .flush i => flushClient st i r

end SdbStore.Mcsdb
