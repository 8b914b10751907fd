import SdbStore.Lib.Runs
import SdbStore.Mcsdb.Memcache
import SdbStore.Mcsdb.Server
import SdbStore.NumLaws

/-!
# Where the reads cut the requests

One client and what it sends, in the pieces that arrive.  A line is handled after every `read`,
whether its end has been read or not, so a request that arrives byte by byte is a request for each
of its bytes: the pieces decide what is replied, unless there is no request at all
(`cutIndependent_iff`).
-/

namespace SdbStore.Mcsdb

open Lib

/-! ## One client -/

/-- The size of the `read` that `mcsdb_client_state` makes, if it makes one. -/
def readSize (c : Client) : Option Nat :=
  let c := shiftBuf c
  match c.mode with
  | 0 => some (maxBuffer - 1 - c.idx)
  | 1 =>
      let c := if c.idx > c.len then { c with idx := 0 } else c
      let rlen := c.len - c.idx
      if rlen > maxBuffer - 1 - c.idx then none
      else if rlen > 0 ∧ c.len > 0 then some rlen else none
  | _ => none

/-- `read` of what has arrived: one piece at most, and what does not fit stays. -/
def recv (rlen : Nat) : List Bytes → Option (Bytes × List Bytes)
  | [] => none
  | piece :: rest =>
      some (piece.take rlen, if piece.length > rlen then piece.drop rlen :: rest else rest)

/-- A client in `net_loop`, and the pieces that have arrived and have not been read.  `again` says
that the `do` loop goes on, and `gone` that the client has quit. -/
structure Session (σ : Type) where
  client : Client
  store : σ
  pending : List Bytes
  again : Bool
  gone : Bool
  replies : List Bytes

/-- The counters that `stats` prints. -/
structure Counters where
  nfds : Nat
  tfds : Nat
  bread : Nat
  bwrite : Nat

variable {σ : Type}

/-- Nothing happens any more: the client has quit, or `poll` or `read` waits for it. -/
def Session.Done (s : Session σ) : Prop :=
  s.gone ∨ s.pending = [] ∧ (s.again = false ∨ (readSize s.client).isSome)

variable (api : McApi σ)

/-- A client is handled after `mcsdb_client_state`. -/
def Session.handle (s : Session σ) (n : Counters) (fed : Fed) (pending : List Bytes) :
    Option (Session σ) := do
  let h ← protocolHandle api n.nfds n.tfds (n.bread + fed.bread) n.bwrite fed.client s.store
  let s := { s with store := h.store, pending := pending, replies := s.replies ++ h.replies }
  if h.ret = -1 then some { s with client := h.client, gone := true }
  else if h.ret = 0 then
    some { s with client := { h.client with idx := 0, next := 0 }, again := false }
  else some { s with client := h.client, again := fed.ret }

/-- One round of the `do` loop, if there is anything to do. -/
def Session.turn (s : Session σ) (n : Counters) : Option (Session σ) :=
  if s.gone ∨ s.pending = [] ∧ s.again = false then none
  else
    match readSize s.client with
    | none => do
        let fed ← clientState s.client none
        s.handle api n fed s.pending
    | some rlen => do
        let r ← recv rlen s.pending
        let fed ← clientState s.client (some r.1)
        s.handle api n fed r.2

/-- A client that has just connected, and what it is going to send. -/
def Session.start (id fd : Nat) (st : σ) (pieces : List Bytes) : Session σ where
  client := clientNewFd id fd
  store := st
  pending := pieces
  again := false
  gone := false
  replies := []

/-- What the pieces come to: the replies and the database. -/
def Outcome (id fd : Nat) (st : σ) (pieces : List Bytes) (r : List Bytes × σ) : Prop :=
  ∃ s, Runs (Session.turn api) (fun _ _ ↦ True) (Session.start id fd st pieces) s ∧ s.Done ∧
    r = (s.replies, s.store)

/-- A stream in pieces that are not empty. -/
def IsCut (stream : Bytes) (pieces : List Bytes) : Prop := [] ∉ pieces ∧ pieces.flatten = stream

/-- It does not matter where a stream is cut. -/
def CutIndependent (id fd : Nat) (st : σ) (stream : Bytes) : Prop :=
  ∀ pieces pieces', IsCut stream pieces → IsCut stream pieces' →
    ∀ r, Outcome api id fd st pieces r ↔ Outcome api id fd st pieces' r

/-! ## Requests -/

/-- A key: no spaces and no control characters. -/
def Key := { k : Bytes // k ≠ [] ∧ ∀ c ∈ k, 32 < c ∧ c ≠ 127 }

/-- The commands with a body. -/
inductive StoreCmd where
  | set | add | append | prepend | replace

/-- Their names. -/
def StoreCmd.cmd : StoreCmd → Cmd
  | .set => .set
  | .add => .add
  | .append => .append
  | .prepend => .prepend
  | .replace => .replace

/-- The requests that are well formed. -/
inductive Request where
  | get (key : Key) (keys : List Key)
  | store (cmd : StoreCmd) (key : Key) (flags exptime : Nat) (noreply : Bool) (body : Bytes)
  | incr (key : Key) (n : Nat) (noreply : Bool)
  | decr (key : Key) (n : Nat) (noreply : Bool)
  | delete (key : Key) (noreply : Bool)

/-- The word at the end of a line. -/
def noreplyWord (noreply : Bool) : Bytes :=
  if noreply then txt [' ', 'n', 'o', 'r', 'e', 'p', 'l', 'y'] else []

/-- The command of a request. -/
def Request.cmd : Request → Cmd
  | .get _ _ => .get
  | .store cmd _ _ _ _ _ => cmd.cmd
  | .incr _ _ _ => .incr
  | .decr _ _ _ => .decr
  | .delete _ _ => .delete

/-- What stands behind the command and a space. -/
def Request.args : Request → Bytes
  | .get key keys => key.val ++ keys.flatMap fun k ↦ 32 :: k.val
  | .store _ key flags exptime noreply body =>
      key.val ++ 32 :: num flags ++ 32 :: num exptime ++ 32 :: num body.length ++
        noreplyWord noreply
  | .incr key n noreply | .decr key n noreply => key.val ++ 32 :: num n ++ noreplyWord noreply
  | .delete key noreply => key.val ++ noreplyWord noreply

/-- The line of a request. -/
def Request.line (q : Request) : Bytes := q.cmd.name ++ 32 :: q.args

/-- The body of a request, with its end. -/
def Request.bodyBytes : Request → Bytes
  | .store _ _ _ _ _ body => body ++ crlf
  | _ => []

/-- What is sent for a request. -/
def Request.bytes (q : Request) : Bytes := q.line ++ crlf ++ q.bodyBytes

/-- Its line and its body are not too long. -/
def Request.Fits (q : Request) : Prop :=
  q.line.length ≤ maxBuffer - 2 ∧
    match q with
    | .store _ _ _ _ _ body => body.length ≤ maxBuffer - 2
    | _ => True

/-- What is sent for several requests. -/
def stream (qs : List Request) : Bytes := qs.flatMap Request.bytes

/-! ## Byte by byte -/

/-- A client that is between two requests. -/
structure Client.Fresh (c : Client) : Prop where
  mode : c.mode = 0
  idx : c.idx = 0
  next : c.next = 0
  len : c.len < maxBuffer

theorem clientNewFd_fresh (id fd : Nat) : (clientNewFd id fd).Fresh := by
  have hlen : 0 < maxBuffer := by decide
  exact ⟨rfl, rfl, rfl, hlen⟩

theorem Client.Fresh.shiftBuf {c : Client} (h : c.Fresh) : shiftBuf c = c := by
  have hnext : ¬ c.next > 0 := by
    rw [h.next]
    exact lt_irrefl 0
  have hfull : ¬ c.len + c.idx ≥ maxBuffer := by
    rw [h.idx]
    exact not_le.mpr h.len
  simp only [Mcsdb.shiftBuf, if_neg hnext, if_neg hfull]

theorem Client.Fresh.readSize {c : Client} (h : c.Fresh) : readSize c = some (maxBuffer - 1) := by
  rw [Mcsdb.readSize, h.shiftBuf]
  simp only [h.mode, h.idx, Nat.sub_zero]

/-- The string in a buffer in front of the first NUL. -/
theorem cstrAt_zero (s rest : Bytes) : cstrAt (s ++ 0 :: rest) 0 = s.takeWhile (· ≠ 0) := by
  rw [cstrAt, List.drop_zero]
  induction s with
  | nil => rfl
  | cons b s ih =>
      by_cases hb : b = 0
      · simp [hb]
      · rw [List.cons_append, List.takeWhile_cons_of_pos (by simpa using hb), ih,
          List.takeWhile_cons_of_pos (by simpa using hb)]

theorem takeWhile_of_notMem {s : Bytes} (hs : (0 : UInt8) ∉ s) : s.takeWhile (· ≠ 0) = s := by
  rw [List.takeWhile_eq_self_iff]
  intro b hb
  simpa using fun h : b = 0 ↦ hs (h ▸ hb)

theorem strchrAt_eq_none {buf : Bytes} {i : Nat} {c : UInt8} (h : c ∉ cstrAt buf i) :
    strchrAt buf i c = none := by
  rw [strchrAt, Option.map_eq_none_iff, List.idxOf?_eq_none_iff]
  exact h

theorem Client.Fresh.clientState_eq {c : Client} (h : c.Fresh) (rd : Option Bytes) :
    clientState c rd = readLine c rd := by
  rw [clientState, h.shiftBuf]
  simp only [h.mode]

/-- What a client that is between two requests reads: no end of a line. -/
theorem Client.Fresh.clientState {c : Client} (h : c.Fresh) {bs : Bytes}
    (hlen : bs.length ≤ maxBuffer - 1) (hnl : 10 ∉ bs.takeWhile (· ≠ 0)) :
    clientState c (some bs) = some ⟨true,
      { c with buf := bs ++ 0 :: c.buf.drop (bs.length + 1), idx := bs.length }, bs.length⟩ := by
  have hpoke : poke c.buf 0 (bs ++ [0]) = bs ++ 0 :: c.buf.drop (bs.length + 1) := by
    simp [poke]
  have hnone : strchrAt (bs ++ 0 :: c.buf.drop (bs.length + 1)) 0 10 = none := by
    refine strchrAt_eq_none ?_
    rwa [cstrAt_zero]
  rw [h.clientState_eq, readLine]
  simp only [h.idx, Nat.sub_zero, if_neg (not_lt.mpr hlen), hpoke, hnone, Nat.zero_add]

/-- The end of a line alone. -/
theorem Client.Fresh.clientState_nl {c : Client} (h : c.Fresh) :
    Mcsdb.clientState c (some [10]) = some ⟨true,
      { c with buf := 0 :: 0 :: c.buf.drop 2, idx := 1, next := 1 }, 0⟩ := by
  have hpoke : poke c.buf 0 ([10] ++ [0]) = 10 :: 0 :: c.buf.drop 2 := by
    simp [poke]
  have hsome : strchrAt (10 :: 0 :: c.buf.drop 2) 0 10 = some 0 := by
    simp [strchrAt, cstrAt, List.idxOf?]
  have hend : poke (10 :: 0 :: c.buf.drop 2) 0 [0] = 0 :: 0 :: c.buf.drop 2 := by
    simp [poke]
  rw [h.clientState_eq, readLine]
  simp only [h.idx, Nat.sub_zero, List.length_singleton, hpoke, hsome, hend, Nat.zero_add]
  rw [if_neg (by decide), if_neg fun hp ↦ absurd hp.1 (by decide)]

/-- What is replied to the bytes of a text, one after another. -/
def errorsFor (bs : Bytes) : List Bytes :=
  List.replicate (bs.countP fun b ↦ b ≠ 0 ∧ b ≠ 10) errorLine

theorem errorsFor_append (bs bs' : Bytes) :
    errorsFor (bs ++ bs') = errorsFor bs ++ errorsFor bs' := by
  rw [errorsFor, List.countP_append, List.replicate_add]
  rfl

/-- No command is one byte long. -/
theorem ofHash_byte (b : UInt8) : Cmd.ofHash (sdbHash (CStr.ofBytes [b])) = none := by
  have hall : ∀ n < 256, Cmd.ofHash (sdbHash (CStr.ofBytes [UInt8.ofNat n])) = none := by
    decide +kernel
  simpa using hall b.toNat (UInt8.toNat_lt b)

/-- Cutting a line up does not change where the client is. -/
theorem splitLine_keeps (c : Client) :
    (splitLine c).1.mode = c.mode ∧ (splitLine c).1.len = c.len := by
  rw [splitLine]
  split
  · exact ⟨rfl, rfl⟩
  · exact ⟨rfl, rfl⟩

theorem splitLine_next (c : Client) : (splitLine c).1.next = c.next := by
  rw [splitLine]
  split
  · rfl
  · rfl

theorem splitLine_none {c : Client} (h : strchrAt c.buf 0 32 = none) :
    splitLine c = (c, none, none) := by
  rw [splitLine, h]

theorem splitLine_some {c : Client} {sp : Nat} (h : strchrAt c.buf 0 32 = some sp) :
    (splitLine c).1.buf = poke c.buf sp [0] ∧ (splitLine c).2.1 = some (sp + 1) := by
  rw [splitLine, h]
  exact ⟨rfl, rfl⟩

theorem cstrAt_strtolower_byte (b : UInt8) (rest : Bytes) :
    cstrAt (strtolower (b :: 0 :: rest)) 0 = if b = 0 then [] else [toLower b] := by
  by_cases hb : b = 0
  · subst hb
    rfl
  · have hstr : cstrAt (b :: 0 :: rest) 0 = [b] := by
      simp [cstrAt, hb]
    have hlow : toLower b ≠ 0 := by
      rw [toLower]
      split
      · next h =>
          have h65 : 65 ≤ b.toNat := h.1
          have h90 : b.toNat ≤ 90 := h.2
          intro h0
          have h0' := congrArg UInt8.toNat h0
          rw [UInt8.toNat_add] at h0'
          change (b.toNat + 32) % 256 = 0 at h0'
          omega
      · exact hb
    rw [strtolower, hstr, if_neg hb]
    simp [poke, cstrAt, hlow]

section Turn

variable {api} {n : Counters} {s : Session σ}

/-- A piece that is read as a whole. -/
theorem turn_piece {rlen : Nat} (hsize : readSize s.client = some rlen) (hgone : s.gone = false)
    {piece : Bytes} {rest : List Bytes} (hpending : s.pending = piece :: rest)
    (hlen : piece.length ≤ rlen) :
    s.turn api n = (clientState s.client (some piece)).bind fun fed ↦ s.handle api n fed rest := by
  have hrecv : recv rlen s.pending = some (piece, rest) := by
    rw [hpending, recv, if_neg (not_lt.mpr hlen), List.take_of_length_le hlen]
  rw [Session.turn, if_neg (by simp [hgone, hpending]), hsize]
  simp only [hrecv]
  rfl

/-- After a request on which `protocol_handle` returns 0 the client is between two requests. -/
theorem handle_fresh {fed : Fed} {pending : List Bytes} {c : Client} {st : σ} {replies : List Bytes}
    (hh : protocolHandle api n.nfds n.tfds (n.bread + fed.bread) n.bwrite fed.client s.store =
      some ⟨0, c, st, replies⟩) (hmode : c.mode = 0) (hlen : c.len < maxBuffer) :
    ∃ c', c'.Fresh ∧ s.handle api n fed pending = some { s with
      client := c'
      store := st
      pending := pending
      again := false
      replies := s.replies ++ replies } := by
  refine ⟨{ c with idx := 0, next := 0 }, ⟨hmode, rfl, rfl, hlen⟩, ?_⟩
  rw [Session.handle, hh]
  rfl

/-- A line of one byte is an error. -/
theorem protocolHandle_byte (api : McApi σ) (nfds tfds bread bwrite : Nat) (c : Client) (st : σ)
    {b : UInt8} {rest : Bytes} (hb : b ≠ 0) (hmode : c.mode = 0) (hbuf : c.buf = b :: 0 :: rest) :
    ∃ c', protocolHandle api nfds tfds bread bwrite c st = some ⟨0, c', st, [errorLine]⟩ ∧
      c'.mode = c.mode ∧ c'.len = c.len := by
  have hword : ∃ d, (splitLine c).1.buf = d :: 0 :: rest := by
    by_cases hspace : b = 32
    · subst hspace
      have hsp : strchrAt c.buf 0 32 = some 0 := by
        simp [hbuf, strchrAt, cstrAt, List.idxOf?]
      rw [(splitLine_some hsp).1, hbuf]
      exact ⟨0, rfl⟩
    · have hsp : strchrAt c.buf 0 32 = none := by
        refine strchrAt_eq_none ?_
        simpa [hbuf, cstrAt, hb] using Ne.symm hspace
      rw [splitLine_none hsp, hbuf]
      exact ⟨b, rfl⟩
  obtain ⟨d, hd⟩ := hword
  obtain ⟨hmode', hlen⟩ := splitLine_keeps c
  have hcmd : Cmd.ofHash (sdbHash (CStr.ofBytes (cstrAt (strtolower (splitLine c).1.buf) 0))) =
      none := by
    rw [hd, cstrAt_strtolower_byte]
    split
    · decide
    · exact ofHash_byte _
  refine ⟨{ (splitLine c).1 with buf := strtolower (splitLine c).1.buf }, ?_, hmode', hlen⟩
  rw [protocolHandle, if_neg (by simpa [hbuf] using hb), if_neg (by simp [hmode])]
  unfold handleLine
  generalize splitLine c = s at hcmd ⊢
  obtain ⟨c₁, key, p⟩ := s
  dsimp only at hcmd ⊢
  simp only [hcmd]

/-- A byte that arrives alone: an error, unless it is a NUL or the end of a line. -/
theorem turn_byte (api : McApi σ) (hfresh : s.client.Fresh) (hgone : s.gone = false) {b : UInt8}
    {rest : List Bytes} (hpending : s.pending = [b] :: rest) :
    ∃ c', c'.Fresh ∧ s.turn api n = some { s with
      client := c'
      pending := rest
      again := false
      replies := s.replies ++ errorsFor [b] } := by
  have hone : [b].length ≤ maxBuffer - 1 := by
    rw [List.length_singleton]
    decide
  rw [turn_piece hfresh.readSize hgone hpending hone]
  by_cases hnl : b = 10
  · subst hnl
    rw [hfresh.clientState_nl, Option.bind_some]
    exact handle_fresh rfl hfresh.mode hfresh.len
  · have hstr : (10 : UInt8) ∉ [b].takeWhile (· ≠ 0) := by
      intro h10
      exact hnl (List.mem_singleton.mp ((List.takeWhile_sublist _).subset h10)).symm
    rw [hfresh.clientState hone hstr, Option.bind_some]
    by_cases hb : b = 0
    · subst hb
      exact handle_fresh rfl hfresh.mode hfresh.len
    · have herror : errorsFor [b] = [errorLine] := by
        simp [errorsFor, hb, hnl]
      rw [herror]
      obtain ⟨c', hline, hmode, hlen⟩ :=
        protocolHandle_byte api n.nfds n.tfds (n.bread + 1) n.bwrite
        { s.client with buf := [b] ++ 0 :: s.client.buf.drop 2, idx := 1 } s.store hb hfresh.mode
          rfl
      exact handle_fresh hline (hmode.trans hfresh.mode) (hlen.trans_lt hfresh.len)

/-- Only single bytes are still to come: `total` is what will have been replied in the end. -/
structure Session.Bytewise (total : List Bytes) (st : σ) (s : Session σ) : Prop where
  fresh : s.client.Fresh
  gone : s.gone = false
  again : s.again = false
  store : s.store = st
  bytes : ∃ bs : Bytes, s.pending = bs.map ([·]) ∧ s.replies ++ errorsFor bs = total

variable {total : List Bytes} {st : σ}

theorem Session.Bytewise.turn (h : s.Bytewise total st) (api : McApi σ) (n : Counters) {b : UInt8}
    {bs : Bytes} (hpending : s.pending = ([b] : Bytes) :: bs.map ([·]))
    (htotal : s.replies ++ errorsFor (b :: bs) = total) :
    ∃ s', s.turn api n = some s' ∧ s'.Bytewise total st ∧ s'.pending = bs.map ([·]) ∧
      s'.replies ++ errorsFor bs = total := by
  obtain ⟨c', hfresh, hturn⟩ := turn_byte (n := n) api h.fresh h.gone hpending
  have htotal' : s.replies ++ errorsFor [b] ++ errorsFor bs = total := by
    rw [← htotal, List.append_assoc, ← errorsFor_append]
    rfl
  exact ⟨_, hturn, ⟨hfresh, h.gone, rfl, h.store, bs, rfl, htotal'⟩, rfl, htotal'⟩

theorem Session.Bytewise.keeps {s' : Session σ} (h : s.Bytewise total st)
    (hrun : Runs (Session.turn api) (fun _ _ ↦ True) s s') : s'.Bytewise total st := by
  refine hrun.keeps (fun s n s' hs _ hturn ↦ ?_) h
  obtain ⟨bs, hpending, htotal⟩ := hs.bytes
  cases bs with
  | nil =>
      rw [Session.turn, if_pos (.inr ⟨hpending, hs.again⟩)] at hturn
      cases hturn
  | cons b bs =>
      obtain ⟨s₁, hs₁, hbytewise, -⟩ := hs.turn api n hpending htotal
      rw [hturn] at hs₁
      cases hs₁
      exact hbytewise

theorem Session.Bytewise.done (h : s.Bytewise total st) (hdone : s.Done) :
    (s.replies, s.store) = (total, st) := by
  obtain ⟨bs, hpending, htotal⟩ := h.bytes
  rcases hdone with hgone | ⟨hempty, -⟩
  · rw [h.gone] at hgone
    cases hgone
  · rw [hempty] at hpending
    rw [List.map_eq_nil_iff.mp hpending.symm] at htotal
    rw [← htotal, h.store, errorsFor, List.countP_nil, List.replicate_zero, List.append_nil]

theorem Session.Bytewise.ends (api : McApi σ) (h : s.Bytewise total st) :
    ∃ s', Runs (Session.turn api) (fun _ _ ↦ True) s s' ∧ s'.Done := by
  obtain ⟨bs, hpending, htotal⟩ := h.bytes
  induction bs generalizing s with
  | nil => exact ⟨s, .refl, .inr ⟨hpending, .inl h.again⟩⟩
  | cons b bs ih =>
      obtain ⟨s₁, hs₁, hbytewise, hpending₁, htotal₁⟩ := h.turn api ⟨0, 0, 0, 0⟩ hpending htotal
      obtain ⟨s', hrun, hdone⟩ := ih hbytewise hpending₁ htotal₁
      exact ⟨s', .head ⟨_, trivial, hs₁⟩ hrun, hdone⟩

end Turn

/-- Byte by byte, every byte of a stream is an error. -/
theorem outcome_bytes (id fd : Nat) (st : σ) (bs : Bytes) (r : List Bytes × σ) :
    Outcome api id fd st (bs.map ([·])) r ↔ r = (errorsFor bs, st) := by
  have hstart : (Session.start id fd st (bs.map ([·]))).Bytewise (errorsFor bs) st :=
    ⟨clientNewFd_fresh id fd, rfl, rfl, rfl, bs, rfl, rfl⟩
  constructor
  · rintro ⟨s, hrun, hdone, rfl⟩
    exact (hstart.keeps hrun).done hdone
  · rintro rfl
    obtain ⟨s, hrun, hdone⟩ := hstart.ends api
    exact ⟨s, hrun, hdone, ((hstart.keeps hrun).done hdone).symm⟩

/-! ## A line in one piece -/

theorem Cmd.name_spec (cmd : Cmd) : 3 ≤ (cmd.name.countP fun b ↦ b ≠ 0 ∧ b ≠ 10) ∧
    (∀ b ∈ cmd.name, b ≠ 0 ∧ b ≠ 10 ∧ b ≠ 32 ∧ toLower b = b) ∧
    Cmd.ofHash (sdbHash (CStr.ofBytes cmd.name)) = some cmd := by
  cases cmd <;> decide +kernel

/-- Where the command ends. -/
theorem strchrAt_name {name : Bytes} (hname : ∀ b ∈ name, b ≠ 0 ∧ b ≠ 32) (rest : Bytes) :
    strchrAt (name ++ 32 :: rest) 0 32 = some name.length := by
  have hstr : (name ++ 32 :: rest).takeWhile (· ≠ 0) = name ++ (32 :: rest).takeWhile (· ≠ 0) :=
    List.takeWhile_append_of_pos fun b hb ↦ by simpa using (hname b hb).1
  have hnone : name.findIdx? (· == 32) = none :=
    List.findIdx?_eq_none_iff.mpr fun b hb ↦ by simpa using (hname b hb).2
  rw [strchrAt, cstrAt, List.drop_zero, hstr, List.idxOf?, List.findIdx?_append, hnone,
    List.takeWhile_cons_of_pos (by decide), List.findIdx?_cons]
  simp

/-- A command in small letters stays as it is. -/
theorem cstrAt_strtolower_name {name : Bytes}
    (hname : ∀ b ∈ name, b ≠ 0 ∧ b ≠ 10 ∧ b ≠ 32 ∧ toLower b = b) (rest : Bytes) :
    cstrAt (strtolower (poke (name ++ 32 :: rest) name.length [0])) 0 = name := by
  have hzero : (0 : UInt8) ∉ name := fun h ↦ (hname 0 h).1 rfl
  have hpoke : poke (name ++ 32 :: rest) name.length [0] = name ++ 0 :: rest := by
    simp [poke, List.drop_append]
  have hstr : cstrAt (name ++ 0 :: rest) 0 = name := by
    rw [cstrAt_zero, takeWhile_of_notMem hzero]
  have hlow : name.map toLower = name := by
    conv_rhs => rw [← List.map_id name]
    exact List.map_congr_left fun b hb ↦ (hname b hb).2.2.2
  rw [hpoke, strtolower, hstr, hlow]
  have hsame : poke (name ++ 0 :: rest) 0 name = name ++ 0 :: rest := by
    simp [poke]
  rw [hsame, hstr]

theorem notMem_num (n : Nat) : (10 : UInt8) ∉ num n := by
  intro h
  obtain ⟨d, hd, h⟩ := mem_digits (by decide) (by decide) h
  interval_cases d <;> exact absurd h (by decide)

theorem notMem_noreplyWord (noreply : Bool) : (10 : UInt8) ∉ noreplyWord noreply := by
  cases noreply <;> decide

theorem Key.notMem (k : Key) : (10 : UInt8) ∉ k.val := by
  intro h
  exact absurd (k.property.2 10 h).1 (by decide)

/-- There is no end of a line in a line. -/
theorem Request.notMem_line (q : Request) : (10 : UInt8) ∉ q.line := by
  have hname : (10 : UInt8) ∉ q.cmd.name := fun h ↦ absurd rfl (q.cmd.name_spec.2.1 10 h).2.1
  have hargs : (10 : UInt8) ∉ q.args := by
    cases q with
    | get key keys =>
        simp [Request.args, key.notMem, Key.notMem]
    | store cmd key flags exptime noreply body =>
        simp [Request.args, key.notMem, notMem_num, notMem_noreplyWord]
    | incr key n noreply | decr key n noreply =>
        simp [Request.args, key.notMem, notMem_num, notMem_noreplyWord]
    | delete key noreply =>
        simp [Request.args, key.notMem, notMem_noreplyWord]
  simp [Request.line, hname, hargs]

/-- A client that waits for a body. -/
structure Client.InBody (c : Client) : Prop where
  mode : c.mode = 1
  idx : c.idx = 0
  next : c.next = 0
  len : 2 ≤ c.len
  max : c.len < maxBuffer

/-- Replies that are not those to the bytes of a line. -/
def NotErrors (replies : List Bytes) : Prop := replies.length ≤ 2 ∨ ∃ x ∈ replies, x ≠ errorLine

theorem NotErrors.ne {replies : List Bytes} (h : NotErrors replies) (q : Request) :
    replies ≠ errorsFor q.line := by
  rintro rfl
  rcases h with hshort | ⟨x, hx, hne⟩
  · have hname := q.cmd.name_spec.1
    rw [errorsFor, List.length_replicate, Request.line, List.countP_append] at hshort
    omega
  · exact hne (List.eq_of_mem_replicate hx)

/-- What a request line comes to: `protocol_handle` is done with it, or waits for the body. -/
inductive Handled.OfLine (h : Handled σ) : Prop
  | done (hret : h.ret = 0) (hmode : h.client.mode = 0) (hlen : h.client.len < maxBuffer)
      (hreplies : NotErrors h.replies)
  | body (hret : h.ret = 1) (hbody : h.client.InBody) (hreplies : h.replies = [])

section Line

variable {api} {c : Client} {st : σ} {h : Handled σ} {key p : Option Nat}

theorem handleStore_ofLine (hmode : c.mode = 0) (hlen : c.len < maxBuffer) (hnext : c.next = 0)
    (cmdhash : Nat) : (handleStore c st cmdhash key p).OfLine := by
  unfold handleStore
  split
  · dsimp only
    split
    · exact .done rfl hmode hlen (.inl (by simp))
    · next bytes _ =>
        split
        · exact .done rfl hmode hlen (.inl (by simp))
        · split
          · exact .done rfl hmode hlen (.inl (by simp))
          · next hmin hmax =>
              have hmax' : bytes.toNat + 1 < maxBuffer := by
                rw [maxBuffer] at hmax ⊢
                omega
              have hmin' : 2 ≤ bytes.toNat + 1 := by omega
              exact .body rfl ⟨rfl, hnext, hnext, hmin', hmax'⟩ rfl
  · exact .done rfl hmode hlen (.inl (by simp))

theorem handleNum_ofLine (hmode : c.mode = 0) (hlen : c.len < maxBuffer)
    {f : σ → CStr → UInt64 → Option (Option CStr × σ)} (hh : handleNum f c st key p = some h) :
    h.OfLine := by
  unfold handleNum at hh
  split at hh
  · obtain ⟨r, -, hh⟩ := Option.bind_eq_some_iff.mp hh
    split at hh <;> cases hh <;> exact .done rfl hmode hlen (.inl (by simp))
  · cases hh
    exact .done rfl hmode hlen (.inl (by simp))

theorem handleDelete_ofLine (hmode : c.mode = 0) (hlen : c.len < maxBuffer)
    (hh : handleDelete api c st key = some h) : h.OfLine := by
  unfold handleDelete at hh
  split at hh
  · cases hh
    exact .done rfl hmode hlen (.inl (by simp))
  · obtain ⟨r, -, hh⟩ := Option.bind_eq_some_iff.mp hh
    cases hh
    have hle (noreply : Bool) (reply : Bytes) :
        (if noreply then [] else [reply]).length ≤ 2 := by
      cases noreply <;> simp
    exact .done rfl hmode hlen (.inl (hle _ _))

theorem handleGet_ofLine (hmode : c.mode = 0) (hlen : c.len < maxBuffer) {buf : Bytes} {k : Nat}
    (hh : (handleGet api st buf k false).map
      (fun r ↦ (⟨0, { c with buf := r.2.2 }, r.2.1, r.1⟩ : Handled σ)) = some h) : h.OfLine := by
  obtain ⟨r, hr, rfl⟩ := Option.map_eq_some_iff.mp hh
  obtain ⟨g, -, hr⟩ := Option.bind_eq_some_iff.mp hr
  cases hr
  refine .done rfl hmode hlen (.inr ⟨txt ['E', 'N', 'D'] ++ crlf, ?_, by decide⟩)
  exact List.mem_append_right _ List.mem_cons_self

/-- A request line that is in the buffer. -/
theorem handleLine_ofLine {nfds tfds bread bwrite : Nat} {q : Request}
    (hbuf : ∃ rest, c.buf = q.line ++ 0 :: rest) (hmode : c.mode = 0) (hlen : c.len < maxBuffer)
    (hnext : c.next = 0) (hh : handleLine api nfds tfds bread bwrite c st = some h) : h.OfLine := by
  obtain ⟨rest, hbuf⟩ := hbuf
  obtain ⟨-, hname, hhash⟩ := q.cmd.name_spec
  have hsp : strchrAt c.buf 0 32 = some q.cmd.name.length := by
    rw [hbuf, Request.line, List.append_assoc]
    exact strchrAt_name (fun b hb ↦ ⟨(hname b hb).1, (hname b hb).2.2.1⟩) _
  obtain ⟨hsplit, hkey⟩ := splitLine_some hsp
  have hword : cstrAt (strtolower (splitLine c).1.buf) 0 = q.cmd.name := by
    rw [hsplit, hbuf, Request.line, List.append_assoc]
    exact cstrAt_strtolower_name hname _
  obtain ⟨hmode', hlen'⟩ := splitLine_keeps c
  have hnext' := splitLine_next c
  rw [← hword] at hhash
  rw [← hmode'] at hmode
  rw [← hlen'] at hlen
  rw [← hnext'] at hnext
  clear hword hsplit hsp hbuf hmode' hlen' hnext'
  unfold handleLine at hh
  generalize splitLine c = s at hh hhash hkey hmode hlen hnext
  obtain ⟨c₁, key, p⟩ := s
  dsimp only at hh hhash hkey hmode hlen hnext
  subst hkey
  generalize Cmd.ofHash (sdbHash (CStr.ofBytes (cstrAt (strtolower c₁.buf) 0))) = cmd at hh hhash
  generalize sdbHash (CStr.ofBytes (cstrAt (strtolower c₁.buf) 0)) = cmdhash at hh
  generalize hc₂ : { c₁ with buf := strtolower c₁.buf } = c₂ at hh
  have hmode₂ : c₂.mode = 0 := hc₂ ▸ hmode
  have hlen₂ : c₂.len < maxBuffer := hc₂ ▸ hlen
  have hnext₂ : c₂.next = 0 := hc₂ ▸ hnext
  subst hhash
  cases q with
  | get key keys => exact handleGet_ofLine hmode hlen hh
  | store cmd key flags exptime noreply body =>
      cases cmd <;> cases hh <;> exact handleStore_ofLine hmode₂ hlen₂ hnext₂ _
  | incr key n noreply => exact handleNum_ofLine hmode₂ hlen₂ hh
  | decr key n noreply => exact handleNum_ofLine hmode₂ hlen₂ hh
  | delete key noreply => exact handleDelete_ofLine hmode₂ hlen₂ hh

variable {s s' : Session σ} {n : Counters} {rest : List Bytes}

/-- A request line that arrives in one piece. -/
theorem turn_line {q : Request} (hfits : q.Fits) (hfresh : s.client.Fresh) (hgone : s.gone = false)
    (hpending : s.pending = q.line :: rest) (hturn : s.turn api n = some s') :
    s'.gone = false ∧ s'.pending = rest ∧
      ((s'.client.Fresh ∧ s'.again = false ∧
          ∃ replies, NotErrors replies ∧ s'.replies = s.replies ++ replies) ∨
        s'.client.InBody) := by
  have hlen : q.line.length ≤ maxBuffer - 1 := hfits.1.trans (by decide)
  have hnl : (10 : UInt8) ∉ q.line.takeWhile (· ≠ 0) :=
    fun h ↦ q.notMem_line ((List.takeWhile_sublist _).subset h)
  rw [turn_piece hfresh.readSize hgone hpending hlen, hfresh.clientState hlen hnl, Option.bind_some]
    at hturn
  obtain ⟨h, hh, hturn⟩ := Option.bind_eq_some_iff.mp hturn
  dsimp only at hturn
  have hline : h.OfLine := by
    unfold protocolHandle at hh
    split at hh
    · cases hh
      exact .done rfl hfresh.mode hfresh.len (.inl (by simp))
    · rw [if_neg (by simp [hfresh.mode])] at hh
      refine handleLine_ofLine (q := q) ?_ ?_ ?_ ?_ hh
      · exact ⟨_, rfl⟩
      · exact hfresh.mode
      · exact hfresh.len
      · exact hfresh.next
  cases hline with
  | done hret hmode hlen hreplies =>
      rw [if_neg (by omega), if_pos hret] at hturn
      cases hturn
      exact ⟨hgone, rfl, .inl ⟨⟨hmode, rfl, rfl, hlen⟩, rfl, h.replies, hreplies, rfl⟩⟩
  | body hret hbody hreplies =>
      rw [if_neg (by omega), if_neg (by omega)] at hturn
      cases hturn
      exact ⟨hgone, rfl, .inr hbody⟩

theorem Client.InBody.shiftBuf (h : c.InBody) : shiftBuf c = c := by
  have hnext : ¬ c.next > 0 := by
    rw [h.next]
    exact lt_irrefl 0
  have hfull : ¬ c.len + c.idx ≥ maxBuffer := by
    rw [h.idx]
    exact not_le.mpr h.max
  simp only [Mcsdb.shiftBuf, if_neg hnext, if_neg hfull]

/-- The whole body is read, and there is room for it. -/
theorem Client.InBody.room (h : c.InBody) :
    ¬ c.idx > c.len ∧ ¬ c.len > maxBuffer - 1 ∧ c.len > 0 ∧ ¬ 1 > c.len ∧ 1 ≠ c.len := by
  have hmin := h.len
  have hmax := h.max
  have hidx := h.idx
  rw [maxBuffer] at hmax ⊢
  omega

theorem Client.InBody.readSize (h : c.InBody) : readSize c = some c.len := by
  obtain ⟨hidx, hover, hpos, -⟩ := h.room
  rw [Mcsdb.readSize, h.shiftBuf]
  simp only [h.mode, if_neg hidx]
  simp only [h.idx, Nat.sub_zero, if_neg hover, if_pos (And.intro hpos hpos)]

/-- One byte of a body, that is taken for all of it. -/
theorem Client.InBody.clientState (h : c.InBody) (b : UInt8) : ∃ fed,
    Mcsdb.clientState c (some [b]) = some fed ∧ fed.client.mode = 1 ∧
      fed.client.buf.head? = some b := by
  obtain ⟨hidx, hover, hpos, hfit, hshort⟩ := h.room
  have hhead : (poke (poke c.buf 0 [b]) (maxBuffer - 1) [0]).head? = some b := by
    simp [poke, maxBuffer]
  rw [Mcsdb.clientState, h.shiftBuf]
  simp only [h.mode]
  rw [readBody]
  simp only [if_neg hidx]
  simp only [h.idx, Nat.sub_zero, if_neg hover, if_pos (And.intro hpos hpos), List.length_singleton,
    if_neg hfit, if_pos hshort]
  exact ⟨_, rfl, h.mode, hhead⟩

/-- The byte behind the line of a request with a body. -/
theorem turn_body (hbody : s.client.InBody) (hgone : s.gone = false) {b : UInt8} (hb : b ≠ 0)
    (hpending : s.pending = [b] :: rest) (hturn : s.turn api n = some s') :
    ∃ x ≠ errorLine, s'.replies = s.replies ++ [x] := by
  have hlen : [b].length ≤ s.client.len := Nat.le_of_succ_le hbody.len
  obtain ⟨fed, hfed, hmode, hhead⟩ := hbody.clientState b
  rw [turn_piece hbody.readSize hgone hpending hlen, hfed, Option.bind_some] at hturn
  obtain ⟨h, hh, hturn⟩ := Option.bind_eq_some_iff.mp hturn
  rw [protocolHandle, if_neg (by simpa [hhead] using hb), if_pos hmode] at hh
  obtain ⟨stored, -, hh⟩ := Option.bind_eq_some_iff.mp hh
  cases hh
  cases hturn
  refine ⟨_, ?_, rfl⟩
  split <;> decide

/-- What has been replied stays. -/
theorem run_replies (h : Runs (Session.turn api) (fun _ _ ↦ True) s s') :
    s.replies <+: s'.replies := by
  refine h.keeps (P := fun t ↦ s.replies <+: t.replies)
    (fun s₁ n s₂ hs _ hturn ↦ hs.trans ?_) List.prefix_rfl
  have hhandle {fed : Fed} {pending : List Bytes} (hh : s₁.handle api n fed pending = some s₂) :
      s₁.replies <+: s₂.replies := by
    obtain ⟨h, -, hh⟩ := Option.bind_eq_some_iff.mp hh
    dsimp only at hh
    split at hh
    · cases hh
      exact List.prefix_append _ _
    · split at hh
      · cases hh
        exact List.prefix_append _ _
      · cases hh
        exact List.prefix_append _ _
  rw [Session.turn] at hturn
  split at hturn
  · cases hturn
  · split at hturn
    · obtain ⟨fed, -, hh⟩ := Option.bind_eq_some_iff.mp hturn
      exact hhandle hh
    · obtain ⟨r, -, hturn⟩ := Option.bind_eq_some_iff.mp hturn
      obtain ⟨fed, -, hh⟩ := Option.bind_eq_some_iff.mp hturn
      exact hhandle hh

/-- A run that has not come to its end goes on. -/
theorem exists_turn (hrun : Runs (Session.turn api) (fun _ _ ↦ True) s s') (hdone : s'.Done)
    (hgone : s.gone = false) (hpending : s.pending ≠ []) :
    ∃ n s₁, s.turn api n = some s₁ ∧ Runs (Session.turn api) (fun _ _ ↦ True) s₁ s' := by
  rcases Relation.ReflTransGen.cases_head hrun with rfl | ⟨s₁, ⟨n, -, hturn⟩, hrun⟩
  · rcases hdone with h | h
    · rw [hgone] at h
      cases h
    · exact absurd h.1 hpending
  · exact ⟨n, s₁, hturn, hrun⟩

end Line

/-- A line in one piece is not an error for each of its bytes. -/
theorem outcome_line {id fd : Nat} {st : σ} {q : Request} (hfits : q.Fits) {bs : Bytes}
    {r : List Bytes × σ}
    (h : Outcome api id fd st (q.line :: (13 :: bs).map ([·])) r) :
    r.1 ≠ errorsFor (q.line ++ 13 :: bs) := by
  obtain ⟨s, hrun, hdone, rfl⟩ := h
  obtain ⟨n, s₁, hturn, hrun⟩ := exists_turn hrun hdone rfl (List.cons_ne_nil _ _)
  obtain ⟨hgone, hpending, hfresh | hbody⟩ :=
    turn_line hfits (clientNewFd_fresh id fd) rfl rfl hturn
  · obtain ⟨hfresh, hagain, replies, hne, hreplies⟩ := hfresh
    have hbytes : s₁.Bytewise (s₁.replies ++ errorsFor (13 :: bs)) s₁.store :=
      ⟨hfresh, hgone, hagain, rfl, 13 :: bs, hpending, rfl⟩
    have hend := congrArg Prod.fst ((hbytes.keeps hrun).done hdone)
    dsimp only at hend
    rw [hend, hreplies, errorsFor_append]
    intro hsame
    exact hne.ne q (List.append_cancel_right hsame)
  · obtain ⟨n, s₂, hturn, hrun⟩ := exists_turn hrun hdone hgone
      (by rw [hpending]; exact List.cons_ne_nil _ _)
    obtain ⟨x, hx, hreplies⟩ := turn_body hbody hgone (by decide) hpending hturn
    have hmem : x ∈ s.replies := by
      refine (run_replies hrun).subset ?_
      rw [hreplies]
      exact List.mem_append_right _ List.mem_cons_self
    intro hsame
    dsimp only at hsame
    rw [hsame] at hmem
    exact hx (List.eq_of_mem_replicate hmem)

/-! ## Cuts -/

theorem isCut_bytes (bs : Bytes) : IsCut bs (bs.map ([·])) := by
  constructor
  · intro h
    obtain ⟨b, -, hb⟩ := List.mem_map.mp h
    cases hb
  · rw [← List.flatMap_def]
    exact List.flatMap_singleton' bs

theorem Request.line_ne_nil (q : Request) : q.line ≠ [] := by
  simp [Request.line]

/-- It matters where a request is cut. -/
theorem not_cutIndependent_cons (id fd : Nat) (st : σ) {q : Request} (hfits : q.Fits)
    (qs : List Request) : ¬ CutIndependent api id fd st (stream (q :: qs)) := by
  have hstream : stream (q :: qs) = q.line ++ 13 :: (10 :: (q.bodyBytes ++ stream qs)) := by
    simp [stream, Request.bytes, crlf, txt]
  have hcut : IsCut (stream (q :: qs))
      (q.line :: (13 :: (10 :: (q.bodyBytes ++ stream qs))).map ([·])) := by
    obtain ⟨hne, hflat⟩ := isCut_bytes (13 :: (10 :: (q.bodyBytes ++ stream qs)))
    refine ⟨fun h ↦ ?_, ?_⟩
    · rcases List.mem_cons.mp h with h | h
      · exact q.line_ne_nil h.symm
      · exact hne h
    · rw [List.flatten_cons, hflat, hstream]
  intro h
  have houtcome := (h _ _ (isCut_bytes _) hcut _).mp ((outcome_bytes api id fd st _ _).mpr rfl)
  exact outcome_line api hfits houtcome (congrArg errorsFor hstream)

/-- For requests that are well formed it does not matter where they are cut if and only if there
are none. -/
theorem cutIndependent_iff (id fd : Nat) (st : σ) {qs : List Request} (hfits : ∀ q ∈ qs, q.Fits) :
    CutIndependent api id fd st (stream qs) ↔ qs = [] := by
  constructor
  · intro h
    cases qs with
    | nil => rfl
    | cons q qs =>
        exact absurd h (not_cutIndependent_cons api id fd st (hfits q List.mem_cons_self) qs)
  · rintro rfl
    have hnil {pieces : List Bytes} (h : IsCut (stream []) pieces) : pieces = [] := by
      cases pieces with
      | nil => rfl
      | cons piece pieces =>
          have hflat := List.append_eq_nil_iff.mp h.2
          exact absurd (hflat.1 ▸ List.mem_cons_self) h.1
    intro pieces pieces' hcut hcut' r
    rw [hnil hcut, hnil hcut']

/-- A key of one byte. -/
def keyA : Key := ⟨[97], by decide, by decide +kernel⟩

theorem cutIndependent_iff_get : CutIndependent mcsdb 0 5 newMc (stream [.get keyA []]) ↔
    [Request.get keyA []] = [] :=
  cutIndependent_iff mcsdb 0 5 newMc fun q hq ↦ by
    rw [List.mem_singleton.mp hq]
    exact ⟨by decide, trivial⟩

theorem not_cutIndependent_get : ¬ CutIndependent mcsdb 0 5 newMc (stream [.get keyA []]) :=
  not_cutIndependent_cons mcsdb 0 5 newMc ⟨by decide, trivial⟩ []

end SdbStore.Mcsdb
