import SdbStore.CStr
import SdbStore.Lib.Runs
import SdbStore.Lib.Words

/-!
# The output buffer

`buffer.inc.c` collects what is to be written in a block of memory, and passes it on when the block
is full or when it is told to.  The operation that writes may report any number, at any time: all
that is asked of it is what it has been passed.

What has been put into a buffer is what has been passed on, and behind it what waits in the block
(`Output.put`): every call adds its chunk to that, and a flush leaves nothing waiting.
-/

namespace SdbStore.Buf

open Lib

/-! ## The code -/

/-- `buffer`: the block, the fill level and the size.  The operation is a parameter of the calls. -/
structure Buffer where
  x : Bytes
  p : Nat
  n : Nat

/-- A buffer with what has been passed to the operation, call by call. -/
structure Output where
  s : Buffer
  passed : List Bytes

/-- The number that the operation returns, as `ut32`, after the calls before. -/
abbrev BufferOp := List Bytes → Bytes → Nat

/-- `buffer_initialize`. -/
def bufferInitialize (buf : Bytes) : Buffer := ⟨buf, 0, buf.length⟩

/-- `allwrite`: whether all went well, and what has been passed to the operation. -/
def allwrite (op : BufferOp) (buf : Bytes) (passed : List Bytes) : Bool × List Bytes :=
  if 0 < buf.length then
    let w := op passed buf
    if w ≠ buf.length then (false, passed ++ [buf])
    else allwrite op (buf.drop w) (passed ++ [buf])
  else (true, passed)
termination_by buf.length
decreasing_by
  rw [List.length_drop]
  omega

/-- `buffer_flush`. -/
def bufferFlush (op : BufferOp) (o : Output) : Bool × Output :=
  if o.s.p = 0 then (true, o)
  else
    let r := allwrite op (o.s.x.take o.s.p) o.passed
    (r.1, ⟨{ o.s with p := 0 }, r.2⟩)

/-- `memcpy` to the block behind what it has, with the new fill level. -/
def Buffer.fill (s : Buffer) (buf : Bytes) : Buffer :=
  { s with x := store s.x s.p buf, p := s.p + buf.length }

/-- A turn of the loop of `buffer_putalign`, or what follows it; the subtraction is one of
`ut32`. -/
def putalignTurn (op : BufferOp) (v : Output × Bytes) :
    Option ((Output × Bytes) ⊕ (Bool × Output)) :=
  let (o, buf) := v
  let n := ut32 (o.s.n + 4294967296 - o.s.p)
  if 0 < buf.length ∧ n < buf.length then
    if o.s.p > o.s.n then some (.inr (false, o))
    else
      let r := bufferFlush op { o with s := o.s.fill (buf.take n) }
      if r.1 then some (.inl (r.2, buf.drop n)) else some (.inr (false, r.2))
  else if 0 < buf.length then some (.inr (true, { o with s := o.s.fill buf }))
  else some (.inr (true, o))

instance : Nonempty Output := ⟨⟨bufferInitialize [], []⟩⟩

/-- `buffer_putalign`, if it comes back; `none` for the chunk is `NULL`. -/
def bufferPutalign (op : BufferOp) (o : Output) (buf : Option Bytes) : Option (Bool × Output) :=
  match buf with
  | none => some (false, o)
  | some buf => repeatM (putalignTurn op) (o, buf)

/-- `buffer_putflush`. -/
def bufferPutflush (op : BufferOp) (o : Output) (buf : Bytes) : Bool × Output :=
  let r := bufferFlush op o
  if ¬ r.1 then (false, r.2)
  else
    let r' := allwrite op buf r.2.passed
    (r'.1, { r.2 with passed := r'.2 })

/-! ## Calls -/

/-- A call with its chunk. -/
inductive Call
  | putalign (buf : Option Bytes)
  | flush
  | putflush (buf : Bytes)

/-- The chunk of a call. -/
def Call.chunk : Call → Bytes
  | .putalign buf => buf.getD []
  | .flush => []
  | .putflush buf => buf

/-- One call. -/
def Call.run (op : BufferOp) (c : Call) (o : Output) : Option (Bool × Output) :=
  match c with
  | .putalign buf => bufferPutalign op o buf
  | .flush => some (bufferFlush op o)
  | .putflush buf => some (bufferPutflush op o buf)

/-- Calls one after another, whatever they return: what they return, and the buffer after them. -/
def runCalls (op : BufferOp) : List Call → Output → Option (List Bool × Output)
  | [], o => some ([], o)
  | c :: calls, o => do
      let (ok, o) ← c.run op o
      let (oks, o) ← runCalls op calls o
      some (ok :: oks, o)

/-! ## What is in a buffer -/

/-- What has been put into a buffer: what has been passed on, and what waits. -/
def Output.put (o : Output) : Bytes := o.passed.flatten ++ o.s.x.take o.s.p

/-- A buffer with a block of memory of its size, which is not empty and has a length in `ut32`. -/
structure Buffer.Ok (s : Buffer) : Prop where
  block : s.x.length = s.n
  fits : s.p ≤ s.n
  pos : 0 < s.n
  ut32 : s.n < 4294967296

/-- What a call leaves: a buffer of the same size with the chunk in it, if all has gone well. -/
structure Puts (o : Output) (chunk : Bytes) (r : Bool × Output) : Prop where
  ok : r.2.s.Ok
  size : r.2.s.n = o.s.n
  put : r.1 = true → r.2.put = o.put ++ chunk

theorem Puts.trans {o o' : Output} {chunk chunk' : Bytes} {r : Bool × Output}
    (h : Puts o chunk (true, o')) (h' : Puts o' chunk' r) : Puts o (chunk ++ chunk') r where
  ok := h'.ok
  size := h'.size.trans h.size
  put hr := by rw [h'.put hr, h.put rfl, List.append_assoc]

/-- All that `allwrite` is given is passed on, if all goes well. -/
theorem allwrite_spec (op : BufferOp) (buf : Bytes) (passed : List Bytes)
    (h : (allwrite op buf passed).1 = true) :
    (allwrite op buf passed).2.flatten = passed.flatten ++ buf := by
  rw [allwrite] at h ⊢
  by_cases hpos : 0 < buf.length
  · rw [if_pos hpos] at h ⊢
    by_cases hw : op passed buf = buf.length
    · -- the second time there is nothing left
      have hnil : buf.drop (op passed buf) = [] := List.drop_eq_nil_of_le (by omega)
      dsimp only
      rw [if_neg (not_not_intro hw), hnil, allwrite, if_neg (by simp), List.flatten_append,
        List.flatten_singleton]
    · dsimp only at h
      rw [if_pos hw] at h
      cases h
  · rw [if_neg hpos, List.eq_nil_of_length_eq_zero (Nat.eq_zero_of_not_pos hpos), List.append_nil]

/-- The operation writes all that it is given, every time. -/
def WritesAll (op : BufferOp) : Prop := ∀ passed buf, op passed buf = buf.length

theorem WritesAll.allwrite {op : BufferOp} (h : WritesAll op) (buf : Bytes) (passed : List Bytes) :
    (allwrite op buf passed).1 = true := by
  rw [Buf.allwrite]
  by_cases hpos : 0 < buf.length
  · have hnil : buf.drop (op passed buf) = [] :=
      List.drop_eq_nil_of_le (Nat.le_of_eq (h passed buf).symm)
    rw [if_pos hpos]
    dsimp only
    rw [if_neg (not_not_intro (h passed buf)), hnil, Buf.allwrite, if_neg (by simp)]
  · rw [if_neg hpos]

theorem WritesAll.bufferFlush {op : BufferOp} (h : WritesAll op) (o : Output) :
    (bufferFlush op o).1 = true := by
  rw [Buf.bufferFlush]
  split
  · rfl
  · exact h.allwrite _ _

section Calls

variable (op : BufferOp) {o : Output} (ho : o.s.Ok)
include ho

/-- **A flush** passes on what waits. -/
theorem bufferFlush_spec : Puts o [] (bufferFlush op o) ∧ (bufferFlush op o).2.s.p = 0 ∧
    ((bufferFlush op o).1 = true → (bufferFlush op o).2.passed.flatten = o.put) := by
  rw [bufferFlush]
  by_cases hp : o.s.p = 0
  · rw [if_pos hp]
    refine ⟨⟨ho, rfl, fun _ ↦ (List.append_nil _).symm⟩, hp, fun _ ↦ ?_⟩
    rw [Output.put, hp, List.take_zero, List.append_nil]
  · rw [if_neg hp]
    have hspec := allwrite_spec op (o.s.x.take o.s.p) o.passed
    refine ⟨⟨⟨ho.block, Nat.zero_le _, ho.pos, ho.ut32⟩, rfl, fun h ↦ ?_⟩, rfl, hspec⟩
    rw [Output.put, hspec h, List.take_zero, List.append_nil, List.append_nil]
    rfl

/-- Bytes for which there is room are added to what waits. -/
theorem fill_spec {buf : Bytes} (hroom : o.s.p + buf.length ≤ o.s.n) :
    Puts o buf (true, { o with s := o.s.fill buf }) := by
  have hlen : o.s.p + buf.length ≤ o.s.x.length := by rw [ho.block]; exact hroom
  refine ⟨⟨(length_store hlen).trans ho.block, hroom, ho.pos, ho.ut32⟩, rfl, fun _ ↦ ?_⟩
  have htake : (store o.s.x o.s.p buf).take (o.s.p + buf.length) = o.s.x.take o.s.p ++ buf := by
    rw [store]
    refine List.take_left' ?_
    rw [List.length_append, List.length_take]
    omega
  rw [Output.put, Output.put, Buffer.fill]
  dsimp only
  rw [htake, List.append_assoc]

/-- The room that is left. -/
theorem room_eq : ut32 (o.s.n + 4294967296 - o.s.p) = o.s.n - o.s.p := by
  have hfits := ho.fits
  have hlt := ho.ut32
  rw [ut32]
  omega

/-- **The loop** of `buffer_putalign` comes to its end: in every turn the chunk gets shorter, or the
block, which was full, is emptied. -/
theorem putalign_ends (buf : Bytes) : ∃ r, LoopEnds (putalignTurn op) (o, buf) r ∧ Puts o buf r ∧
    (WritesAll op → r.1 = true) := by
  induction hm : 2 * buf.length +
    (if o.s.p = 0 then 0 else 1) using Nat.strongRecOn generalizing o buf with
  | ind m ih =>
      have hfits := ho.fits
      have hpos := ho.pos
      by_cases hlong : 0 < buf.length ∧ o.s.n - o.s.p < buf.length
      · have hcut : (buf.take (o.s.n - o.s.p)).length = o.s.n - o.s.p :=
          List.length_take_of_le (Nat.le_of_lt hlong.2)
        have hfill := @fill_spec o ho (buf.take (o.s.n - o.s.p)) (by omega)
        obtain ⟨hflush, hempty, -⟩ := bufferFlush_spec op hfill.ok
        have hturn : putalignTurn op (o, buf) =
            let r := bufferFlush op { o with s := o.s.fill (buf.take (o.s.n - o.s.p)) }
            if r.1 then some (.inl (r.2, buf.drop (o.s.n - o.s.p)))
            else some (.inr (false, r.2)) := by
          simp only [putalignTurn, room_eq ho]
          rw [if_pos hlong, if_neg (by omega)]
        cases hok : (bufferFlush op { o with s := o.s.fill (buf.take (o.s.n - o.s.p)) }).1 with
        | false =>
            simp only [hok] at hturn
            exact ⟨_, .stop hturn, ⟨hflush.ok, hflush.size, fun h ↦ by cases h⟩,
              fun hop ↦ hok.symm.trans (hop.bufferFlush _)⟩
        | true =>
            simp only [hok, if_true] at hturn
            have hless : 2 * (buf.drop (o.s.n - o.s.p)).length +
                (if (bufferFlush op
                  { o with s := o.s.fill (buf.take (o.s.n - o.s.p)) }).2.s.p = 0 then 0
                  else 1) < m := by
              rw [if_pos hempty, List.length_drop, ← hm]
              split <;> omega
            obtain ⟨r, hends, hputs, hret⟩ := ih _ hless hflush.ok (buf.drop (o.s.n - o.s.p)) rfl
            have hflush' : Puts { o with s := o.s.fill (buf.take (o.s.n - o.s.p)) } []
                (true, (bufferFlush op { o with s := o.s.fill (buf.take (o.s.n - o.s.p)) }).2) :=
              ⟨hflush.ok, hflush.size, fun _ ↦ hflush.put hok⟩
            have hall := (hfill.trans hflush').trans hputs
            rw [List.append_nil, List.take_append_drop] at hall
            exact ⟨r, .turn hturn hends, hall, hret⟩
      · by_cases hbuf : 0 < buf.length
        · refine ⟨_, .stop (b := (true, { o with s := o.s.fill buf })) ?_, fill_spec ho (by omega),
            fun _ ↦ rfl⟩
          simp only [putalignTurn, room_eq ho]
          rw [if_neg hlong, if_pos hbuf]
        · have hnil := List.eq_nil_of_length_eq_zero (Nat.eq_zero_of_not_pos hbuf)
          refine ⟨(true, o), .stop ?_, ⟨ho, rfl, fun _ ↦ ?_⟩, fun _ ↦ rfl⟩
          · simp only [putalignTurn, room_eq ho]
            rw [if_neg hlong, if_neg hbuf]
          · rw [hnil, List.append_nil]

/-- **Every call** comes back, and adds its chunk. -/
theorem Call.run_spec (c : Call) : ∃ r, c.run op o = some r ∧ Puts o c.chunk r ∧
    (WritesAll op → c ≠ .putalign none → r.1 = true) := by
  cases c with
  | putalign buf =>
      cases buf with
      | none =>
          exact ⟨(false, o), rfl, ⟨ho, rfl, fun h ↦ by cases h⟩, fun _ hnull ↦ absurd rfl hnull⟩
      | some buf =>
          obtain ⟨r, hends, hputs, hret⟩ := putalign_ends op ho buf
          exact ⟨r, hends.result, hputs, fun hop _ ↦ hret hop⟩
  | flush => exact ⟨_, rfl, (bufferFlush_spec op ho).1, fun hop _ ↦ hop.bufferFlush o⟩
  | putflush buf =>
      obtain ⟨hflush, hempty, hpassed⟩ := bufferFlush_spec op ho
      refine ⟨_, rfl, ?_⟩
      rw [bufferPutflush]
      cases hok : (bufferFlush op o).1 with
      | false =>
          simp only [Bool.false_eq_true, not_false_eq_true, if_true]
          exact ⟨⟨hflush.ok, hflush.size, fun h ↦ by cases h⟩, fun hop _ ↦
            Bool.false_ne_true (hok.symm.trans (hop.bufferFlush o))⟩
      | true =>
          simp only [not_true_eq_false, if_false]
          refine ⟨⟨hflush.ok, hflush.size, fun h ↦ ?_⟩, fun hop _ ↦ hop.allwrite _ _⟩
          rw [Output.put, hempty, List.take_zero, List.append_nil, allwrite_spec op buf _ h,
            hpassed hok]
          rfl

/-- **A run of calls** keeps the fill level below the size, and adds the chunks if all goes well. -/
theorem runCalls_spec (calls : List Call) : ∃ oks o', runCalls op calls o = some (oks, o') ∧
    o'.s.Ok ∧ o'.s.n = o.s.n ∧
      ((∀ ok ∈ oks, ok = true) → o'.put = o.put ++ calls.flatMap Call.chunk) ∧
      (WritesAll op → .putalign none ∉ calls → ∀ ok ∈ oks, ok = true) := by
  induction calls generalizing o with
  | nil =>
      exact ⟨[], o, rfl, ho, rfl, fun _ ↦ (List.append_nil _).symm, fun _ _ ok hok ↦ by cases hok⟩
  | cons c calls ih =>
      obtain ⟨⟨ok, o₁⟩, hrun, hputs, hret⟩ := c.run_spec op ho
      obtain ⟨oks, o₂, hruns, hok, hsize, hput, hrets⟩ := ih hputs.ok
      refine ⟨ok :: oks, o₂, ?_, hok, hsize.trans hputs.size, fun hall ↦ ?_, fun hop hnull ↦ ?_⟩
      · simp only [runCalls, hrun, hruns, Option.bind_eq_bind, Option.bind_some]
      · rw [List.forall_mem_cons] at hall
        rw [hput hall.2, hputs.put hall.1, List.flatMap_cons, List.append_assoc]
      · rw [List.mem_cons, not_or] at hnull
        exact List.forall_mem_cons.mpr ⟨hret hop (Ne.symm hnull.1), hrets hop hnull.2⟩

end Calls

/-- One more call at the end of a run. -/
theorem runCalls_concat {op : BufferOp} {calls : List Call} {c : Call} {o o₁ o₂ : Output}
    {oks : List Bool} {ok : Bool} (h : runCalls op calls o = some (oks, o₁))
    (hc : c.run op o₁ = some (ok, o₂)) :
    runCalls op (calls ++ [c]) o = some (oks ++ [ok], o₂) := by
  induction calls generalizing o oks with
  | nil =>
      cases h
      simp only [List.nil_append, runCalls, hc, Option.bind_eq_bind, Option.bind_some]
  | cons d calls ih =>
      rw [runCalls] at h
      obtain ⟨⟨ok', o'⟩, hd, h⟩ := Option.bind_eq_some_iff.mp h
      obtain ⟨⟨oks', o''⟩, hruns, h⟩ := Option.bind_eq_some_iff.mp h
      cases h
      simp only [List.cons_append, runCalls, hd, ih hruns, Option.bind_eq_bind, Option.bind_some]

/-- **Output buffering is transparent.**  In every run of calls on a buffer of any size the calls
come back with a fill level that is not above the size; if all of them and a flush at the end return
1, what has been passed to the operation is the chunks in order.  They do return 1 if the operation
writes all that it is given and no chunk is `NULL`. -/
theorem buffering_transparent {bspace : Bytes} (hpos : 0 < bspace.length)
    (hlt : bspace.length < 4294967296) (op : BufferOp) (calls : List Call) :
    ∃ oks o, runCalls op calls ⟨bufferInitialize bspace, []⟩ = some (oks, o) ∧
      o.s.n = bspace.length ∧ o.s.p ≤ o.s.n ∧
      ∃ ok o', runCalls op (calls ++ [.flush]) ⟨bufferInitialize bspace, []⟩ =
        some (oks ++ [ok], o') ∧
          ((∀ b ∈ oks ++ [ok], b = true) → o'.passed.flatten = calls.flatMap Call.chunk) ∧
        (WritesAll op → .putalign none ∉ calls → ∀ b ∈ oks ++ [ok], b = true) := by
  have hok : (bufferInitialize bspace).Ok := ⟨rfl, Nat.zero_le _, hpos, hlt⟩
  obtain ⟨oks, o, hruns, ho, hsize, hput, hrets⟩ :=
    @runCalls_spec op ⟨bufferInitialize bspace, []⟩ hok calls
  obtain ⟨-, -, hpassed⟩ := bufferFlush_spec op ho
  refine ⟨oks, o, hruns, hsize, ho.fits, (bufferFlush op o).1, (bufferFlush op o).2,
    @runCalls_concat op calls .flush _ o _ oks _ hruns rfl, fun hall ↦ ?_, fun hop hnull ↦ ?_⟩
  · rw [hpassed (hall _ (List.mem_append_right _ List.mem_cons_self)),
      hput fun b hb ↦ hall b (List.mem_append_left _ hb)]
    rfl
  · exact List.forall_mem_append.mpr
      ⟨hrets hop hnull, List.forall_mem_singleton.mpr (hop.bufferFlush o)⟩

/-- Nine bytes in two chunks and one more, through a block of four: the second chunk is over the end
of the block twice. -/
theorem buffering_transparent_four : ∃ oks o,
    runCalls (fun _ buf ↦ buf.length)
        [.putalign (some [1, 2, 3]), .putalign (some [4, 5, 6, 7, 8, 9]), .putflush [10], .flush]
        ⟨bufferInitialize [0, 0, 0, 0], []⟩ = some (oks, o) ∧
      (∀ b ∈ oks, b = true) ∧ o.passed.flatten = [1, 2, 3, 4, 5, 6, 7, 8, 9, 10] := by
  have hpos : 0 < ([0, 0, 0, 0] : Bytes).length := by decide
  have hlt : ([0, 0, 0, 0] : Bytes).length < 4294967296 := by decide
  obtain ⟨oks, -, -, -, -, ok, o, hruns, hpassed, hrets⟩ := buffering_transparent hpos hlt
    (fun _ buf ↦ buf.length)
    [.putalign (some [1, 2, 3]), .putalign (some [4, 5, 6, 7, 8, 9]), .putflush [10]]
  have hall := hrets (fun _ _ ↦ rfl) (by simp)
  exact ⟨oks ++ [ok], o, hruns, hall, hpassed hall⟩

end SdbStore.Buf
