import SdbStore.CStr
import SdbStore.Lib.FailStop

/-!
# The file system and the buffered temporary file

A database is written to a temporary file that then replaces the database file.
Every system call on the temporary file can fail; the world knows which of them do,
and counts them.  Reads of other files, and the removal of the temporary file, do
not fail here.

`Stop` tells apart why a function of the source gives up and returns 0: a system
call failed, a limit is exceeded, or (which the source cannot notice) a loop does
not end.
-/

namespace SdbStore

open Lib

/-- What the process sees of the operating system. -/
structure World where
  /-- The contents of the files. -/
  fs : CStr → Option Bytes
  /-- The offset of the descriptor of the temporary file. -/
  off : Nat
  /-- The number of system calls made on the temporary file. -/
  calls : Nat
  /-- The system calls on the temporary file that fail. -/
  fails : Nat → Bool
  /-- `sdb_now`. -/
  now : Nat

/-- No files, and nothing fails. -/
def World.empty : World := ⟨fun _ ↦ none, 0, 0, fun _ ↦ false, 0⟩

instance : Faulty World := ⟨World.calls, World.fails⟩

/-- Why a function gives up. -/
inductive Stop where
  /-- A system call on the temporary file failed. -/
  | fault
  /-- A length or an offset exceeds its limit. -/
  | refused
  /-- A loop goes round without end. -/
  | spin
deriving DecidableEq

abbrev Io := EStateM Stop World

/-- Change one file. -/
def World.setFile (w : World) (p : CStr) (c : Option Bytes) : World :=
  { w with fs := fun q ↦ if q = p then c else w.fs q }

/-- Bytes written at an offset; a gap before them reads as NUL. -/
def writeAt (c : Bytes) (off : Nat) (d : Bytes) : Bytes :=
  (c ++ List.replicate (off - c.length) 0).take off ++ d ++ c.drop (off + d.length)

theorem writeAt_zero (c d : Bytes) : writeAt c 0 d = d ++ c.drop d.length := by
  rw [writeAt, List.take_zero, List.nil_append, Nat.zero_add]

/-! ## System calls on the temporary file -/

/-- A system call on the temporary file. -/
def sysCall (act : World → World) : Io Unit := fun w ↦
  if w.fails w.calls then .error .fault { w with calls := w.calls + 1 }
  else .ok () (act { w with calls := w.calls + 1 })

/-- `open` with `O_RDWR | O_CREAT | O_TRUNC`. -/
def tmpOpen (p : CStr) : Io Unit := sysCall fun w ↦ { w.setFile p (some []) with off := 0 }

/-- `lseek` with `SEEK_SET`. -/
def tmpSeek (pos : Nat) : Io Unit := sysCall fun w ↦ { w with off := pos }

/-- `write`; a short write counts as a failure. -/
def tmpWrite (p : CStr) (d : Bytes) : Io Unit := sysCall fun w ↦
  { w.setFile p (some (writeAt ((w.fs p).getD []) w.off d)) with off := w.off + d.length }

/-- `fsync`, and `close`: they change nothing but can fail. -/
def tmpFlush : Io Unit := sysCall id

/-- `rename`. -/
def tmpRename (p dst : CStr) : Io Unit := sysCall fun w ↦ (w.setFile dst (w.fs p)).setFile p none

/-! ## `buffer.inc.c` -/

/-- A buffer of 8192 bytes, given by the bytes in it. -/
structure Buffer where
  x : Bytes
  fits : x.length ≤ 8192

/-- `buffer_initialize`. -/
def bufferInitialize : Buffer := ⟨[], by simp⟩

/-- `buffer_flush`; `allwrite` makes one `write`, and the buffer is empty after. -/
def bufferFlush (p : CStr) (b : Buffer) : Io Buffer :=
  if b.x = [] then pure bufferInitialize else do
    tmpWrite p b.x
    return bufferInitialize

/-- `buffer_putalign`: fill the buffer and flush it as often as needed, and keep the
rest. -/
def bufferPutalign (p : CStr) (b : Buffer) (d : Bytes) : Io Buffer :=
  if h : d.length ≤ 8192 - b.x.length then
    pure ⟨b.x ++ d, by have := b.fits; rw [List.length_append]; omega⟩
  else do
    let _ ← bufferFlush p ⟨b.x ++ d.take (8192 - b.x.length), by
      have := b.fits
      rw [List.length_append, List.length_take]
      omega⟩
    bufferPutalign p bufferInitialize (d.drop (8192 - b.x.length))
termination_by d.length + b.x.length
decreasing_by
  have := b.fits
  simp only [bufferInitialize, List.length_drop, List.length_nil]
  omega

/-- `buffer_putflush`. -/
def bufferPutflush (p : CStr) (b : Buffer) (d : Bytes) : Io Buffer := do
  let b ← bufferFlush p b
  tmpWrite p d
  return b

/-! ## What the calls touch, and how they fail -/

@[simp] theorem setFile_fs (w : World) (p : CStr) (c : Option Bytes) (q : CStr) :
    (w.setFile p c).fs q = if q = p then c else w.fs q := rfl

/-- Between `w` and `w'` no file but `p` has changed. -/
structure Touches (p : CStr) (w w' : World) : Prop where
  fs : ∀ q, q ≠ p → w'.fs q = w.fs q
  now : w'.now = w.now

theorem Touches.refl (p : CStr) (w : World) : Touches p w w := ⟨fun _ _ ↦ rfl, rfl⟩

theorem Touches.trans (p : CStr) (w w' w'' : World) (h : Touches p w w')
    (h' : Touches p w' w'') : Touches p w w'' :=
  ⟨fun q hq ↦ (h'.fs q hq).trans (h.fs q hq), h'.now.trans h.now⟩

theorem sysCall_eq_ok {act : World → World} {w w' : World} :
    sysCall act w = .ok () w' ↔
      w.fails w.calls = false ∧ w' = act { w with calls := w.calls + 1 } := by
  rw [sysCall]
  cases w.fails w.calls with
  | true => simp
  | false => simp [eq_comm]

theorem sysCall_eq_error {act : World → World} {w w' : World} {e : Stop}
    (h : sysCall act w = .error e w') :
    w.fails w.calls = true ∧ w' = { w with calls := w.calls + 1 } := by
  rw [sysCall] at h
  cases hf : w.fails w.calls with
  | true =>
      rw [hf] at h
      cases h
      exact ⟨rfl, rfl⟩
  | false =>
      rw [hf] at h
      cases h

theorem sysCall_moves {R : World → World → Prop} {act : World → World}
    (h : ∀ w, R w { w with calls := w.calls + 1 } ∧ R w (act { w with calls := w.calls + 1 })) :
    Moves R (fun _ ↦ True) (sysCall act) := by
  intro w
  refine ⟨?_, fun _ _ _ ↦ trivial⟩
  rw [sysCall]
  split
  · exact (h w).1
  · exact (h w).2

theorem sysCall_failStop {act : World → World}
    (h : ∀ w, (act w).calls = w.calls ∧ (act w).fails = w.fails) :
    FailStop Stop.fault (sysCall act) := by
  intro w
  rw [sysCall]
  have hc := h { w with calls := w.calls + 1 }
  split
  · next hf =>
      refine ⟨Nat.le_succ _, rfl, ?_⟩
      exact ⟨fun _ ↦ rfl, fun _ ↦ ⟨w.calls, Nat.le_refl _, Nat.lt_succ_self _, hf⟩⟩
  · next hf =>
      refine ⟨?_, hc.2, ?_⟩
      · change w.calls ≤ (act _).calls
        rw [hc.1]
        exact Nat.le_succ _
      · constructor
        · rintro ⟨j, hlo, hhi, hj⟩
          have hlo' : w.calls ≤ j := hlo
          have hhi' : j < (act { w with calls := w.calls + 1 }).calls := hhi
          rw [hc.1] at hhi'
          have : j = w.calls := Nat.le_antisymm (Nat.le_of_lt_succ hhi') hlo'
          subst this
          exact absurd hj hf
        · exact fun he ↦ nomatch he

theorem sysCall_ends {Q : Unit → World → Prop} {E : Stop → Prop} {act : World → World} {w : World}
    (hE : E .fault) (hQ : Q () (act { w with calls := w.calls + 1 })) :
    Ends Q E (sysCall act w) := by
  rw [sysCall]
  split
  · exact hE
  · exact hQ

theorem tmpWrite_moves {p fd : CStr} (hfd : fd = p) (d : Bytes) :
    Moves (Touches p) (fun _ ↦ True) (tmpWrite fd d) := by
  subst hfd
  exact sysCall_moves fun _ ↦ ⟨⟨fun _ _ ↦ rfl, rfl⟩, ⟨fun _ hq ↦ if_neg hq, rfl⟩⟩

theorem tmpSeek_moves (p : CStr) (n : Nat) : Moves (Touches p) (fun _ ↦ True) (tmpSeek n) :=
  sysCall_moves fun _ ↦ ⟨⟨fun _ _ ↦ rfl, rfl⟩, ⟨fun _ _ ↦ rfl, rfl⟩⟩

theorem tmpFlush_moves (p : CStr) : Moves (Touches p) (fun _ ↦ True) tmpFlush :=
  sysCall_moves fun _ ↦ ⟨⟨fun _ _ ↦ rfl, rfl⟩, ⟨fun _ _ ↦ rfl, rfl⟩⟩

theorem tmpOpen_moves (p : CStr) : Moves (Touches p) (fun _ ↦ True) (tmpOpen p) :=
  sysCall_moves fun _ ↦ ⟨⟨fun _ _ ↦ rfl, rfl⟩, ⟨fun _ hq ↦ if_neg hq, rfl⟩⟩

theorem tmpWrite_failStop (p : CStr) (d : Bytes) : FailStop Stop.fault (tmpWrite p d) :=
  sysCall_failStop fun _ ↦ ⟨rfl, rfl⟩

theorem tmpSeek_failStop (n : Nat) : FailStop Stop.fault (tmpSeek n) :=
  sysCall_failStop fun _ ↦ ⟨rfl, rfl⟩

theorem tmpFlush_failStop : FailStop Stop.fault tmpFlush :=
  sysCall_failStop fun _ ↦ ⟨rfl, rfl⟩

theorem tmpOpen_failStop (p : CStr) : FailStop Stop.fault (tmpOpen p) :=
  sysCall_failStop fun _ ↦ ⟨rfl, rfl⟩

theorem tmpRename_failStop (p q : CStr) : FailStop Stop.fault (tmpRename p q) :=
  sysCall_failStop fun _ ↦ ⟨rfl, rfl⟩

/-! ## The bytes that reach the file -/

/-- The temporary file `p` holds `W` from offset `base` on, and the descriptor stands
at its end. -/
structure Written (p : CStr) (base : Nat) (W : Bytes) (w : World) : Prop where
  off : w.off = base + W.length
  bytes : ∃ c, w.fs p = some c ∧ c.drop base = W ∧ c.length ≤ w.off

theorem Written.write {p : CStr} {base : Nat} {W d : Bytes} {w : World} {E : Stop → Prop}
    (h : Written p base W w) (hE : E .fault) :
    Ends (fun _ w' ↦ Written p base (W ++ d) w') E (tmpWrite p d w) := by
  refine sysCall_ends hE ?_
  obtain ⟨c, hc, hW, hle⟩ := h.bytes
  have hoff := h.off
  refine ⟨?_, writeAt c w.off d, ?_, ?_, ?_⟩
  · change w.off + d.length = base + (W ++ d).length
    rw [List.length_append]
    omega
  · simp [hc]
  · -- the descriptor is at the end: the gap is filled and nothing is overwritten
    have hpad : (c ++ List.replicate (w.off - c.length) 0).take w.off =
        c ++ List.replicate (w.off - c.length) (0 : UInt8) := by
      rw [List.take_of_length_le]
      rw [List.length_append, List.length_replicate]
      omega
    have hlen : base ≤ (c ++ List.replicate (w.off - c.length) (0 : UInt8)).length := by
      rw [List.length_append, List.length_replicate]
      omega
    rw [writeAt, hpad, List.drop_eq_nil_of_le (by omega : c.length ≤ w.off + d.length),
      List.append_nil, List.drop_append_of_le_length hlen]
    congr 1
    by_cases hb : base ≤ c.length
    · have hWl : W.length = c.length - base := by rw [← hW, List.length_drop]
      rw [List.drop_append_of_le_length hb, hW, show w.off - c.length = 0 by omega]
      simp
    · have hWn : W = [] := by rw [← hW, List.drop_eq_nil_of_le (by omega)]
      subst hWn
      rw [List.length_nil] at hoff
      rw [List.drop_eq_nil_of_le]
      rw [List.length_append, List.length_replicate]
      omega
  · change (writeAt c w.off d).length ≤ w.off + d.length
    rw [writeAt, List.drop_eq_nil_of_le (by omega : c.length ≤ w.off + d.length)]
    simp only [List.append_nil, List.length_append, List.length_take]
    omega

theorem bufferFlush_moves {p fd : CStr} (hfd : fd = p) (b : Buffer) :
    Moves (Touches p) (fun _ ↦ True) (bufferFlush fd b) := by
  rw [bufferFlush]
  split
  · exact Moves.pure (Touches.refl p) trivial
  · exact Moves.bind (Touches.trans p) (tmpWrite_moves hfd _) fun _ _ ↦
      Moves.pure (Touches.refl p) trivial

theorem bufferFlush_failStop (p : CStr) (b : Buffer) :
    FailStop Stop.fault (bufferFlush p b) := by
  rw [bufferFlush]
  split
  · exact FailStop.pure _
  · exact FailStop.bind (tmpWrite_failStop p _) fun _ ↦ FailStop.pure _

theorem Written.flush {p : CStr} {base : Nat} {W : Bytes} {b : Buffer} {w : World}
    {E : Stop → Prop} (h : Written p base W w) (hE : E .fault) :
    Ends (fun b' w' ↦ b' = bufferInitialize ∧ Written p base (W ++ b.x) w') E
      (bufferFlush p b w) := by
  rw [bufferFlush]
  split
  · next hx =>
      rw [hx, List.append_nil]
      exact ⟨rfl, h⟩
  · exact (h.write hE).bind fun _ _ h' ↦ ⟨rfl, h'⟩

theorem bufferPutalign_moves {p fd : CStr} (hfd : fd = p) (b : Buffer) (d : Bytes) :
    Moves (Touches p) (fun _ ↦ True) (bufferPutalign fd b d) := by
  fun_induction bufferPutalign fd b d with
  | case1 b d h => exact Moves.pure (Touches.refl p) trivial
  | case2 b d h ih =>
      exact Moves.bind (Touches.trans p) (bufferFlush_moves hfd _) fun _ _ ↦ ih

theorem bufferPutalign_failStop (p : CStr) (b : Buffer) (d : Bytes) :
    FailStop Stop.fault (bufferPutalign p b d) := by
  fun_induction bufferPutalign p b d with
  | case1 b d h => exact FailStop.pure _
  | case2 b d h ih => exact FailStop.bind (bufferFlush_failStop p _) fun _ ↦ ih

/-- What has been put into a file: what is written there, and what waits in the
buffer. -/
def Put (p : CStr) (base : Nat) (X : Bytes) (b : Buffer) (w : World) : Prop :=
  ∃ W, Written p base W w ∧ W ++ b.x = X

theorem Put.putalign {p : CStr} {base : Nat} {b : Buffer} {d : Bytes} {E : Stop → Prop}
    (hE : E .fault) : ∀ {X : Bytes} {w : World}, Put p base X b w →
      Ends (Put p base (X ++ d)) E (bufferPutalign p b d w) := by
  fun_induction bufferPutalign p b d with
  | case1 b d h =>
      rintro X w ⟨W, hW, rfl⟩
      exact ⟨W, hW, by simp⟩
  | case2 b d h ih =>
      rintro X w ⟨W, hW, rfl⟩
      refine (hW.flush hE).bind fun b₁ w₁ h₁ ↦ ?_
      have hput : Put p base _ bufferInitialize w₁ := ⟨_, h₁.2, rfl⟩
      refine (ih hput).mono (fun b' w' h' ↦ ?_) fun _ he ↦ he
      simpa [bufferInitialize] using h'

end SdbStore
