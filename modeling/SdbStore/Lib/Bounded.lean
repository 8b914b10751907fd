import SdbStore.Lib.Bytes
import Mathlib.Data.List.GetD

/-!
# Output into a bounded block

`snprintf` writes as much of a text as there is room for, with a NUL behind it, and reports how long
the text is.  A text may be written piece by piece, each behind the one before it, into the room
that is left; once a piece does not fit, the pieces are only measured.  That is the same as to write
the whole text at once (`appendf_outputAfter`).

A memory gives a byte for each address.
-/

namespace SdbStore.Lib

/-- A memory with other bytes from an address on. -/
def putBytes (mem : Nat → UInt8) (p : Nat) (b : Bytes) : Nat → UInt8 := fun x ↦
  if p ≤ x then b.getD (x - p) (mem x) else mem x

/-- What `snprintf` writes of a text. -/
def fitted (size : Nat) (text : Bytes) : Bytes :=
  if size = 0 then [] else text.take (size - 1) ++ [0]

/-- `snprintf`: the length of the text, and the memory.  It has no result if it would write through
`NULL`. -/
def snprintf (mem : Nat → UInt8) (str : Option Nat) (size : Nat) (text : Bytes) :
    Option (Nat × (Nat → UInt8)) :=
  if size = 0 then some (text.length, mem)
  else str.map fun p ↦ (text.length, putBytes mem p (fitted size text))

/-- Where the next piece goes, the room that is left, and the length so far. -/
structure Output where
  str : Option Nat
  size : Nat
  r : Nat
  mem : Nat → UInt8

/-- A piece is appended, or only measured if there is no room for it. -/
def appendf (o : Output) (text : Bytes) : Option Output := do
  let (sr, mem) ← snprintf o.mem o.str o.size text
  if sr ≥ o.size then some ⟨none, 0, o.r + sr, mem⟩
  else some ⟨o.str.map (· + sr), o.size - sr, o.r + sr, mem⟩

section PutBytes

variable (mem : Nat → UInt8) (p : Nat) {b c : Bytes}

@[simp] theorem putBytes_nil : putBytes mem p [] = mem := by
  funext x
  rw [putBytes, List.getD_nil]
  split
  · rfl
  · rfl

theorem putBytes_of_lt {x : Nat} (h : x < p) : putBytes mem p b x = mem x := if_neg (by omega)

theorem putBytes_of_le {x : Nat} (h : p + b.length ≤ x) : putBytes mem p b x = mem x := by
  rw [putBytes, if_pos (by omega), List.getD_eq_default _ _ (by omega)]

theorem putBytes_add {i : Nat} (h : i < b.length) : putBytes mem p b (p + i) = b[i] := by
  rw [putBytes, if_pos (Nat.le_add_right p i), Nat.add_sub_cancel_left, List.getD_eq_getElem _ _ h]

/-- Other bytes in the place of the last ones. -/
theorem putBytes_append (a : Bytes) (h : b.length ≤ c.length) :
    putBytes (putBytes mem p (a ++ b)) (p + a.length) c = putBytes mem p (a ++ c) := by
  have hab : (a ++ b).length = a.length + b.length := List.length_append
  have hac : (a ++ c).length = a.length + c.length := List.length_append
  funext x
  rcases Nat.lt_or_ge x p with hx | hx
  · rw [putBytes_of_lt _ _ (by omega), putBytes_of_lt _ _ hx, putBytes_of_lt _ _ hx]
  · obtain ⟨i, rfl⟩ := Nat.exists_eq_add_of_le hx
    rcases Nat.lt_or_ge i a.length with hi | hi
    · rw [putBytes_of_lt _ _ (by omega), putBytes_add _ _ (by omega), putBytes_add _ _ (by omega),
        List.getElem_append_left hi, List.getElem_append_left hi]
    · obtain ⟨j, rfl⟩ := Nat.exists_eq_add_of_le hi
      rw [← Nat.add_assoc]
      rcases Nat.lt_or_ge j c.length with hj | hj
      · rw [putBytes_add _ _ hj, Nat.add_assoc, putBytes_add _ _ (by omega),
          List.getElem_append_right (by omega)]
        simp
      · rw [putBytes_of_le _ _ (by omega), putBytes_of_le _ _ (by omega),
          putBytes_of_le _ _ (by omega)]

end PutBytes

theorem length_fitted_le (size : Nat) (text : Bytes) : (fitted size text).length ≤ size := by
  rw [fitted]
  split
  · exact Nat.zero_le _
  · rw [List.length_append, List.length_take, List.length_singleton]
    omega

/-- A text that fits, with the next one behind it. -/
theorem putBytes_fitted_append (mem : Nat → UInt8) (p : Nat) {size : Nat} {text : Bytes}
    (h : text.length < size) (next : Bytes) :
    putBytes (putBytes mem p (fitted size text)) (p + text.length)
      (fitted (size - text.length) next) = putBytes mem p (fitted size (text ++ next)) := by
  have hroom : size - text.length - 1 = size - 1 - text.length := by omega
  have htext : text.take (size - 1) = text := List.take_of_length_le (by omega)
  rw [fitted, if_neg (by omega), htext, fitted, if_neg (by omega),
    putBytes_append mem p text (by simp), fitted, if_neg (by omega), List.take_append, htext, hroom,
    List.append_assoc]

/-- A text that does not fit hides what comes behind it. -/
theorem fitted_append_of_le {size : Nat} {text : Bytes} (h : size ≤ text.length) (next : Bytes) :
    fitted size (text ++ next) = fitted size text := by
  rw [fitted, fitted, List.take_append_of_le_length (by omega)]

section Append

variable (mem : Nat → UInt8) (p size : Nat)

/-- The output after a text: it has been written as a whole. -/
def outputAfter (text : Bytes) : Output where
  str := if text.length ≥ size then none else some (p + text.length)
  size := size - text.length
  r := text.length
  mem := putBytes mem p (fitted size text)

theorem appendf_first (text : Bytes) :
    appendf ⟨some p, size, 0, mem⟩ text = some (outputAfter mem p size text) := by
  rw [appendf, snprintf, outputAfter]
  by_cases h0 : size = 0
  · rw [if_pos h0, h0]
    simp [fitted]
  · rw [if_neg h0]
    by_cases hle : text.length ≥ size
    · simp [hle]
    · simp [hle]

theorem appendf_outputAfter (text next : Bytes) :
    appendf (outputAfter mem p size text) next = some (outputAfter mem p size (text ++ next)) := by
  simp only [appendf, snprintf, outputAfter, List.length_append]
  by_cases hle : text.length ≥ size
  · have hzero : size - text.length = 0 := by omega
    have hzero' : size - (text.length + next.length) = 0 := by omega
    have hle' : text.length + next.length ≥ size := by omega
    simp only [hzero, hzero', hle, hle', if_true, fitted_append_of_le hle, Option.bind_eq_bind,
      Option.bind_some, ge_iff_le, Nat.zero_le]
  · have hne : size - text.length ≠ 0 := by omega
    simp only [hne, hle, if_false, Option.map_some, Option.bind_eq_bind, Option.bind_some,
      putBytes_fitted_append mem p (Nat.lt_of_not_ge hle)]
    by_cases hnext : next.length ≥ size - text.length
    · rw [if_pos hnext, if_pos (by omega), show size - (text.length + next.length) = 0 by omega]
    · rw [if_neg hnext, if_neg (by omega), Nat.add_assoc, Nat.sub_sub]

end Append

end SdbStore.Lib
