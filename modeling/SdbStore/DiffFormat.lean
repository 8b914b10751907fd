import SdbStore.Diff
import SdbStore.Lib.Bounded
import SdbStore.Lib.Checked

/-!
# Printing a diff

`sdb_diff_format` puts the text of a diff together from pieces: the sign and the kind, the names of
the path, the key and the value.  Every piece goes through `snprintf`, with the room that the pieces
before it have left.  What `snprintf` returns is an `int`, as is the length so far: a piece that is
longer makes it return a negative number, and a sum that is larger is undefined.
-/

namespace SdbStore

open Lib

/-- What a function that returns in the middle of it returns, with the memory. -/
abbrev Returned := Int × (Nat → UInt8)

/-- `APPENDF`: a piece, or the return from the function with a negative number. -/
def appendInt (o : Output) (text : Bytes) : ExceptT Returned Option Output :=
  match appendf o text with
  | none => none
  | some o' =>
      if intMax < text.length then throw (-1, o'.mem)
      else if intMax < o'.r then none
      else pure o'

/-- The body of `sdb_diff_format`. -/
def diffFormatBody (mem : Nat → UInt8) (str : Option Nat) (size : Nat) (diff : SdbDiff) :
    ExceptT Returned Option Output := do
  let o ← appendInt ⟨str, size, 0, mem⟩
    ((if diff.add then 43 else 45) :: (if diff.v.isSome then [32, 32] else [78, 83]) ++ [32])
  let o ← diff.path.foldlM (fun o component ↦ appendInt o (component.val ++ [47])) o
  match diff.v with
  | some v => appendInt o (diff.k.val ++ 61 :: v.val)
  | none => appendInt o diff.k.val

/-- The return at the end, if there has been none in the body. -/
def diffFormatReturn : Except Returned Output → Returned
  | .error ret => ret
  | .ok o => (o.r, o.mem)

/-- `sdb_diff_format`: what it returns, and the memory.  It has no result if it would write through
`NULL`, or if the sum of the lengths overflows. -/
def sdbDiffFormat (mem : Nat → UInt8) (str : Option Nat) (size : Nat) (diff : SdbDiff) :
    Option Returned :=
  (diffFormatBody mem str size diff).run.map diffFormatReturn

namespace SdbDiff

/-- The pieces behind the first one. -/
def pieces (diff : SdbDiff) : List Bytes :=
  diff.path.map (fun component ↦ component.val ++ [47]) ++
    [match diff.v with
      | some v => diff.k.val ++ 61 :: v.val
      | none => diff.k.val]

/-- The text of a diff: a sign, two blanks or `NS`, the path with a slash behind every name, and the
key with the value behind an equals sign. -/
def rendering (diff : SdbDiff) : Bytes :=
  (if diff.add then [43] else [45]) ++ (if diff.v.isSome then [32, 32] else [78, 83]) ++ [32] ++
    (diff.path.flatMap fun component ↦ component.val ++ [47]) ++ diff.k.val ++
    match diff.v with
      | some v => 61 :: v.val
      | none => []

theorem rendering_eq (diff : SdbDiff) : diff.rendering =
    ((if diff.add then 43 else 45) :: (if diff.v.isSome then [32, 32] else [78, 83]) ++ [32]) ++
      diff.pieces.flatten := by
  rw [rendering, pieces, List.flatten_append, List.flatten_singleton, ← List.flatMap_def]
  cases diff.v with
  | none => cases diff.add <;> simp
  | some v => cases diff.add <;> simp

end SdbDiff

/-- The pieces one after another. -/
theorem diffFormatBody_pieces (mem : Nat → UInt8) (str : Option Nat) (size : Nat) (diff : SdbDiff) :
    diffFormatBody mem str size diff =
      appendInt ⟨str, size, 0, mem⟩ ((if diff.add then 43 else 45) ::
        (if diff.v.isSome then [32, 32] else [78, 83]) ++ [32]) >>=
          diff.pieces.foldlM appendInt := by
  rw [diffFormatBody, SdbDiff.pieces]
  refine bind_congr fun o ↦ ?_
  rw [List.foldlM_append, List.foldlM_map]
  refine bind_congr fun o ↦ ?_
  rw [List.foldlM_cons]
  cases diff.v with
  | none => exact (bind_pure _).symm
  | some v => exact (bind_pure _).symm

/-! ## As long as everything is an `int` -/

section Short

variable (mem : Nat → UInt8) (p : Nat) {size : Nat}

/-- A piece whose length is an `int`, as is the length so far. -/
theorem appendInt_eq {o o' : Output} {text : Bytes} (h : appendf o text = some o')
    (htext : text.length ≤ intMax) (hr : o'.r ≤ intMax) : appendInt o text = pure o' := by
  rw [appendInt, h]
  dsimp only
  rw [if_neg (Nat.not_lt.mpr htext)]
  exact if_neg (Nat.not_lt.mpr hr)

theorem foldlM_appendInt (text : Bytes) {pieces : List Bytes}
    (h : (text ++ pieces.flatten).length ≤ intMax) :
    pieces.foldlM appendInt (outputAfter mem p size text) =
      pure (outputAfter mem p size (text ++ pieces.flatten)) := by
  induction pieces generalizing text with
  | nil =>
      rw [List.flatten_nil, List.append_nil]
      rfl
  | cons piece pieces ih =>
      rw [List.flatten_cons, ← List.append_assoc] at h ⊢
      have hle : (text ++ piece).length ≤ intMax := by
        rw [List.length_append] at h
        omega
      have hpiece : piece.length ≤ intMax := by
        rw [List.length_append] at hle
        omega
      rw [List.foldlM_cons, appendInt_eq (appendf_outputAfter mem p size text piece) hpiece hle,
        pure_bind]
      exact ih (text ++ piece) h

/-- **`sdb_diff_format` is one `snprintf`** of a text whose length is an `int`. -/
theorem sdbDiffFormat_eq {diff : SdbDiff} (h : diff.rendering.length ≤ intMax) :
    sdbDiffFormat mem (some p) size diff =
      some ((diff.rendering.length : Int), putBytes mem p (fitted size diff.rendering)) := by
  rw [diff.rendering_eq] at h ⊢
  have hfirst := h
  rw [List.length_append] at hfirst
  have hfirst := Nat.le_trans (Nat.le_add_right _ _) hfirst
  rw [sdbDiffFormat, diffFormatBody_pieces, appendInt_eq (appendf_first mem p size _) hfirst hfirst,
    pure_bind, foldlM_appendInt mem p _ h]
  rfl

end Short

/-! ## What is returned is an `int` -/

/-- The return, or the length so far, is an `int`. -/
def InRange (x : ExceptT Returned Option Output) : Prop :=
  ∀ r, x.run = some r → (diffFormatReturn r).1 ≤ intMax

theorem InRange.bind {x : ExceptT Returned Option Output}
    {f : Output → ExceptT Returned Option Output} (hx : InRange x)
    (hf : ∀ o : Output, o.r ≤ intMax → InRange (f o)) : InRange (x >>= f) := by
  intro r h
  cases x with
  | none => cases h
  | some y =>
      cases y with
      | error ret =>
          cases h
          exact hx _ rfl
      | ok o => exact hf o (Int.ofNat_le.mp (hx _ rfl)) r h

theorem InRange.appendInt (o : Output) (text : Bytes) : InRange (SdbStore.appendInt o text) := by
  intro r h
  rw [SdbStore.appendInt] at h
  split at h
  · cases h
  · split at h
    · cases h
      exact show (-1 : Int) ≤ (intMax : Int) by decide
    · split at h
      · cases h
      · next hr =>
          cases h
          exact Int.ofNat_le.mpr (Nat.not_lt.mp hr)

theorem InRange.foldlM {o : Output} (h : o.r ≤ intMax) (pieces : List Bytes) :
    InRange (pieces.foldlM SdbStore.appendInt o) := by
  induction pieces generalizing o with
  | nil =>
      intro r hr
      cases hr
      exact Int.ofNat_le.mpr h
  | cons piece pieces ih =>
      rw [List.foldlM_cons]
      exact (InRange.appendInt o piece).bind fun o ho ↦ ih ho

/-- The length of a longer text is not returned. -/
theorem sdbDiffFormat_le {mem : Nat → UInt8} {str : Option Nat} {size : Nat} {diff : SdbDiff}
    {ret : Returned} (h : sdbDiffFormat mem str size diff = some ret) : ret.1 ≤ intMax := by
  rw [sdbDiffFormat, diffFormatBody_pieces] at h
  obtain ⟨r, hr, rfl⟩ := Option.map_eq_some_iff.mp h
  exact (InRange.appendInt _ _).bind (fun o ho ↦ InRange.foldlM ho diff.pieces) r hr

/-! ## The contract -/

/-- As `snprintf`: it returns the length of the text, writes as much of it as there is room for with
a NUL behind it, and nothing outside of its buffer. -/
def LikeSnprintf (mem : Nat → UInt8) (p size : Nat) (diff : SdbDiff) : Prop :=
  ∃ mem', sdbDiffFormat mem (some p) size diff = some ((diff.rendering.length : Int), mem') ∧
    (0 < size →
      (∀ i < min diff.rendering.length (size - 1), diff.rendering[i]? = some (mem' (p + i))) ∧
        mem' (p + min diff.rendering.length (size - 1)) = 0) ∧
    ∀ x, x < p ∨ p + size ≤ x → mem' x = mem x

/-- **`sdb_diff_format`** is like `snprintf` exactly if an `int` holds the length of the text. -/
theorem sdbDiffFormat_like_snprintf_iff (mem : Nat → UInt8) (p size : Nat) (diff : SdbDiff) :
    LikeSnprintf mem p size diff ↔ diff.rendering.length ≤ 2147483647 := by
  constructor
  · rintro ⟨mem', h, -⟩
    exact Int.ofNat_le.mp (sdbDiffFormat_le h)
  · intro hint
    refine ⟨putBytes mem p (fitted size diff.rendering), sdbDiffFormat_eq mem p hint,
      fun hsize ↦ ?_, fun x hx ↦ ?_⟩
    · have hlen : (diff.rendering.take (size - 1)).length =
          min diff.rendering.length (size - 1) := by
        rw [List.length_take, Nat.min_comm]
      rw [fitted, if_neg (Nat.ne_of_gt hsize)]
      constructor
      · intro i hi
        rw [putBytes_add _ _ (by rw [List.length_append]; omega),
          List.getElem_append_left (by omega), List.getElem_take,
          List.getElem?_eq_getElem (by omega)]
      · rw [← hlen, putBytes_add _ _ (by rw [List.length_append]; exact Nat.lt_succ_self _),
          List.getElem_append_right (Nat.le_refl _)]
        simp
    · have hle := length_fitted_le size diff.rendering
      rcases hx with hx | hx
      · exact putBytes_of_lt mem p hx
      · exact putBytes_of_le mem p (by omega)

theorem zero_notMem_letters (n : Nat) : (0 : UInt8) ∉ List.replicate n (97 : UInt8) :=
  fun h ↦ absurd (List.eq_of_mem_replicate h) (by decide)

/-- A new key with 2147483648 letters `a`. -/
def longDiff : SdbDiff where
  path := []
  k := ⟨List.replicate 2147483648 97, zero_notMem_letters 2147483648⟩
  v := none
  add := true

/-- The length of its text is not an `int`. -/
theorem not_sdbDiffFormat_like_snprintf : ¬ ∀ mem p size diff, LikeSnprintf mem p size diff := by
  intro h
  have hle := (sdbDiffFormat_like_snprintf_iff (fun _ ↦ 0) 0 0 longDiff).mp (h _ _ _ _)
  have hlen : longDiff.k.val.length = 2147483648 := List.length_replicate
  have hkey : longDiff.k.val.length ≤ longDiff.rendering.length := by
    rw [SdbDiff.rendering, List.length_append, List.length_append]
    omega
  omega

end SdbStore
