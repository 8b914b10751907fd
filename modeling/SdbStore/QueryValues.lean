import SdbStore.Memory
import SdbStore.QueryLaws

/-!
# Values of queries

What the queries `+k=n`, `-k=n` and `k="v"` do, next to the functions that a program calls for it.
The number passes through an `int`, so `+k=n` is `sdb_num_inc` of another number when `n` does not
fit into one (`queryAgrees_iff`).  The quotes keep every character of a value but one: white space
at its beginning is cut as if it were not quoted (`storesQuoted_iff`).
-/

namespace SdbStore

open Lib

/-! ## Plain keys -/

/-- The characters at the beginning of a segment with which it says what it does. -/
def querySigns : Bytes := [9, 32, 35, 36, 37, 42, 43, 45, 46, 63, 91, 126]

/-- A key that has nothing of the language of queries in it. -/
structure PlainKey (k : Bytes) : Prop where
  ne : k ≠ []
  start : ∀ c ∈ k.head?, c ∉ querySigns
  noEq : 61 ∉ k
  noEnd : 59 ∉ k
  noPath : 47 ∉ k
  noJson : 58 ∉ k

/-- The key `a`. -/
theorem plainKey_a : PlainKey (CStr.ofBytes [97]).val :=
  ⟨by decide, by decide +kernel, by decide, by decide, by decide, by decide⟩

section Segment

variable {σ ρ : Type} (api : QueryApi σ ρ)

/-- A query of one segment. -/
theorem state_sdbQuerys {r : ρ} {cmd : CStr} {st : σ} {t : QStatus × StrBuf × σ}
    (h : qSegment api r cmd.val st = (t, none)) : (sdbQuerys api r cmd st).2 = t.2.2 := by
  rw [sdbQuerys, querysLoop_last api (by rw [h]), h]

/-- A segment with a `=`. -/
theorem qSegment_eq (r : ρ) (st : σ) {c : UInt8} {cmd : Bytes} (hc : c ∉ [9, 32, 35, 37])
    (hcmd : 61 ∉ c :: cmd) (post : Bytes) : qSegment api r (c :: cmd ++ 61 :: post) st =
      (qExec api false (qParseEq (c :: cmd) post) r st, (qParseEq (c :: cmd) post).rest) := by
  have hblank : ¬ (c = 32 ∨ c = 9) := by
    rintro (rfl | rfl)
    · exact hc (by decide)
    · exact hc (by decide)
  have hdrop : (c :: cmd ++ 61 :: post).dropWhile (fun c ↦ c = 32 ∨ c = 9) =
      c :: cmd ++ 61 :: post := List.dropWhile_cons_of_neg (by simpa using hblank)
  have hparse : qParse (c :: cmd ++ 61 :: post) = qParseEq (c :: cmd) post := by
    rw [qParse, cutAt_append hcmd]
  rw [qSegment_plain api r st hdrop, hparse]
  · rintro h
    cases Option.some.inj h
    exact hc (by decide)
  · rintro h
    cases Option.some.inj h
    exact hc (by decide)

/-- A segment without a path. -/
theorem qWalk_noPath {encode : Bool} {eq val : Option Bytes} {r : ρ} {cmd : Bytes} {st : σ}
    (h : 47 ∉ cmd) : qWalk api encode eq val r cmd st = qDispatch api encode eq val r cmd st := by
  have hsplit : cmd.splitOn 47 = [cmd] :=
    List.splitOnP_eq_singleton fun x hx ↦ by simpa using fun heq : x = 47 ↦ h (heq ▸ hx)
  rw [qWalk, hsplit]
  rfl

end Segment

/-! ## Numbers in a query -/

/-- The number that a row of digits stands for. -/
def digitsOf (base : Nat) (ds : Bytes) : Nat := ds.foldl (fun n c ↦ n * base + digitVal c) 0

/-- A decimal number, or a hexadecimal one with `0x`. -/
inductive Literal : Bytes → Nat → Prop where
  | dec {ds : Bytes} (ne : ds ≠ []) (digit : ∀ c ∈ ds, digitVal c < 10)
      (zero : ds.head? = some 48 → ds = [48]) : Literal ds (digitsOf 10 ds)
  | hex {x : UInt8} {ds : Bytes} (sign : x = 120 ∨ x = 88) (ne : ds ≠ [])
      (digit : ∀ c ∈ ds, digitVal c < 16) : Literal (48 :: x :: ds) (digitsOf 16 ds)

/-- A digit is no space, no sign and no separator. -/
theorem digit_spec {c : UInt8} (h : digitVal c < 16) :
    isSpace c = false ∧ c ≠ 45 ∧ c ≠ 43 ∧ c ≠ 59 ∧ c ≠ 36 ∧ c ≠ 34 := by
  have hrange : 48 ≤ c.toNat ∧ c.toNat ≠ 59 := by
    rw [digitVal] at h
    simp only [UInt8.le_iff_toNat_le] at h
    split at h
    · next hc => exact ⟨hc.1, by have := hc.2; simp at this; omega⟩
    · split at h
      · next hc => have := hc.1; simp at this; omega
      · split at h
        · next hc => have := hc.1; simp at this; omega
        · omega
  have hne : ∀ d : UInt8, c.toNat ≠ d.toNat → c ≠ d := fun d hd heq ↦ hd (congrArg UInt8.toNat heq)
  refine ⟨?_, hne 45 ?_, hne 43 ?_, hne 59 hrange.2, hne 36 ?_, hne 34 ?_⟩
  · rw [isSpace, decide_eq_false_iff_not, UInt8.le_iff_toNat_le, UInt8.le_iff_toNat_le]
    rintro (rfl | ⟨-, hc⟩)
    · exact absurd hrange.1 (by decide)
    · simp at hc
      omega
  all_goals
    simp
    omega

theorem sdbIsnum_digit {c : UInt8} (h : digitVal c < 10) (l : Bytes) :
    sdbIsnum (c :: l) = true := by
  refine decide_eq_true (.inr (.inr ?_))
  rw [digitVal] at h
  split at h
  · next hc => exact hc
  · simp only [UInt8.le_iff_toNat_le] at h
    split at h
    · next hc => have := hc.1; simp at this; omega
    · split at h
      · next hc => have := hc.1; simp at this; omega
      · omega

theorem digitsVal_all {base : Nat} {ds : Bytes} (h : ∀ c ∈ ds, digitVal c < base) :
    digitsVal base ds = digitsOf base ds := by
  rw [digitsVal, List.takeWhile_eq_self_iff.mpr fun c hc ↦ decide_eq_true (h c hc), digitsOf]

/-- A text that begins with a digit has no sign. -/
theorem sdbAtoi_digit {c : UInt8} (hc : digitVal c < 16) (l : Bytes) : sdbAtoi (some (c :: l)) =
    clamp (digitsVal (strtoullBase (c :: l)).1 (strtoullBase (c :: l)).2) := by
  obtain ⟨hspace, hminus, hplus, -⟩ := digit_spec hc
  have hhead (d : UInt8) (hd : c ≠ d) : ¬ (c :: l).head? = some d := fun h ↦ hd (Option.some.inj h)
  rw [sdbAtoi, if_neg (hhead 45 hminus), strtoull, List.dropWhile_cons_of_neg (by simp [hspace])]
  simp only [hhead 45 hminus, hhead 43 hplus, or_self, if_false]
  rfl

/-- A literal is the number that `sdb_atoi` reads. -/
theorem Literal.sdbAtoi {l : Bytes} {n : Nat} (h : Literal l n) (hn : n < 2 ^ 64) :
    sdbAtoi (some l) = UInt64.ofNat n := by
  cases h with
  | dec ne digit zero =>
      cases l with
      | nil => exact absurd rfl ne
      | cons c ds =>
          have hbase : digitsVal (strtoullBase (c :: ds)).1 (strtoullBase (c :: ds)).2 =
              digitsOf 10 (c :: ds) := by
            by_cases hc : c = 48
            · rw [zero (congrArg some hc)]
              decide
            · have hten : strtoullBase (c :: ds) = (10, c :: ds) := by
                rw [strtoullBase]
                · intro x c' rest h
                  exact hc (List.cons.inj h).1
                · intro l h
                  exact hc (List.cons.inj h).1
              rw [hten, digitsVal_all digit]
          rw [sdbAtoi_digit ((digit c List.mem_cons_self).trans (by decide)), hbase, clamp,
            if_neg (Nat.not_le.mpr hn)]
  | @hex x ds sign ne digit =>
      cases ds with
      | nil => exact absurd rfl ne
      | cons c ds =>
          have hbase : strtoullBase (48 :: x :: c :: ds) = (16, c :: ds) := by
            rw [strtoullBase, if_pos ⟨sign, digit c List.mem_cons_self⟩]
          rw [sdbAtoi_digit (by decide), hbase, digitsVal_all digit, clamp,
            if_neg (Nat.not_le.mpr hn)]

/-- It begins with a digit, and goes on without a `;`. -/
theorem Literal.text {l : Bytes} {n : Nat} (h : Literal l n) :
    (∃ c l', l = c :: l' ∧ digitVal c < 10) ∧ 59 ∉ l := by
  have hno {base : Nat} (hbase : base ≤ 16) {ds : Bytes} (digit : ∀ c ∈ ds, digitVal c < base) :
      59 ∉ ds := fun hmem ↦ (digit_spec (Nat.lt_of_lt_of_le (digit 59 hmem) hbase)).2.2.2.1 rfl
  cases h with
  | dec ne digit zero =>
      refine ⟨?_, hno (by decide) digit⟩
      cases l with
      | nil => exact absurd rfl ne
      | cons c ds => exact ⟨c, ds, rfl, digit c List.mem_cons_self⟩
  | @hex x ds sign ne digit =>
      refine ⟨⟨48, x :: ds, rfl, by decide⟩, ?_⟩
      have hx : x ≠ 59 := by
        rintro rfl
        exact absurd sign (by decide)
      simp [hno (Nat.le_refl 16) digit, hx.symm]

/-! ## Steps by a number -/

/-- The query `+k=v` or `-k=v`. -/
def incdecQuery (plus : Bool) (k val : CStr) : CStr :=
  CStr.ofBytes [if plus then 43 else 45] ++ (k ++ (CStr.ofBytes [61] ++ val))

theorem val_incdecQuery (plus : Bool) (k val : CStr) : (incdecQuery plus k val).val =
    (if plus then 43 else 45) :: k.val ++ 61 :: val.val := by
  cases plus with
  | true => rfl
  | false => rfl

/-- A number with or without a minus sign. -/
def operand (neg : Bool) (text : CStr) : CStr := if neg then CStr.ofBytes [45] ++ text else text

/-- What is left of a number in an `int`. -/
def narrow (n : UInt64) : UInt64 := ofInt (toInt n)

/-- An `int` holds the numbers below 2³¹, and those that are negative ones as a `st64`. -/
theorem narrow_eq_self_iff (n : UInt64) :
    narrow n = n ↔ n.toNat < 2 ^ 31 ∨ 2 ^ 64 - 2 ^ 31 ≤ n.toNat := by
  have hn := n.toNat_lt
  rw [← UInt64.toNat_inj, narrow, ofInt, toInt, BitVec.toInt_eq_toNat_cond, BitVec.toNat_ofNat,
    UInt64.toNat_ofNat']
  split
  · omega
  · omega

section Incdec

variable {σ ρ : Type} (api : QueryApi σ ρ)

/-- The function for a number with the sign `plus`. -/
def incdecCall (plus : Bool) (st : σ) (r : ρ) (k : CStr) (n : UInt64) : σ :=
  if plus then (api.sdbNumInc st r k.val n).2 else (api.sdbNumDec st r k.val n).2

theorem qParseEq_plain {cmd l : Bytes} {c : UInt8} (href : c ≠ 36) (hquote : c ≠ 34)
    (hend : 59 ∉ c :: l) :
    qParseEq cmd (c :: l) = ⟨cmd, some (c :: l), .text (c :: l), none⟩ := by
  unfold qParseEq
  split
  · next heq => exact absurd (List.cons.inj heq).1 href
  · next heq => exact absurd (List.cons.inj heq).1 hquote
  · dsimp only
    rw [cutAt_of_notMem hend]

/-- `q_incdec` with a number. -/
theorem qIncdec_num {q : Query ρ} {c : UInt8} {val : Bytes} {plus neg : Bool} {k : CStr} {st : σ}
    (hcmd : q.cmd = (if plus then 43 else 45) :: k.val) (hk : PlainKey k.val)
    (hval : q.val = some (if neg then 45 :: c :: val else c :: val)) (hc : digitVal c < 10) :
    qIncdec api q st = (.next, none,
      incdecCall api (plus != neg) st q.s k (narrow (sdbAtoi (some (c :: val))))) := by
  have hplus : decide (q.cmd.head? = some 43) = plus := by
    rw [hcmd]
    cases plus with
    | true => rfl
    | false => rfl
  have hdrop : q.cmd.drop 1 = k.val := by rw [hcmd, List.drop_succ_cons, List.drop_zero]
  unfold qIncdec
  rw [hplus, hdrop]
  split
  · next idx hidx => exact absurd (by decide) (hk.start 91 (by rw [hidx]; rfl))
  · cases neg with
    | true =>
        rw [if_pos rfl] at hval
        have hnum : sdbIsnum (45 :: c :: val) = true := rfl
        simp only [hval, hnum]
        cases plus with
        | true => rfl
        | false => rfl
    | false =>
        rw [if_neg Bool.false_ne_true] at hval
        have hnum : sdbIsnum (c :: val) = true := sdbIsnum_digit hc val
        have hminus := (digit_spec (hc.trans (by decide))).2.1
        have hhead : decide ((c :: val).head? = some 45) = false :=
          decide_eq_false fun h ↦ hminus (Option.some.inj h)
        simp only [hval, hnum, hhead]
        cases plus with
        | true => rfl
        | false => rfl

theorem qDispatch_incdec {encode plus : Bool} {eq val : Option Bytes} {s : ρ} {k : Bytes} {st : σ} :
    qDispatch api encode eq val s ((if plus then 43 else 45) :: k) st =
      qIncdec api ⟨s, encode, (if plus then 43 else 45) :: k, (if plus then 43 else 45) :: k, val,
        eq, (cutAt 58 ((if plus then 43 else 45) :: k)).2,
        (cutAt 58 ((if plus then 43 else 45) :: k)).1⟩
        st := by
  cases plus with
  | true => rfl
  | false => rfl

/-- **The query** calls the function for its sign with what is left of the number. -/
theorem state_incdecQuery {k text : CStr} (hk : PlainKey k.val) {n : Nat} (hl : Literal text.val n)
    (hn : n < 2 ^ 64) (plus neg : Bool) (st : σ) (r : ρ) :
    (sdbQuerys api r (incdecQuery plus k (operand neg text)) st).2 =
      incdecCall api (plus != neg) st r k (narrow (UInt64.ofNat n)) := by
  obtain ⟨⟨c, l, htext, hc⟩, hend⟩ := hl.text
  obtain ⟨-, -, -, -, href, hquote⟩ := digit_spec (hc.trans (by decide) : digitVal c < 16)
  rw [← hl.sdbAtoi hn]
  rw [htext] at hend ⊢
  have hval : (operand neg text).val = if neg then 45 :: c :: l else c :: l := by
    rw [operand]
    cases neg with
    | true => exact congrArg (45 :: ·) htext
    | false => exact htext
  have hparse (cmd : Bytes) : qParseEq cmd (operand neg text).val =
      ⟨cmd, some (operand neg text).val, .text (operand neg text).val, none⟩ := by
    rw [hval]
    cases neg with
    | true => exact qParseEq_plain (by decide) (by decide) (by simpa using hend)
    | false => exact qParseEq_plain href hquote hend
  have hsign (sign : UInt8) (hs : sign = 43 ∨ sign = 45) {d : UInt8} (hd : d ≠ 43) (hd' : d ≠ 45)
      (h : d ∉ k.val) : d ∉ sign :: k.val := by
    rw [List.mem_cons, not_or]
    exact ⟨by rcases hs with rfl | rfl <;> assumption, h⟩
  have hpm : (if plus then 43 else 45 : UInt8) = 43 ∨ (if plus then 43 else 45 : UInt8) = 45 := by
    cases plus with
    | true => exact .inl rfl
    | false => exact .inr rfl
  have hstart : (if plus then 43 else 45 : UInt8) ∉ [9, 32, 35, 37] := by
    rcases hpm with h | h
    · rw [h]
      decide
    · rw [h]
      decide
  have hseg := qSegment_eq api r st hstart (hsign _ hpm (by decide) (by decide) hk.noEq)
    (operand neg text).val
  rw [hparse, qExec] at hseg
  dsimp only at hseg
  rw [qWalk_noPath api (hsign _ hpm (by decide) (by decide) hk.noPath)] at hseg
  rw [← val_incdecQuery, qDispatch_incdec, qIncdec_num api rfl hk (congrArg some hval) hc] at hseg
  exact state_sdbQuerys api hseg

end Incdec

/-! ## What the functions for numbers leave -/

/-- The digits of a number are its own. -/
theorem digits_injective {b : Nat} (hb : 1 < b) (h16 : b ≤ 16) {m n : Nat}
    (h : digits b m = digits b n) : m = n := by
  rw [← reread_self hb h16 m, ← reread_self hb h16 n, reread, reread, h]

theorem sdbItoa_octal (v : UInt64) : sdbItoa v 8 = digits 8 v.toNat := by
  by_cases hv : v = 0
  · rw [hv]
    decide
  · rw [sdbItoa, if_neg hv, if_pos (by decide)]

theorem sdbItoa_injective {base : Nat} (hbase : base = 8 ∨ base = 10 ∨ base = 16) {v v' : UInt64}
    (h : sdbItoa v base = sdbItoa v' base) : v = v' := by
  by_cases h8 : base = 8
  · rw [h8, sdbItoa_octal, sdbItoa_octal] at h
    exact UInt64.toNat_inj.mp (digits_injective (by decide) (by decide) h)
  · rw [← (strtoull_sdbItoa hbase v).mpr (.inl h8), h, (strtoull_sdbItoa hbase v').mpr (.inl h8)]

/-- A number that is printed in the base of a text is not that text when the base is octal. -/
theorem sdbNumBase_sdbItoa {x : Bytes} {v : UInt64} (h : x = sdbItoa v (sdbNumBase (some x))) :
    sdbNumBase (some x) ≠ 8 := by
  intro h8
  rw [h8, sdbItoa_octal] at h
  have hoct : x.head? = some 48 ∧ x.length > 1 := by
    rw [sdbNumBase] at h8
    split at h8
    · cases h8
    · split at h8
      · next hoct => exact hoct
      · cases h8
  rcases Nat.eq_zero_or_pos v.toNat with hv | hv
  · rw [hv] at h
    rw [h] at hoct
    exact absurd hoct.2 (by decide)
  · obtain ⟨d, l, hpos, hd, hl⟩ := exists_digits_cons (b := 8) (by decide) (by decide) hv
    rw [h, hl] at hoct
    have hzero := (digitByte_spec d (by omega)).2.2.2.2.2 (Option.some.inj hoct.1)
    omega

theorem sdbJournalLog_eq_iff (s : Sdb) (w : World) (key val : CStr) :
    sdbJournalLog s w key val = w ↔ s.journal = none := by
  rw [sdbJournalLog]
  cases hj : s.journal with
  | none => simp
  | some j =>
      refine iff_of_false (fun h ↦ ?_) (by simp)
      have hfile := congrArg (fun w ↦ w.fs j) h
      rw [setFile_fs, if_pos rfl] at hfile
      have hlen := congrArg (fun f : Option Bytes ↦ (f.getD []).length) hfile
      simp only [Option.getD_some, List.length_append, List.length_take, List.length_cons] at hlen
      omega

section Numbers

variable {s : Sdb} (h : s.Memory) (w : World) {k : CStr}

/-- A key that has not run out of time is only looked at. -/
theorem state_constGetLen (hlive : ¬ TimedOut s w k) : (sdbConstGetLen s w k).2 = (s, w) := by
  unfold sdbConstGetLen
  split
  · rfl
  · next kv hf =>
      split
      · rfl
      · next v hv =>
          rw [TimedOut, hf, entryTimedOut_some hv] at hlive
          rw [if_neg hlive]
          split
          · rfl
          · rfl

include h in
/-- A second lookup gives what the first one gave. -/
theorem Sdb.Memory.constGetLen_again : sdbConstGetLen (sdbConstGetLen s w k).2.1
    (sdbConstGetLen s w k).2.2 k = sdbConstGetLen s w k := by
  by_cases htimed : TimedOut s w k
  · rw [TimedOut] at htimed
    cases hf : sdbHtFindKvp s k with
    | none =>
        rw [hf] at htimed
        exact absurd htimed (not_entryTimedOut_none _ _)
    | some kv =>
        cases hv : kv.value with
        | none =>
            rw [hf] at htimed
            exact absurd htimed (not_entryTimedOut_of_none hv)
        | some v =>
            rw [hf, entryTimedOut_some hv] at htimed
            by_cases hempty : v = CStr.empty
            · have hnull : sdbConstGetLen s w k = (.null, s, w) := by
                unfold sdbConstGetLen
                simp only [hf, hv]
                rw [if_pos hempty]
              rw [hnull, hnull]
            · have hnull : sdbConstGetLen s w k = (.null, (sdbUnset s w k 0).2) := by
                unfold sdbConstGetLen
                simp only [hf, hv]
                rw [if_neg hempty, if_pos htimed]
              obtain ⟨n, hn⟩ := setEntry_over (h.key hf)
                (show CStr.empty.length < 0xffffff by decide) hv
              have hfind : sdbHtFindKvp (sdbUnset s w k 0).2.1 k =
                  some { kv with cas := n, value := some CStr.empty } := by
                rw [← hn, ← hf]
                exact ((h.wrote w k CStr.empty false 0).find k).trans (if_pos rfl)
              rw [hnull]
              unfold sdbConstGetLen
              simp only [hfind]
              rfl
  · rw [state_constGetLen w htimed]

/-- The base in which a number is printed under the key. -/
def baseOf (s : Sdb) (w : World) (k : CStr) : Nat := sdbNumBase ((sdbGet s w k).map (·.val))

theorem baseOf_cases (s : Sdb) (w : World) (k : CStr) :
    baseOf s w k = 8 ∨ baseOf s w k = 10 ∨ baseOf s w k = 16 := sdbNumBase_cases _

/-- The state after a number is stored under the key. -/
def numPut (s : Sdb) (w : World) (k : CStr) (v : UInt64) : Sdb × World :=
  let st := (sdbConstGetLen s w k).2
  (sdbSet st.1 st.2 k (CStr.ofBytes (sdbItoa v (baseOf s w k))) 0).2

include h in
theorem Sdb.Memory.state_numInc (n : UInt64) : (sdbNumInc s w k n 0).2 =
    if Overflows (numOf s w k) n then (sdbConstGetLen s w k).2
    else numPut s w k (numOf s w k + n) := by
  have hcond : ((0 ≠ 0 ∧ (sdbNumGet s w k).1.2 ≠ 0) ∨
      (sdbNumGet s w k).1.1 + n < (sdbNumGet s w k).1.1) ↔ Overflows (numOf s w k) n :=
    (or_iff_right (by simp)).trans (add_lt_left_iff _ _)
  rw [sdbNumInc, if_congr hcond rfl rfl, apply_ite Prod.snd]
  refine if_congr Iff.rfl rfl ?_
  change (sdbNumSet (sdbConstGetLen s w k).2.1 (sdbConstGetLen s w k).2.2 k _ 0).2 = _
  rw [sdbNumSet, h.constGetLen_again]
  rfl

include h in
theorem Sdb.Memory.state_numDec (n : UInt64) : (sdbNumDec s w k n 0).2 =
    numPut s w k (if n > numOf s w k then 0 else numOf s w k - n) := by
  rw [sdbNumDec, if_neg (by simp)]
  by_cases hn : n > numOf s w k
  · rw [if_pos (show n > (sdbNumGet s w k).1.1 from hn), if_pos hn]
    have hzero : sdbItoa 0 (baseOf s w k) = [48] := if_pos rfl
    rw [numPut, hzero]
    rfl
  · rw [if_neg (show ¬ n > (sdbNumGet s w k).1.1 from hn), if_neg hn]
    change (sdbNumSet (sdbConstGetLen s w k).2.1 (sdbConstGetLen s w k).2.2 k _ 0).2 = _
    rw [sdbNumSet, h.constGetLen_again]
    rfl

/-- A key that is too long is only looked at. -/
theorem numPut_long (hk : 0xff ≤ k.length) (v : UInt64) :
    numPut s w k v = (sdbConstGetLen s w k).2 := by
  rw [numPut, sdbSet_long _ hk]

/-- What is printed of a number is a text. -/
theorem val_itoa (v : UInt64) :
    (CStr.ofBytes (sdbItoa v (baseOf s w k))).val = sdbItoa v (baseOf s w k) :=
  CStr.val_ofBytes (sdbItoa_text (baseOf_cases s w k) v).1

include h in
/-- Every other key has the text of the number afterwards. -/
theorem Sdb.Memory.textOf_numPut (hk : k.length < 0xff) (v : UInt64) :
    (textOf (sdbHtFindKvp (numPut s w k v).1 k)).val = sdbItoa v (baseOf s w k) := by
  have hfit : (CStr.ofBytes (sdbItoa v (baseOf s w k))).length < 0xffffff := by
    rw [CStr.length, val_itoa]
    exact (sdbItoa_text (baseOf_cases s w k) v).2.2.2
  have hspec := (h.constGetLen w k).wrote (sdbConstGetLen s w k).2.2 k
    (CStr.ofBytes (sdbItoa v (baseOf s w k))) false 0
  have hfind := (hspec.find k).trans (if_pos rfl)
  rw [numPut, sdbSet, hfind, textOf_setEntry hk hfit (.inl rfl), val_itoa]

include h in
theorem Sdb.Memory.numPut_injective (hk : k.length < 0xff) {v v' : UInt64}
    (heq : numPut s w k v = numPut s w k v') : v = v' := by
  refine sdbItoa_injective (baseOf_cases s w k) ?_
  have hv := h.textOf_numPut w hk v
  rw [heq, h.textOf_numPut w hk v'] at hv
  exact hv.symm

end Numbers

/-- The text of the key is what its number is printed as, and no journal is open. -/
def Canonical (s : Sdb) (w : World) (k : CStr) : Prop :=
  (sdbGet s w k).map (·.val) = some (sdbItoa (numOf s w k) (baseOf s w k)) ∧ s.journal = none

/-- The text of a key is written again: only the journal notices. -/
theorem Cell.set_same {st : Sdb × World} {k x : CStr} (h : Cell st k x) (hx : x ≠ CStr.empty) :
    (sdbSet st.1 st.2 k x 0).2 = (st.1, sdbJournalLog st.1 st.2 k x) := by
  obtain ⟨kv, hf, hval⟩ := h.exists_entry hx
  have hfit : ¬ (k.length ≥ 0xff ∨ x.length ≥ 0xffffff) :=
    not_or.mpr ⟨Nat.not_le.mpr h.short, Nat.not_le.mpr h.length_lt⟩
  rw [sdbSet, sdbSetInternal, if_neg hfit]
  simp only [hf, hval]
  rw [cdbLookup_bare h.memory.bare, if_pos (by decide), if_neg (by simp)]
  exact congrArg Prod.snd (if_pos trivial)

/-- A number is stored under a key that has a number, and nothing changes. -/
theorem Sdb.Memory.numPut_eq_iff {s : Sdb} (h : s.Memory) (w : World) {k : CStr}
    (hnum : numOf s w k ≠ 0) (v : UInt64) :
    numPut s w k v = (sdbConstGetLen s w k).2 ↔ v = numOf s w k ∧ Canonical s w k := by
  have hlive : ¬ TimedOut s w k := fun htimed ↦ hnum (numOf_timedOut h.bare w htimed)
  obtain ⟨x, hx⟩ : ∃ x, sdbGet s w k = some x := by
    cases hget : sdbGet s w k with
    | none => exact absurd (by rw [numOf, hget]; rfl) hnum
    | some x => exact ⟨x, rfl⟩
  obtain ⟨hcell, hne⟩ : Cell (s, w) k x ∧ x ≠ CStr.empty := Cell.of_some h hx
  have hstate := state_constGetLen w hlive
  have hbase : baseOf s w k = sdbNumBase (some x.val) := by rw [baseOf, hx, Option.map_some]
  -- what is stored when the number is printed as the text of the key
  have hput (hv : sdbItoa v (baseOf s w k) = x.val) :
      numPut s w k v = (s, w) ↔ s.journal = none := by
    rw [numPut, hstate, hv, CStr.ofBytes_val, hcell.set_same hne, ← sdbJournalLog_eq_iff s w k x]
    exact ⟨fun heq ↦ congrArg Prod.snd heq, fun heq ↦ congrArg (Prod.mk s) heq⟩
  rw [hstate, Canonical, hx, Option.map_some, Option.some_inj]
  constructor
  · intro heq
    have htext : sdbItoa v (baseOf s w k) = x.val := by
      rw [← h.textOf_numPut w hcell.short v, heq, hcell.text]
    have hv : v = numOf s w k := by
      have hoct : baseOf s w k ≠ 8 := by
        rw [hbase] at htext ⊢
        exact sdbNumBase_sdbItoa htext.symm
      have hminus := (sdbItoa_text (baseOf_cases s w k) v).2.1
      rw [numOf, hx, sdbNumParse_some, ← htext, sdbAtoi, if_neg hminus]
      exact ((strtoull_sdbItoa (baseOf_cases s w k) v).mpr (.inl hoct)).symm
    exact ⟨hv, by rw [← hv, htext], (hput htext).mp heq⟩
  · rintro ⟨rfl, htext, hj⟩
    exact (hput htext.symm).mpr hj

section Same

variable {s : Sdb} (h : s.Memory) (w : World) (k : CStr)
include h

/-- Two numbers are added with the same effect. -/
theorem Sdb.Memory.numInc_eq_iff (d n : UInt64) :
    (sdbNumInc s w k d 0).2 = (sdbNumInc s w k n 0).2 ↔ d = n ∨ 0xff ≤ k.length ∨
      (Overflows (numOf s w k) n ∧ (Overflows (numOf s w k) d ∨ (d = 0 ∧ Canonical s w k))) ∨
      (Overflows (numOf s w k) d ∧ n = 0 ∧ Canonical s w k) := by
  have hnum {m : UInt64} (hm : Overflows (numOf s w k) m) : numOf s w k ≠ 0 := fun h0 ↦ by
    rw [Overflows, h0] at hm
    have := m.toNat_lt
    simp at hm
    omega
  rw [h.state_numInc, h.state_numInc]
  rcases Nat.lt_or_ge k.length 0xff with hk | hk
  · rw [or_iff_right (Nat.not_le.mpr hk)]
    by_cases hd : Overflows (numOf s w k) d
    · by_cases hn : Overflows (numOf s w k) n
      · simp [hd, hn]
      · have hne : d ≠ n := fun heq ↦ hn (heq ▸ hd)
        rw [if_pos hd, if_neg hn, eq_comm, h.numPut_eq_iff w (hnum hd), UInt64.add_eq_left]
        simp [hd, hn, hne]
    · by_cases hn : Overflows (numOf s w k) n
      · have hne : d ≠ n := fun heq ↦ hd (heq ▸ hn)
        rw [if_neg hd, if_pos hn, h.numPut_eq_iff w (hnum hn), UInt64.add_eq_left]
        simp [hd, hn, hne]
      · rw [if_neg hd, if_neg hn]
        simp only [hd, hn, false_and, or_false]
        constructor
        · exact fun heq ↦ (UInt64.add_right_inj _).mp (h.numPut_injective w hk heq)
        · exact fun heq ↦ by rw [heq]
  · rw [numPut_long w hk, numPut_long w hk, ite_self, ite_self]
    exact iff_of_true rfl (.inr (.inl hk))

/-- Two numbers are subtracted with the same effect. -/
theorem Sdb.Memory.numDec_eq_iff (d n : UInt64) :
    (sdbNumDec s w k d 0).2 = (sdbNumDec s w k n 0).2 ↔ 0xff ≤ k.length ∨
    (numOf s w k).toNat - d.toNat = (numOf s w k).toNat - n.toNat := by
  have hfloor (m : UInt64) : (if m > numOf s w k then 0 else numOf s w k - m).toNat =
      (numOf s w k).toNat - m.toNat := by
    split
    · next hm =>
        have := UInt64.lt_iff_toNat_lt.mp hm
        simp
        omega
    · next hm => exact UInt64.toNat_sub_of_le _ _ (UInt64.not_lt.mp hm)
  rw [h.state_numDec, h.state_numDec, ← hfloor, ← hfloor, UInt64.toNat_inj]
  rcases Nat.lt_or_ge k.length 0xff with hk | hk
  · rw [or_iff_right (Nat.not_le.mpr hk)]
    exact ⟨h.numPut_injective w hk, fun heq ↦ by rw [heq]⟩
  · rw [numPut_long w hk, numPut_long w hk]
    exact iff_of_true rfl (.inl hk)

end Same

/-- The query does to the database what the function does that a program calls for it. -/
def QueryAgrees (api : QueryApi (Heap × World) Ref) (st : Heap × World) (r : Ref) (k text : CStr)
    (n : UInt64) (plus neg : Bool) : Prop :=
  (sdbQuerys api r (incdecQuery plus k (operand neg text)) st).2 =
    incdecCall api (plus != neg) st r k n

/-- When what is left of a number in an `int` is as good as the number.  To add, it is the same
number, or both are too large to be added; the second one can also be 0, when nothing is left to
write.  To subtract, it leads to the same difference, which is 0 at least. -/
def Narrows (s : Sdb) (w : World) (k : CStr) (n : UInt64) (plus : Bool) : Prop :=
  0xff ≤ k.length ∨
    if plus then
      narrow n = n ∨ (Overflows (numOf s w k) n ∧
        (Overflows (numOf s w k) (narrow n) ∨ (narrow n = 0 ∧ Canonical s w k)))
    else (numOf s w k).toNat - (narrow n).toNat = (numOf s w k).toNat - n.toNat

/-- Two functions leave the same heap behind when they do the same to their database. -/
theorem heapRun_eq_iff {α β : Type} {a : α} {b : β} {f : Sdb → World → α × Sdb × World}
    {g : Sdb → World → β × Sdb × World} {st : Heap × World} {r : Ref} {node : SdbNode}
    (hnode : st.1[r]? = some node) :
    (heapRun a f st r).2 = (heapRun b g st r).2 ↔ (f node.sdb st.2).2 = (g node.sdb st.2).2 := by
  have hlt := (List.getElem?_eq_some_iff.mp hnode).1
  unfold heapRun
  simp only [hnode]
  constructor
  · intro heq
    have hread := congrArg (fun h : Heap × World ↦ h.1[r]?.map SdbNode.sdb) heq
    simp only [List.getElem?_set_self hlt, Option.map_some, Option.some_inj] at hread
    exact Prod.ext hread (Prod.mk.inj heq).2
  · intro heq
    rw [heq]

/-- **The queries `+k=n` and `-k=n`**, with a minus sign or without one, do what the functions do
exactly when the number loses nothing in an `int` that matters.  It loses nothing at all below 2³¹,
and as a negative number of 32 bits. -/
theorem queryAgrees_iff (texts : QueryTexts) (rest : QueryApi (Heap × World) Ref)
    {st : Heap × World} {r : Ref} {node : SdbNode} (hnode : st.1[r]? = some node)
    (hm : node.sdb.Memory) {k text : CStr} (hk : PlainKey k.val) {n : Nat} (hl : Literal text.val n)
    (hn : n < 2 ^ 64) (plus neg : Bool) :
    (QueryAgrees (heapApi texts rest) st r k text (UInt64.ofNat n) plus neg ↔
      Narrows node.sdb st.2 k (UInt64.ofNat n) (plus != neg)) ∧
        (narrow (UInt64.ofNat n) = UInt64.ofNat n ↔ n < 2 ^ 31 ∨ 2 ^ 64 - 2 ^ 31 ≤ n) := by
  have hnat : (UInt64.ofNat n).toNat = n := by rw [UInt64.toNat_ofNat', Nat.mod_eq_of_lt hn]
  refine ⟨?_, by rw [narrow_eq_self_iff, hnat]⟩
  rw [QueryAgrees, state_incdecQuery (heapApi texts rest) hk hl hn, Narrows]
  cases plus != neg with
  | true =>
      have hzero : ¬ (Overflows (numOf node.sdb st.2 k) (narrow (UInt64.ofNat n)) ∧
          UInt64.ofNat n = 0 ∧ Canonical node.sdb st.2 k) := by
        rintro ⟨hover, hzero, -⟩
        have hnone : narrow 0 = 0 := by decide
        rw [hzero, hnone, Overflows] at hover
        have := (numOf node.sdb st.2 k).toNat_lt
        simp at hover
        omega
      refine (heapRun_eq_iff hnode).trans ?_
      rw [CStr.ofBytes_val, hm.numInc_eq_iff, or_iff_left hzero, if_pos rfl]
      exact or_left_comm
  | false =>
      refine (heapRun_eq_iff hnode).trans ?_
      rw [CStr.ofBytes_val, hm.numDec_eq_iff, if_neg Bool.false_ne_true]

/-- A number of one digit. -/
theorem queryAgrees_five :
    QueryAgrees (heapApi default default) ([sdbNode0], .empty) 0 (CStr.ofBytes [97])
    (CStr.ofBytes [53]) 5 true false := by
  have hl : Literal (CStr.ofBytes [53]).val 5 := .dec (by decide) (by decide +kernel) (by decide)
  exact (queryAgrees_iff default default rfl Sdb.Memory.new0
    plainKey_a hl (by decide) true false).1.mpr
    (.inr (.inl (by decide)))

/-- The number 2147483648 is added as 18446744071562067968. -/
theorem not_queryAgrees_int :
    Literal (CStr.ofBytes [50, 49, 52, 55, 52, 56, 51, 54, 52, 56]).val 2147483648 ∧
      ¬ QueryAgrees (heapApi default default) ([sdbNode0], .empty) 0 (CStr.ofBytes [97])
      (CStr.ofBytes [50, 49, 52, 55, 52, 56, 51, 54, 52, 56]) 2147483648 true false := by
  have hl : Literal (CStr.ofBytes [50, 49, 52, 55, 52, 56, 51, 54, 52, 56]).val 2147483648 :=
    .dec (by decide) (by decide +kernel) (by decide)
  refine ⟨hl, fun h ↦ ?_⟩
  rw [QueryAgrees, state_incdecQuery (heapApi default default)
    plainKey_a hl (by decide)] at h
  have hvalue := congrArg (fun st ↦ heapValue st 0 (CStr.ofBytes [97])) h
  exact absurd hvalue (by decide)

/-! ## Quoted values -/

/-- A value with a backslash in front of every quote. -/
def quoteBytes (v : Bytes) : Bytes := v.flatMap fun c ↦ if c = 34 then [92, 34] else [c]

/-- The query `k="v"`. -/
def quotedQuery (k v : CStr) : CStr :=
  k ++ (CStr.ofBytes [61, 34] ++ (CStr.ofBytes (quoteBytes v.val) ++ CStr.ofBytes [34]))

theorem quoteBytes_cons (c : UInt8) (v : Bytes) :
    quoteBytes (c :: v) = (if c = 34 then [92, 34] else [c]) ++ quoteBytes v := List.flatMap_cons

theorem zero_notMem_quoteBytes (v : CStr) : (0 : UInt8) ∉ quoteBytes v.val := by
  intro h
  obtain ⟨c, hc, hmem⟩ := List.mem_flatMap.mp h
  split at hmem
  · exact absurd hmem (by decide)
  · exact v.property (List.mem_singleton.mp hmem ▸ hc)

theorem val_quotedQuery (k v : CStr) :
    (quotedQuery k v).val = k.val ++ 61 :: 34 :: (quoteBytes v.val ++ [34]) := by
  have hval : (CStr.ofBytes (quoteBytes v.val)).val = quoteBytes v.val :=
    CStr.val_ofBytes (zero_notMem_quoteBytes v)
  rw [← hval]
  rfl

/-- **The quotes are taken off** again, with what has been read before and what comes behind. -/
theorem unquote_quoteBytes {w v : Bytes} (hw : w.getLast? ≠ some 92) (hv : 92 ∉ v) (m : Bytes) :
    unquote w (quoteBytes v ++ 34 :: m) = some (w ++ v, m) := by
  induction v generalizing w with
  | nil =>
      rw [List.append_nil]
      change unquote w (34 :: m) = _
      rw [unquote, if_pos rfl, if_neg hw]
  | cons c v ih =>
      obtain ⟨hc, hrest⟩ := not_or.mp (mt List.mem_cons.mpr hv)
      rw [quoteBytes_cons, List.append_assoc]
      by_cases hquote : c = 34
      · subst hquote
        have hnext := ih (w := w ++ [34]) (by simp) hrest
        rw [if_pos rfl, List.cons_append, List.singleton_append, unquote, if_neg (by decide),
          unquote, if_pos rfl, if_pos List.getLast?_concat, List.dropLast_concat, hnext,
          List.append_assoc]
        rfl
      · have hnext := ih (w := w ++ [c]) (by simpa using Ne.symm hc) hrest
        rw [if_neg hquote, List.singleton_append, unquote, if_neg hquote, hnext, List.append_assoc]
        rfl

/-- `q_kv` cuts the white space at the end of a key. -/
def trimEnd (k : Bytes) : Bytes := (k.reverse.dropWhile isSpace).reverse

section Quoted

variable {σ ρ : Type} (api : QueryApi σ ρ)

/-- A plain key begins nothing but `q_kv`. -/
theorem qDispatch_plain {eq val : Option Bytes} {s : ρ} {k : Bytes} {st : σ} (hk : PlainKey k) :
    qDispatch api false eq val s k st = qKv api ⟨s, false, k, k, val, eq, none, k⟩ st := by
  obtain ⟨c, l, rfl⟩ := List.exists_cons_of_ne_nil hk.ne
  have hstart := hk.start c rfl
  have hne {d : UInt8} (hd : d ∈ querySigns) : c ≠ d := fun h ↦ hstart (h ▸ hd)
  unfold qDispatch
  rw [cutAt_of_notMem hk.noJson]
  dsimp only
  split
  · next h => exact absurd (List.cons.inj h).1 (hne (by decide))
  · next h => exact absurd (List.cons.inj h).1 (hne (by decide))
  · next h => exact absurd (List.cons.inj h).1 (hne (by decide))
  · next h => exact absurd (List.cons.inj h).1 (hne (by decide))
  · unfold qRun
    dsimp only
    split
    · next h => exact absurd (List.cons.inj h).1 (hne (by decide))
    · next h => exact absurd (List.cons.inj h).1 (hne (by decide))
    · next h => exact absurd (List.cons.inj h).1 (hne (by decide))
    · next h => exact absurd (List.cons.inj h).1 (hne (by decide))
    · next h => exact absurd (List.cons.inj h).1 (hne (by decide))
    · rfl

/-- **The query** sets the value without the white space at its beginning. -/
theorem state_quotedQuery {k v : CStr} (hk : PlainKey k.val) (hv : 92 ∉ v.val) (st : σ) (r : ρ) :
    (sdbQuerys api r (quotedQuery k v) st).2 =
      api.sdbSet st r (trimEnd k.val) (v.val.dropWhile isSpace) := by
  obtain ⟨c, l, hcl⟩ := List.exists_cons_of_ne_nil hk.ne
  have hc : c ∉ [9, 32, 35, 37] := by
    have hstart := hk.start c (by rw [hcl]; rfl)
    exact fun h ↦ hstart ((by decide : [9, 32, 35, 37] ⊆ querySigns) h)
  have hparse : qParseEq k.val (34 :: (quoteBytes v.val ++ [34])) =
      ⟨k.val, some (34 :: v.val), .text v.val, none⟩ := by
    have hun := unquote_quoteBytes (w := []) (by decide) hv []
    rw [qParseEq, hun]
    rfl
  have hseg := qSegment_eq api r st hc (hcl ▸ hk.noEq) (34 :: (quoteBytes v.val ++ [34]))
  rw [← hcl, hparse, qExec] at hseg
  dsimp only at hseg
  rw [← val_quotedQuery, qWalk_noPath api hk.noPath, qDispatch_plain api hk] at hseg
  rw [state_sdbQuerys api hseg, qKv]
  dsimp only
  rw [if_neg hk.ne]
  rfl

end Quoted

/-- What the query stores under the key is the value. -/
def StoresQuoted (api : QueryApi (Heap × World) Ref) (st : Heap × World) (r : Ref) (k v : CStr) :
    Prop :=
  heapValue (sdbQuerys api r (quotedQuery k v) st).2 r k = some v

/-- The text ends with white space. -/
def SpaceEnd (k : Bytes) : Prop := ∃ c ∈ k.getLast?, isSpace c = true

/-- The text begins with white space. -/
def SpaceStart (v : Bytes) : Prop := ∃ c ∈ v.head?, isSpace c = true

theorem dropWhile_isSpace_eq_iff (v : Bytes) : v.dropWhile isSpace = v ↔ ¬ SpaceStart v := by
  cases v with
  | nil => exact iff_of_true rfl (by rintro ⟨c, hc, -⟩; cases hc)
  | cons c v =>
      by_cases hc : isSpace c = true
      · rw [List.dropWhile_cons_of_pos hc]
        refine iff_of_false (fun h ↦ ?_) (not_not_intro ⟨c, rfl, hc⟩)
        have hlen := (List.dropWhile_sublist (l := v) isSpace).length_le
        rw [h, List.length_cons] at hlen
        omega
      · rw [List.dropWhile_cons_of_neg hc]
        refine iff_of_true rfl ?_
        rintro ⟨d, hd, hspace⟩
        cases hd
        exact hc hspace

theorem trimEnd_eq_iff (k : Bytes) : trimEnd k = k ↔ ¬ SpaceEnd k := by
  rw [trimEnd, List.reverse_eq_iff, dropWhile_isSpace_eq_iff, SpaceStart, List.head?_reverse,
    SpaceEnd]

/-- When the value is stored as it is: its key and its length are fit, the key has not run out of
time, and the value does not begin with white space.  A key that ends with white space is not
written at all. -/
def Verbatim (s : Sdb) (w : World) (k v : CStr) : Prop :=
  (SpaceEnd k.val ∧ sdbGet s w k = some v) ∨
    (¬ SpaceEnd k.val ∧ k.length < 0xff ∧ ¬ TimedOut s w k ∧ v.length < 0xffffff ∧
      ¬ SpaceStart v.val)

/-- What is read after a value is set without the white space at its beginning. -/
theorem Sdb.Memory.sdbGet_setTrimmed {s : Sdb} (h : s.Memory) (w : World) {k v x : CStr}
    (hv : v ≠ CStr.empty) (hx : x.val = v.val.dropWhile isSpace) :
    sdbGet (sdbSet s w k x 0).2.1 (sdbSet s w k x 0).2.2 k = some v ↔
      k.length < 0xff ∧ ¬ TimedOut s w k ∧ v.length < 0xffffff ∧ ¬ SpaceStart v.val := by
  rcases Nat.lt_or_ge k.length 0xff with hk | hk
  · rw [and_iff_right hk]
    by_cases htimed : TimedOut s w k
    · have hnone := (h.setInternal w k x false 0).sdbGet_timedOut _
        ((h.timedOut_setInternal w k x false 0 k).mpr htimed)
      rw [sdbSet, hnone]
      exact iff_of_false (Option.some_ne_none v).symm fun hno ↦ hno.1 htimed
    · rw [and_iff_right htimed, ← dropWhile_isSpace_eq_iff, ← hx]
      have hcell : Cell (s, w) k (textOf (sdbHtFindKvp s k)) := ⟨h, hk, htimed, rfl⟩
      rcases Nat.lt_or_ge x.length 0xffffff with hlen | hlen
      · rw [sdbSet, (hcell.write hlen false (.inl rfl)).sdbGet, ← readAs_of_ne hv]
        constructor
        · intro heq
          have hsame := readAs_injective heq
          exact ⟨hsame ▸ hlen, congrArg Subtype.val hsame⟩
        · rintro ⟨-, hsame⟩
          rw [CStr.ext hsame]
      · -- a value that is too long is not written
        have hle : x.length ≤ v.length := by
          rw [CStr.length, CStr.length, hx]
          exact (List.dropWhile_sublist _).length_le
        have hsame : sdbSetInternal s w k x false 0 = (0, s, w) := if_pos (.inr hlen)
        rw [sdbSet, hsame, hcell.sdbGet, ← readAs_of_ne hv]
        refine iff_of_false (fun heq ↦ ?_) fun hno ↦ ?_
        · have hfit := hcell.length_lt
          rw [readAs_injective heq] at hfit
          omega
        · have := hno.1
          omega
  · rw [sdbSet_long w hk, sdbGet, h.constGetLen_long w hk]
    exact iff_of_false (Option.some_ne_none v).symm fun hno ↦ absurd hno.1 (Nat.not_lt.mpr hk)

/-- **Quoted values** are stored as they are exactly when they do not begin with white space, if
the key and the value can be stored at all. -/
theorem storesQuoted_iff (texts : QueryTexts) (rest : QueryApi (Heap × World) Ref)
    {st : Heap × World} {r : Ref} {node : SdbNode} (hnode : st.1[r]? = some node)
    (hm : node.sdb.Memory) {k v : CStr} (hk : PlainKey k.val) (hv : v ≠ CStr.empty)
    (hplain : 92 ∉ v.val) :
    StoresQuoted (heapApi texts rest) st r k v ↔ Verbatim node.sdb st.2 k v := by
  have hlt := (List.getElem?_eq_some_iff.mp hnode).1
  have hread {key x : CStr} (hkey : key.val = trimEnd k.val)
      (hx : x.val = v.val.dropWhile isSpace) :
      heapValue (sdbQuerys (heapApi texts rest) r (quotedQuery k v) st).2 r k =
        sdbGet (sdbSet node.sdb st.2 key x 0).2.1 (sdbSet node.sdb st.2 key x 0).2.2 k := by
    rw [state_quotedQuery (heapApi texts rest) hk hplain, ← hkey, ← hx]
    change heapValue (heapRun false (fun sdb w ↦ sdbSet sdb w (CStr.ofBytes key.val)
      (CStr.ofBytes x.val) 0) st r).2 r k = _
    rw [heapRun, hnode, heapValue, CStr.ofBytes_val, CStr.ofBytes_val]
    dsimp only
    rw [List.getElem?_set_self hlt]
    rfl
  obtain ⟨x, hx⟩ : ∃ x : CStr, x.val = v.val.dropWhile isSpace :=
    ⟨⟨_, fun h ↦ v.property ((List.dropWhile_sublist _).subset h)⟩, rfl⟩
  rw [StoresQuoted, Verbatim]
  by_cases hspace : SpaceEnd k.val
  · obtain ⟨key, hkey⟩ : ∃ key : CStr, key.val = trimEnd k.val :=
      ⟨⟨_, fun h ↦ k.property (List.mem_reverse.mp ((List.dropWhile_sublist _).subset
        (List.mem_reverse.mp h)))⟩, rfl⟩
    have hne : k ≠ key := fun h ↦ (trimEnd_eq_iff k.val).not_left.mpr hspace (h ▸ hkey.symm)
    rw [hread hkey hx, sdbSet, hm.sdbGet_setInternal_ne st.2 hne]
    simp [hspace]
  · rw [hread ((trimEnd_eq_iff k.val).mpr hspace).symm hx, hm.sdbGet_setTrimmed st.2 hv hx]
    simp [hspace]

/-- The value `b";c` of the key `a`. -/
theorem storesQuoted_semicolon : StoresQuoted (heapApi default default) ([sdbNode0], .empty) 0
    (CStr.ofBytes [97]) (CStr.ofBytes [98, 34, 59, 99]) := by
  refine (storesQuoted_iff default default rfl Sdb.Memory.new0
    plainKey_a (by decide) (by decide)).mpr
    (.inr ⟨?_, by decide, ?_, by decide, ?_⟩)
  · rintro ⟨c, hc, hspace⟩
    cases hc
    exact absurd hspace (by decide)
  · have hnone : sdbHtFindKvp sdbNew0 (CStr.ofBytes [97]) = none := by decide
    change ¬ TimedOut sdbNew0 .empty (CStr.ofBytes [97])
    rw [TimedOut, hnone]
    exact not_entryTimedOut_none _ _
  · rintro ⟨c, hc, hspace⟩
    cases hc
    exact absurd hspace (by decide)

/-- The value ` b` is stored without its blank. -/
theorem not_storesQuoted_blank :
    ¬ StoresQuoted (heapApi default default) ([sdbNode0], .empty) 0 (CStr.ofBytes [97])
      (CStr.ofBytes [32, 98]) := by
  rw [StoresQuoted, state_quotedQuery (heapApi default default)
    plainKey_a (by decide)]
  decide

end SdbStore
