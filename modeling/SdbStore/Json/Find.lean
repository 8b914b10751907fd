import Mathlib.Data.List.Induction
import SdbStore.Json.Edges

/-!
# Looking a name or an index up

`json_find` has `sdb_js0n` write the offsets into an array and then goes over it, two entries for
each element or four for each member, up to an entry that is zero.  Here `none` means that an entry
behind the end of the array is read or written.

A pointer is the bytes from it up to the NUL.
-/

namespace SdbStore.Json

open Lib

/-! ## Ranges -/

/-- Arithmetic of `int`. -/
def wrapInt (n : Int) : Int := n.bmod 4294967296

/-- `Rangstr`. -/
structure Rangstr where
  next : Int
  f : Nat
  t : Nat
  p : Option Bytes
deriving DecidableEq

/-- `rangstr_null`. -/
def rangstrNull : Rangstr := ⟨0, 0, 0, none⟩

/-- The loop of `rangstr_int`. -/
def rangstrIntLoop : Bytes → Int → Int
  | [], n => n
  | ch :: s, n =>
      if ch < 48 || 57 < ch then n else rangstrIntLoop s (wrapInt (n * 10 + (ch.toNat - 48)))

/-- `rangstr_int`. -/
def rangstrInt (s : Rangstr) : Int :=
  match s.p with
  | none => 0
  | some p =>
      let i := if p.getD s.f 0 = 91 then 1 else 0
      if p.getD s.f 0 = 45 then
        wrapInt (rangstrIntLoop ((p.drop (i + s.f + 1)).take (s.t - (i + s.f + 1))) 0 * -1)
      else rangstrIntLoop ((p.drop (i + s.f)).take (s.t - (i + s.f))) 0

/-- `rangstr_news`, with the two entries. -/
def rangstrNews (s : Bytes) (f l : Nat) : Rangstr := ⟨1, f, ut32 (f + l), some s⟩

/-- `rangstr_str`. -/
def rangstrStr (rs : Rangstr) : Bytes := (rs.p.getD []).drop rs.f

/-- `rangstr_length`. -/
def rangstrLength (rs : Rangstr) : Int := if rs.t > rs.f then wrapInt (rs.t - rs.f) else 0

/-- `rangstr_dup`. -/
def rangstrDup (rs : Rangstr) : Option Bytes :=
  rs.p.map fun p ↦ (p.drop rs.f).take (rangstrLength rs).toNat

/-- `rangstr_cmp` is not zero. -/
def rangstrCmp (a b : Rangstr) : Bool :=
  let la := wrapInt (a.t - a.f)
  let lbz := wrapInt (rangstrStr b).length
  let lb := if lbz < wrapInt (b.t - b.f) then lbz else wrapInt (b.t - b.f)
  la ≠ lb ||
    (rangstrStr a).take (la % 18446744073709551616).toNat ≠
    (rangstrStr b).take (la % 18446744073709551616).toNat

/-! ## `json_find` -/

/-- The loop over the elements, and the two reads behind it, with the entries from `i` on and `n -
j`. -/
def findElement : List Nat → Int → Option (Option (Nat × Nat))
  | [], _ => none
  | [f], _ => if f = 0 then some none else none
  | f :: l :: res, n =>
      if f = 0 then some none else if 0 < n then findElement res (n - 1) else some (some (f, l))

/-- The loop over the members, and the two reads in it.  With fewer than four entries the value of
the name is behind the end, and so is the next name. -/
def findMember (differs : Nat → Nat → Bool) : List Nat → Option (Option (Nat × Nat))
  | [] => none
  | f :: l :: f' :: l' :: res =>
      if f = 0 then some none
      else if differs f l then findMember differs res else some (some (f', l'))
  | f :: _ => if f = 0 then some none else none

/-- How many entries the array has. -/
def resSize (s : Bytes) : Nat :=
  if wrapInt s.length ≤ 1024 then 1024 else (wrapInt s.length).toNat + 1

/-- The bytes that `sdb_js0n` is given. -/
def resText (s : Bytes) : Bytes := s.take (ut32 s.length)

/-- The entries of a token as a range. -/
def rangstrOf (s : Bytes) (x : Option (Nat × Nat)) : Rangstr :=
  x.elim rangstrNull fun x ↦ rangstrNews s x.1 x.2

/-- `json_find`. -/
def jsonFind (s : Bytes) (rs : Rangstr) : Option Rangstr :=
  let r := sdbJs0n (resText s)
  if resSize s < r.2.length then none
  else if 0 < r.1 then some rangstrNull
  else
    let res := r.2 ++ List.replicate (resSize s - r.2.length) 0
    if s.headD 0 = 91 then
      if rangstrInt rs < 0 then some rangstrNull
      else (findElement res (rangstrInt rs)).map (rangstrOf s)
    else (findMember (fun f l ↦ rangstrCmp rs (rangstrNews s f l)) res).map (rangstrOf s)

/-! ## Which entries are read -/

/-- The tokens, each with the offset of its end. -/
def pairs : List Nat → List (Nat × Nat)
  | b :: e :: l => (b, e) :: pairs l
  | _ => []

/-- The tokens directly inside of the outermost brackets. -/
def rootTokens (s : Bytes) : List (Nat × Nat) := pairs (edges s 0 ⟨.gostruct, 0, 0⟩)

/-- No byte is refused, and all brackets are closed. -/
def Closed (s : Bytes) : Prop := ∃ q, lexAll s ⟨.gostruct, 0, 0⟩ = some q ∧ q.depth ≤ 0

/-- The name is not the one looked for. -/
def nameDiffers (s : Bytes) (rs : Rangstr) (x : Nat × Nat) : Bool :=
  rangstrCmp rs (rangstrNews s x.1 (x.2 - x.1))

/-- The last entry that the loop over the members reads, with the names and values in turn. -/
def lastRead (differs : Nat × Nat → Bool) : List (Nat × Nat) → Nat
  | [] => 0
  | [x] => if differs x then 4 else 3
  | x :: _ :: l => if differs x then 4 + lastRead differs l else 3

/-- The entries of the tokens. -/
def entries (l : List (Nat × Nat)) : List Nat := l.flatMap fun x ↦ [x.1, x.2 - x.1]

theorem length_entries (l : List (Nat × Nat)) : (entries l).length = 2 * l.length := by
  induction l with
  | nil => rfl
  | cons x l ih =>
      have hcons : entries (x :: l) = x.1 :: (x.2 - x.1) :: entries l := rfl
      rw [hcons, List.length_cons, List.length_cons, List.length_cons, ih]
      omega

theorem offsets_of_even {l : List Nat} (h : l.length % 2 = 0) : offsets l = entries (pairs l) := by
  induction l using offsets.induct with
  | case1 => rfl
  | case2 b => exact absurd h (by rw [List.length_singleton]; decide)
  | case3 b e l ih =>
      rw [List.length_cons, List.length_cons] at h
      rw [offsets, ih (by omega)]
      rfl

theorem length_pairs (l : List Nat) : (pairs l).length = l.length / 2 := by
  induction l using offsets.induct with
  | case1 => rfl
  | case2 b =>
      rw [List.length_singleton]
      rfl
  | case3 b e l ih =>
      rw [pairs, List.length_cons, ih, List.length_cons, List.length_cons]
      omega

theorem mem_of_mem_pairs {l : List Nat} {x : Nat × Nat} (h : x ∈ pairs l) : x.1 ∈ l := by
  induction l using offsets.induct with
  | case1 => exact absurd h List.not_mem_nil
  | case2 b => exact absurd h List.not_mem_nil
  | case3 b e l ih =>
      rw [pairs, List.mem_cons] at h
      rcases h with rfl | h
      · exact List.mem_cons_self
      · exact List.mem_cons_of_mem _ (List.mem_cons_of_mem _ (ih h))

theorem mem_of_mem_pairs_snd {l : List Nat} {x : Nat × Nat} (h : x ∈ pairs l) : x.2 ∈ l := by
  induction l using offsets.induct with
  | case1 => exact absurd h List.not_mem_nil
  | case2 b => exact absurd h List.not_mem_nil
  | case3 b e l ih =>
      rw [pairs, List.mem_cons] at h
      rcases h with rfl | h
      · exact List.mem_cons_of_mem _ List.mem_cons_self
      · exact List.mem_cons_of_mem _ (List.mem_cons_of_mem _ (ih h))

theorem le_of_mem_pairs {l : List Nat} (hl : l.Pairwise (· ≤ ·)) {x : Nat × Nat} (h : x ∈ pairs l) :
    x.1 ≤ x.2 := by
  induction l using offsets.induct with
  | case1 => exact absurd h List.not_mem_nil
  | case2 b => exact absurd h List.not_mem_nil
  | case3 b e l ih =>
      rw [List.pairwise_cons, List.pairwise_cons] at hl
      rw [pairs, List.mem_cons] at h
      rcases h with rfl | h
      · exact hl.1 e List.mem_cons_self
      · exact ih hl.2.2 h

theorem findMember_zero (differs : Nat → Nat → Bool) (res : List Nat) :
    findMember differs (0 :: res) = some none := by
  match res with
  | [] => rfl
  | [_] => rfl
  | [_, _] => rfl
  | _ :: _ :: _ :: _ => rfl

theorem findElement_zero (res : List Nat) (n : Int) : findElement (0 :: res) n = some none := by
  cases res with
  | nil => rfl
  | cons l res => rfl

/-- The loop over the elements reads up to the element looked for, or the entry behind the last
one. -/
theorem findElement_isSome {l : List (Nat × Nat)} (hpos : ∀ x ∈ l, 0 < x.1) (k : Nat) {n : Int}
    (hn : 0 ≤ n) : (findElement (entries l ++ List.replicate k 0) n).isSome ↔
      2 * min n.toNat l.length < 2 * l.length + k := by
  induction l generalizing n with
  | nil =>
      cases k with
      | zero => exact iff_of_false (fun h ↦ Bool.noConfusion h) (by simp)
      | succ k =>
          rw [List.replicate_succ]
          refine iff_of_true ?_ (by simp)
          exact congrArg Option.isSome (findElement_zero _ n)
  | cons x l ih =>
      have hx : x.1 ≠ 0 := (hpos x List.mem_cons_self).ne'
      have hcons : entries (x :: l) ++ List.replicate k 0 =
        x.1 :: (x.2 - x.1) :: (entries l ++ List.replicate k 0) := rfl
      rw [hcons, findElement, if_neg hx]
      by_cases h0 : 0 < n
      · rw [if_pos h0, ih (fun y hy ↦ hpos y (List.mem_cons_of_mem _ hy)) (by omega),
          List.length_cons]
        omega
      · rw [if_neg h0, List.length_cons]
        exact iff_of_true rfl (by omega)

/-- The loop over the members. -/
theorem findMember_isSome (differs : Nat → Nat → Bool) {l : List (Nat × Nat)}
    (hpos : ∀ x ∈ l, 0 < x.1) (k : Nat) :
    (findMember differs (entries l ++ List.replicate k 0)).isSome ↔
      lastRead (fun x ↦ differs x.1 (x.2 - x.1)) l < 2 * l.length + k := by
  induction l using List.twoStepInduction with
  | nil =>
      cases k with
      | zero => exact iff_of_false (fun h ↦ Bool.noConfusion h) (by simp [lastRead])
      | succ k =>
          rw [List.replicate_succ]
          refine iff_of_true ?_ (by simp [lastRead])
          exact congrArg Option.isSome (findMember_zero differs _)
  | singleton x =>
      have hx : x.1 ≠ 0 := (hpos x List.mem_cons_self).ne'
      have hcons : entries [x] ++ List.replicate k 0 = x.1 :: (x.2 - x.1) :: List.replicate k 0 :=
        rfl
      rw [hcons, lastRead, List.length_singleton]
      match k with
      | 0 =>
          refine iff_of_false ?_ (by split <;> omega)
          rw [List.replicate_zero, findMember, if_neg hx]
          · exact Bool.false_ne_true
          · exact fun _ _ _ _ h ↦ absurd (congrArg List.length h) (by simp)
      | 1 =>
          refine iff_of_false ?_ (by split <;> omega)
          rw [List.replicate_one, findMember, if_neg hx]
          · exact Bool.false_ne_true
          · exact fun _ _ _ _ h ↦ absurd (congrArg List.length h) (by simp)
      | k + 2 =>
          rw [List.replicate_succ, List.replicate_succ, findMember, if_neg hx]
          cases differs x.1 (x.2 - x.1) with
          | true =>
              rw [if_pos rfl, if_pos rfl]
              cases k with
              | zero => exact iff_of_false (fun h ↦ Bool.noConfusion h) (by omega)
              | succ k =>
                  rw [List.replicate_succ, findMember_zero]
                  exact iff_of_true rfl (by omega)
          | false =>
              rw [if_neg Bool.false_ne_true, if_neg Bool.false_ne_true]
              exact iff_of_true rfl (by omega)
  | cons_cons x y l ih _ =>
      have hx : x.1 ≠ 0 := (hpos x List.mem_cons_self).ne'
      have hcons : entries (x :: y :: l) ++ List.replicate k 0 =
        x.1 :: (x.2 - x.1) :: y.1 :: (y.2 - y.1) :: (entries l ++ List.replicate k 0) := rfl
      rw [hcons, findMember, if_neg hx, lastRead, List.length_cons, List.length_cons]
      cases differs x.1 (x.2 - x.1) with
      | true =>
          rw [if_pos rfl, if_pos rfl,
            ih fun z hz ↦ hpos z (List.mem_cons_of_mem _ (List.mem_cons_of_mem _ hz))]
          omega
      | false =>
          rw [if_neg Bool.false_ne_true, if_neg Bool.false_ne_true]
          exact iff_of_true rfl (by omega)

/-! ## In bounds -/

theorem sdbJs0n_fst_le_zero_iff (s : Bytes) : ¬ 0 < (sdbJs0n s).1 ↔ Closed s := by
  rw [sdbJs0n_eq, Closed]
  cases lexAll s ⟨.gostruct, 0, 0⟩ with
  | none => exact iff_of_false (fun h ↦ h Int.one_pos) fun h ↦ by cases h.choose_spec.1
  | some q =>
      rw [Option.map_some, Option.getD_some, not_lt]
      exact ⟨fun h ↦ ⟨q, rfl, h⟩, fun ⟨q', hq', h⟩ ↦ by cases hq'; exact h⟩

theorem sdbJs0n_snd_of_closed {s : Bytes} (h : Closed s) :
    (sdbJs0n s).2 = entries (rootTokens s) := by
  obtain ⟨q, hq, hdepth⟩ := h
  have hinside : inside q = false := by
    have h1 : ¬ q.depth = 1 := by omega
    have h2 : ¬ 2 ≤ q.depth := by omega
    simp only [inside, h1, h2, decide_false, Bool.false_and, Bool.or_self]
  have heven := @inside_lexAll _ 0 _ _ hq
  rw [hinside, show inside ⟨.gostruct, 0, 0⟩ = false from rfl, Bool.false_xor, eq_comm,
    decide_eq_false_iff_not] at heven
  rw [sdbJs0n_eq]
  exact offsets_of_even (by omega)

theorem length_sdbJs0n (s : Bytes) : (sdbJs0n s).2.length ≤ s.length - 1 := by
  rw [sdbJs0n_eq, length_offsets]
  exact length_edges_start s

theorem pos_of_mem_rootTokens {s : Bytes} {x : Nat × Nat} (h : x ∈ rootTokens s) : 0 < x.1 :=
  pos_of_mem_edges_start (mem_of_mem_pairs h)

/-- A token is in the text. -/
theorem rootTokens_bounds {s : Bytes} {x : Nat × Nat} (h : x ∈ rootTokens s) :
    x.1 ≤ x.2 ∧ x.2 ≤ s.length := by
  refine ⟨le_of_mem_pairs (pairwise_edges s 0 _) h, ?_⟩
  have hle := mem_edges_le (mem_of_mem_pairs_snd h)
  rwa [Nat.zero_add] at hle

/-- Where no entry behind the end is read or written. -/
theorem isSome_jsonFind_iff (s : Bytes) (rs : Rangstr) :
    (jsonFind s rs).isSome ↔ (sdbJs0n (resText s)).2.length ≤ resSize s ∧ (Closed (resText s) →
      if s.headD 0 = 91 then
        0 ≤ rangstrInt rs → 2 * min (rangstrInt rs).toNat (rootTokens (resText s)).length <
          resSize s
      else lastRead (nameDiffers s rs) (rootTokens (resText s)) < resSize s) := by
  rw [jsonFind]
  by_cases hsize : resSize s < (sdbJs0n (resText s)).2.length
  · rw [if_pos hsize]
    exact iff_of_false (fun h ↦ Bool.noConfusion h) fun h ↦ absurd h.1 (not_le.mpr hsize)
  rw [if_neg hsize, and_iff_right (not_lt.mp hsize)]
  by_cases hret : 0 < (sdbJs0n (resText s)).1
  · rw [if_pos hret]
    exact iff_of_true rfl fun h ↦ absurd hret ((sdbJs0n_fst_le_zero_iff _).mpr h)
  have hclosed := (sdbJs0n_fst_le_zero_iff _).mp hret
  have hout := sdbJs0n_snd_of_closed hclosed
  have hlength := length_entries (rootTokens (resText s))
  rw [hout, hlength] at hsize
  rw [if_neg hret, imp_iff_right hclosed, hout, hlength]
  by_cases harray : s.headD 0 = 91
  · rw [if_pos harray, if_pos harray]
    by_cases hneg : rangstrInt rs < 0
    · rw [if_pos hneg]
      exact iff_of_true rfl fun h ↦ absurd h (not_le.mpr hneg)
    · rw [if_neg hneg, imp_iff_right (not_lt.mp hneg), Option.isSome_map,
        findElement_isSome (fun x hx ↦ pos_of_mem_rootTokens hx) _ (not_lt.mp hneg)]
      omega
  · rw [if_neg harray, if_neg harray, Option.isSome_map,
      findMember_isSome _ (fun x hx ↦ pos_of_mem_rootTokens hx)]
    change lastRead (nameDiffers s rs) _ < _ ↔ _
    omega

/-- The lookup stays in the array. -/
def Fits (s : Bytes) (rs : Rangstr) : Prop :=
  if ut32 s.length < 2147483648 then
    ¬ (Closed (resText s) ∧ s.headD 0 ≠ 91 ∧ (rootTokens (resText s)).length % 2 = 1 ∧
      (∀ k, (h : 2 * k < (rootTokens (resText s)).length) →
        nameDiffers s rs (rootTokens (resText s))[2 * k]) ∧
      resSize s ≤ 2 * (rootTokens (resText s)).length + 2)
  else
    (edges (resText s) 0 ⟨.gostruct, 0, 0⟩).length ≤ 1024 ∧ (Closed (resText s) →
      if s.headD 0 = 91 then
        0 ≤ rangstrInt rs → 2 * min (rangstrInt rs).toNat (rootTokens (resText s)).length < 1024
      else lastRead (nameDiffers s rs) (rootTokens (resText s)) < 1024)

section LastRead

variable (differs : Nat × Nat → Bool) (l : List (Nat × Nat))

/-- Each name has a value. -/
theorem lastRead_of_even (h : l.length % 2 = 0) : lastRead differs l ≤ 2 * l.length := by
  induction l using List.twoStepInduction with
  | nil => exact le_rfl
  | singleton x => exact absurd h (by rw [List.length_singleton]; decide)
  | cons_cons x y l ih _ =>
      rw [List.length_cons, List.length_cons] at h ⊢
      have hle := ih (by omega)
      rw [lastRead]
      split <;> omega

/-- The last name has no value, and none is the one looked for. -/
theorem lastRead_of_differs (h : l.length % 2 = 1)
    (hall : ∀ k, (hk : 2 * k < l.length) → differs l[2 * k]) :
    lastRead differs l = 2 * l.length + 2 := by
  induction l using List.twoStepInduction with
  | nil => exact absurd h (by rw [List.length_nil]; decide)
  | singleton x =>
      have hx : differs x := hall 0 Nat.one_pos
      rw [lastRead, if_pos hx, List.length_singleton]
  | cons_cons x y l ih _ =>
      rw [List.length_cons, List.length_cons] at h ⊢
      have hx : differs x := hall 0 (by rw [List.length_cons]; omega)
      have hl := ih (by omega) fun k hk ↦ hall (k + 1)
          (by rw [List.length_cons, List.length_cons]; omega)
      rw [lastRead, if_pos hx, hl]
      omega

/-- The name looked for is found. -/
theorem lastRead_of_not_differs {k : Nat} (hk : 2 * k < l.length) (hdiffers : ¬ differs l[2 * k]) :
    lastRead differs l ≤ 2 * l.length + 1 := by
  induction l using List.twoStepInduction generalizing k with
  | nil => exact absurd hk (Nat.not_lt_zero _)
  | singleton x =>
      have h0 : k = 0 := by
        rw [List.length_singleton] at hk
        omega
      subst h0
      have hx : ¬ differs x := hdiffers
      rw [lastRead, if_neg hx, List.length_singleton]
  | cons_cons x y l ih _ =>
      rw [List.length_cons, List.length_cons] at hk ⊢
      rw [lastRead]
      split
      · next hx =>
          cases k with
          | zero => exact absurd hx hdiffers
          | succ k =>
              have hle := ih (k := k) (by omega) hdiffers
              omega
      · omega

end LastRead

section Size

variable {s : Bytes}

theorem length_resText (s : Bytes) : (resText s).length = ut32 s.length := by
  rw [resText, List.length_take]
  exact min_eq_left (Nat.mod_le _ _)

theorem resSize_of_lt (h : ut32 s.length < 2147483648) :
    resSize s = if ut32 s.length ≤ 1024 then 1024 else ut32 s.length + 1 := by
  have hint : wrapInt s.length = ut32 s.length := by
    rw [wrapInt, Int.bmod_def]
    rw [ut32] at *
    omega
  rw [resSize, hint]
  split
  · rw [if_pos (by omega)]
  · rw [if_neg (by omega), Int.toNat_natCast]

theorem resSize_of_not_lt (h : ¬ ut32 s.length < 2147483648) : resSize s = 1024 := by
  have hint : wrapInt s.length ≤ 0 := by
    rw [wrapInt, Int.bmod_def]
    rw [ut32] at *
    omega
  rw [resSize, if_pos (by omega)]

end Size

/-- No entry behind the end of the array is read or written. -/
theorem jsonFind_inBounds_iff (s : Bytes) (rs : Rangstr) : (jsonFind s rs).isSome ↔ Fits s rs := by
  have hwrites := length_sdbJs0n (resText s)
  have hedges : (sdbJs0n (resText s)).2.length =
      (edges (resText s) 0 ⟨.gostruct, 0, 0⟩).length := by
    rw [sdbJs0n_eq, length_offsets]
  have htokens := length_pairs (edges (resText s) 0 ⟨.gostruct, 0, 0⟩)
  change (rootTokens (resText s)).length = _ at htokens
  rw [length_resText] at hwrites
  rw [isSome_jsonFind_iff, Fits]
  by_cases hlt : ut32 s.length < 2147483648
  · have hsize := resSize_of_lt hlt
    rw [if_pos hlt, and_iff_right (by split at hsize <;> omega)]
    by_cases hclosed : Closed (resText s)
    · have hlength := congrArg List.length (sdbJs0n_snd_of_closed hclosed)
      rw [length_entries] at hlength
      have hsmall : 2 * (rootTokens (resText s)).length < resSize s := by split at hsize <;> omega
      rw [imp_iff_right hclosed]
      by_cases harray : s.headD 0 = 91
      · rw [if_pos harray]
        refine iff_of_true (fun _ ↦ ?_) fun h ↦ h.2.1 harray
        omega
      rw [if_neg harray]
      by_cases hodd : (rootTokens (resText s)).length % 2 = 1
      · by_cases hall : ∀ k, (h : 2 * k < (rootTokens (resText s)).length) →
            nameDiffers s rs (rootTokens (resText s))[2 * k]
        · rw [lastRead_of_differs _ _ hodd hall, ← not_le]
          exact not_congr ⟨fun h ↦ ⟨hclosed, harray, hodd, hall, h⟩, fun h ↦ h.2.2.2.2⟩
        · refine iff_of_true ?_ fun h ↦ hall h.2.2.2.1
          push Not at hall
          obtain ⟨k, hk, hdiffers⟩ := hall
          have hle := lastRead_of_not_differs (nameDiffers s rs) _ hk hdiffers
          -- an even number of entries is not the whole array
          split at hsize <;> omega
      · have hle := lastRead_of_even (nameDiffers s rs) (rootTokens (resText s)) (by omega)
        exact iff_of_true (by omega) fun h ↦ hodd h.2.2.1
    · exact iff_of_true (fun h ↦ absurd h hclosed) fun h ↦ hclosed h.1
  · rw [if_neg hlt, resSize_of_not_lt hlt, hedges]

/-- A shorter name differs. -/
theorem nameDiffers_of_lt {s : Bytes} {rs : Rangstr} {x : Nat × Nat}
    (h : wrapInt (ut32 (x.1 + (x.2 - x.1)) - x.1) < wrapInt (rs.t - rs.f)) :
    nameDiffers s rs x = true := by
  rw [nameDiffers, rangstrCmp, Bool.or_eq_true, decide_eq_true_iff]
  refine .inl fun heq ↦ ?_
  change _ = if _ < wrapInt (ut32 (x.1 + (x.2 - x.1)) - x.1) then _ else
    wrapInt (ut32 (x.1 + (x.2 - x.1)) - x.1) at heq
  split at heq <;> omega

/-- The last name has no value, all names are shorter than the one looked for, and the array is
full. -/
theorem not_isSome_jsonFind {s : Bytes} {rs : Rangstr} (hclosed : Closed (resText s))
    (harray : ¬ s.headD 0 = 91) (hodd : (rootTokens (resText s)).length % 2 = 1)
    (hshort : ∀ x ∈ rootTokens (resText s),
      wrapInt (ut32 (x.1 + (x.2 - x.1)) - x.1) < wrapInt (rs.t - rs.f))
    (hsize : resSize s ≤ 2 * (rootTokens (resText s)).length + 2) : ¬ (jsonFind s rs).isSome := by
  have hlast := lastRead_of_differs (nameDiffers s rs) (rootTokens (resText s)) hodd fun k hk ↦
    nameDiffers_of_lt (hshort _ (List.getElem_mem hk))
  rw [isSome_jsonFind_iff, if_neg harray, hlast]
  exact fun h ↦ absurd (h.2 hclosed) (not_lt.mpr hsize)

/-- `{`, 510 times `""`, and `1}`. -/
def halfMember : Bytes := [123] ++ (List.replicate 510 [34, 34]).flatten ++ [49, 125]

/-- The array has 1024 entries, and 1022 of them are of tokens. -/
theorem not_jsonFind_inBounds : ¬ (jsonFind halfMember ⟨1, 0, 2, some [97, 97]⟩).isSome :=
  not_isSome_jsonFind ⟨⟨.gostruct, 0, 0⟩, by decide +kernel⟩ (by decide) (by decide +kernel)
    (by decide +kernel) (by decide +kernel)

end SdbStore.Json
