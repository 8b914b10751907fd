import SdbStore.Json.Lookup
import SdbStore.NumLaws

/-!
# Following a path

`json_path_first` and `json_path_next` cut the components out of a path, and `json_get` looks them
up one after another, from the value found last up to the end of the whole document.  It goes over
the part of the path in front of the first dot once more for each bracket in it.

`none` means that a byte behind a NUL or an entry behind the end of the array is read, or that there
is not enough fuel.  The paths are shorter than 2 GiB.
-/

namespace SdbStore.Json

open Lib

/-! ## The components of a path -/

/-- `rangstr_new`. -/
def rangstrNew (s : Bytes) : Rangstr := ⟨1, 0, s.length, some s⟩

/-- `rangstr_find`; `none` for -1. -/
def rangstrFind (a : Rangstr) (ch : UInt8) : Option Nat :=
  (((a.p.getD []).drop a.f).take (a.t - a.f)).idxOf? ch |>.map (a.f + ·)

/-- `json_path_first`. -/
def jsonPathFirst (s : Rangstr) : Rangstr :=
  match s.p with
  | none => s
  | some p => { s with f := 0, t := (p.takeWhile (· ≠ 46)).length }

/-- `json_path_next` from `rep` on, with the bytes of the path from `t` on; what is returned, `f`,
`t`, and whether the NUL has not been reached. -/
def jsonPathRep (stop : UInt8) : Bytes → Nat → Option (Bool × Nat × Nat × Bool)
  | [], _ => none
  | [_], t => some (false, t + 1, t + 1, true)
  | c :: c' :: s, t =>
      let stop := if c = 91 then 93 else stop
      if c' = stop then
        match s with
        | [] => some (false, t + 2, t + 2, true)
        | c'' :: s' =>
            if c'' = stop ∨ c'' = 91 then jsonPathRep stop (c'' :: s') (t + 2)
            else
              let word := (c'' :: s').takeWhile fun x ↦ x ≠ stop && x ≠ 91
              some (true, t + 2, t + 2 + word.length, word.length < (c'' :: s').length)
      else if c' = 91 then jsonPathRep stop (c' :: s) (t + 1)
      else
        let word := (c' :: s).takeWhile fun x ↦ x ≠ stop && x ≠ 91
        some (true, t + 1, t + 1 + word.length, word.length < (c' :: s).length)

/-- `json_path_next`. -/
def jsonPathNext (s : Rangstr) : Option (Bool × Rangstr) :=
  let p := s.p.getD []
  if p.getD s.t 0 = 0 ∨ s.next = 0 then some (false, s)
  else
    let t := if p.getD s.t 0 = 34 then s.t + 1 else s.t
    (jsonPathRep 46 (p.drop t) t).map fun r ↦
      let quoted := r.1 && r.2.2.2 && p.getD r.2.1 0 = 34
      (r.1, { s with
        next := if r.2.2.2 then s.next else 0
        f := if quoted then r.2.1 + 1 else r.2.1
        t := if quoted then r.2.2.1 - 1 else r.2.2.1 })

/-! ## `json_get` -/

/-- The inner loop; `Sum.inl` where `json_get` returns from it. -/
def jsonGetInner : Nat → Rangstr → Rangstr → Option (Rangstr ⊕ Rangstr × Rangstr)
  | 0, _, _ => none
  | fuel + 1, rj, rs => do
      let rj2 ← jsonFind (rangstrStr rj) rs
      if rj2.p = none then
        if (rj.p.getD []).getD rj.t 0 = 0 then some (.inl rj2) else some (.inr (rj, rs))
      else
        let next ← jsonPathNext rs
        if next.1 then jsonGetInner fuel rj2 next.2 else some (.inr (rj2, next.2))

/-- The outer loop, with `n` as whether it has been gone through before. -/
def jsonGetOuter (inner : Nat) : Nat → Bool → Rangstr → Rangstr → Option Rangstr
  | 0, _, _, _ => none
  | fuel + 1, n, rj, rs => do
      let rst := rs.t
      let x := rangstrFind { rs with f := rs.f + 1 } 91
      let rs := { rs with t := x.getD rs.t }
      if (rst = rs.t ∧ n ∧ rj.p ≠ none) ∨ rj.p = none then some rj
      else
        match ← jsonGetInner inner rj rs with
        | .inl rj2 => some rj2
        | .inr (rj, rs) =>
            if rst = rs.t ∧ n ∧ rj.p ≠ none then some rj
            else
              match x with
              | none => some rj
              | some x => jsonGetOuter inner fuel true rj { rs with t := rst, f := x }

/-- `json_get`. -/
def jsonGet (js p : Bytes) : Option Rangstr :=
  jsonGetOuter (p.length + 1) (p.length + 1) false (rangstrNew js) (jsonPathFirst (rangstrNew p))

/-- `sdb_json_get_str`. -/
def sdbJsonGetStr (json path : Bytes) : Option (Option Bytes) := (jsonGet json path).map rangstrDup

/-! ## Paths -/

/-- An index in its brackets. -/
def bracketed (n : Nat) : Bytes := 91 :: (digits 10 n ++ [93])

/-- A step at the beginning of a path. -/
def Step.first : Step → Bytes
  | .name s => s
  | .index n => bracketed n

/-- A step behind another one. -/
def Step.next : Step → Bytes
  | .name s => 46 :: s
  | .index n => bracketed n

/-- The steps behind the first one. -/
def pathRest (p : List Step) : Bytes := p.flatMap Step.next

def pathText : List Step → Bytes
  | [] => []
  | s :: p => s.first ++ pathRest p

/-- A name without dots, brackets and quotes, or an index that an `int` can hold. -/
def Step.Ok : Step → Prop
  | .name s => ∀ c ∈ s, c ≠ 46 ∧ c ≠ 91 ∧ c ≠ 34 ∧ c ≠ 0
  | .index n => n < 2147483648

/-- Not the empty name. -/
def Step.Named : Step → Prop
  | .name s => s ≠ []
  | .index _ => True

/-! ## Numbers in a path -/

theorem isDigit_of_mem_digits {n : Nat} {c : UInt8} (h : c ∈ digits 10 n) : isDigit c = true := by
  obtain ⟨d, hd, rfl⟩ := mem_digits (by decide) (by decide) h
  have hall : ∀ d < 10, isDigit (digitByte d) = true := by decide
  exact hall d hd

theorem digits_ne_nil (n : Nat) : digits 10 n ≠ [] := by
  rcases Nat.lt_or_ge n 10 with h | h
  · rw [digits_of_lt h]
    exact List.cons_ne_nil _ _
  · rw [digits_of_le (by decide) h]
    exact List.append_ne_nil_of_right_ne_nil _ (List.cons_ne_nil _ _)

/-- The loop of `rangstr_int` over digits. -/
theorem rangstrIntLoop_append {ds : Bytes} (h : ∀ c ∈ ds, isDigit c = true) (r : Bytes) (n : Int) :
    rangstrIntLoop (ds ++ r) n =
      rangstrIntLoop r (ds.foldl (fun n ch ↦ wrapInt (n * 10 + (ch.toNat - 48))) n) := by
  induction ds generalizing n with
  | nil => rfl
  | cons c ds ih =>
      have hc := h c List.mem_cons_self
      rw [isDigit, Bool.and_eq_true, decide_eq_true_iff, decide_eq_true_iff] at hc
      have hnot : ¬ (c < 48 || 57 < c) = true := by grind
      rw [List.cons_append, rangstrIntLoop, if_neg hnot,
        ih fun x hx ↦ h x (List.mem_cons_of_mem _ hx)]
      rfl

theorem foldl_digits {n : Nat} (h : n < 2147483648) :
    (digits 10 n).foldl (fun n ch ↦ wrapInt (n * 10 + (ch.toNat - 48))) 0 = n := by
  have hdigit : ∀ d < 10, ((digitByte d).toNat : Int) - 48 = d := by decide
  induction n using Nat.strongRecOn with
  | ind n ih =>
      rcases Nat.lt_or_ge n 10 with hlt | hge
      · rw [digits_of_lt hlt, List.foldl_cons, List.foldl_nil, hdigit n hlt,
          wrapInt_of_lt (by omega) (by omega)]
        omega
      · rw [digits_of_le (by decide) hge, List.foldl_append, ih (n / 10) (by omega) (by omega),
          List.foldl_cons, List.foldl_nil, hdigit (n % 10) (by omega),
          wrapInt_of_lt (by omega) (by omega)]
        omega

/-- A number that ends where the text ends or in front of a bracket. -/
theorem rangstrIntLoop_digits {n : Nat} (h : n < 2147483648) {r : Bytes} (hr : r = [] ∨ r = [93]) :
    rangstrIntLoop (digits 10 n ++ r) 0 = n := by
  rw [rangstrIntLoop_append fun c hc ↦ isDigit_of_mem_digits hc, foldl_digits h]
  rcases hr with rfl | rfl
  · rfl
  · rfl

/-! ## The next component -/

/-- What may be behind a component. -/
def CompEnd (r : Bytes) : Prop := r = [] ∨ ∃ c r', r = c :: r' ∧ (c = 46 ∨ c = 91)

theorem compEnd_pathRest (p : List Step) : CompEnd (pathRest p) := by
  cases p with
  | nil => exact .inl rfl
  | cons s p =>
      cases s with
      | name s => exact .inr ⟨46, _, rfl, .inl rfl⟩
      | index n => exact .inr ⟨91, _, rfl, .inr rfl⟩

theorem takeWhile_word {word r : Bytes} {stop : UInt8} (hword : ∀ c ∈ word, c ≠ stop ∧ c ≠ 91)
    (hr : r = [] ∨ ∃ c r', r = c :: r' ∧ (c = stop ∨ c = 91)) :
    (word ++ r).takeWhile (fun x ↦ x ≠ stop && x ≠ 91) = word := by
  have hpos : ∀ c ∈ word, (decide (c ≠ stop) && decide (c ≠ 91)) = true := by
    intro c hc
    rw [Bool.and_eq_true, decide_eq_true_iff, decide_eq_true_iff]
    exact hword c hc
  rw [List.takeWhile_append_of_pos hpos]
  rcases hr with rfl | ⟨c, r', rfl, rfl | rfl⟩
  · rw [List.takeWhile_nil, List.append_nil]
  · rw [List.takeWhile_cons_of_neg (by simp), List.append_nil]
  · rw [List.takeWhile_cons_of_neg (by simp), List.append_nil]

section Next

variable {name r : Bytes} (hok : (Step.name name).Ok) (hne : name ≠ []) (hr : CompEnd r) (t : Nat)

include hok hne hr in
theorem jsonPathRep_name : jsonPathRep 46 (46 :: (name ++ r)) t =
    some (true, t + 1, t + 1 + name.length, decide (name.length < (name ++ r).length)) := by
  obtain ⟨c, word, rfl⟩ := List.exists_cons_of_ne_nil hne
  obtain ⟨hdot, hbracket, -, -⟩ := hok c List.mem_cons_self
  have htake := takeWhile_word (fun x hx ↦ ⟨(hok x hx).1, (hok x hx).2.1⟩) hr
  rw [List.cons_append] at htake ⊢
  rw [jsonPathRep.eq_def]
  simp only [show ¬ (46 : UInt8) = 91 by decide, if_false, if_neg hdot, if_neg hbracket, htake]

include hok hne hr in
theorem jsonPathRep_dot : jsonPathRep 46 (93 :: 46 :: (name ++ r)) t =
    some (true, t + 2, t + 2 + name.length, decide (name.length < (name ++ r).length)) := by
  obtain ⟨c, word, rfl⟩ := List.exists_cons_of_ne_nil hne
  obtain ⟨hdot, hbracket, -, -⟩ := hok c List.mem_cons_self
  have htake := takeWhile_word (fun x hx ↦ ⟨(hok x hx).1, (hok x hx).2.1⟩) hr
  rw [List.cons_append] at htake ⊢
  rw [jsonPathRep.eq_def]
  simp only [show ¬ (93 : UInt8) = 91 by decide, if_false, if_true, hdot, hbracket, or_self, htake]

theorem jsonPathRep_index (n : Nat) (r : Bytes) :
    jsonPathRep 46 (91 :: (digits 10 n ++ 93 :: r)) t =
      some (true, t + 1, t + 1 + (digits 10 n).length, true) := by
  have hdigits : ∀ c ∈ digits 10 n, c ≠ 93 ∧ c ≠ 91 := by
    intro c hc
    have hdigit := isDigit_of_mem_digits hc
    constructor
    · rintro rfl
      cases hdigit
    · rintro rfl
      cases hdigit
  have htake := takeWhile_word hdigits (.inr ⟨93, r, rfl, .inl rfl⟩)
  have hlength : (digits 10 n).length < (digits 10 n ++ 93 :: r).length := by
    rw [List.length_append, List.length_cons]
    omega
  obtain ⟨c, word, hcons⟩ := List.exists_cons_of_ne_nil (digits_ne_nil n)
  rw [hcons] at hdigits htake hlength ⊢
  obtain ⟨hstop, hbracket⟩ := hdigits c List.mem_cons_self
  rw [List.cons_append] at htake hlength ⊢
  rw [jsonPathRep.eq_def]
  simp only [if_true, if_neg hstop, if_neg hbracket, htake, decide_eq_true hlength]

theorem jsonPathRep_bracket (s : Bytes) :
    jsonPathRep 46 (93 :: 91 :: s) t = jsonPathRep 46 (91 :: s) (t + 1) := by
  rw [jsonPathRep.eq_def]
  simp only [show ¬ (93 : UInt8) =
    91 by decide, show ¬ (91 : UInt8) = 46 by decide, if_false, if_true]

end Next

/-- The range is a component, and `r` is behind it. -/
structure Cursor (p : Bytes) (rs : Rangstr) (r : Bytes) : Prop where
  path : rs.p = some p
  rest : p.drop rs.t = r ∨ p.drop rs.t = 93 :: r
  next : rs.next ≠ 0 ∨ r = []

theorem getD_eq_headD_drop (p : Bytes) (i : Nat) : p.getD i 0 = (p.drop i).headD 0 := by
  rw [List.getD_eq_getElem?_getD, List.headD_eq_head?_getD, List.head?_drop]

/-- The path ends here. -/
theorem jsonPathNext_end {p : Bytes} {rs : Rangstr} (h : Cursor p rs []) :
    ∃ rs', jsonPathNext rs = some (false, rs') ∧ rs'.p = some p := by
  rw [jsonPathNext, h.path, Option.getD_some, getD_eq_headD_drop]
  rcases h.rest with hrest | hrest
  · rw [hrest, if_pos (.inl rfl)]
    exact ⟨rs, rfl, h.path⟩
  · rw [hrest]
    by_cases hnext : rs.next = 0
    · rw [if_pos (.inr hnext)]
      exact ⟨rs, rfl, h.path⟩
    · rw [if_neg (by rintro (h | h); exacts [absurd h (by decide), hnext h])]
      have hbracket : ¬ (List.headD [(93 : UInt8)] 0) = 34 := by decide
      refine ⟨_, by simp only [hbracket, if_false, hrest]; rfl, ?_⟩
      rfl

theorem drop_add {p u w : Bytes} {i : Nat} (h : p.drop i = u ++ w) : p.drop (i + u.length) = w := by
  rw [← List.drop_drop, h, List.drop_left]

section Step

variable {p : Bytes} (hp : p.length < 2147483648)

/-- What `json_path_next` makes of a component that it has cut out. -/
theorem jsonPathNext_eq {rs : Rangstr} (hpath : rs.p = some p) (hnext : rs.next ≠ 0) {c : UInt8}
    {s : Bytes} (hdrop : p.drop rs.t = c :: s) (hc : c ≠ 0) (hquote : c ≠ 34) {f t : Nat}
    {more : Bool} (hrep : jsonPathRep 46 (c :: s) rs.t = some (true, f, t, more))
    (hf : (p.drop f).headD 0 ≠ 34) :
    ∃ rs', jsonPathNext rs = some (true, rs') ∧ rs'.p = some p ∧ rs'.f = f ∧ rs'.t = t ∧
      rs'.next = if more then rs.next else 0 := by
  have hhead : ¬ (p.getD rs.t 0 = 0 ∨ rs.next = 0) := by
    rw [getD_eq_headD_drop, hdrop]
    rintro (h | h)
    · exact hc h
    · exact hnext h
  have hhead' : ¬ p.getD rs.t 0 = 34 := by
    rw [getD_eq_headD_drop, hdrop]
    exact hquote
  have hf' : ¬ p.getD f 0 = 34 := by
    rw [getD_eq_headD_drop]
    exact hf
  refine ⟨{ rs with next := if more then rs.next else 0, f := f, t := t }, ?_, hpath, rfl, rfl, rfl⟩
  rw [jsonPathNext, hpath, Option.getD_some, if_neg hhead]
  simp only [if_neg hhead', hdrop, hrep, Option.map_some, decide_eq_false hf', Bool.and_false,
    Bool.false_eq_true, if_false]

include hp in
/-- A range over a name. -/
theorem comp_of_drop {rs : Rangstr} (hpath : rs.p = some p) {name w : Bytes} (hf : rs.f ≤ p.length)
    (hdrop : p.drop rs.f = name ++ w) (ht : rs.t = rs.f + name.length) : rs.Comp name := by
  have hlength := congrArg List.length hdrop
  rw [List.length_drop, List.length_append] at hlength
  have hstr : rangstrStr rs = name ++ w := by rw [rangstrStr, hpath, Option.getD_some, hdrop]
  refine ⟨by omega, by omega, ?_, ?_⟩
  · rw [hstr, List.length_append]
    omega
  · rw [Rangstr.bytes, hstr, ht, Nat.add_sub_cancel_left, List.take_left]

/-- A range over the digits of an index. -/
theorem rangstrInt_of_drop {rs : Rangstr} (hpath : rs.p = some p) {n : Nat} (hn : n < 2147483648)
    {w : Bytes} (hdrop : p.drop rs.f = digits 10 n ++ w) (ht : rs.t = rs.f + (digits 10 n).length) :
    rangstrInt rs = n := by
  obtain ⟨c, word, hcons⟩ := List.exists_cons_of_ne_nil (digits_ne_nil n)
  have hc : isDigit c = true := isDigit_of_mem_digits (hcons ▸ List.mem_cons_self)
  have hhead : p.getD rs.f 0 = c := by
    rw [getD_eq_headD_drop, hdrop, hcons]
    rfl
  have hbracket : ¬ c = 91 := by
    rintro rfl
    cases hc
  have hminus : ¬ c = 45 := by
    rintro rfl
    cases hc
  have hloop := rangstrIntLoop_digits hn (.inl rfl)
  rw [List.append_nil] at hloop
  rw [rangstrInt, hpath]
  simp only [hhead, if_neg hbracket, if_neg hminus, Nat.zero_add, hdrop, ht,
    Nat.add_sub_cancel_left, List.take_left]
  exact hloop

include hp in
/-- **The next component** of a path. -/
theorem jsonPathNext_step {rs : Rangstr} {step : Step} {r : Bytes}
    (h : Cursor p rs (step.next ++ r)) (hok : step.Ok) (hnamed : step.Named) (hr : CompEnd r) :
    ∃ rs', jsonPathNext rs = some (true, rs') ∧ rs'.Looks step ∧ Cursor p rs' r := by
  have hnext : rs.next ≠ 0 := by
    rcases h.next with hnext | hnil
    · exact hnext
    · cases step with
      | name s => cases hnil
      | index n => cases hnil
  have hle : ∀ {i : Nat} {c : UInt8} {s : Bytes}, p.drop i = c :: s → i + 1 ≤ p.length := by
    intro i c s hdrop
    have hlength := congrArg List.length hdrop
    rw [List.length_drop, List.length_cons] at hlength
    omega
  cases step with
  | name s =>
      have hs : (s ++ r).headD 0 ≠ 34 := by
        obtain ⟨c, word, rfl⟩ := List.exists_cons_of_ne_nil hnamed
        exact (hok c List.mem_cons_self).2.2.1
      have hmore : ∀ next : Int, next ≠ 0 →
          (if decide (s.length < (s ++ r).length) = true then next else 0) ≠ 0 ∨ r = [] := by
        intro next hne
        by_cases hnil : r = []
        · exact .inr hnil
        · have hpos := List.length_pos_iff.mpr hnil
          rw [List.length_append, decide_eq_true (by omega), if_pos rfl]
          exact .inl hne
      rcases h.rest with hrest | hrest
      · have hdrop : p.drop (rs.t + 1) = s ++ r := drop_add (u := [46]) hrest
        obtain ⟨rs', hstep, hpath, hf, ht, hnext'⟩ :=
          jsonPathNext_eq h.path hnext hrest (by decide) (by decide)
          (jsonPathRep_name hok hnamed hr rs.t) (by rw [hdrop]; exact hs)
        rw [← hf] at hdrop ht
        exact ⟨rs', hstep, comp_of_drop hp hpath (hf ▸ hle hrest) hdrop ht, hpath,
          .inl (ht ▸ drop_add hdrop), hnext' ▸ hmore rs.next hnext⟩
      · have hdrop : p.drop (rs.t + 2) = s ++ r := drop_add (u := [93, 46]) hrest
        have hle' := hle (drop_add (u := [93]) hrest)
        obtain ⟨rs', hstep, hpath, hf, ht, hnext'⟩ :=
          jsonPathNext_eq h.path hnext hrest (by decide) (by decide)
          (jsonPathRep_dot hok hnamed hr rs.t) (by rw [hdrop]; exact hs)
        rw [← hf] at hdrop ht
        exact ⟨rs', hstep, comp_of_drop hp hpath (hf ▸ hle') hdrop ht, hpath,
          .inl (ht ▸ drop_add hdrop), hnext' ▸ hmore rs.next hnext⟩
  | index n =>
      have htext : bracketed n ++ r = 91 :: (digits 10 n ++ 93 :: r) := by
        rw [bracketed, List.cons_append, List.append_assoc]
        rfl
      have hdigits : (digits 10 n ++ 93 :: r).headD 0 ≠ 34 := by
        obtain ⟨c, word, hcons⟩ := List.exists_cons_of_ne_nil (digits_ne_nil n)
        have hc : isDigit c = true := isDigit_of_mem_digits (hcons ▸ List.mem_cons_self)
        rw [hcons]
        rintro rfl
        cases hc
      have hrest := h.rest
      rw [Step.next, htext] at hrest
      rcases hrest with hrest | hrest
      · have hdrop : p.drop (rs.t + 1) = digits 10 n ++ 93 :: r := drop_add (u := [91]) hrest
        obtain ⟨rs', hstep, hpath, hf, ht, hnext'⟩ :=
          jsonPathNext_eq h.path hnext hrest (by decide) (by decide)
          (jsonPathRep_index rs.t n r) (by rw [hdrop]; exact hdigits)
        rw [← hf] at hdrop ht
        exact ⟨rs', hstep, rangstrInt_of_drop hpath hok hdrop ht, hpath, .inr (ht ▸ drop_add hdrop),
          .inl (hnext' ▸ hnext)⟩
      · have hdrop : p.drop (rs.t + 2) = digits 10 n ++ 93 :: r := drop_add (u := [93, 91]) hrest
        obtain ⟨rs', hstep, hpath, hf, ht, hnext'⟩ :=
          jsonPathNext_eq h.path hnext hrest (by decide) (by decide)
          ((jsonPathRep_bracket rs.t _).trans (jsonPathRep_index (rs.t + 1) n r))
          (by rw [hdrop]; exact hdigits)
        rw [← hf] at hdrop ht
        exact ⟨rs', hstep, rangstrInt_of_drop hpath hok hdrop ht, hpath, .inr (ht ▸ drop_add hdrop),
          .inl (hnext' ▸ hnext)⟩

end Step

end SdbStore.Json
