import SdbStore.Json.Path

/-!
# What `json_get` finds

The inner loop goes down to the value that the path addresses.  The outer loop then looks up the
brackets behind the first component again, all but the last one, in the text from that value on.
-/

namespace SdbStore.Json

open Lib

/-- What a path leads to, with the text behind it. -/
def Node.locate : List Step → Value → Bytes → Option (Value × Bytes)
  | [], v, t => some (v, t)
  | s :: p, v, t => (v.child s).bind fun x ↦ x.value.locate p (x.after ++ t)

theorem Node.locate_fst (p : List Step) (v : Value) (t : Bytes) :
    (v.locate p t).map Prod.fst = v.lookup p := by
  induction p generalizing v t with
  | nil => rfl
  | cons s p ih =>
      rw [Node.locate, Node.lookup]
      cases v.child s with
      | none => rfl
      | some x => exact ih x.value (x.after ++ t)

/-- The indexes that a path begins with. -/
def heads : List Step → List Nat
  | .index n :: p => n :: heads p
  | _ => []

/-- The bytes of the names are not those of a path, a quote or a NUL. -/
def Step.Spelled : Step → Prop
  | .name s => ∀ c ∈ s, c ≠ 46 ∧ c ≠ 91 ∧ c ≠ 34 ∧ c ≠ 0
  | .index _ => True

/-- No element and no member of what the text begins with is found for a component. -/
def Misses (z w : Bytes) : Prop :=
  Closed z →
    if z.headD 0 = 91 then
      rangstrInt (rangstrNew w) < 0 ∨ (rootTokens z).length ≤ (rangstrInt (rangstrNew w)).toNat
    else
      (∀ i, (hi : 2 * i < (rootTokens z).length) → slice z (rootTokens z)[2 * i] ≠ w) ∧
        ((rootTokens z).length % 2 = 1 → 2 * (rootTokens z).length + 2 < resSize z)

/-! ## Indexes -/

theorem Node.lt_of_elemAt {k : Kind} {n : Node k} {i : Nat} {x : Place} (hx : n.elemAt i = some x) :
    i < n.text.length := by
  induction hx using Node.elemAt_rec with
  | last ws v ws' =>
      rw [Node.text, List.length_append, List.length_append, List.length_append,
        List.length_singleton]
      omega
  | here ws v ws' es =>
      rw [Node.text_elem, List.length_append, List.length_append, List.length_append,
        List.length_append, List.length_singleton]
      omega
  | there ws v ws' es i y hy ih =>
      rw [Node.text_elem, List.length_append, List.length_append, List.length_append,
        List.length_append, List.length_singleton]
      omega

theorem Node.lt_of_child {v : Value} {i : Nat} {x : Place} (hx : v.child (.index i) = some x) :
    i < v.text.length := by
  cases v with
  | word w => cases hx
  | string s => cases hx
  | noElems ws => cases hx
  | noMembers ws => cases hx
  | object ms => cases hx
  | array es =>
      obtain ⟨y, hy, -⟩ := Option.map_eq_some_iff.mp hx
      exact Nat.lt_succ_of_lt (Node.lt_of_elemAt hy)

/-- A step that leads somewhere. -/
theorem Step.Spelled.ok {step : Step} (h : step.Spelled) {v : Value}
    (hlength : v.text.length < 2147483648) {x : Place} (hx : v.child step = some x) : step.Ok := by
  cases step with
  | name s => exact h
  | index n => exact (Node.lt_of_child hx).trans hlength

/-! ## The value found -/

/-- The range of a value, and the text behind it. -/
structure Rangstr.Holds (rj : Rangstr) (v : Value) (t : Bytes) (s : Bytes) : Prop where
  path : rj.p = some s
  drop : s.drop rj.f = (v.text ++ t).drop v.quote
  len : rj.t = rj.f + v.content.length
  more : s.getD rj.t 0 ≠ 0
  small : s.length < 2147483648

theorem Node.drop_quote (v : Value) (t : Bytes) :
    (v.text ++ t).drop v.quote = v.content ++ t ∨
    (v.text ++ t).drop v.quote = v.content ++ 34 :: t := by
  cases v with
  | string s =>
      refine .inr ?_
      rw [Node.text, List.cons_append, List.append_assoc]
      rfl
  | _ => exact .inl rfl

theorem Rangstr.Holds.lt {rj : Rangstr} {v : Value} {t s : Bytes} (h : rj.Holds v t s) :
    rj.t < s.length := by
  by_contra hle
  exact h.more (by rw [getD_eq_headD_drop, List.drop_eq_nil_of_le (by omega)]; rfl)

/-- The range covers the contents. -/
theorem Rangstr.Holds.take {rj : Rangstr} {v : Value} {t s : Bytes} (h : rj.Holds v t s) :
    (s.drop rj.f).take v.content.length = v.content := by
  rw [h.drop]
  rcases v.drop_quote t with hdrop | hdrop
  · rw [hdrop, List.take_left]
  · rw [hdrop, List.take_left]

theorem rangstrDup_of_holds {rj : Rangstr} {v : Value} {t s : Bytes} (h : rj.Holds v t s) :
    rangstrDup rj = some v.content := by
  have hlt := h.lt
  have hsmall := h.small
  have hlen := h.len
  have hlength : (rangstrLength rj).toNat = v.content.length := by
    rw [rangstrLength]
    split
    · rw [wrapInt_of_lt (by omega) (by omega)]
      omega
    · omega
  rw [rangstrDup, h.path, Option.map_some, hlength, h.take]

theorem Stops.headD_ne {t : Bytes} (h : Stops t) (r : Bytes) : (t ++ r).headD 0 ≠ 0 := by
  cases t with
  | nil => exact absurd h not_false
  | cons c t =>
      rintro rfl
      cases h

/-- The range that a step leads to. -/
theorem holds_child {v : Value} (hplain : v.plain = true) (ws : Blanks) (t : Bytes)
    (hlength : (ws.val ++ (v.text ++ t)).length < 2147483648) {step : Step} {x : Place}
    (hx : v.child step = some x) : (x.range ws.val.length (ws.val ++ (v.text ++ t))).Holds x.value
    (x.after ++ t) (ws.val ++ (v.text ++ t)) := by
  have hin := Node.child_within hplain hx
  have hdrop : (ws.val ++ (v.text ++ t)).drop (ws.val.length + x.before.length + x.value.quote) =
      (x.value.text ++ (x.after ++ t)).drop x.value.quote := by
    rw [← List.drop_drop, ← List.drop_drop, List.drop_left, hin.text, List.append_assoc,
      List.append_assoc, List.drop_left]
  refine ⟨rfl, hdrop, rfl, ?_, hlength⟩
  rw [getD_eq_headD_drop]
  change (List.drop (_ + x.value.content.length) _).headD 0 ≠ 0
  rcases x.value.drop_quote (x.after ++ t) with hquote | hquote
  · rw [drop_add (hdrop.trans hquote)]
    exact hin.stops.headD_ne t
  · rw [drop_add (hdrop.trans hquote)]
    exact (by decide : (34 : UInt8) ≠ 0)

/-! ## The inner loop -/

/-- The range that a path leads to in `s`, the text from a value on with the text `t` behind the
value.  It is in the text from the array or the object around it on. -/
inductive Reached : Value → Bytes → Bytes → List Step → Rangstr → Prop
  | last (ws : Blanks) {v : Value} {t : Bytes} {step : Step} {x : Place}
      (hx : v.child step = some x) :
      Reached v t (ws.val ++ (v.text ++ t)) [step] (x.range ws.val.length (ws.val ++ (v.text ++ t)))
  | down {v : Value} {t s : Bytes} {step : Step} {p : List Step} {x : Place} {rj : Rangstr}
      (hx : v.child step = some x) (h : Reached x.value (x.after ++ t)
        (x.value.text ++ (x.after ++ t)) p rj) : Reached v t s (step :: p) rj

theorem Reached.ne_nil {v : Value} {t s : Bytes} {p : List Step} {rj : Rangstr}
    (h : Reached v t s p rj) : p ≠ [] := by
  cases h with
  | last ws hx => exact List.cons_ne_nil _ _
  | down hx h => exact List.cons_ne_nil _ _

theorem Node.quote_of_child {v : Value} {step : Step} {x : Place} (hx : v.child step = some x) :
    v.quote = 0 := by
  cases v with
  | string s => cases hx
  | _ => rfl

/-- The value that is located. -/
theorem Reached.holds {v : Value} {t s : Bytes} {p : List Step} {rj : Rangstr}
    (h : Reached v t s p rj) (hplain : v.plain = true)
    (hs : v.text.length + t.length ≤ s.length ∧ s.length < 2147483648) {w : Value} {t' : Bytes}
    (hw : v.locate p t = some (w, t')) : ∃ s', rj.Holds w t' s' := by
  induction h with
  | last ws hx =>
      rw [Node.locate, hx] at hw
      cases hw
      exact ⟨_, holds_child hplain ws _ hs.2 hx⟩
  | @down v t s step p x rj hx h ih =>
      rw [Node.locate, hx, Option.bind_some] at hw
      have hin := Node.child_within hplain hx
      have hlen := congrArg List.length hin.text
      rw [List.length_append, List.length_append] at hlen
      have hsum : (x.value.text ++ (x.after ++ t)).length =
          x.value.text.length + (x.after ++ t).length := List.length_append
      refine ih hin.plain ⟨hsum.ge, ?_⟩ hw
      rw [hsum, List.length_append]
      omega

/-- **Down to the value.** -/
theorem jsonGetInner_reached {path : Bytes} (hpath : path.length < 2147483648) {p : List Step}
    (hspelled : ∀ s ∈ p, s.Spelled) (hnamed : ∀ s ∈ p, s.Named) {fuel : Nat}
    (hfuel : p.length < fuel) {v : Value} (hplain : v.plain = true) {ws : Blanks} {t : Bytes}
    (ht : Closes t) {rj rs : Rangstr} (hrj : rangstrStr rj = ws.val ++ (v.text ++ t))
    (hlength : (ws.val ++ (v.text ++ t)).length < 2147483648)
    (hws : ∀ es, v = .array es → ws.val = []) {step : Step} (hrs : rs.Looks step)
    (hcur : Cursor path rs (pathRest p)) (hw : (v.locate (step :: p) t).isSome = true) :
    ∃ rj' rs', jsonGetInner fuel rj rs = some (.inr (rj', rs')) ∧
      Reached v t (ws.val ++ (v.text ++ t)) (step :: p) rj' ∧ rs'.p = some path := by
  induction p generalizing fuel v ws t rj rs step with
  | nil =>
      obtain ⟨fuel, rfl⟩ := Nat.exists_eq_succ_of_ne_zero (Nat.ne_of_gt hfuel)
      obtain ⟨w, hw⟩ := Option.isSome_iff_exists.mp hw
      obtain ⟨x, hx, -⟩ := Option.bind_eq_some_iff.mp hw
      obtain ⟨rs', hnext, hp⟩ := jsonPathNext_end hcur
      refine ⟨_, rs', ?_, .last ws hx, hp⟩
      rw [jsonGetInner, hrj, jsonFind_child hplain ht hlength hrs hws hx]
      simp only [Option.bind_eq_bind, Option.bind_some, Place.range, reduceCtorEq, if_false, hnext,
        Bool.false_eq_true]
  | cons s p ih =>
      obtain ⟨fuel, rfl⟩ := Nat.exists_eq_succ_of_ne_zero (Nat.ne_of_gt (Nat.zero_lt_of_lt hfuel))
      obtain ⟨w, hw⟩ := Option.isSome_iff_exists.mp hw
      obtain ⟨x, hx, hrest⟩ := Option.bind_eq_some_iff.mp hw
      obtain ⟨y, hy, -⟩ := Option.bind_eq_some_iff.mp hrest
      have hdrop := (holds_child hplain ws t hlength hx).drop
      rw [Node.quote_of_child hy, List.drop_zero] at hdrop
      have hle := congrArg List.length hdrop
      have hshort : (x.value.text ++ (x.after ++ t)).length < 2147483648 := by
        rw [← hle, List.length_drop]
        omega
      have hvalue : x.value.text.length < 2147483648 := by
        rw [List.length_append] at hshort
        omega
      obtain ⟨rs', hnext, hlooks, hcur'⟩ :=
        jsonPathNext_step hpath hcur ((hspelled s List.mem_cons_self).ok hvalue hy)
        (hnamed s List.mem_cons_self) (compEnd_pathRest p)
      have hin := Node.child_within hplain hx
      have hstr : rangstrStr (x.range ws.val.length (ws.val ++ (v.text ++ t))) =
          Blanks.none.val ++ (x.value.text ++ (x.after ++ t)) := hdrop
      obtain ⟨rj', rs'', hinner, hreached, hp⟩ :=
        ih (fun s hs ↦ hspelled s (List.mem_cons_of_mem _ hs))
        (fun s hs ↦ hnamed s (List.mem_cons_of_mem _ hs)) (Nat.lt_of_succ_lt_succ hfuel) hin.plain
        (hin.closes ht) hstr
        hshort (fun _ _ ↦ rfl) hlooks hcur' (hrest ▸ rfl)
      refine ⟨rj', rs'', ?_, .down hx hreached, hp⟩
      rw [jsonGetInner, hrj, jsonFind_child hplain ht hlength hrs hws hx]
      simp only [Option.bind_eq_bind, Option.bind_some, Place.range, reduceCtorEq, if_false, hnext,
        if_true]
      exact hinner

/-! ## The brackets -/

/-- Nothing is found. -/
theorem jsonFind_of_misses {z w : Bytes} (hlength : z.length < 2147483648) (h : Misses z w)
    {rs : Rangstr} (hcomp : rs.Comp w) (hint : rangstrInt rs = rangstrInt (rangstrNew w)) :
    jsonFind z rs = some rangstrNull := by
  by_cases hclosed : Closed z
  · have hmiss := h hclosed
    by_cases harray : z.headD 0 = 91
    · rw [if_pos harray, ← hint] at hmiss
      by_cases hneg : rangstrInt rs < 0
      · rw [jsonFind_of_closed hlength hclosed, if_pos harray, if_pos hneg]
      · rw [jsonFind_element hlength hclosed harray (by omega),
          List.getElem?_eq_none (hmiss.resolve_left hneg)]
        rfl
    · rw [if_neg harray] at hmiss
      exact jsonFind_nothing hlength hclosed harray hcomp hmiss.1 hmiss.2
  · exact jsonFind_of_not_closed hlength hclosed rs

/-- A number is read from the bytes of the range. -/
theorem rangstrInt_eq {rs : Rangstr} {path w r : Bytes} (hpath : rs.p = some path)
    (hdrop : path.drop rs.f = w ++ r) (ht : rs.t = rs.f + w.length) :
    rangstrInt rs = rangstrInt (rangstrNew w) := by
  have hbytes : ∀ k, (path.drop (k + rs.f)).take (rs.t - (k + rs.f)) =
      (w.drop k).take (w.length - k) := by
    intro k
    rw [Nat.add_comm k, ← List.drop_drop, hdrop, ht, Nat.add_sub_add_left, List.drop_append,
      List.take_append]
    rw [List.length_drop, Nat.sub_self, List.take_zero, List.append_nil]
  cases w with
  | nil =>
      have hnil : ∀ k, (path.drop (k + rs.f)).take (rs.t - (k + rs.f)) = [] := by
        intro k
        rw [hbytes, List.drop_nil, List.take_nil]
      have hnew : rangstrInt (rangstrNew []) = 0 := by decide
      rw [hnew, rangstrInt, hpath]
      simp only [Nat.add_right_comm _ rs.f 1, hnil, rangstrIntLoop]
      split_ifs <;> rfl
  | cons c w =>
      have hhead : path.getD rs.f 0 = c := by
        rw [getD_eq_headD_drop, hdrop]
        rfl
      rw [rangstrInt, hpath, rangstrInt, rangstrNew]
      simp only [hhead, Nat.add_right_comm _ rs.f 1, hbytes, List.getD_cons_zero, Nat.add_zero]

theorem idxOf?_append_cons {c : UInt8} {w : Bytes} (h : c ∉ w) (r : Bytes) :
    (w ++ c :: r).idxOf? c = some w.length := by
  induction w with
  | nil =>
      rw [List.nil_append, List.idxOf?_cons, if_pos (beq_self_eq_true c)]
      rfl
  | cons x w ih =>
      rw [List.mem_cons, not_or] at h
      rw [List.cons_append, List.idxOf?_cons, if_neg (by rw [beq_iff_eq]; exact Ne.symm h.1),
        ih h.2]
      rfl

/-- The brackets with these indexes. -/
def brackets (ns : List Nat) : Bytes := ns.flatMap bracketed

/-- There is no bracket behind the first byte. -/
def OneComponent (u : Bytes) : Prop := ∃ c w, u = c :: w ∧ 91 ∉ w

theorem oneComponent_bracketed (n : Nat) : OneComponent (bracketed n) := by
  refine ⟨91, _, rfl, ?_⟩
  rw [List.mem_append, List.mem_singleton]
  rintro (h | h)
  · cases isDigit_of_mem_digits h
  · cases h

/-- The bracket behind a component. -/
theorem rangstrFind_component {rs : Rangstr} {path : Bytes} (hpath : rs.p = some path) {u : Bytes}
    (hu : OneComponent u) {ns : List Nat} {r : Bytes}
    (hdrop : path.drop rs.f = u ++ (brackets ns ++ r))
    (ht : rs.t = rs.f + u.length + (brackets ns).length) :
    rangstrFind { rs with f := rs.f + 1 } 91 = if ns = [] then none
      else some (rs.f + u.length) := by
  obtain ⟨c, w, rfl, hw⟩ := hu
  have hseg : (path.drop (rs.f + 1)).take (rs.t - (rs.f + 1)) = w ++ brackets ns := by
    rw [← List.drop_drop, hdrop, ht, List.cons_append, List.drop_succ_cons, List.drop_zero,
      ← List.append_assoc, List.length_cons]
    refine List.take_left' ?_
    rw [List.length_append]
    omega
  rw [rangstrFind, hpath, Option.getD_some, hseg]
  cases ns with
  | nil =>
      rw [if_pos rfl, brackets, List.flatMap_nil, List.append_nil, List.idxOf?_eq_none_iff.mpr hw]
      rfl
  | cons n ns =>
      rw [if_neg (List.cons_ne_nil n ns), brackets, List.flatMap_cons, bracketed, List.cons_append,
        idxOf?_append_cons hw, Option.map_some, List.length_cons]
      refine congrArg some ?_
      change rs.f + 1 + w.length = _
      omega

/-- The inner loop is left as it has been entered. -/
theorem jsonGetInner_of_nothing (inner : Nat) {rj rs : Rangstr}
    (h : jsonFind (rangstrStr rj) rs = some rangstrNull)
    (hmore : ¬ (rj.p.getD []).getD rj.t 0 = 0) :
    jsonGetInner (inner + 1) rj rs = some (.inr (rj, rs)) := by
  rw [jsonGetInner, h]
  simp only [Option.bind_eq_bind, Option.bind_some, rangstrNull, if_true, if_neg hmore]

/-- **The brackets looked up again.** -/
theorem jsonGetOuter_again {path : Bytes} (hpath : path.length < 2147483648) {rj : Rangstr}
    {v : Value} {t s : Bytes} (hrj : rj.Holds v t s) {inner : Nat} (hinner : 0 < inner) {n : Nat}
    {ns : List Nat} {r : Bytes} {fuel : Nat} (hfuel : ns.length < fuel) {rs : Rangstr}
    (hrs : rs.p = some path) (hdrop : path.drop rs.f = bracketed n ++ (brackets ns ++ r))
    (ht : rs.t = rs.f + (bracketed n).length + (brackets ns).length)
    (hmiss : ∀ k ∈ (n :: ns).dropLast, Misses ((v.text ++ t).drop v.quote) (bracketed k)) :
    jsonGetOuter inner fuel true rj rs = some rj := by
  have hsome : rj.p ≠ none := by
    rw [hrj.path]
    exact Option.some_ne_none s
  induction ns generalizing n fuel rs with
  | nil =>
      obtain ⟨fuel, rfl⟩ := Nat.exists_eq_succ_of_ne_zero (Nat.ne_of_gt hfuel)
      have hfind := rangstrFind_component hrs (oneComponent_bracketed n) hdrop ht
      rw [if_pos rfl] at hfind
      rw [jsonGetOuter, hfind]
      exact if_pos (.inl ⟨rfl, rfl, hsome⟩)
  | cons n' ns ih =>
      obtain ⟨fuel, rfl⟩ := Nat.exists_eq_succ_of_ne_zero (Nat.ne_of_gt (Nat.zero_lt_of_lt hfuel))
      obtain ⟨inner, rfl⟩ := Nat.exists_eq_succ_of_ne_zero hinner.ne'
      have hfind := rangstrFind_component hrs (oneComponent_bracketed n) hdrop ht
      rw [if_neg (List.cons_ne_nil n' ns)] at hfind
      have hlen : (brackets (n' :: ns)).length = (bracketed n').length + (brackets ns).length := by
        rw [brackets, List.flatMap_cons, List.length_append]
        rfl
      have hpos : 0 < (bracketed n').length := Nat.succ_pos _
      have hne : ¬ rs.t = rs.f + (bracketed n).length := by omega
      have hdrop' : path.drop (rs.f + (bracketed n).length) =
          bracketed n' ++ (brackets ns ++ r) := by
        rw [drop_add hdrop, brackets, List.flatMap_cons, List.append_assoc]
        rfl
      have hle : rs.f ≤ path.length := by
        have hlength := congrArg List.length hdrop
        rw [List.length_drop, List.length_append] at hlength
        have hpos : 0 < (bracketed n).length := Nat.succ_pos _
        omega
      have hstr : rangstrStr rj = (v.text ++ t).drop v.quote := by
        rw [rangstrStr, hrj.path, Option.getD_some, hrj.drop]
      have hshort : ((v.text ++ t).drop v.quote).length < 2147483648 := by
        rw [← hrj.drop, List.length_drop]
        have hsmall := hrj.small
        omega
      have hnothing := jsonFind_of_misses hshort (hmiss n List.mem_cons_self)
        (@comp_of_drop path hpath { rs with t := rs.f + (bracketed n).length } hrs
          (bracketed n) _ hle hdrop rfl)
        (@rangstrInt_eq { rs with t := rs.f + (bracketed n).length } path
          (bracketed n) _ hrs hdrop rfl)
      have hmore : ¬ (rj.p.getD []).getD rj.t 0 = 0 := by
        rw [hrj.path]
        exact hrj.more
      rw [jsonGetOuter, hfind]
      simp only [Option.getD_some, hne, hsome, false_and, or_self, if_false, Option.bind_eq_bind,
        Option.bind_some, jsonGetInner_of_nothing inner (hstr ▸ hnothing) hmore]
      refine ih (n := n') ?_ ?_ ?_ ?_ ?_
      · exact Nat.lt_of_succ_lt_succ hfuel
      · exact hrs
      · exact hdrop'
      · change rs.t = rs.f + (bracketed n).length + (bracketed n').length + (brackets ns).length
        omega
      · exact fun k hk ↦ hmiss k (List.mem_cons_of_mem _ hk)

/-! ## The whole path -/

theorem pathRest_heads (p : List Step) :
    ∃ r, pathRest p = brackets (heads p) ++ r ∧ (r = [] ∨ ∃ r', r = 46 :: r') := by
  induction p with
  | nil => exact ⟨[], rfl, .inl rfl⟩
  | cons s p ih =>
      cases s with
      | name s => exact ⟨_, rfl, .inr ⟨_, rfl⟩⟩
      | index n =>
          obtain ⟨r, hr, hdot⟩ := ih
          refine ⟨r, ?_, hdot⟩
          have hrest : pathRest (.index n :: p) = bracketed n ++ pathRest p := rfl
          have hheads : brackets (heads (.index n :: p)) = bracketed n ++ brackets (heads p) := rfl
          rw [hrest, hr, hheads, List.append_assoc]

theorem ne_dot_of_mem_bracketed {n : Nat} {c : UInt8} (h : c ∈ bracketed n) : c ≠ 46 := by
  rw [bracketed, List.mem_cons, List.mem_append, List.mem_singleton] at h
  rcases h with rfl | h | rfl
  · decide
  · rintro rfl
    cases isDigit_of_mem_digits h
  · decide

theorem ne_dot_of_mem_first {s : Step} (hs : s.Spelled) {c : UInt8} (h : c ∈ s.first) : c ≠ 46 := by
  cases s with
  | name s => exact (hs c h).1
  | index n => exact ne_dot_of_mem_bracketed h

/-- The path up to the first dot. -/
theorem takeWhile_first {s : Step} (hs : s.Spelled) (ns : List Nat) {r : Bytes}
    (hr : r = [] ∨ ∃ r', r = 46 :: r') :
    (s.first ++ (brackets ns ++ r)).takeWhile (· ≠ 46) = s.first ++ brackets ns := by
  have hfirst : ∀ c ∈ s.first ++ brackets ns, decide (c ≠ 46) = true := by
    intro c hc
    rw [decide_eq_true_iff]
    rw [List.mem_append, brackets, List.mem_flatMap] at hc
    rcases hc with hc | ⟨n, -, hc⟩
    · exact ne_dot_of_mem_first hs hc
    · exact ne_dot_of_mem_bracketed hc
  rw [← List.append_assoc, List.takeWhile_append_of_pos hfirst]
  rcases hr with rfl | ⟨r', rfl⟩
  · rw [List.takeWhile_nil, List.append_nil]
  · rw [List.takeWhile_cons_of_neg (by decide), List.append_nil]

/-- The first component, and the bracket behind it. -/
theorem rangstrFind_first {s : Step} (hs : s.Spelled) {ns : List Nat}
    (hempty : s = .name [] → ns = []) (r : Bytes) :
    rangstrFind ⟨1, 0 + 1, (s.first ++ brackets ns).length, some (s.first ++ (brackets ns ++ r))⟩
      91 = if ns = [] then none else some s.first.length := by
  have hone : s = .name [] ∨ OneComponent s.first := by
    cases s with
    | index n => exact .inr (oneComponent_bracketed n)
    | name s =>
        cases s with
        | nil => exact .inl rfl
        | cons c w => exact .inr ⟨c, w, rfl, fun h ↦ (hs 91 (List.mem_cons_of_mem _ h)).2.1 rfl⟩
  rcases hone with rfl | hone
  · rw [hempty rfl, if_pos rfl]
    rfl
  · have hfind := @rangstrFind_component
        ⟨1, 0, (s.first ++ brackets ns).length, some (s.first ++ (brackets ns ++ r))⟩ _
      rfl _ hone ns r rfl (by rw [List.length_append, Nat.zero_add])
    change _ = if ns = [] then none else some (0 + s.first.length) at hfind
    rw [Nat.zero_add s.first.length] at hfind
    exact hfind

/-- What `json_get` gets right: a value whose document has no byte 127 in a string and no blanks in
front of an array, on a path without empty names behind the first one, when the brackets looked up
again miss; and what is missing at the root. -/
def Reads (d : Doc) (s : Step) (p : List Step) : Prop :=
  (s = .name [] → heads p = []) ∧
    match d.root.locate (s :: p) d.after.val with
    | some (v, t) =>
        d.root.plain = true ∧ (∀ es, d.root = .array es → d.before.val = []) ∧ (∀ x ∈ p, x.Named) ∧
          ∀ n ∈ (heads p).dropLast, Misses ((v.text ++ t).drop v.quote) (bracketed n)
    | none => Misses d.text s.first

theorem length_le_pathRest (p : List Step) : p.length ≤ (pathRest p).length := by
  induction p with
  | nil => exact le_rfl
  | cons s p ih =>
      have hs : 0 < s.next.length := by
        cases s with
        | name s => exact Nat.succ_pos _
        | index n => exact Nat.succ_pos _
      rw [pathRest, List.flatMap_cons, List.length_append, List.length_cons]
      exact Nat.add_comm 1 _ ▸ Nat.add_le_add hs ih

theorem length_heads_le (p : List Step) : (heads p).length ≤ p.length := by
  induction p with
  | nil => exact le_rfl
  | cons s p ih =>
      cases s with
      | name s => exact Nat.zero_le _
      | index n => exact Nat.succ_le_succ ih

section Get

variable {d : Doc} (hdoc : d.text.length < 2147483648) {s : Step} {p : List Step} (hs : s.Spelled)
  (hspelled : ∀ x ∈ p, x.Spelled) (hpath : (pathText (s :: p)).length < 2147483648)

/-- The range of the first component. -/
def firstRange (s : Step) (path : Bytes) : Rangstr := ⟨1, 0, s.first.length, some path⟩

include hs in
theorem jsonGet_eq (hempty : s = .name [] → heads p = []) (inner fuel : Nat) :
    jsonGetOuter inner (fuel + 1) false (rangstrNew d.text)
      (jsonPathFirst (rangstrNew (pathText (s :: p)))) =
      (jsonGetInner inner (rangstrNew d.text) (firstRange s (pathText (s :: p)))).bind fun x ↦
        match x with
        | .inl rj => some rj
        | .inr (rj, rs) =>
            if heads p = [] then some rj
            else jsonGetOuter inner fuel true rj
              { rs with t := (s.first ++ brackets (heads p)).length, f := s.first.length } := by
  obtain ⟨r, hr, hdot⟩ := pathRest_heads p
  have htext : pathText (s :: p) = s.first ++ (brackets (heads p) ++ r) := by rw [pathText, hr]
  have hfirst : jsonPathFirst (rangstrNew (pathText (s :: p))) =
      ⟨1, 0, (s.first ++ brackets (heads p)).length,
        some (s.first ++ (brackets (heads p) ++ r))⟩ := by
    rw [htext, rangstrNew, jsonPathFirst]
    simp only [takeWhile_first hs (heads p) hdot]
  have hsome : (rangstrNew d.text).p ≠ none := Option.some_ne_none d.text
  rw [hfirst, jsonGetOuter, rangstrFind_first hs hempty r, ← htext]
  by_cases hnil : heads p = []
  · have hlen : (s.first ++ brackets (heads p)).length = s.first.length := by
      rw [hnil, brackets, List.flatMap_nil, List.append_nil]
    simp only [if_pos hnil, Option.getD_none, hlen, Bool.false_eq_true, false_and, and_false, hsome,
      or_self, if_false, ite_self]
    rfl
  · simp only [if_neg hnil, Option.getD_some, Bool.false_eq_true, false_and, and_false, hsome,
      or_self, if_false]
    rfl

theorem comp_firstRange (r : Bytes) (hlength : (s.first ++ r).length < 2147483648) :
    (firstRange s (s.first ++ r)).Comp s.first ∧
      rangstrInt (firstRange s (s.first ++ r)) = rangstrInt (rangstrNew s.first) :=
  ⟨@comp_of_drop _ hlength (firstRange s (s.first ++ r)) rfl s.first r (Nat.zero_le _) rfl
    (Nat.zero_add _).symm,
    @rangstrInt_eq (firstRange s (s.first ++ r)) _ s.first r rfl rfl (Nat.zero_add _).symm⟩

theorem rangstrInt_bracketed {n : Nat} (h : n < 2147483648) :
    rangstrInt (rangstrNew (bracketed n)) = n := by
  have hdrop : ((bracketed n).drop 1).take ((bracketed n).length - 1) = digits 10 n ++ [93] := by
    rw [bracketed, List.drop_succ_cons, List.drop_zero, List.length_cons, Nat.add_sub_cancel,
      List.take_length]
  rw [rangstrInt, rangstrNew]
  change rangstrIntLoop (((bracketed n).drop 1).take ((bracketed n).length - 1)) 0 = n
  rw [hdrop]
  exact rangstrIntLoop_digits h (.inr rfl)

include hdoc hs hpath in
/-- The range of what is missing at the root. -/
theorem jsonGet_missing (hempty : s = .name [] → heads p = []) (hmiss : Misses d.text s.first) :
    jsonGet d.text (pathText (s :: p)) = some rangstrNull := by
  obtain ⟨hcomp, hint⟩ := comp_firstRange (pathRest p) hpath
  have hrj : rangstrStr (rangstrNew d.text) = d.text := rfl
  have hfind := jsonFind_of_misses hdoc hmiss hcomp hint
  have hend : ((rangstrNew d.text).p.getD []).getD (rangstrNew d.text).t 0 = 0 := by
    rw [getD_eq_headD_drop]
    exact congrArg (List.headD · 0) List.drop_length
  rw [jsonGet, jsonGet_eq hs hempty, jsonGetInner, hrj]
  change (jsonFind d.text (firstRange s (s.first ++ pathRest p)) >>= _).bind _ = _
  rw [hfind]
  simp only [Option.bind_eq_bind, Option.bind_some, rangstrNull, if_true, hend]

include hdoc hs hspelled hpath

/-- The range of a value that is there. -/
theorem jsonGet_reached {w : Value × Bytes} (hw : d.root.locate (s :: p) d.after.val = some w)
    (h : Reads d s p) :
    ∃ rj, jsonGet d.text (pathText (s :: p)) = some rj ∧
      Reached d.root d.after.val d.text (s :: p) rj := by
  obtain ⟨v, t⟩ := w
  obtain ⟨hempty, h⟩ := h
  rw [hw] at h
  obtain ⟨hplain, hws, hnamed, hmiss⟩ := h
  obtain ⟨hcomp, hint⟩ := comp_firstRange (pathRest p) hpath
  have hrj : rangstrStr (rangstrNew d.text) = d.text := rfl
  obtain ⟨x, hx, hrest⟩ := Option.bind_eq_some_iff.mp hw
  have hroot : d.root.text.length + d.after.val.length ≤ d.text.length := by
    rw [Doc.text, List.length_append, List.length_append]
    omega
  have hlooks : (firstRange s (pathText (s :: p))).Looks s := by
    have hok : s.Ok := hs.ok (by omega) hx
    cases s with
    | name s => exact hcomp
    | index n => exact hint.trans (rangstrInt_bracketed hok)
  have hcur : Cursor (pathText (s :: p)) (firstRange s (pathText (s :: p))) (pathRest p) :=
    ⟨rfl, .inl List.drop_left, .inl Int.one_ne_zero⟩
  have hlen : p.length ≤ (pathText (s :: p)).length := by
    rw [pathText, List.length_append]
    exact (length_le_pathRest p).trans (Nat.le_add_left _ _)
  obtain ⟨rj, rs, hinner, hreached, hrs⟩ :=
    jsonGetInner_reached hpath hspelled hnamed (Nat.lt_succ_of_le hlen) hplain
    d.after.closesNone hrj hdoc hws hlooks hcur (hw ▸ rfl)
  refine ⟨rj, ?_, hreached⟩
  rw [jsonGet, jsonGet_eq hs hempty, hinner]
  simp only [Option.bind_some]
  cases hheads : heads p with
  | nil => rw [if_pos rfl]
  | cons n ns =>
      obtain ⟨r, hr, -⟩ := pathRest_heads p
      have hpos := length_heads_le p
      rw [hheads] at hr hmiss hpos
      have hdrop : (pathText (s :: p)).drop s.first.length = bracketed n ++ (brackets ns ++ r) := by
        rw [pathText, List.drop_left, hr, brackets, List.flatMap_cons, List.append_assoc]
        rfl
      have ht : (s.first ++ brackets (n :: ns)).length =
          s.first.length + (bracketed n).length + (brackets ns).length := by
        rw [List.length_append, brackets, List.flatMap_cons, List.length_append, Nat.add_assoc]
        rfl
      have hfuel : ns.length < (pathText (s :: p)).length := by
        rw [List.length_cons] at hpos
        omega
      obtain ⟨z, hholds⟩ := hreached.holds hplain ⟨hroot, hdoc⟩ hw
      rw [if_neg (List.cons_ne_nil n ns)]
      refine jsonGetOuter_again hpath hholds (Nat.succ_pos _) (r := r) hfuel ?_ ?_ ?_ hmiss
      · exact hrs
      · exact hdrop
      · exact ht

theorem Reads.sdbJsonGetStr_eq (h : Reads d s p) :
    sdbJsonGetStr d.text (pathText (s :: p)) =
      some ((d.root.lookup (s :: p)).map Node.content) := by
  have hroot : d.root.text.length + d.after.val.length ≤ d.text.length := by
    rw [Doc.text, List.length_append, List.length_append]
    omega
  rw [sdbJsonGetStr, ← Node.locate_fst (s :: p) d.root d.after.val]
  cases hw : d.root.locate (s :: p) d.after.val with
  | none =>
      obtain ⟨hempty, hmiss⟩ := h
      rw [hw] at hmiss
      rw [jsonGet_missing hdoc hs hpath hempty hmiss]
      rfl
  | some w =>
      obtain ⟨rj, hget, hreached⟩ := jsonGet_reached hdoc hs hspelled hpath hw h
      obtain ⟨-, h⟩ := h
      rw [hw] at h
      obtain ⟨z, hholds⟩ := hreached.holds h.1 ⟨hroot, hdoc⟩ hw
      rw [hget, Option.map_some, rangstrDup_of_holds hholds]
      rfl

end Get

/-! ## What is missing at the root -/

theorem memberOf_none {found : Nat × Nat → Bool} {l : List (Nat × Nat)} (heven : l.length % 2 = 0)
    (h : memberOf found l = none) (i : Nat) (hi : 2 * i < l.length) : found l[2 * i] = false := by
  induction l using List.twoStepInduction generalizing i with
  | nil => exact absurd hi (Nat.not_lt_zero _)
  | singleton x => exact absurd heven (by rw [List.length_singleton]; decide)
  | cons_cons x y l ih _ =>
      rw [memberOf] at h
      split at h
      · cases h
      · rename_i hx
        cases i with
        | zero => exact Bool.eq_false_iff.mpr hx
        | succ i =>
            rw [List.length_cons, List.length_cons] at heven hi
            exact ih (by omega) h i (by omega)

section Root

variable {d : Doc} (hplain : d.root.plain = true)
include hplain

theorem rootTokens_doc : rootTokens d.text = d.root.inner d.before.val.length := by
  have hpasses := (container_passes d.container hplain d.before d.after.val).2
  have hafter := (d.after.passes 0 [] (d.before.val.length + d.root.text.length) trivial).2
  rw [List.append_nil] at hafter
  rw [rootTokens, Doc.text, hpasses, hafter]
  exact (pairs_unpair _ []).trans (List.append_nil _)

/-- A member that the root does not have. -/
theorem misses_member (hobject : ∀ es, d.root ≠ .array es) (hnone : ∀ ws, d.root ≠ .noElems ws)
    {name : Bytes} (hx : d.root.child (.name name) = none) : Misses d.text name := by
  intro _
  have htokens := rootTokens_doc hplain
  have hdoc := d.container
  rw [Doc.text] at htokens ⊢
  cases hroot : d.root with
  | word w =>
      rw [hroot] at hdoc
      cases hdoc
  | string s =>
      rw [hroot] at hdoc
      cases hdoc
  | noElems ws => exact absurd hroot (hnone ws)
  | array es => exact absurd hroot (hobject es)
  | noMembers ws =>
      have hhead : (d.before.val ++ (Node.text (.noMembers ws) ++ d.after.val)).headD 0 ≠ 91 :=
        d.before.headD_ne_bracket _
      rw [hroot] at htokens
      rw [if_neg hhead, htokens]
      exact ⟨fun i hi ↦ absurd hi (Nat.not_lt_zero _), fun h ↦ absurd h Nat.zero_ne_one⟩
  | object ms =>
      rw [hroot] at htokens hx
      have hmember : memberOf
          (fun x ↦ slice (d.before.val ++ (Node.text (.object ms) ++ d.after.val)) x = name)
          (ms.tokens (d.before.val.length + 1)) = none := by
        have hdrop : (d.before.val ++ (Node.text (.object ms) ++ d.after.val)).drop
            (d.before.val.length + 1) = ms.text ++ d.after.val := by
          rw [← List.drop_drop, List.drop_left]
          rfl
        rw [Node.memberOf_tokens rfl name hdrop, Option.map_eq_none_iff.mp hx]
        rfl
      have heven := Node.even_tokens (n := ms) rfl (d.before.val.length + 1)
      have hhead : (d.before.val ++ (Node.text (.object ms) ++ d.after.val)).headD 0 ≠ 91 :=
        d.before.headD_ne_bracket _
      rw [if_neg hhead, htokens]
      refine ⟨fun i hi hname ↦ ?_, fun hodd ↦ ?_⟩
      · have hfalse := memberOf_none heven hmember i hi
        rw [decide_eq_false_iff_not] at hfalse
        exact hfalse hname
      · change (ms.tokens (d.before.val.length + 1)).length % 2 = 1 at hodd
        omega

/-- An element that the root does not have. -/
theorem misses_element {es : Node .elems} (harray : d.root = .array es)
    (hbefore : d.before.val = []) {n : Nat} (hn : n < 2147483648)
    (hx : d.root.child (.index n) = none) : Misses d.text (bracketed n) := by
  intro _
  have htokens := rootTokens_doc hplain
  rw [harray] at htokens hx
  have hhead : d.text.headD 0 = 91 := by
    rw [Doc.text, hbefore, harray]
    rfl
  rw [if_pos hhead, rangstrInt_bracketed hn, htokens]
  exact .inr (Node.elemAt_none rfl (Option.map_eq_none_iff.mp hx) _)

end Root

/-- **Looking up** a path.  What is missing at the root is there as `Reads` has it: a member that an
object does not have, and an element that an array does not have. -/
theorem sdbJsonGetStr_eq_lookup {d : Doc} (hdoc : d.text.length < 2147483648) {s : Step}
    {p : List Step} (hs : s.Spelled) (hspelled : ∀ x ∈ p, x.Spelled)
    (hpath : (pathText (s :: p)).length < 2147483648) (h : Reads d s p) :
    sdbJsonGetStr d.text (pathText (s :: p)) = some ((d.root.lookup (s :: p)).map Node.content) ∧
      (d.root.plain = true →
        (∀ name, (∀ es, d.root ≠ .array es) → (∀ ws, d.root ≠ .noElems ws) →
          d.root.child (.name name) = none → Misses d.text name) ∧
        ∀ es n, d.root = .array es → d.before.val = [] → n < 2147483648 →
          d.root.child (.index n) = none → Misses d.text (bracketed n)) :=
  ⟨h.sdbJsonGetStr_eq hdoc hs hspelled hpath, fun hplain ↦
    ⟨fun _ hobject hnone hx ↦ misses_member hplain hobject hnone hx,
      fun _ _ harray hbefore hn hx ↦ misses_element hplain harray hbefore hn hx⟩⟩

/-- The number 1. -/
def one : Word :=
  ⟨[49], .inl ⟨[], [49], [], [], by decide,
    .inr ⟨⟨by decide, List.all_eq_true.mp rfl⟩, by decide⟩, .inl rfl, .inl rfl, rfl⟩⟩

/-- The word `true`. -/
def literalTrue : Word := ⟨[116, 114, 117, 101], .inr (by decide)⟩

theorem plain_a : 32 ≤ 'a'.val.toNat ∧ 'a'.val.toNat ≠ 34 ∧ 'a'.val.toNat ≠ 92 := by decide

theorem plain_b : 32 ≤ 'b'.val.toNat ∧ 'b'.val.toNat ≠ 34 ∧ 'b'.val.toNat ≠ 92 := by decide

theorem plain_c : 32 ≤ 'c'.val.toNat ∧ 'c'.val.toNat ≠ 34 ∧ 'c'.val.toNat ≠ 92 := by decide

theorem plain_x : 32 ≤ 'x'.val.toNat ∧ 'x'.val.toNat ≠ 34 ∧ 'x'.val.toNat ≠ 92 := by decide

/-- `{"a":1}`. -/
def oneMember : Doc :=
  ⟨.none, .object (.lastMember ⟨.none, [.char 'a' plain_a], .none, .none⟩ (.word one) .none), .none,
    rfl⟩

/-- The number is returned for the member `b` of the number. -/
theorem sdbJsonGetStr_ne_lookup :
    sdbJsonGetStr oneMember.text (pathText [.name [97], .name [98]]) = some (some [49]) ∧
      oneMember.root.lookup [.name [97], .name [98]] = none :=
  ⟨by decide +kernel, rfl⟩

/-- `{"a":"x","b":[true,1]}`. -/
def nestedMembers : Doc :=
  ⟨.none, .object (.member ⟨.none, [.char 'a' plain_a], .none, .none⟩
    (.string [.char 'x' plain_x]) .none
    (.lastMember ⟨.none, [.char 'b' plain_b], .none, .none⟩
      (.array (.elem .none (.word literalTrue) .none
        (.lastElem .none (.word one) .none)))
      .none)), .none, rfl⟩

theorem reads_nestedMembers : Reads nestedMembers (.name [98]) [.index 1] := by
  have hlocate : nestedMembers.root.locate [.name [98], .index 1] nestedMembers.after.val =
      some (.word one, [93, 125]) := rfl
  refine ⟨fun h ↦ absurd h (by simp), ?_⟩
  rw [hlocate]
  refine ⟨rfl, fun _ _ ↦ rfl, fun x hx ↦ ?_, fun _ h ↦ absurd h List.not_mem_nil⟩
  rw [List.mem_singleton.mp hx]
  trivial

/-- The second element of the second member is found. -/
theorem sdbJsonGetStr_nestedMembers :
    sdbJsonGetStr nestedMembers.text (pathText [.name [98], .index 1]) = some (some [49]) := by
  refine (@sdbJsonGetStr_eq_lookup nestedMembers (by decide) (.name [98]) [.index 1]
    (List.forall_mem_singleton.mpr (by decide)) (fun x hx ↦ ?_)
    (by decide +kernel) reads_nestedMembers).1
  rw [List.mem_singleton.mp hx]
  trivial

end SdbStore.Json
