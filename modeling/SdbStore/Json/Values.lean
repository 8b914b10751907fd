import SdbStore.Json.Tokens

/-!
# Elements and members

What a path addresses in a document, and where its text is: a value in its place is the text in
front of it, the value, and the text behind it.
-/

namespace SdbStore.Json

open Lib

/-- A member name or an index. -/
inductive Step
  | name (s : Bytes)
  | index (n : Nat)
deriving DecidableEq

/-- A value with the text around it. -/
structure Place where
  before : Bytes
  value : Value
  after : Bytes

/-- Behind more text. -/
def Place.behind (s : Bytes) (x : Place) : Place := ⟨s ++ x.before, x.value, x.after⟩

/-- The `n`-th element. -/
def Node.elemAt {k : Kind} : Node k → Nat → Option Place
  | .lastElem ws v ws', 0 => some ⟨ws.val, v, ws'.val ++ [93]⟩
  | .elem ws v ws' es, 0 => some ⟨ws.val, v, ws'.val ++ 44 :: es.text⟩
  | .elem ws v ws' es, n + 1 =>
      (es.elemAt n).map (Place.behind (ws.val ++ (v.text ++ (ws'.val ++ [44]))))
  | _, _ => none

/-- The first member with the name. -/
def Node.memberAt {k : Kind} : Node k → Bytes → Option Place
  | .lastMember m v ws', s =>
      if strText m.name = s then some ⟨m.text, v, ws'.val ++ [125]⟩ else none
  | .member m v ws' ms, s =>
      if strText m.name = s then some ⟨m.text, v, ws'.val ++ 44 :: ms.text⟩
      else (ms.memberAt s).map (Place.behind (m.text ++ (v.text ++ (ws'.val ++ [44]))))
  | _, _ => none

section Members

variable {m : Name} {v : Value} {ws' : Blanks} {ms : Node .members} {name : Bytes}

theorem Node.memberAt_lastMember (h : strText m.name = name) :
    (Node.lastMember m v ws').memberAt name = some ⟨m.text, v, ws'.val ++ [125]⟩ := if_pos h

theorem Node.memberAt_lastMember_ne (h : ¬ strText m.name = name) :
    (Node.lastMember m v ws').memberAt name = none :=
  if_neg h

theorem Node.memberAt_member (h : strText m.name = name) :
    (Node.member m v ws' ms).memberAt name = some ⟨m.text, v, ws'.val ++ 44 :: ms.text⟩ := if_pos h

theorem Node.memberAt_member_ne (h : ¬ strText m.name = name) :
    (Node.member m v ws' ms).memberAt name =
      (ms.memberAt name).map (Place.behind (m.text ++ (v.text ++ (ws'.val ++ [44])))) := if_neg h

end Members

/-- Over the elements up to the `n`-th one. -/
@[elab_as_elim]
theorem Node.elemAt_rec
    {motive : ∀ {k : Kind} (n : Node k) (i : Nat) (x : Place), n.elemAt i = some x → Prop}
    (last : ∀ (ws : Blanks) (v : Value) (ws' : Blanks), motive (.lastElem ws v ws') 0
      ⟨ws.val, v, ws'.val ++ [93]⟩ rfl)
    (here : ∀ (ws : Blanks) (v : Value) (ws' : Blanks) (es : Node .elems),
      motive (.elem ws v ws' es) 0 ⟨ws.val, v, ws'.val ++ 44 :: es.text⟩ rfl)
    (there : ∀ (ws : Blanks) (v : Value) (ws' : Blanks) (es : Node .elems) (i : Nat) (x : Place)
      (hx : es.elemAt i = some x), motive es i x hx →
      motive (.elem ws v ws' es) (i + 1) (x.behind (ws.val ++ (v.text ++ (ws'.val ++ [44]))))
        (congrArg _ hx))
    {k : Kind} {n : Node k} {i : Nat} {x : Place} (hx : n.elemAt i = some x) : motive n i x hx := by
  induction n generalizing i x with
  | lastElem ws v ws' ih =>
      cases i with
      | zero =>
          cases hx
          exact last ws v ws'
      | succ i => cases hx
  | elem ws v ws' es ihv ihes =>
      cases i with
      | zero =>
          cases hx
          exact here ws v ws' es
      | succ i =>
          obtain ⟨y, hy, rfl⟩ := Option.map_eq_some_iff.mp hx
          exact there ws v ws' es i y hy (ihes hy)
  | _ => cases hx

/-- Over the members up to the first one with the name. -/
@[elab_as_elim]
theorem Node.memberAt_rec {name : Bytes}
    {motive : ∀ {k : Kind} (n : Node k) (x : Place), n.memberAt name = some x → Prop}
    (last : ∀ (m : Name) (v : Value) (ws' : Blanks) (h : strText m.name = name), motive
      (.lastMember m v ws') ⟨m.text, v, ws'.val ++ [125]⟩ (Node.memberAt_lastMember h))
    (here : ∀ (m : Name) (v : Value) (ws' : Blanks) (ms : Node .members)
      (h : strText m.name = name),
      motive (.member m v ws' ms) ⟨m.text, v, ws'.val ++ 44 :: ms.text⟩ (Node.memberAt_member h))
    (there : ∀ (m : Name) (v : Value) (ws' : Blanks) (ms : Node .members) (x : Place)
      (h : ¬ strText m.name = name)
      (hx : ms.memberAt name = some x), motive ms x hx →
      motive (.member m v ws' ms) (x.behind (m.text ++ (v.text ++ (ws'.val ++ [44]))))
        ((Node.memberAt_member_ne h).trans (congrArg _ hx)))
    {k : Kind} {n : Node k} {x : Place} (hx : n.memberAt name = some x) : motive n x hx := by
  induction n generalizing x with
  | lastMember m v ws' ih =>
      by_cases h : strText m.name = name
      · cases (Node.memberAt_lastMember h).symm.trans hx
        exact last m v ws' h
      · cases (Node.memberAt_lastMember_ne h).symm.trans hx
  | member m v ws' ms ihv ihms =>
      by_cases h : strText m.name = name
      · cases (Node.memberAt_member h).symm.trans hx
        exact here m v ws' ms h
      · obtain ⟨y, hy, rfl⟩ := Option.map_eq_some_iff.mp ((Node.memberAt_member_ne h).symm.trans hx)
        exact there m v ws' ms y h hy (ihms hy)
  | _ => cases hx

/-- What a step leads to. -/
def Node.child : Value → Step → Option Place
  | .array es, .index n => (es.elemAt n).map (Place.behind [91])
  | .object ms, .name s => (ms.memberAt s).map (Place.behind [123])
  | _, _ => none

theorem Node.child_object (ms : Node .members) (s : Bytes) :
    (Node.object ms).child (.name s) = (ms.memberAt s).map (Place.behind [123]) := rfl

/-- What a path leads to. -/
def Node.lookup : List Step → Value → Option Value
  | [], v => some v
  | s :: p, v => (v.child s).bind fun x ↦ x.value.lookup p

/-- The text in which the value is, behind it up to the closing bracket. -/
structure Place.Within (x : Place) (s : Bytes) : Prop where
  text : s = x.before ++ (x.value.text ++ x.after)
  stops : Stops x.after
  plain : x.value.plain = true
  passes : ∀ d, ∃ es, Passes x.after (between d) es (between (d - 1)) Any

theorem Place.Within.behind {x : Place} {s : Bytes} (h : x.Within s) (s' : Bytes) :
    (x.behind s').Within (s' ++ s) where
  text := by rw [h.text]; exact (List.append_assoc _ _ _).symm
  stops := h.stops
  plain := h.plain
  passes := h.passes

theorem Blanks.closes (ws : Blanks) {c : UInt8} (h : closes c = true) (d : Int) :
    ∃ es, Passes (ws.val ++ [c]) (between d) es (between (d - 1)) Any :=
  ⟨_, (ws.passes d).append (Passes.closing h d) fun _ _ ↦ trivial⟩

theorem Blanks.goes_on (ws : Blanks) {k : Kind} {n : Node k} (hk : k ≠ .value) (h : n.plain = true)
    (d : Int) :
    ∃ es, Passes (ws.val ++ 44 :: n.text) (between d) es (between (d - 1)) Any := by
  have hcomma := Passes.idle (c := 44) rfl d
  have hrest : Passes n.text (between d) (n.edges d) (between (d - 1)) Any := by
    cases k with
    | value => exact absurd rfl hk
    | elems => exact (Node.passes h d).weaken fun t _ ↦ n.ends_elems t
    | members => exact (Node.passes h d).weaken fun t _ ↦ n.ends_members t
  exact ⟨_, (ws.passes d).append (hcomma.append hrest fun _ _ ↦ trivial) fun _ _ ↦ trivial⟩

theorem Node.text_elem (ws : Blanks) (v : Value) (ws' : Blanks) (es : Node .elems) :
    (Node.elem ws v ws' es).text = ws.val ++ (v.text ++ (ws'.val ++ [44])) ++ es.text := by
  have htext : (Node.elem ws v ws' es).text = ws.val ++ (v.text ++ (ws'.val ++ 44 :: es.text)) :=
    rfl
  rw [htext]
  simp only [List.append_assoc, List.singleton_append]

theorem Node.text_member (m : Name) (v : Value) (ws' : Blanks) (ms : Node .members) :
    (Node.member m v ws' ms).text = m.text ++ (v.text ++ (ws'.val ++ [44])) ++ ms.text := by
  have htext : (Node.member m v ws' ms).text = m.text ++ (v.text ++ (ws'.val ++ 44 :: ms.text)) :=
    rfl
  rw [htext]
  simp only [List.append_assoc, List.singleton_append]

/-- An element in its place, and its token. -/
theorem Node.elemAt_spec {k : Kind} {n : Node k} (h : n.plain = true) {i : Nat} {x : Place}
    (hx : n.elemAt i = some x) :
    x.Within n.text ∧ ∀ cur, (n.tokens cur)[i]? = some (x.value.token (cur + x.before.length)) := by
  induction hx using Node.elemAt_rec with
  | last ws v ws' => exact ⟨⟨rfl, ws'.stops rfl, h, ws'.closes rfl⟩, fun cur ↦ rfl⟩
  | here ws v ws' es =>
      obtain ⟨hv, hes⟩ := Bool.and_eq_true_iff.mp h
      exact ⟨⟨rfl, ws'.stops rfl, hv, ws'.goes_on (fun h ↦ Kind.noConfusion h) hes⟩, fun cur ↦ rfl⟩
  | there ws v ws' es i y hy ih =>
      obtain ⟨hv, hes⟩ := Bool.and_eq_true_iff.mp h
      obtain ⟨hin, htoken⟩ := ih hes
      refine ⟨Node.text_elem ws v ws' es ▸ hin.behind _, fun cur ↦ ?_⟩
      rw [Node.tokens, List.getElem?_cons_succ, htoken]
      refine congrArg (fun c ↦ some (y.value.token c)) ?_
      rw [Place.behind]
      simp only [List.length_append, List.length_singleton]
      omega

theorem Node.elemAt_none {k : Kind} {n : Node k} (hk : k = .elems) {i : Nat}
    (hx : n.elemAt i = none) (cur : Nat) : (n.tokens cur).length ≤ i := by
  induction n generalizing i cur with
  | word w => cases hk
  | string s => cases hk
  | noElems ws => cases hk
  | array es ih => cases hk
  | noMembers ws => cases hk
  | object ms ih => cases hk
  | lastMember m v ws' ih => cases hk
  | member m v ws' ms ihv ihms => cases hk
  | lastElem ws v ws' ih =>
      cases i with
      | zero => cases hx
      | succ i => exact Nat.succ_le_succ (Nat.zero_le i)
  | elem ws v ws' es ihv ihes =>
      cases i with
      | zero => cases hx
      | succ i => exact Nat.succ_le_succ (ihes rfl (Option.map_eq_none_iff.mp hx) _)

/-! ## Names -/

/-- The text of a token. -/
def slice (s : Bytes) (x : Nat × Nat) : Bytes := (s.drop x.1).take (x.2 - x.1)

/-- The value behind the first name that is found, in the names and values in turn. -/
def memberOf (found : Nat × Nat → Bool) : List (Nat × Nat) → Option (Nat × Nat)
  | x :: y :: l => if found x then some y else memberOf found l
  | _ => none

theorem slice_of_drop {s u w : Bytes} {cur : Nat} (h : s.drop cur = u ++ w) (e : Nat)
    (he : e = cur + u.length) :
    slice s (cur, e) = u := by
  rw [slice, h, he, Nat.add_sub_cancel_left, List.take_left]

theorem Name.slice_token {m : Name} {s t : Bytes} {cur : Nat} (h : s.drop cur = m.text ++ t) :
    slice s (m.token cur) = strText m.name := by
  have hdrop : s.drop (cur + m.before.val.length + 1) =
      strText m.name ++ (34 :: (m.colon.val ++ 58 :: m.after.val) ++ t) := by
    rw [Nat.add_assoc, ← List.drop_drop, h, Name.text, List.append_assoc, List.drop_append,
      Nat.add_sub_cancel_left]
    rw [List.drop_eq_nil_of_le (Nat.le_add_right _ _), List.nil_append, List.cons_append,
      List.drop_succ_cons, List.drop_zero, List.append_assoc]
  exact slice_of_drop hdrop _ rfl

/-- A member in its place. -/
theorem Node.memberAt_within {k : Kind} {n : Node k} (h : n.plain = true) {name : Bytes} {x : Place}
    (hx : n.memberAt name = some x) : x.Within n.text := by
  induction hx using Node.memberAt_rec with
  | last m v ws' hname => exact ⟨rfl, ws'.stops rfl, (Bool.and_eq_true_iff.mp h).2, ws'.closes rfl⟩
  | here m v ws' ms hname =>
      obtain ⟨hm, hrest⟩ := Bool.and_eq_true_iff.mp h
      obtain ⟨hv, hms⟩ := Bool.and_eq_true_iff.mp hrest
      exact ⟨rfl, ws'.stops rfl, hv, ws'.goes_on (fun h ↦ Kind.noConfusion h) hms⟩
  | there m v ws' ms y hname hy ih =>
      obtain ⟨hm, hrest⟩ := Bool.and_eq_true_iff.mp h
      obtain ⟨hv, hms⟩ := Bool.and_eq_true_iff.mp hrest
      exact Node.text_member m v ws' ms ▸ (ih hms).behind _

/-- The token of a member. -/
theorem Node.memberOf_tokens {k : Kind} {n : Node k} (hk : k = .members) (name : Bytes)
    {s t : Bytes} {cur : Nat} (hs : s.drop cur = n.text ++ t) :
    memberOf (fun x ↦ slice s x = name) (n.tokens cur) =
      (n.memberAt name).map fun x ↦ x.value.token (cur + x.before.length) := by
  induction n generalizing cur with
  | word w => cases hk
  | string s => cases hk
  | noElems ws => cases hk
  | array es ih => cases hk
  | noMembers ws => cases hk
  | object ms ih => cases hk
  | lastElem ws v ws' ih => cases hk
  | elem ws v ws' es ihv ihes => cases hk
  | lastMember m v ws' ih =>
      rw [Node.text, List.append_assoc] at hs
      rw [Node.tokens, memberOf, m.slice_token hs]
      by_cases hname : strText m.name = name
      · rw [decide_eq_true hname, if_pos rfl, Node.memberAt_lastMember hname]
        rfl
      · rw [decide_eq_false hname, if_neg Bool.false_ne_true, Node.memberAt_lastMember_ne hname]
        rfl
  | member m v ws' ms ihv ihms =>
      have hrest : s.drop (cur + (m.text.length + (v.text.length + (ws'.val.length + 1)))) =
          ms.text ++ t := by
        rw [← List.drop_drop, hs, Node.text_member, List.append_assoc]
        refine List.drop_left' ?_
        simp only [List.length_append, List.length_singleton]
      have hm := hs
      rw [Node.text, List.append_assoc] at hm
      rw [Node.tokens, memberOf, m.slice_token hm]
      by_cases hname : strText m.name = name
      · rw [decide_eq_true hname, if_pos rfl, Node.memberAt_member hname]
        rfl
      · rw [decide_eq_false hname, if_neg Bool.false_ne_true, Node.memberAt_member_ne hname,
          ihms rfl hrest, Option.map_map]
        refine congrArg (fun f ↦ (ms.memberAt name).map f) (funext fun x ↦ ?_)
        refine congrArg (fun c ↦ x.value.token c) ?_
        rw [Place.behind]
        simp only [List.length_append, List.length_singleton]
        omega

theorem Node.even_tokens {k : Kind} {n : Node k} (hk : k = .members) (cur : Nat) :
    (n.tokens cur).length % 2 = 0 := by
  induction n generalizing cur with
  | word w => cases hk
  | string s => cases hk
  | noElems ws => cases hk
  | array es ih => cases hk
  | noMembers ws => cases hk
  | object ms ih => cases hk
  | lastElem ws v ws' ih => cases hk
  | elem ws v ws' es ihv ihes => cases hk
  | lastMember m v ws' ih => rw [Node.tokens, List.length_cons, List.length_singleton]
  | member m v ws' ms ihv ihms =>
      have heven := ihms rfl (cur + (m.text.length + (v.text.length + (ws'.val.length + 1))))
      rw [Node.tokens, List.length_cons, List.length_cons]
      omega

end SdbStore.Json
