import SdbStore.Json.Members

/-!
# A member less

A document without the member that a path addresses, and without blanks.  In a text without blanks a
member has a comma in front of it unless it is the first one, and a comma behind it unless it is the
last one; one of them goes with the member.
-/

namespace SdbStore.Json

open Lib

/-- Without the first member with the name; `none` if it is the only member. -/
def Node.dropMember {k : Kind} : Node k → Bytes → Option (Node k)
  | .lastMember m v ws', s => if strText m.name = s then none else some (.lastMember m v ws')
  | .member m v ws' ms, s =>
      if strText m.name = s then some ms
      else
        match ms.dropMember s with
        | some ms' => some (.member m v ws' ms')
        | none => some (.lastMember m v ws')
  | n, _ => some n

/-- The `n`-th element is another value. -/
def Node.setElem {k : Kind} : Node k → Nat → Value → Node k
  | .lastElem ws _ ws', 0, u => .lastElem ws u ws'
  | .elem ws _ ws' es, 0, u => .elem ws u ws' es
  | .elem ws v ws' es, n + 1, u => .elem ws v ws' (es.setElem n u)
  | n, _, _ => n

/-- What a step leads to is another value. -/
def Node.setChild : Value → Step → Value → Value
  | .array es, .index n, u => .array (es.setElem n u)
  | .object ms, .name s, u => .object (ms.setMember s u)
  | v, _, _ => v

/-- Without the member with the name. -/
def Node.eraseMember : Value → Bytes → Value
  | .object ms, s =>
      match ms.dropMember s with
      | some ms' => .object ms'
      | none => .noMembers .none
  | v, _ => v

/-- Without the member that the path leads to. -/
def Node.erase : List Step → Value → Value
  | [.name s], v => v.eraseMember s
  | s :: p, v =>
      match v.child s with
      | some x => v.setChild s (x.value.erase p)
      | none => v
  | [], v => v

/-- A name without the blanks. -/
def Name.strip (m : Name) : Name := ⟨.none, m.name, .none, .none⟩

/-- Without the blanks. -/
def Node.strip {k : Kind} : Node k → Node k
  | .word w => .word w
  | .string s => .string s
  | .noElems _ => .noElems .none
  | .array es => .array es.strip
  | .noMembers _ => .noMembers .none
  | .object ms => .object ms.strip
  | .lastElem _ v _ => .lastElem .none v.strip .none
  | .elem _ v _ es => .elem .none v.strip .none es.strip
  | .lastMember m v _ => .lastMember m.strip v.strip .none
  | .member m v _ ms => .member m.strip v.strip .none ms.strip

theorem Name.length_strip_le (m : Name) : m.strip.text.length ≤ m.text.length := by
  rw [Name.text, Name.text, Name.strip, Blanks.none]
  simp only [List.length_append, List.length_cons, List.length_nil]
  omega

/-- A text is not shorter than without the blanks. -/
theorem Node.length_strip_le {k : Kind} (n : Node k) : n.strip.text.length ≤ n.text.length := by
  induction n with
  | word w => exact le_rfl
  | string s => exact le_rfl
  | noElems ws =>
      rw [Node.strip, Node.text, Node.text, Blanks.none]
      simp only [List.length_append, List.length_cons, List.length_nil]
      omega
  | array es ih => exact Nat.succ_le_succ ih
  | noMembers ws =>
      rw [Node.strip, Node.text, Node.text, Blanks.none]
      simp only [List.length_append, List.length_cons, List.length_nil]
      omega
  | object ms ih => exact Nat.succ_le_succ ih
  | lastElem ws v ws' ih =>
      rw [Node.strip, Node.text, Node.text, Blanks.none]
      simp only [List.length_append, List.length_cons, List.length_nil]
      omega
  | elem ws v ws' es ihv ihes =>
      rw [Node.strip, Node.text, Node.text, Blanks.none]
      simp only [List.length_append, List.length_cons, List.length_nil]
      omega
  | lastMember m v ws' ih =>
      have hm := m.length_strip_le
      rw [Node.strip, Node.text, Node.text, Blanks.none]
      simp only [List.length_append, List.length_cons, List.length_nil]
      omega
  | member m v ws' ms ihv ihms =>
      have hm := m.length_strip_le
      rw [Node.strip, Node.text, Node.text, Blanks.none]
      simp only [List.length_append, List.length_cons, List.length_nil]
      omega

/-! ## The text without a member -/

theorem Node.names_ne_nil {k : Kind} {n : Node k} (hk : k = .members) : n.names ≠ [] := by
  cases n with
  | lastMember m v ws' => exact List.cons_ne_nil _ _
  | member m v ws' ms => exact List.cons_ne_nil _ _
  | _ => cases hk

section Cases

variable {m : Name} {v : Value} {ws' : Blanks} {ms : Node .members} {s : Bytes}

theorem Node.dropMember_lastMember (h : strText m.name = s) :
    (Node.lastMember m v ws').dropMember s = none := if_pos h

theorem Node.dropMember_lastMember_ne (h : ¬ strText m.name = s) :
    (Node.lastMember m v ws').dropMember s = some (.lastMember m v ws') := if_neg h

theorem Node.dropMember_member (h : strText m.name = s) :
    (Node.member m v ws' ms).dropMember s = some ms := if_pos h

theorem Node.dropMember_member_ne (h : ¬ strText m.name = s) :
    (Node.member m v ws' ms).dropMember s =
      some ((ms.dropMember s).elim (.lastMember m v ws') fun ms' ↦ .member m v ws' ms') := by
  refine (if_neg h).trans ?_
  cases ms.dropMember s with
  | none => rfl
  | some ms' => rfl

end Cases

theorem Node.dropMember_eq_none {k : Kind} {n : Node k} (hk : k = .members) (s : Bytes) :
    n.dropMember s = none ↔ n.names = [s] := by
  cases n with
  | lastMember m v ws' =>
      have hnames : (Node.lastMember m v ws').names = [s] ↔ strText m.name = s := List.singleton_inj
      rw [hnames]
      by_cases hname : strText m.name = s
      · exact iff_of_true (Node.dropMember_lastMember hname) hname
      · rw [Node.dropMember_lastMember_ne hname]
        exact iff_of_false (fun h ↦ by cases h) hname
  | member m v ws' ms =>
      have hne := Node.names_ne_nil (n := ms) rfl
      refine iff_of_false (fun h ↦ ?_) fun h ↦ hne (List.cons.inj h).2
      by_cases hname : strText m.name = s
      · cases (Node.dropMember_member hname).symm.trans h
      · cases (Node.dropMember_member_ne hname).symm.trans h
  | _ => cases hk

/-- The text behind an opening bracket without a member. -/
def Node.dropText {k : Kind} (n : Node k) (s : Bytes) : Bytes :=
  (n.dropMember s).elim [125] Node.text

/-- The commas around a member. -/
structure Place.Commas (x : Place) (names : List Bytes) (s pre left : Bytes) : Prop where
  before : x.before = pre ++ 34 :: (s ++ [34, 58])
  first : pre = [] ∧ names.idxOf s = 0 ∨ (∃ pre', pre = pre' ++ [44] ∧ pre' ≠ []) ∧
    names.idxOf s ≠ 0
  last : (x.after = [125] ∧ names.idxOf s + 1 = names.length ∧ left = pre.dropLast ++ [125]) ∨
    (∃ post, x.after = 44 :: post ∧ post ≠ [] ∧ left = pre ++ post) ∧
      names.idxOf s + 1 ≠ names.length

theorem Name.text_of_strip {m : Name} (h : m.strip = m) :
    m.text = 34 :: (strText m.name ++ [34, 58]) := by
  rw [← h]
  rfl

/-- A comma more in front of the rest, or none when nothing is left of it. -/
theorem Node.dropText_member {m : Name} {v : Value} {ms : Node .members} {s : Bytes}
    (hname : ¬ strText m.name = s) : (Node.member m v .none ms).dropText s =
      if ms.names = [s] then m.text ++ (v.text ++ [125])
      else m.text ++ (v.text ++ 44 :: ms.dropText s) := by
  rw [Node.dropText, Node.dropMember_member_ne hname, Node.dropText]
  cases hdrop : ms.dropMember s with
  | none =>
      rw [if_pos ((Node.dropMember_eq_none rfl s).mp hdrop)]
      rfl
  | some ms' =>
      have hnames : ms.names ≠ [s] := fun h ↦ by
        rw [(Node.dropMember_eq_none rfl s).mpr h] at hdrop
        cases hdrop
      rw [if_neg hnames]
      rfl

theorem names_eq_singleton {names : List Bytes} {s : Bytes} (hidx : names.idxOf s = 0)
    (hlen : names.length = 1) :
    names = [s] := by
  obtain ⟨n, rfl⟩ := List.length_eq_one_iff.mp hlen
  by_cases h : n = s
  · rw [h]
  · rw [List.idxOf_cons_ne _ h] at hidx
    cases hidx

theorem Node.commas {k : Kind} {n : Node k} (h : n.strip = n) {s : Bytes} {x : Place}
    (hx : n.memberAt s = some x) :
    ∃ pre, x.Commas n.names s pre (n.dropText s) := by
  induction hx using Node.memberAt_rec with
  | last m v ws' hname =>
      obtain ⟨hm, hv, hws⟩ := Node.lastMember.inj h
      rw [← hws, Node.names, Node.dropText, Node.dropMember_lastMember hname, hname]
      exact ⟨[], hname ▸ Name.text_of_strip hm, .inl ⟨rfl, List.idxOf_cons_self⟩,
        .inl ⟨rfl, congrArg (· + 1) List.idxOf_cons_self, rfl⟩⟩
  | here m v ws' ms hname =>
      obtain ⟨hm, hv, hws, hms⟩ := Node.member.inj h
      have hnames : 0 < ms.names.length := List.length_pos_iff.mpr (Node.names_ne_nil rfl)
      obtain ⟨c, r, htext, -⟩ := Node.text_members (n := ms) rfl
      rw [← hws, Node.names, Node.dropText, Node.dropMember_member hname, hname]
      refine ⟨[], hname ▸ Name.text_of_strip hm, .inl ⟨rfl, List.idxOf_cons_self⟩,
        .inr ⟨⟨ms.text, rfl, by rw [htext]; exact List.cons_ne_nil _ _, rfl⟩, ?_⟩⟩
      rw [List.idxOf_cons_self, List.length_cons]
      omega
  | there m v ws' ms y hname hy ih =>
      obtain ⟨hm, hv, hws, hms⟩ := Node.member.inj h
      have hnames : 0 < ms.names.length := List.length_pos_iff.mpr (Node.names_ne_nil rfl)
      obtain ⟨pre, hbefore, hfirst, hlast⟩ := ih hms
      have hidx : (strText m.name :: ms.names).idxOf s = ms.names.idxOf s + 1 :=
        List.idxOf_cons_ne _ hname
      have htext := Name.text_of_strip hm
      have hassoc : ∀ t : Bytes, m.text ++ (v.text ++ 44 :: t) = m.text ++ v.text ++ [44] ++ t := by
        intro t
        simp only [List.append_assoc, List.cons_append, List.nil_append]
      subst hws
      rw [Node.dropText_member hname, Node.names]
      refine ⟨m.text ++ v.text ++ [44] ++ pre, ?_,
        .inr ⟨?_, by rw [hidx]; exact Nat.succ_ne_zero _⟩, ?_⟩
      · rw [Place.behind, hbefore]
        simp only [Blanks.none, List.append_assoc, List.nil_append]
      · rcases hfirst with ⟨rfl, -⟩ | ⟨⟨pre', rfl, -⟩, -⟩
        · refine ⟨m.text ++ v.text, List.append_nil _, ?_⟩
          rw [htext]
          exact List.cons_ne_nil _ _
        · refine ⟨m.text ++ v.text ++ [44] ++ pre', (List.append_assoc _ _ _).symm, ?_⟩
          rw [htext]
          exact List.cons_ne_nil _ _
      · rw [hidx, List.length_cons]
        rcases hlast with ⟨hafter, hend, hleft⟩ | ⟨⟨post, hafter, hpost, hleft⟩, hend⟩
        · refine .inl ⟨hafter, by omega, ?_⟩
          rcases hfirst with ⟨rfl, hzero⟩ | ⟨⟨pre', rfl, -⟩, hne⟩
          · rw [if_pos (names_eq_singleton hzero (by omega)), List.append_nil, List.dropLast_concat,
              List.append_assoc]
          · have hnames : ms.names ≠ [s] := fun h ↦ hne (by rw [h, List.idxOf_cons_self])
            rw [if_neg hnames, hassoc, hleft, List.dropLast_concat, ← List.append_assoc _ pre' [44],
              List.dropLast_concat, List.append_assoc _ pre' [125]]
        · have hnames : ms.names ≠ [s] := fun h ↦ hend (by rw [h, List.idxOf_cons_self]; rfl)
          refine .inr ⟨⟨post, hafter, hpost, ?_⟩, by omega⟩
          rw [if_neg hnames, hassoc, hleft, List.append_assoc _ pre post]

/-! ## Deeper in the document -/

theorem Node.text_setElem {k : Kind} {n : Node k} {i : Nat} {x : Place} (hx : n.elemAt i = some x)
    (u : Value) : (n.setElem i u).text = x.before ++ (u.text ++ x.after) := by
  induction hx using Node.elemAt_rec with
  | last ws v ws' => rfl
  | here ws v ws' es => rfl
  | there ws v ws' es i y hy ih =>
      rw [Node.setElem, Node.text_elem, ih, Place.behind]
      simp only [List.append_assoc]

/-- The text around what a step leads to stays. -/
theorem Node.text_setChild {v : Value} {step : Step} {x : Place} (hx : v.child step = some x)
    (u : Value) : (v.setChild step u).text = x.before ++ (u.text ++ x.after) := by
  cases v with
  | array es =>
      cases step with
      | name s => cases hx
      | index n =>
          obtain ⟨y, hy, rfl⟩ := Option.map_eq_some_iff.mp hx
          exact congrArg (91 :: ·) (Node.text_setElem hy u)
  | object ms =>
      cases step with
      | index n => cases hx
      | name s =>
          obtain ⟨y, hy, rfl⟩ := Option.map_eq_some_iff.mp hx
          exact congrArg (123 :: ·) (Node.text_setMember s u hy)
  | _ => cases hx

theorem Node.strip_elemAt {k : Kind} {n : Node k} (h : n.strip = n) {i : Nat} {x : Place}
    (hx : n.elemAt i = some x) :
    x.value.strip = x.value := by
  induction hx using Node.elemAt_rec with
  | last ws v ws' => exact (Node.lastElem.inj h).2.1
  | here ws v ws' es => exact (Node.elem.inj h).2.1
  | there ws v ws' es i y hy ih =>
      obtain ⟨-, -, -, hes⟩ := Node.elem.inj h
      exact ih hes

theorem Node.strip_memberAt {k : Kind} {n : Node k} (h : n.strip = n) {s : Bytes} {x : Place}
    (hx : n.memberAt s = some x) : x.value.strip = x.value := by
  induction hx using Node.memberAt_rec with
  | last m v ws' hname => exact (Node.lastMember.inj h).2.1
  | here m v ws' ms hname => exact (Node.member.inj h).2.1
  | there m v ws' ms y hname hy ih =>
      obtain ⟨-, -, -, hms⟩ := Node.member.inj h
      exact ih hms

/-- There are no blanks deeper in a document without blanks. -/
theorem Node.strip_child {v : Value} (h : v.strip = v) {step : Step} {x : Place}
    (hx : v.child step = some x) :
    x.value.strip = x.value := by
  cases v with
  | array es =>
      cases step with
      | name s => cases hx
      | index n =>
          obtain ⟨y, hy, rfl⟩ := Option.map_eq_some_iff.mp hx
          have hvalue := Node.strip_elemAt (Node.array.inj h) hy
          exact hvalue
  | object ms =>
      cases step with
      | index n => cases hx
      | name s =>
          obtain ⟨y, hy, rfl⟩ := Option.map_eq_some_iff.mp hx
          have hvalue := Node.strip_memberAt (Node.object.inj h) hy
          exact hvalue
  | _ => cases hx

/-- Nor are there any when a member is gone. -/
theorem Node.strip_dropMember {k : Kind} {n n' : Node k} (h : n.strip = n) {s : Bytes}
    (hn : n.dropMember s = some n') :
    n'.strip = n' := by
  induction n with
  | lastMember m v ws' ih =>
      by_cases hname : strText m.name = s
      · cases (Node.dropMember_lastMember hname).symm.trans hn
      · cases (Node.dropMember_lastMember_ne hname).symm.trans hn
        exact h
  | member m v ws' ms ihv ihms =>
      obtain ⟨hm, hv, hws, hms⟩ := Node.member.inj h
      by_cases hname : strText m.name = s
      · cases (Node.dropMember_member hname).symm.trans hn
        exact hms
      · cases (Node.dropMember_member_ne hname).symm.trans hn
        cases hdrop : ms.dropMember s with
        | none =>
            rw [Option.elim_none, Node.strip, hm, hv, hws]
        | some ms' =>
            rw [Option.elim_some, Node.strip, hm, hv, hws, ihms hms hdrop]
  | _ =>
      cases hn
      exact h

theorem Node.strip_eraseMember {v : Value} (h : v.strip = v) (s : Bytes) :
    (v.eraseMember s).strip = v.eraseMember s := by
  cases v with
  | object ms =>
      rw [Node.eraseMember]
      split
      · next ms' hdrop =>
          exact congrArg Node.object (Node.strip_dropMember (Node.object.inj h) hdrop)
      · rfl
  | _ => exact h

theorem Node.text_eraseMember (ms : Node .members) (s : Bytes) :
    (Node.eraseMember (.object ms) s).text = 123 :: ms.dropText s := by
  rw [Node.eraseMember, Node.dropText]
  split
  · next ms' hdrop =>
      rw [hdrop]
      rfl
  · next hdrop =>
      rw [hdrop]
      rfl

end SdbStore.Json
