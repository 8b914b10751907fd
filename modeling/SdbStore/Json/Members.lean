import SdbStore.Json.Values

/-!
# Members of an object

An object with another value for a name, and with one more member in front of the others.  A flat
object has only strings, whole numbers that are not negative and booleans for values, and no
escapes.
-/

namespace SdbStore.Json

open Lib

/-- The first member with the name gets another value. -/
def Node.setMember {k : Kind} : Node k → Bytes → Value → Node k
  | .lastMember m v ws', s, u =>
      if strText m.name = s then .lastMember m u ws' else .lastMember m v ws'
  | .member m v ws' ms, s, u =>
      if strText m.name = s then .member m u ws' ms else .member m v ws' (ms.setMember s u)
  | n, _, _ => n

/-- The names of the members. -/
def Node.names {k : Kind} : Node k → List Bytes
  | .lastMember m _ _ => [strText m.name]
  | .member m _ _ ms => strText m.name :: ms.names
  | _ => []

/-- Not an escape. -/
def Piece.isChar : Piece → Bool
  | .char _ _ => true
  | _ => false

/-- A string without escapes, a whole number that is not negative, or a boolean. -/
def Node.FlatValue : Value → Prop
  | .word w => IsInt w.val ∨ w.val = [116, 114, 117, 101] ∨ w.val = [102, 97, 108, 115, 101]
  | .string s => s.all Piece.isChar = true
  | _ => False

def Node.FlatMembers {k : Kind} : Node k → Prop
  | .lastMember m v _ => m.name.all Piece.isChar = true ∧ v.FlatValue
  | .member m v _ ms => (m.name.all Piece.isChar = true ∧ v.FlatValue) ∧ ms.FlatMembers
  | _ => False

/-- The members begin with a blank or a quote. -/
theorem Node.text_members {k : Kind} {n : Node k} (hk : k = .members) :
    ∃ c r, n.text = c :: r ∧ c ≠ 125 := by
  have hname : ∀ (m : Name) (t : Bytes), ∃ c r, m.text ++ t = c :: r ∧ c ≠ 125 := by
    intro m t
    obtain ⟨⟨val, hblank⟩, name, colon, after⟩ := m
    cases val with
    | nil => exact ⟨34, _, rfl, by decide⟩
    | cons c val =>
        refine ⟨c, _, rfl, ?_⟩
        rintro rfl
        cases hblank 125 List.mem_cons_self
  cases n with
  | lastMember m v ws' => exact hname m _
  | member m v ws' ms => exact hname m _
  | _ => cases hk

/-! ## Another value -/

section Set

variable (name : Bytes) (u : Value)

section Cases

variable {name} {m : Name} {v : Value} {ws' : Blanks} {ms : Node .members}

theorem Node.setMember_lastMember (h : strText m.name = name) :
    (Node.lastMember m v ws').setMember name u = .lastMember m u ws' := if_pos h

theorem Node.setMember_lastMember_ne (h : ¬ strText m.name = name) :
    (Node.lastMember m v ws').setMember name u = .lastMember m v ws' := if_neg h

theorem Node.setMember_member (h : strText m.name = name) :
    (Node.member m v ws' ms).setMember name u = .member m u ws' ms := if_pos h

theorem Node.setMember_member_ne (h : ¬ strText m.name = name) :
    (Node.member m v ws' ms).setMember name u = .member m v ws' (ms.setMember name u) := if_neg h

end Cases

variable {k : Kind} {n : Node k}

/-- The member is in the same place. -/
theorem Node.memberAt_setMember {x : Place} (hx : n.memberAt name = some x) :
    (n.setMember name u).memberAt name = some ⟨x.before, u, x.after⟩ := by
  induction hx using Node.memberAt_rec with
  | last m v ws' hname => rw [Node.setMember_lastMember u hname, Node.memberAt_lastMember hname]
  | here m v ws' ms hname => rw [Node.setMember_member u hname, Node.memberAt_member hname]
  | there m v ws' ms y hname hy ih =>
      rw [Node.setMember_member_ne u hname, Node.memberAt_member_ne hname, ih]
      rfl

/-- The other members have their values. -/
theorem Node.memberAt_setMember_ne {name' : Bytes} (hne : name' ≠ name) :
    ((n.setMember name u).memberAt name').map Place.value = (n.memberAt name').map Place.value := by
  induction n with
  | lastMember m v ws' ih =>
      by_cases hname : strText m.name = name
      · have hother : ¬ strText m.name = name' := fun h ↦ hne (h.symm.trans hname)
        rw [Node.setMember_lastMember u hname, Node.memberAt_lastMember_ne hother,
          Node.memberAt_lastMember_ne hother]
      · rw [Node.setMember_lastMember_ne u hname]
  | member m v ws' ms ihv ihms =>
      by_cases hname : strText m.name = name
      · have hother : ¬ strText m.name = name' := fun h ↦ hne (h.symm.trans hname)
        rw [Node.setMember_member u hname, Node.memberAt_member_ne hother,
          Node.memberAt_member_ne hother, Option.map_map, Option.map_map]
        rfl
      · rw [Node.setMember_member_ne u hname]
        by_cases hother : strText m.name = name'
        · rw [Node.memberAt_member hother, Node.memberAt_member hother]
          rfl
        · rw [Node.memberAt_member_ne hother, Node.memberAt_member_ne hother, Option.map_map,
            Option.map_map]
          exact ihms
  | _ => rfl

/-- The text around the value stays. -/
theorem Node.text_setMember {x : Place} (hx : n.memberAt name = some x) :
    (n.setMember name u).text = x.before ++ (u.text ++ x.after) := by
  induction hx using Node.memberAt_rec with
  | last m v ws' hname =>
      rw [Node.setMember_lastMember u hname]
      rfl
  | here m v ws' ms hname =>
      rw [Node.setMember_member u hname]
      rfl
  | there m v ws' ms y hname hy ih =>
      rw [Node.setMember_member_ne u hname, Node.text_member, ih, Place.behind]
      simp only [List.append_assoc]

theorem Node.names_setMember : (n.setMember name u).names = n.names := by
  induction n with
  | lastMember m v ws' ih =>
      by_cases hname : strText m.name = name
      · rw [Node.setMember_lastMember u hname]
        rfl
      · rw [Node.setMember_lastMember_ne u hname]
  | member m v ws' ms ihv ihms =>
      by_cases hname : strText m.name = name
      · rw [Node.setMember_member u hname]
        rfl
      · rw [Node.setMember_member_ne u hname]
        exact congrArg (strText m.name :: ·) ihms
  | _ => rfl

theorem Node.plain_setMember (h : n.plain = true) (hu : u.plain = true) :
    (n.setMember name u).plain = true := by
  induction n with
  | lastMember m v ws' ih =>
      obtain ⟨hm, hv⟩ := Bool.and_eq_true_iff.mp h
      by_cases hname : strText m.name = name
      · rw [Node.setMember_lastMember u hname]
        exact Bool.and_eq_true_iff.mpr ⟨hm, hu⟩
      · rw [Node.setMember_lastMember_ne u hname]
        exact h
  | member m v ws' ms ihv ihms =>
      obtain ⟨hm, hrest⟩ := Bool.and_eq_true_iff.mp h
      obtain ⟨hv, hms⟩ := Bool.and_eq_true_iff.mp hrest
      by_cases hname : strText m.name = name
      · rw [Node.setMember_member u hname]
        exact Bool.and_eq_true_iff.mpr ⟨hm, Bool.and_eq_true_iff.mpr ⟨hu, hms⟩⟩
      · rw [Node.setMember_member_ne u hname]
        exact Bool.and_eq_true_iff.mpr ⟨hm, Bool.and_eq_true_iff.mpr ⟨hv, ihms hms⟩⟩
  | _ => exact h

theorem Node.flatMembers_setMember (h : n.FlatMembers) (hu : u.FlatValue) :
    (n.setMember name u).FlatMembers := by
  induction n with
  | lastMember m v ws' ih =>
      by_cases hname : strText m.name = name
      · rw [Node.setMember_lastMember u hname]
        exact ⟨h.1, hu⟩
      · rw [Node.setMember_lastMember_ne u hname]
        exact h
  | member m v ws' ms ihv ihms =>
      by_cases hname : strText m.name = name
      · rw [Node.setMember_member u hname]
        exact ⟨⟨h.1.1, hu⟩, h.2⟩
      · rw [Node.setMember_member_ne u hname]
        exact ⟨h.1, ihms h.2⟩
  | _ => exact h

end Set

/-! ## Documents -/

/-- A flat object. -/
def Doc.Flat (d : Doc) : Prop :=
  match d.root with
  | .object ms => ms.FlatMembers
  | .noMembers _ => True
  | _ => False

/-- The names of the members of the root. -/
def Doc.names (d : Doc) : List Bytes :=
  match d.root with
  | .object ms => ms.names
  | _ => []

/-- A name without blanks around it. -/
def Name.bare (name : List Piece) : Name := ⟨.none, name, .none, .none⟩

/-- The root with a value for a name, which is a new member if it has none. -/
def Node.put : Value → List Piece → Value → Value
  | .object ms, name, u =>
      if (ms.memberAt (strText name)).isSome then .object (ms.setMember (strText name) u)
      else .object (.member (Name.bare name) u .none ms)
  | .noMembers _, name, u => .object (.lastMember (Name.bare name) u .none)
  | v, _, _ => v

theorem Node.put_noMembers (ws : Blanks) (name : List Piece) (u : Value) :
    (Node.noMembers ws).put name u = .object (.lastMember (Name.bare name) u .none) := rfl

theorem Node.put_object {ms : Node .members} {name : List Piece}
    (h : (ms.memberAt (strText name)).isSome = true) (u : Value) :
    (Node.object ms).put name u = .object (ms.setMember (strText name) u) := if_pos h

theorem Node.put_object_ne {ms : Node .members} {name : List Piece}
    (h : ¬ (ms.memberAt (strText name)).isSome = true) (u : Value) :
    (Node.object ms).put name u = .object (.member (Name.bare name) u .none ms) := if_neg h

theorem Node.isContainer_put (v : Value) (name : List Piece) (u : Value) :
    (v.put name u).isContainer = v.isContainer := by
  cases v with
  | object ms =>
      by_cases h : (ms.memberAt (strText name)).isSome = true
      · rw [Node.put_object h]
        rfl
      · rw [Node.put_object_ne h]
        rfl
  | _ => rfl

def Doc.put (d : Doc) (name : List Piece) (u : Value) : Doc :=
  ⟨d.before, d.root.put name u, d.after, (Node.isContainer_put d.root name u).trans d.container⟩

section Put

variable (name : List Piece) (u : Value) {v : Value}

/-- The value that has been put. -/
theorem Node.child_put (h : v.isContainer = true) (harray : ∀ es, v ≠ .array es)
    (hnone : ∀ ws, v ≠ .noElems ws) :
    ((v.put name u).child (.name (strText name))).map Place.value = some u := by
  have hname : strText (Name.bare name).name = strText name := rfl
  cases v with
  | word w => cases h
  | string s => cases h
  | noElems ws => exact absurd rfl (hnone ws)
  | array es => exact absurd rfl (harray es)
  | noMembers ws =>
      rw [Node.put_noMembers, Node.child_object, Node.memberAt_lastMember hname]
      rfl
  | object ms =>
      cases hx : ms.memberAt (strText name) with
      | none =>
          rw [Node.put_object_ne (by rw [hx]; exact Bool.false_ne_true), Node.child_object,
            Node.memberAt_member hname]
          rfl
      | some x =>
          rw [Node.put_object (by rw [hx]; rfl), Node.child_object, Node.memberAt_setMember _ u hx]
          rfl

/-- The other names have the values that they had. -/
theorem Node.child_put_ne {name' : Bytes} (hne : name' ≠ strText name) :
    ((v.put name u).child (.name name')).map Place.value =
    (v.child (.name name')).map Place.value := by
  have hother : ¬ strText (Name.bare name).name = name' := Ne.symm hne
  cases v with
  | noMembers ws =>
      rw [Node.put_noMembers, Node.child_object, Node.memberAt_lastMember_ne hother]
      rfl
  | object ms =>
      by_cases h : (ms.memberAt (strText name)).isSome = true
      · rw [Node.put_object h, Node.child_object, Node.child_object, Option.map_map, Option.map_map]
        exact Node.memberAt_setMember_ne (strText name) u hne
      · rw [Node.put_object_ne h, Node.child_object, Node.child_object,
          Node.memberAt_member_ne hother, Option.map_map, Option.map_map, Option.map_map]
        rfl
  | _ => rfl

theorem Node.plain_put (h : v.plain = true) (hname : name.all Piece.plain = true)
    (hu : u.plain = true) : (v.put name u).plain = true := by
  cases v with
  | noMembers ws => exact Bool.and_eq_true_iff.mpr ⟨hname, hu⟩
  | object ms =>
      by_cases hx : (ms.memberAt (strText name)).isSome = true
      · rw [Node.put_object hx]
        exact Node.plain_setMember _ u (show ms.plain = true from h) hu
      · rw [Node.put_object_ne hx]
        exact Bool.and_eq_true_iff.mpr ⟨hname, Bool.and_eq_true_iff.mpr ⟨hu, h⟩⟩
  | _ => exact h

end Put

theorem Doc.flat_put {d : Doc} (h : d.Flat) {name : List Piece}
    (hname : name.all Piece.isChar = true) {u : Value} (hu : u.FlatValue) :
    (d.put name u).Flat := by
  have hput : (d.put name u).root = d.root.put name u := rfl
  rw [Doc.Flat] at h
  rw [Doc.Flat, hput]
  cases hroot : d.root with
  | noMembers ws => exact ⟨hname, hu⟩
  | object ms =>
      rw [hroot] at h
      by_cases hx : (ms.memberAt (strText name)).isSome = true
      · rw [Node.put_object hx]
        exact Node.flatMembers_setMember _ u h hu
      · rw [Node.put_object_ne hx]
        exact ⟨⟨hname, hu⟩, h⟩
  | _ =>
      rw [hroot] at h
      exact absurd h not_false

end SdbStore.Json
