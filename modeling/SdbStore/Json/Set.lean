import SdbStore.Json.Get
import SdbStore.Memory

/-!
# JSON in the database

`sdb_json_get` looks a path up in the text of a key, and `sdb_json_set` makes a new text from it: an
object when the key has no text, the text with one more member when the path is not found, and
otherwise the text with another value, or without the member, in the place of the value that is
found.

`none` means that memory behind the end of a block is read or written.  The strings are shorter than
2 GiB.
-/

namespace SdbStore.Json

open Lib

/-! ## Texts -/

/-- `isstring`. -/
def isString (s : Bytes) : Bool :=
  s ≠ [116, 114, 117, 101] && s ≠ [102, 97, 108, 115, 101] && s.any fun c ↦ c < 48 || 57 < c

/-- What is put around a value. -/
def quotesOf (v : Bytes) : Bytes := if isString v then [34] else []

/-- A member without what is behind it. -/
def memberText (p v : Bytes) : Bytes := 34 :: (p ++ 34 :: 58 :: (quotesOf v ++ (v ++ quotesOf v)))

/-- The object for a key without a text. -/
def jsonCreate (p v : Bytes) : Bytes := 123 :: (memberText p v ++ [125])

/-- The new member in front of the others. -/
def jsonInsert (js p v : Bytes) : Bytes :=
  123 :: (memberText p v ++ ((if js.getD 1 0 = 125 then [] else [44]) ++ js.drop 1))

/-- Without a quote at the beginning. -/
def dropQuote (s : Bytes) : Bytes := if s.headD 0 = 34 then s.drop 1 else s

/-- Another value in the place of the bytes from `f` to `t`. -/
def jsonReplace (js v : Bytes) (f t : Nat) : Bytes :=
  let rest := js.drop t
  if isString v then
    let quote := if rest.headD 0 = 34 then [] else [34]
    js.take f ++ (quote ++ (v ++ (quote ++ rest)))
  else js.take f ++ (v ++ dropQuote (dropQuote rest))

/-- The inner loop of `findkey`. -/
def findkeyQuote (p : Bytes) : Nat → Option Nat
  | 0 => none
  | i + 1 => if p.getD (i + 1) 0 = 34 then some (i + 1) else findkeyQuote p i

/-- The loop of `findkey`. -/
def findkeyLoop (p : Bytes) : Nat → Option Nat
  | 0 => none
  | i + 1 => if p.getD (i + 1) 0 = 34 then findkeyQuote p i else findkeyLoop p i

/-- `findkey` from `f` on; `none` for -1. -/
def findkey (p : Bytes) (f : Int) : Option Nat := findkeyLoop p (wrapInt f).toNat

/-- The text without the member of the value that is found, whose text is behind the first `base`
bytes. -/
def jsonRemove (js : Bytes) (base : Nat) (p : Bytes) (f t : Nat) : Bytes :=
  let kidx := ((findkey p (f - 2)).map Int.ofNat).getD (-1)
  let rest := dropQuote (js.drop (base + t))
  js.take (max 1 (kidx - 1)).toNat ++ (if rest.length ≠ 1 then rest.drop 1 else rest)

/-! ## The functions -/

/-- `sdb_json_get`. -/
def sdbJsonGet (s : Sdb) (w : World) (k p : CStr) : Option (Option Bytes) :=
  match sdbGet s w k with
  | none => some none
  | some v => sdbJsonGetStr v.val p.val

/-- `sdb_json_set`. -/
def sdbJsonSet (s : Sdb) (w : World) (k p v : CStr) (cas : Nat) : Option (Bool × Sdb × World) :=
  let r := sdbConstGetLen s w k
  match r.1.value with
  | none => some (true, (sdbSet r.2.1 r.2.2 k (CStr.ofBytes (jsonCreate p.val v.val)) cas).2)
  | some js =>
      if cas ≠ 0 ∧ r.1.cas ≠ cas then some (false, r.2)
      else
        (jsonGet js.val p.val).bind fun rs ↦
          match rs.p with
          | none =>
              some (true, (sdbSetOwned r.2.1 r.2.2 k
                (CStr.ofBytes (jsonInsert js.val p.val v.val)) cas).2)
          | some q =>
              let base := js.length - q.length
              if v = CStr.empty then
                let str := jsonRemove js.val base q rs.f rs.t
                some (true, (sdbSetOwned r.2.1 r.2.2 k (CStr.ofBytes str) cas).2)
              else
                let str := jsonReplace js.val v.val (base + rs.f) (base + rs.t)
                let msz := wrapInt (base + rs.f + v.length + (js.length + 1 - (base + rs.t)) +
                    v.length + 2)
                if msz < 1 then some (false, r.2)
                else if msz < str.length + 1 then none
                else some (true, (sdbSetOwned r.2.1 r.2.2 k (CStr.ofBytes str) cas).2)

/-! ## One member of an object -/

section Member

variable {d : Doc} (hdoc : d.text.length < 2147483648) (hplain : d.root.plain = true) {name : Bytes}
  (hspelled : (Step.name name).Spelled)

/-- The root is an object. -/
def Doc.IsObject (d : Doc) : Prop := (∀ es, d.root ≠ .array es) ∧ ∀ ws, d.root ≠ .noElems ws

/-- The range of a value in its place in the root. -/
def Doc.range (d : Doc) (x : Place) : Rangstr := x.range d.before.val.length d.text

include hdoc hplain hspelled

/-- **A name** as a path. -/
theorem jsonGet_name (hobject : d.IsObject) (hname : name.length < 2147483648) :
    jsonGet d.text name = some (((d.root.child (.name name)).map d.range).getD rangstrNull) := by
  have htext : pathText [.name name] = name := List.append_nil name
  have hheads : Step.name name = .name [] → heads [] = [] := fun _ ↦ rfl
  have heq := @jsonGet_eq d (.name name) [] hspelled hheads (name.length + 1) name.length
  have hlooks := @comp_firstRange (.name name) [] (by rw [List.append_nil]; exact hname)
  rw [List.append_nil] at hlooks
  change (firstRange (.name name) name).Comp name ∧ _ at hlooks
  have hrj : rangstrStr (rangstrNew d.text) = d.text := rfl
  rw [htext] at heq
  rw [jsonGet, heq, jsonGetInner, hrj]
  cases hx : d.root.child (.name name) with
  | none =>
      have hmisses := misses_member hplain hobject.1 hobject.2 hx
      have hend : ((rangstrNew d.text).p.getD []).getD (rangstrNew d.text).t 0 = 0 := by
        rw [getD_eq_headD_drop]
        exact congrArg (List.headD · 0) List.drop_length
      rw [jsonFind_of_misses hdoc hmisses hlooks.1 hlooks.2]
      simp only [Option.bind_eq_bind, Option.bind_some, rangstrNull, if_true, hend, Option.map_none,
        Option.getD_none]
  | some x =>
      have hfind := jsonFind_child hplain d.after.closesNone hdoc
          (show (firstRange (.name name) name).Looks (.name name) from
        hlooks.1) (fun es harray ↦ absurd harray (hobject.1 es)) hx
      have hcur : Cursor name (firstRange (.name name) name) [] :=
        ⟨rfl, .inl (List.drop_length), .inl Int.one_ne_zero⟩
      obtain ⟨rs', hnext, -⟩ := jsonPathNext_end hcur
      change jsonFind d.text _ = _ at hfind
      rw [hfind]
      simp only [Option.bind_eq_bind, Option.bind_some, if_false, hnext, Bool.false_eq_true, heads,
        if_true, Option.map_some, Option.getD_some]
      rfl

end Member

end SdbStore.Json
