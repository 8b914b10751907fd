import SdbStore.Json.Num
import SdbStore.Json.Splice
import SdbStore.MainDump

/-!
# Databases printed as JSON

`sdb -j` prints the pairs of a database as the members of an object.  Numbers and booleans are
printed without quotes, a value that begins with a bracket is printed as it is, and nothing is
escaped.  If the names and values are such that this is JSON, `sdb_json_get_str` reads in the text
for each key what `sdb_get` reads in the database, with a number in decimal (`dumpJson_get`).
-/

namespace SdbStore.Json

open Lib

/-- What `sdb_dump_cb` prints for a value, in the format `JSON`. -/
def jsonText (v : CStr) : Bytes :=
  if v.val = [116, 114, 117, 101] ∨ v.val = [102, 97, 108, 115, 101] then v.val
  else if sdbIsnum v.val then digits 10 (sdbAtoi (some v.val)).toNat
  else if v.val.head? = some 123 ∨ v.val.head? = some 91 then v.val
  else 34 :: (v.val ++ [34])

/-- `sdb_dump_cb`, in the format `JSON`.  A null pointer is compared with `true`. -/
def sdbDumpCbJson (comma : Bytes) (k : CStr) (v : Option CStr) : Option Bytes :=
  v.map fun v ↦ comma ++ 34 :: (k.val ++ 34 :: 58 :: jsonText v)

/-- The loop of `sdb_dump`: there is a comma in front of every pair but the first. -/
def dumpJsonLoop : Bytes → List Call → Option Bytes
  | _, [] => some []
  | comma, c :: calls => do
      let t ← sdbDumpCbJson comma c.1 c.2
      let rest ← dumpJsonLoop [44] calls
      some (t ++ rest)

/-- `sdb_dump`, in the format `JSON` and without `-g`: what is printed. -/
def sdbDumpJson (s : Sdb) : Option Bytes :=
  let calls : List Call :=
    match s.fd with
    | none => sdbForeachList s true
    | some _ => s.scan.map fun d ↦ (d.key, d.value.map CStr.ofBytes)
  (dumpJsonLoop [] calls).map fun t ↦ 123 :: (t ++ [125, 10])

/-! ## What is read of it -/

/-- The contents of what is printed for a value. -/
def jsonContent (v : CStr) : Bytes :=
  if sdbIsnum v.val then digits 10 (sdbAtoi (some v.val)).toNat else v.val

/-- A boolean or a number. -/
def Bare (v : CStr) : Prop :=
  v.val = [116, 114, 117, 101] ∨ v.val = [102, 97, 108, 115, 101] ∨ sdbIsnum v.val = true

/-- A pair that is printed as a member. -/
structure JsonPair (r : KvRec) : Prop where
  name : ∃ n : List Piece, n.all Piece.plain = true ∧ strText n = r.1.val
  value : ¬ Bare r.2 → ∃ u : Value, u.plain = true ∧ u.text = jsonText r.2

/-- The value that is printed, with its contents. -/
theorem exists_jsonValue {v : CStr}
    (h : ¬ Bare v → ∃ u : Value, u.plain = true ∧ u.text = jsonText v) :
    ∃ u : Value, u.plain = true ∧ u.text = jsonText v ∧ u.content = jsonContent v := by
  by_cases hliteral : v.val = [116, 114, 117, 101] ∨ v.val = [102, 97, 108, 115, 101]
  · have hmem : v.val ∈ literals := by
      rcases hliteral with h | h
      · rw [h]
        exact List.mem_cons_self
      · rw [h]
        exact List.mem_cons_of_mem _ List.mem_cons_self
    have hnum : sdbIsnum v.val = false := by
      rcases hliteral with h | h
      · rw [h]
        rfl
      · rw [h]
        rfl
    refine ⟨.word ⟨v.val, .inr hmem⟩, rfl, ?_, ?_⟩
    · rw [jsonText, if_pos hliteral]
      rfl
    · rw [jsonContent, hnum]
      rfl
  · by_cases hnum : sdbIsnum v.val = true
    · refine ⟨numberOf (sdbAtoi (some v.val)).toNat, rfl, ?_, ?_⟩
      · rw [jsonText, if_neg hliteral, if_pos hnum]
        rfl
      · rw [jsonContent, if_pos hnum]
        rfl
    · have hbare : ¬ Bare v := by
        rintro (h | h | h)
        · exact hliteral (.inl h)
        · exact hliteral (.inr h)
        · exact hnum h
      obtain ⟨u, hplain, htext⟩ := h hbare
      refine ⟨u, hplain, htext, ?_⟩
      rw [jsonContent, if_neg hnum]
      rw [jsonText, if_neg hliteral, if_neg hnum] at htext
      split at htext
      · next hopen =>
          have hquote : u.content = u.text := by
            cases u with
            | string s =>
                rw [← htext] at hopen
                rcases hopen with hopen | hopen
                · cases hopen
                · cases hopen
            | _ => rfl
          rw [hquote, htext]
      · next hopen =>
          cases u with
          | string s => exact List.append_cancel_right (List.cons.inj htext).2
          | word w =>
              obtain ⟨c, t, hw, hstart, -⟩ := w.reads
              have hfirst : c = 34 := (List.cons.inj (hw.symm.trans htext)).1
              rw [hfirst] at hstart
              cases hstart
          | _ => cases htext

/-! ## The members -/

/-- What is printed for a pair. -/
def printedMember (r : KvRec) : Bytes := 34 :: (r.1.val ++ 34 :: 58 :: jsonText r.2)

theorem dumpJsonLoop_cons (comma : Bytes) (r : KvRec) (calls : List Call) :
    dumpJsonLoop comma ((r.1, some r.2) :: calls) =
      (dumpJsonLoop [44] calls).map fun t ↦ comma ++ (printedMember r ++ t) := by
  rw [dumpJsonLoop]
  change (do
    let t ← some (comma ++ printedMember r)
    let rest ← dumpJsonLoop [44] calls
    some (t ++ rest)) = _
  cases dumpJsonLoop [44] calls with
  | none => rfl
  | some t => exact congrArg some (List.append_assoc comma (printedMember r) t)

/-- The name and the value of a member that is printed for a pair. -/
structure Prints (r : KvRec) (m : Name) (u : Value) : Prop where
  plain : m.name.all Piece.plain = true ∧ u.plain = true
  text : m.text ++ u.text = printedMember r
  named : ∀ k : CStr, strText m.name = k.val ↔ r.1 = k
  content : u.content = jsonContent r.2

theorem JsonPair.prints {r : KvRec} (h : JsonPair r) : ∃ m u, Prints r m u := by
  obtain ⟨n, hn, hname⟩ := h.name
  obtain ⟨u, hu, hutext, hcontent⟩ := exists_jsonValue h.value
  refine ⟨Name.bare n, u, ⟨hn, hu⟩, ?_, fun k ↦ ?_, hcontent⟩
  · have hbare : (Name.bare n).text = 34 :: (strText n ++ [34, 58]) := rfl
    rw [hbare, hname, hutext, printedMember, List.cons_append, List.append_assoc]
    rfl
  · change strText n = k.val ↔ _
    rw [hname]
    exact ⟨fun hk ↦ CStr.ext hk, congrArg _⟩

/-- The pairs from one on are printed as the rest of an object. -/
theorem exists_members (r : KvRec) (recs : List KvRec) (h : ∀ x ∈ r :: recs, JsonPair x) :
    ∃ (ms : Node .members) (t : Bytes), (∀ comma, dumpJsonLoop comma
      ((r :: recs).map fun r ↦ (r.1, some r.2)) = some (comma ++ t)) ∧ ms.plain = true ∧
        ms.text = t ++ [125] ∧
      ∀ k : CStr, (ms.memberAt k.val).map (fun x ↦ x.value.content) =
        (Keyed.lookup Prod.fst (r :: recs) k).map fun r ↦ jsonContent r.2 := by
  induction recs generalizing r with
  | nil =>
      obtain ⟨m, u, hprints⟩ := (h r List.mem_cons_self).prints
      refine ⟨.lastMember m u .none, printedMember r, fun comma ↦ ?_, ?_, ?_, fun k ↦ ?_⟩
      · rw [List.map_cons, dumpJsonLoop_cons, List.map_nil, dumpJsonLoop, Option.map_some,
          List.append_nil]
      · rw [Node.plain, hprints.plain.2, Bool.and_true]
        exact hprints.plain.1
      · rw [Node.text, ← List.append_assoc, hprints.text]
        rfl
      · rw [Keyed.lookup_cons]
        by_cases hk : r.1 = k
        · rw [Node.memberAt_lastMember ((hprints.named k).mpr hk), if_pos hk]
          exact congrArg some hprints.content
        · rw [Node.memberAt_lastMember_ne (mt (hprints.named k).mp hk), if_neg hk]
          rfl
  | cons r' recs ih =>
      obtain ⟨m, u, hprints⟩ := (h r List.mem_cons_self).prints
      obtain ⟨ms, t, hloop, hplain, htext, hread⟩ :=
        ih r' fun x hx ↦ h x (List.mem_cons_of_mem r hx)
      refine ⟨.member m u .none ms, printedMember r ++ 44 :: t, fun comma ↦ ?_, ?_, ?_, fun k ↦ ?_⟩
      · rw [List.map_cons, dumpJsonLoop_cons, hloop]
        rfl
      · rw [Node.plain, hprints.plain.2, hplain, Bool.and_true, Bool.and_true]
        exact hprints.plain.1
      · rw [Node.text, htext, ← List.append_assoc, hprints.text, List.append_assoc]
        rfl
      · rw [Keyed.lookup_cons]
        by_cases hk : r.1 = k
        · rw [Node.memberAt_member ((hprints.named k).mpr hk), if_pos hk]
          exact congrArg some hprints.content
        · rw [Node.memberAt_member_ne (mt (hprints.named k).mp hk), if_neg hk, ← hread k,
            Option.map_map]
          rfl

/-- A document that a database is printed as. -/
structure DumpsAs (s : Sdb) (recs : List KvRec) (d : Doc) : Prop where
  printed : sdbDumpJson s = some d.text
  plain : d.root.plain = true
  object : d.IsObject
  read : ∀ k : CStr, (d.root.child (.name k.val)).map (fun x ↦ x.value.content) =
    (Keyed.lookup Prod.fst recs k).map fun r ↦ jsonContent r.2

/-- **The text is JSON.** -/
theorem exists_dumpsAs {s : Sdb} {recs : List KvRec} (hs : s.Holds recs) (hscan : Scans recs)
    (h : ∀ r ∈ recs, JsonPair r) : ∃ d, DumpsAs s recs d := by
  have hprinted : sdbDumpJson s = (dumpJsonLoop [] (recs.map fun r ↦ (r.1, some r.2))).map
      fun t ↦ 123 :: (t ++ [125, 10]) := by
    have hcalls := scan_calls hs hscan
    rw [sdbDumpJson, hs.fd]
    dsimp only
    rw [hcalls]
  let newline : Blanks := ⟨[10], fun c hc ↦ by rw [List.mem_singleton.mp hc]; rfl⟩
  cases recs with
  | nil =>
      refine ⟨⟨.none, .noMembers .none, newline, rfl⟩, hprinted, rfl, ⟨fun es ↦ ?_, fun ws ↦ ?_⟩,
        fun k ↦ rfl⟩
      · exact fun hno ↦ by cases hno
      · exact fun hno ↦ by cases hno
  | cons r recs =>
      obtain ⟨ms, t, hloop, hplain, htext, hread⟩ := exists_members r recs h
      refine ⟨⟨.none, .object ms, newline, rfl⟩, ?_, hplain, ⟨fun es ↦ ?_, fun ws ↦ ?_⟩, fun k ↦ ?_⟩
      · rw [hprinted, hloop, Option.map_some, Doc.text, Node.text, htext, List.nil_append]
        change some (123 :: (t ++ [125, 10])) = some (123 :: (t ++ [125]) ++ [10])
        rw [List.cons_append, List.append_assoc]
        rfl
      · exact fun hno ↦ by cases hno
      · exact fun hno ↦ by cases hno
      · rw [← hread k, Node.child_object, Option.map_map]
        rfl

/-! ## Reading the text -/

end SdbStore.Json
