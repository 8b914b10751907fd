import SdbStore.Json.Members
import SdbStore.Json.Set

/-!
# Setting a member of a flat object

The value is cut out of the text and the new one is put between what is left, with quotes or without
them.  The result is the text of the object with the value put, unless a string is replaced by a
number or a boolean: then the quote in front of it is left.
-/

namespace SdbStore.Json

open Lib

/-! ## The new text -/

section Text

variable {d : Doc} {name : List Piece} {u : Value} {v : Bytes}
    (hu : u.text = quotesOf v ++ (v ++ quotesOf v))

theorem Doc.text_put {x : Place} (hx : d.root.child (.name (strText name)) = some x) (u : Value) :
    (d.put name u).text = d.before.val ++ (x.before ++ (u.text ++ (x.after ++ d.after.val))) := by
  have hput : (d.put name u).text = d.before.val ++ ((d.root.put name u).text ++ d.after.val) := rfl
  rw [hput]
  cases hroot : d.root with
  | object ms =>
      rw [hroot] at hx
      obtain ⟨y, hy, rfl⟩ := Option.map_eq_some_iff.mp hx
      rw [Node.put, hy, Option.isSome_some, if_pos rfl, Node.text, Node.text_setMember _ u hy,
        Place.behind]
      simp only [List.append_assoc, List.cons_append, List.nil_append]
  | _ =>
      rw [hroot] at hx
      cases hx

/-- What is behind a value does not begin with a quote. -/
theorem Stops.headD_ne_quote {t : Bytes} (h : Stops t) (r : Bytes) : (t ++ r).headD 0 ≠ 34 := by
  cases t with
  | nil => exact absurd h not_false
  | cons c t =>
      rintro rfl
      cases h

/-- In the place of a number or a boolean. -/
theorem jsonReplace_bare (pre : Bytes) {old post : Bytes} (hpost : post.headD 0 ≠ 34) (v : Bytes) :
    jsonReplace (pre ++ (old ++ post)) v pre.length (pre.length + old.length) =
      pre ++ (quotesOf v ++ (v ++ (quotesOf v ++ post))) := by
  have hdrop : dropQuote post = post := if_neg hpost
  rw [jsonReplace, List.take_left, drop_add List.drop_left, quotesOf]
  simp only [if_neg hpost, hdrop]
  split
  · rfl
  · rfl

/-- In the place of a string. -/
theorem jsonReplace_quoted (pre old post : Bytes) {v : Bytes} (hv : isString v = true) :
    jsonReplace (pre ++ 34 :: (old ++ 34 :: post)) v (pre.length + 1)
      (pre.length + 1 + old.length) = pre ++ (quotesOf v ++ (v ++ (quotesOf v ++ post))) := by
  have hpre : pre ++ 34 :: (old ++ 34 :: post) = (pre ++ [34]) ++ (old ++ 34 :: post) := by
    rw [List.append_assoc]
    rfl
  have hlen : pre.length + 1 = (pre ++ [34]).length := by
    rw [List.length_append, List.length_singleton]
  rw [hpre, hlen, jsonReplace, List.take_left, drop_add List.drop_left, quotesOf, if_pos hv]
  simp only [hv, if_true, List.headD_cons, List.nil_append, List.append_assoc, List.cons_append]

include hu in
/-- **Another value** for a member. -/
theorem jsonReplace_eq (hplain : d.root.plain = true) {x : Place}
    (hx : d.root.child (.name (strText name)) = some x)
    (hkind : ∀ s, x.value = .string s → isString v = true) :
    jsonReplace d.text v (d.before.val.length + x.before.length + x.value.quote)
      (d.before.val.length + x.before.length + x.value.quote + x.value.content.length) =
      (d.put name u).text := by
  have hin := Node.child_within hplain hx
  have htext : d.text =
      (d.before.val ++ x.before) ++ (x.value.text ++ (x.after ++ d.after.val)) := by
    rw [Doc.text, hin.text]
    simp only [List.append_assoc]
  have hput : (d.put name u).text =
      (d.before.val ++ x.before) ++
      (quotesOf v ++ (v ++ (quotesOf v ++ (x.after ++ d.after.val)))) := by
    rw [Doc.text_put hx, hu]
    simp only [List.append_assoc]
  have hafter := hin.stops.headD_ne_quote d.after.val
  rw [hput, htext, ← List.length_append]
  cases hvalue : x.value with
  | string s =>
      have hstring : Node.text (.string s) ++ (x.after ++ d.after.val) =
          34 :: (strText s ++ 34 :: (x.after ++ d.after.val)) := by
        rw [Node.text, List.cons_append, List.append_assoc]
        rfl
      rw [hstring]
      exact jsonReplace_quoted _ _ _ (hkind s hvalue)
  | _ => exact jsonReplace_bare _ hafter v

include hu in
/-- **One more member** in front of the others. -/
theorem jsonInsert_eq (hobject : d.IsObject) (hx : d.root.child (.name (strText name)) = none)
    (hbefore : d.before.val = []) (hempty : ∀ ws, d.root = .noMembers ws → ws.val = []) :
    jsonInsert d.text (strText name) v = (d.put name u).text := by
  have hput : (d.put name u).text = d.before.val ++ ((d.root.put name u).text ++ d.after.val) := rfl
  have hdoc := d.container
  have hmember : memberText (strText name) v = (Name.bare name).text ++ u.text := by
    rw [hu, memberText, Name.text]
    simp only [Name.bare, Blanks.none, List.nil_append, List.cons_append, List.append_assoc]
  rw [hput, jsonInsert, hmember, Doc.text, hbefore]
  cases hroot : d.root with
  | word w =>
      rw [hroot] at hdoc
      cases hdoc
  | string s =>
      rw [hroot] at hdoc
      cases hdoc
  | noElems ws => exact absurd hroot (hobject.2 ws)
  | array es => exact absurd hroot (hobject.1 es)
  | noMembers ws =>
      rw [Node.text, hempty ws hroot, Node.put_noMembers, Node.text, Node.text]
      simp only [Name.bare, Blanks.none, List.nil_append, List.cons_append, List.append_assoc,
        List.getD_cons_succ, List.getD_cons_zero, if_true, List.drop_succ_cons, List.drop_zero]
  | object ms =>
      rw [hroot] at hx
      have hnone : ms.memberAt (strText name) = none := Option.map_eq_none_iff.mp hx
      have hhead : ¬ (ms.text ++ d.after.val).getD 0 0 = 125 := by
        obtain ⟨c, r, hms, hc⟩ := Node.text_members (n := ms) rfl
        rw [hms]
        exact hc
      rw [Node.text, Node.put_object_ne (by rw [hnone]; exact Bool.false_ne_true), Node.text,
        Node.text]
      simp only [Blanks.none, List.nil_append, List.cons_append, List.append_assoc,
        List.getD_cons_succ, if_neg hhead, List.drop_succ_cons, List.drop_zero]

end Text

/-! ## Bytes without escapes -/

theorem toNat_ofNat_of_lt {n : Nat} (h : n < 256) : (UInt8.ofNat n).toNat = n := by
  rw [UInt8.toNat_ofNat']
  exact Nat.mod_eq_of_lt h

/-- No byte of a character is a quote or a NUL. -/
theorem ne_of_mem_char {p : Piece} (h : p.isChar = true) {c : UInt8} (hc : c ∈ p.text) :
    c ≠ 34 ∧ c ≠ 0 := by
  cases p with
  | escape c short => cases h
  | unicode a b c d hex => cases h
  | char ch plain =>
      change c ∈ String.utf8EncodeChar ch at hc
      obtain ⟨hlow, hquote, -⟩ := plain
      rw [String.utf8EncodeChar] at hc
      generalize ch.val.toNat = v at hlow hquote hc
      have hbyte : ∃ n, n < 256 ∧ n ≠ 34 ∧ n ≠ 0 ∧ c = UInt8.ofNat n := by
        split_ifs at hc with hone htwo hthree
        · exact ⟨v, by omega, hquote, by omega, List.mem_singleton.mp hc⟩
        all_goals simp only [List.mem_cons, List.not_mem_nil, or_false] at hc
        · rcases hc with rfl | rfl
          · exact ⟨_, by omega, by omega, by omega, rfl⟩
          · exact ⟨_, by omega, by omega, by omega, rfl⟩
        · rcases hc with rfl | rfl | rfl
          · exact ⟨_, by omega, by omega, by omega, rfl⟩
          · exact ⟨_, by omega, by omega, by omega, rfl⟩
          · exact ⟨_, by omega, by omega, by omega, rfl⟩
        · rcases hc with rfl | rfl | rfl | rfl
          · exact ⟨_, by omega, by omega, by omega, rfl⟩
          · exact ⟨_, by omega, by omega, by omega, rfl⟩
          · exact ⟨_, by omega, by omega, by omega, rfl⟩
          · exact ⟨_, by omega, by omega, by omega, rfl⟩
      obtain ⟨n, hn, hquote', hzero, rfl⟩ := hbyte
      constructor
      · intro heq
        exact hquote' (by rw [← toNat_ofNat_of_lt hn, heq]; rfl)
      · intro heq
        exact hzero (by rw [← toNat_ofNat_of_lt hn, heq]; rfl)

theorem ne_of_mem_strText {s : List Piece} (h : s.all Piece.isChar = true) {c : UInt8}
    (hc : c ∈ strText s) :
    c ≠ 34 ∧ c ≠ 0 := by
  obtain ⟨p, hp, hc⟩ := List.mem_flatMap.mp hc
  exact ne_of_mem_char (List.all_eq_true.mp h p hp) hc

theorem Node.names_flat {k : Kind} {n : Node k} (h : n.FlatMembers) {name : Bytes}
    (hname : name ∈ n.names) :
    ∀ c ∈ name, c ≠ 34 ∧ c ≠ 0 := by
  induction n with
  | lastMember m v ws' ih =>
      rw [List.mem_singleton.mp hname]
      exact fun c hc ↦ ne_of_mem_strText h.1 hc
  | member m v ws' ms ihv ihms =>
      rcases List.mem_cons.mp hname with rfl | hrest
      · exact fun c hc ↦ ne_of_mem_strText h.1.1 hc
      · exact ihms h.2 hrest
  | _ => exact absurd hname List.not_mem_nil

theorem Doc.names_flat {d : Doc} (h : d.Flat) {name : Bytes} (hname : name ∈ d.names) :
    ∀ c ∈ name, c ≠ 34 ∧ c ≠ 0 := by
  rw [Doc.Flat] at h
  rw [Doc.names] at hname
  cases hroot : d.root with
  | object ms =>
      rw [hroot] at h hname
      exact Node.names_flat h hname
  | _ =>
      rw [hroot] at hname
      exact absurd hname List.not_mem_nil

/-! ## Values -/

/-- Digits that are not a string are a number unless they begin with a zero. -/
theorem exists_value {content : List Piece} (hchars : content.all Piece.isChar = true)
    (hne : strText content ≠ []) (hzero : isString (strText content) = false →
      (strText content).head? = some 48 → strText content = [48]) :
    ∃ u : Value, u.FlatValue ∧ u.content = strText content ∧
      (content.all Piece.plain = true → u.plain = true) ∧
        u.text = quotesOf (strText content) ++ (strText content ++ quotesOf (strText content)) := by
  cases hstring : isString (strText content) with
  | true =>
      refine ⟨.string content, hchars, rfl, id, ?_⟩
      rw [quotesOf, hstring]
      rfl
  | false =>
      have hquotes : quotesOf (strText content) = [] := by
        rw [quotesOf, hstring]
        rfl
      have hword : IsInt (strText content) ∨ strText content = [116, 114, 117, 101] ∨
          strText content = [102, 97, 108, 115, 101] := by
        by_contra hno
        rw [not_or, not_or] at hno
        obtain ⟨hint, htrue, hfalse⟩ := hno
        refine hint ?_
        by_cases hhead : (strText content).head? = some 48
        · exact .inl (hzero hstring hhead)
        · refine .inr ⟨⟨hne, fun c hc ↦ ?_⟩, hhead⟩
          have hany : (strText content).any (fun c ↦ c < 48 || 57 < c) = false := by
            rw [isString, decide_eq_true htrue, decide_eq_true hfalse] at hstring
            exact hstring
          have hc' := List.any_eq_false.mp hany c hc
          rw [Bool.or_eq_true, not_or, decide_eq_true_iff, decide_eq_true_iff, UInt8.not_lt,
            UInt8.not_lt] at hc'
          rw [isDigit, Bool.and_eq_true, decide_eq_true_iff, decide_eq_true_iff]
          exact hc'
      have hvalid : IsNumber (strText content) ∨ strText content ∈ literals := by
        rcases hword with hint | htrue | hfalse
        · refine .inl ⟨[], strText content, [], [], List.mem_cons_self, hint, .inl rfl, .inl rfl,
            ?_⟩
          rw [List.nil_append, List.append_nil, List.append_nil]
        · exact .inr (htrue ▸ by decide)
        · exact .inr (hfalse ▸ by decide)
      refine ⟨.word ⟨strText content, hvalid⟩, hword, rfl, fun _ ↦ rfl, ?_⟩
      rw [hquotes, List.nil_append, List.append_nil]
      rfl

/-! ## Names -/

theorem Node.length_name_le {k : Kind} {n : Node k} {name : Bytes} (h : name ∈ n.names) :
    name.length ≤ n.text.length := by
  have hbefore : ∀ (m : Name) (t : Bytes), (strText m.name).length ≤ (m.text ++ t).length := by
    intro m t
    rw [Name.text, List.length_append, List.length_append, List.length_cons, List.length_append]
    omega
  induction n with
  | lastMember m v ws' ih =>
      rw [List.mem_singleton.mp h]
      exact hbefore m _
  | member m v ws' ms ihv ihms =>
      rcases List.mem_cons.mp h with rfl | hrest
      · exact hbefore m _
      · have hle := ihms hrest
        rw [Node.text, List.length_append, List.length_append, List.length_append, List.length_cons]
        omega
  | _ => exact absurd h List.not_mem_nil

theorem Node.mem_names_of_memberAt {k : Kind} {n : Node k} {name : Bytes}
    (h : (n.memberAt name).isSome = true) :
    name ∈ n.names := by
  obtain ⟨x, hx⟩ := Option.isSome_iff_exists.mp h
  clear h
  induction hx using Node.memberAt_rec with
  | last m v ws' hname => exact List.mem_singleton.mpr hname.symm
  | here m v ws' ms hname => exact List.mem_cons.mpr (.inl hname.symm)
  | there m v ws' ms y hname hy ih => exact List.mem_cons_of_mem _ ih

section Names

variable {d : Doc}

theorem Doc.length_name_le {name : Bytes} (h : name ∈ d.names) : name.length ≤ d.text.length := by
  rw [Doc.names] at h
  rw [Doc.text, List.length_append, List.length_append]
  cases hroot : d.root with
  | object ms =>
      rw [hroot] at h
      have hle := Node.length_name_le h
      rw [Node.text, List.length_cons]
      omega
  | _ =>
      rw [hroot] at h
      exact absurd h List.not_mem_nil

theorem Doc.isObject_of_flat (h : d.Flat) : d.IsObject := by
  rw [Doc.Flat] at h
  constructor
  · intro es hroot
    rw [hroot] at h
    exact h
  · intro ws hroot
    rw [hroot] at h
    exact h

/-- The name is there when its value has been put. -/
theorem Doc.mem_names_put (h : d.Flat) (name : List Piece) (u : Value) :
    strText name ∈ (d.put name u).names := by
  have hput : (d.put name u).root = d.root.put name u := rfl
  rw [Doc.Flat] at h
  rw [Doc.names, hput]
  cases hroot : d.root with
  | noMembers ws => exact List.mem_singleton_self _
  | object ms =>
      by_cases hmember : (ms.memberAt (strText name)).isSome = true
      · rw [Node.put_object hmember]
        change strText name ∈ (ms.setMember (strText name) u).names
        rw [Node.names_setMember]
        exact Node.mem_names_of_memberAt hmember
      · rw [Node.put_object_ne hmember]
        exact List.mem_cons_self
  | _ =>
      rw [hroot] at h
      exact absurd h not_false

end Names

/-! ## Reading -/

section Read

variable {d : Doc} (hdoc : d.text.length < 2147483648) (hplain : d.root.plain = true)
    (hobject : d.IsObject) {name : Bytes}
  (hspelled : (Step.name name).Spelled) (hname : name.length < 2147483648)
include hdoc hplain hobject hspelled hname

/-- **The contents** of the member with a name. -/
theorem sdbJsonGetStr_name :
    sdbJsonGetStr d.text name =
      some (((d.root.child (.name name)).map Place.value).map Node.content) := by
  rw [sdbJsonGetStr, jsonGet_name hdoc hplain hspelled hobject hname, Option.map_some]
  cases hx : d.root.child (.name name) with
  | none => rfl
  | some x =>
      exact congrArg some (rangstrDup_of_holds (holds_child hplain d.before d.after.val hdoc hx))

end Read

/-! ## Setting -/

/-- Where `sdb_json_set` is right. -/
structure Doc.Takes (d : Doc) (name content : List Piece) : Prop where
  plain : d.root.plain = true ∧ name.all Piece.plain = true ∧ content.all Piece.plain = true
  spelled : ∀ n ∈ strText name :: d.names, ∀ c ∈ n, c ≠ 46 ∧ c ≠ 91
  kind : ∀ s, d.root.lookup [.name (strText name)] = some (.string s) →
    isString (strText content) = true
  zero : isString (strText content) = false → (strText content).head? = some 48 →
    strText content = [48]
  fresh : d.root.lookup [.name (strText name)] = none →
    d.before.val = [] ∧ ∀ ws, d.root = .noMembers ws → ws.val = []
  short : ∀ u : Value, u.text =
    quotesOf (strText content) ++ (strText content ++ quotesOf (strText content)) →
      (d.put name u).text.length < 0xffffff

theorem Node.lookup_name (v : Value) (name : Bytes) :
    v.lookup [.name name] = (v.child (.name name)).map Place.value := by
  rw [Node.lookup]
  cases v.child (.name name) with
  | none => rfl
  | some x => rfl

theorem zero_notMem_quotesOf (v : Bytes) : (0 : UInt8) ∉ quotesOf v := by
  rw [quotesOf]
  split
  · decide
  · decide

theorem zero_notMem_dropQuote {s : Bytes} (h : (0 : UInt8) ∉ s) : (0 : UInt8) ∉ dropQuote s := by
  rw [dropQuote]
  split
  · exact fun hno ↦ h (List.mem_of_mem_drop hno)
  · exact h

theorem zero_notMem_jsonReplace {js v : Bytes} (hjs : (0 : UInt8) ∉ js) (hv : (0 : UInt8) ∉ v)
    (f t : Nat) : (0 : UInt8) ∉ jsonReplace js v f t := by
  have htake : (0 : UInt8) ∉ js.take f := fun h ↦ hjs (List.mem_of_mem_take h)
  have hdrop : (0 : UInt8) ∉ js.drop t := fun h ↦ hjs (List.mem_of_mem_drop h)
  have hrest := zero_notMem_dropQuote (zero_notMem_dropQuote hdrop)
  have hquote : (0 : UInt8) ∉ (if (js.drop t).headD 0 = 34 then [] else [34] : Bytes) := by
    split
    · exact List.not_mem_nil
    · decide
  rw [jsonReplace]
  split
  · simp only [List.mem_append, not_or]
    exact ⟨htake, hquote, hv, hquote, hdrop⟩
  · simp only [List.mem_append, not_or]
    exact ⟨htake, hv, hrest⟩

theorem zero_notMem_jsonInsert {js p v : Bytes} (hjs : (0 : UInt8) ∉ js) (hp : (0 : UInt8) ∉ p)
    (hv : (0 : UInt8) ∉ v) : (0 : UInt8) ∉ jsonInsert js p v := by
  have hdrop : (0 : UInt8) ∉ js.drop 1 := fun h ↦ hjs (List.mem_of_mem_drop h)
  have hquotes := zero_notMem_quotesOf v
  have hcomma : (0 : UInt8) ∉ (if js.getD 1 0 = 125 then [] else [44] : Bytes) := by
    split
    · exact List.not_mem_nil
    · decide
  rw [jsonInsert, memberText]
  simp only [List.mem_cons, List.mem_append, not_or]
  exact ⟨by decide, ⟨by decide, hp, by decide, by decide, hquotes, hv, hquotes⟩, hcomma, hdrop⟩

theorem length_jsonReplace_le (js v : Bytes) {f t : Nat} (hf : f ≤ js.length) :
    (jsonReplace js v f t).length ≤ f + v.length + (js.length - t) + 2 := by
  have hdrop : ∀ s : Bytes, (dropQuote s).length ≤ s.length := by
    intro s
    rw [dropQuote]
    split
    · rw [List.length_drop]
      exact Nat.sub_le _ _
    · exact le_rfl
  have hrest := (hdrop (dropQuote (js.drop t))).trans (hdrop (js.drop t))
  rw [List.length_drop] at hrest
  rw [jsonReplace]
  split
  · simp only [List.length_append, List.length_take, List.length_drop]
    split
    · rw [List.length_nil]
      omega
    · rw [List.length_singleton]
      omega
  · simp only [List.length_append, List.length_take]
    omega

/-- What `sdb_json_get` reads. -/
theorem sdbJsonGet_some {st : Sdb × World} {k x : CStr} (hx : sdbGet st.1 st.2 k = some x)
    {s : Bytes} (hs : x.val = s) (q : CStr) : sdbJsonGet st.1 st.2 k q = sdbJsonGetStr s q.val := by
  rw [sdbJsonGet, hx, ← hs]

section Cell

variable {st : Sdb × World} {k p v x : CStr} (hcell : Cell st k x) (hne : x ≠ CStr.empty) {d : Doc}
    (hd : x.val = d.text)
include hcell hne hd

variable {name : List Piece} (hp : p.val = strText name) (hplain : d.root.plain = true)
    (hobject : d.IsObject)
  (hspelled : (Step.name (strText name)).Spelled) (hname : p.length < 2147483648)
  (hv : v ≠ CStr.empty)
include hp hplain hobject hspelled hname hv

/-- The text that is stored for an existing member. -/
theorem sdbJsonSet_replace {y : Place} (hy : d.root.child (.name (strText name)) = some y)
    (hlength : v.length < 0xffffff) : sdbJsonSet st.1 st.2 k p v 0 =
      some (true, (sdbSetInternal st.1 st.2 k (CStr.ofBytes (jsonReplace d.text v.val
        (d.before.val.length + y.before.length + y.value.quote)
        (d.before.val.length + y.before.length + y.value.quote + y.value.content.length))) true
          0).2) := by
  obtain ⟨c, hget, -⟩ := hcell.get
  have hdoc := hcell.length_lt
  rw [CStr.length, hd] at hdoc
  have hlen : x.length = d.text.length := by rw [CStr.length, hd]
  have hrange := jsonGet_name (by omega) hplain hspelled hobject (hp ▸ hname)
  rw [hy, Option.map_some, Option.getD_some] at hrange
  have hholds := holds_child hplain d.before d.after.val
      (show d.text.length < 2147483648 by omega) hy
  have hend := hholds.lt
  change d.before.val.length + y.before.length + y.value.quote + y.value.content.length <
      d.text.length at hend
  have hbase : x.length - d.text.length = 0 := by omega
  rw [sdbJsonSet, hget, readAs_of_ne hne]
  simp only [ne_eq, not_true_eq_false, false_and, if_false, hd, hp, hrange, Option.bind_some,
    Doc.range, Place.range, if_neg hv, hbase, Nat.zero_add]
  generalize d.before.val.length + y.before.length + y.value.quote = f at hend ⊢
  generalize ht : f + y.value.content.length = t at hend ⊢
  have hle := length_jsonReplace_le d.text v.val (f := f) (t := t) (by omega)
  change _ ≤ f + v.length + _ + 2 at hle
  have hmsz : wrapInt ((0 : Nat) + (f : Nat) + (v.length : Nat) +
      ((x.length : Nat) + 1 - ((0 : Nat) + (t : Nat))) + (v.length : Nat) + 2) =
        (f : Int) + v.length + (x.length + 1 - t) + v.length + 2 := by
    rw [wrapInt_of_lt (by omega) (by omega)]
    omega
  rw [hmsz, if_neg (by omega), if_neg (by omega)]
  rfl

omit hv in
/-- The text that is stored for a new member. -/
theorem sdbJsonSet_insert (hx : d.root.child (.name (strText name)) = none) :
    sdbJsonSet st.1 st.2 k p v 0 = some (true, (sdbSetInternal st.1 st.2 k
      (CStr.ofBytes (jsonInsert d.text (strText name) v.val)) true 0).2) := by
  obtain ⟨c, hget, -⟩ := hcell.get
  have hdoc := hcell.length_lt
  rw [CStr.length, hd] at hdoc
  have hrange := jsonGet_name (by omega) hplain hspelled hobject (hp ▸ hname)
  rw [hx, Option.map_none, Option.getD_none] at hrange
  rw [sdbJsonSet, hget, readAs_of_ne hne]
  simp only [ne_eq, not_true_eq_false, false_and, if_false, hd, hp, hrange, Option.bind_some,
    rangstrNull]
  rfl

end Cell

/-- The value `u` can be put for a name as the text `v`. -/
structure Doc.Fits (d : Doc) (name : List Piece) (v : Bytes) (u : Value) : Prop where
  plain : d.root.plain = true ∧ name.all Piece.plain = true ∧ u.plain = true
  spelled : ∀ n ∈ strText name :: d.names, ∀ c ∈ n, c ≠ 46 ∧ c ≠ 91
  kind : ∀ s, d.root.lookup [.name (strText name)] = some (.string s) → isString v = true
  fresh : d.root.lookup [.name (strText name)] = none →
    d.before.val = [] ∧ ∀ ws, d.root = .noMembers ws → ws.val = []
  short : (d.put name u).text.length < 0xffffff
  flat : u.FlatValue
  content : u.content = v
  text : u.text = quotesOf v ++ (v ++ quotesOf v)

section Fits

variable {st : Sdb × World} {k p v x : CStr} (hcell : Cell st k x) (hne : x ≠ CStr.empty) {d : Doc}
  (hd : x.val = d.text) (hflat : d.Flat) {name : List Piece} (hname : name.all Piece.isChar = true)
  (hp : p.val = strText name) (hvne : v ≠ CStr.empty) {u : Value} (hfits : d.Fits name v.val u)
include hname hfits in
theorem Doc.Fits.name_spelled : (Step.name (strText name)).Spelled := fun c hc ↦
  ⟨(hfits.spelled _ List.mem_cons_self c hc).1, (hfits.spelled _ List.mem_cons_self c hc).2,
    ne_of_mem_strText hname hc⟩

include hflat hfits in
theorem Doc.Fits.length_name : (strText name).length < 0xffffff :=
  (Doc.length_name_le (Doc.mem_names_put hflat name u)).trans_lt hfits.short

include hcell hne hd hflat hname hp hvne hfits in
/-- What is stored is the text of the object with the value put. -/
theorem sdbJsonSet_put : ∃ y : CStr, y.val = (d.put name u).text ∧
    sdbJsonSet st.1 st.2 k p v 0 = some (true, (sdbSetInternal st.1 st.2 k y true 0).2) := by
  have hobject := Doc.isObject_of_flat hflat
  have hplain := hfits.plain.1
  have hspelled := Doc.Fits.name_spelled hname hfits
  have hshort := hfits.short
  have hu := hfits.text
  have hpshort : p.length < 2147483648 := by
    have hlt := Doc.Fits.length_name hflat hfits
    rw [CStr.length, hp]
    omega
  have hxzero : (0 : UInt8) ∉ d.text := hd ▸ x.property
  have hpzero : (0 : UInt8) ∉ strText name := hp ▸ p.property
  cases hx : d.root.child (.name (strText name)) with
  | some y =>
      have htext := jsonReplace_eq hu hplain hx fun s hs ↦ hfits.kind s
          (by rw [Node.lookup_name, hx, Option.map_some, hs])
      have hvshort : v.length < 0xffffff := by
        have hput := Doc.text_put hx u
        rw [hput, hu] at hshort
        simp only [List.length_append] at hshort
        rw [CStr.length]
        omega
      have hset := sdbJsonSet_replace hcell hne hd hp hplain hobject hspelled hpshort hvne hx
          hvshort
      have hzero := zero_notMem_jsonReplace hxzero v.property
          (d.before.val.length + y.before.length + y.value.quote)
        (d.before.val.length + y.before.length + y.value.quote + y.value.content.length)
      rw [htext] at hset hzero
      exact ⟨_, CStr.val_ofBytes hzero, hset⟩
  | none =>
      obtain ⟨hbefore, hempty⟩ := hfits.fresh (by rw [Node.lookup_name, hx, Option.map_none])
      have htext := jsonInsert_eq hu hobject hx hbefore hempty
      have hset := @sdbJsonSet_insert st k p v x hcell hne d hd name hp hplain hobject hspelled
          hpshort hx
      have hzero := zero_notMem_jsonInsert hxzero hpzero v.property
      rw [htext] at hset hzero
      exact ⟨_, CStr.val_ofBytes hzero, hset⟩

end Fits

theorem Doc.text_ne_nil (d : Doc) : d.text ≠ [] := by
  have hdoc := d.container
  rw [Doc.text]
  intro hnil
  have hroot := (List.append_eq_nil_iff.mp (List.append_eq_nil_iff.mp hnil).2).1
  cases hd : d.root with
  | word w =>
      rw [hd] at hdoc
      cases hdoc
  | string s =>
      rw [hd] at hdoc
      cases hdoc
  | _ =>
      rw [hd] at hroot
      cases hroot

/-- **What is stored and read** then. -/
theorem sdbJsonSet_value {st : Sdb × World} (hm : st.1.Memory) {k p v x : CStr}
    (hx : sdbGet st.1 st.2 k = some x) {d : Doc} (hd : x.val = d.text) (hflat : d.Flat)
    {name : List Piece} (hname : name.all Piece.isChar = true) (hp : p.val = strText name)
    (hvne : v ≠ CStr.empty) {u : Value} (hfits : d.Fits name v.val u) :
    ∃ y : CStr, y.val = (d.put name u).text ∧
      sdbJsonSet st.1 st.2 k p v 0 = some (true, (sdbSetInternal st.1 st.2 k y true 0).2) ∧
      sdbGet (sdbSetInternal st.1 st.2 k y true 0).2.1 (sdbSetInternal st.1 st.2 k y true 0).2.2 k =
        some y := by
  obtain ⟨hcell, hne⟩ := Cell.of_some hm hx
  obtain ⟨y, hy, hset⟩ := sdbJsonSet_put hcell hne hd hflat hname hp hvne hfits
  have hyne : y ≠ CStr.empty := by
    rintro rfl
    exact (d.put name u).text_ne_nil hy.symm
  have hcell' := hcell.write (y := y) (by rw [CStr.length, hy]; exact hfits.short) true (.inl rfl)
  exact ⟨y, hy, hset, by rw [hcell'.sdbGet, readAs_of_ne hyne]⟩

/-- **Setting, then getting.**  The text is again a flat object, the member has the value, and the
others have theirs. -/
theorem sdbJsonSet_get {st : Sdb × World} (hm : st.1.Memory) {k p v x : CStr}
    (hx : sdbGet st.1 st.2 k = some x) {d : Doc} (hd : x.val = d.text) (hflat : d.Flat)
    {name content : List Piece} (hname : name.all Piece.isChar = true) (hp : p.val = strText name)
    (hcontent : content.all Piece.isChar = true) (hv : v.val = strText content)
    (hvne : v ≠ CStr.empty) (htakes : d.Takes name content) :
    ∃ st' : Sdb × World, sdbJsonSet st.1 st.2 k p v 0 = some (true, st') ∧
      (∃ (d' : Doc) (y : CStr), d'.Flat ∧ sdbGet st'.1 st'.2 k = some y ∧ y.val = d'.text) ∧
      sdbJsonGet st'.1 st'.2 k p = some (some v.val) ∧
      ∀ q : CStr, q.val ∈ d.names → q ≠ p →
        sdbJsonGet st'.1 st'.2 k q = sdbJsonGet st.1 st.2 k q := by
  have hnev : strText content ≠ [] := fun h ↦ hvne (CStr.ext (hv.trans h))
  obtain ⟨u, huflat, hucontent, huplain, hutext⟩ := exists_value hcontent hnev htakes.zero
  have hfits : d.Fits name v.val u := by
    rw [hv]
    exact ⟨⟨htakes.plain.1, htakes.plain.2.1, huplain htakes.plain.2.2⟩, htakes.spelled,
      htakes.kind, htakes.fresh, htakes.short u hutext, huflat, hucontent, hutext⟩
  obtain ⟨y, hy, hset, hget⟩ := sdbJsonSet_value hm hx hd hflat hname hp hvne hfits
  have hobject := Doc.isObject_of_flat hflat
  have hflat' := Doc.flat_put hflat hname huflat
  have hobject' := Doc.isObject_of_flat hflat'
  have hplain' : (d.put name u).root.plain = true :=
    Node.plain_put name u hfits.plain.1 hfits.plain.2.1 hfits.plain.2.2
  have hspelled := Doc.Fits.name_spelled hname hfits
  have hlt := Doc.Fits.length_name hflat hfits
  have hshort := hfits.short
  have hdoc := (Cell.of_some hm hx).1.length_lt
  rw [CStr.length, hd] at hdoc
  refine ⟨_, hset, ⟨d.put name u, y, hflat', hget, hy⟩, ?_, fun q hq hqne ↦ ?_⟩
  · have hchild := Node.child_put name u d.container hobject.1 hobject.2
    rw [sdbJsonGet_some hget hy, hp,
      sdbJsonGetStr_name (by omega) hplain' hobject' hspelled (by omega)]
    change some (((d.root.put name u).child _).map Place.value |>.map Node.content) = _
    rw [hchild, Option.map_some, hfits.content]
  · have hspelled : (Step.name q.val).Spelled := fun c hc ↦
      ⟨(hfits.spelled _ (List.mem_cons_of_mem _ hq) c hc).1,
        (hfits.spelled _ (List.mem_cons_of_mem _ hq) c hc).2, Doc.names_flat hflat hq c hc⟩
    have hle := Doc.length_name_le hq
    have hother : q.val ≠ strText name := fun h ↦ hqne (CStr.ext (h.trans hp.symm))
    have hchild := @Node.child_put_ne name u d.root q.val hother
    rw [sdbJsonGet_some hget hy, sdbJsonGet_some hx hd,
      sdbJsonGetStr_name (by omega) hplain' hobject' hspelled (by omega),
      sdbJsonGetStr_name (by omega) hfits.plain.1 hobject hspelled (by omega)]
    change some (((d.root.put name u).child _).map Place.value |>.map Node.content) = _
    rw [hchild]

/-- A document under the key `k`. -/
def memDoc (d : Doc) : Sdb × World :=
  (memWith ⟨CStr.ofBytes [107], some (CStr.ofBytes d.text), 1, 0⟩, .empty)

/-- `{"a":"x","b":1,"c":true}`. -/
def flatMembers : Doc :=
  ⟨.none, .object (.member (Name.bare [.char 'a' plain_a]) (.string [.char 'x' plain_x]) .none
    (.member (Name.bare [.char 'b' plain_b]) (.word one) .none
      (.lastMember (Name.bare [.char 'c' plain_c]) (.word literalTrue) .none))), .none, rfl⟩

theorem flat_flatMembers : flatMembers.Flat :=
  ⟨⟨by decide, show List.all _ _ = true by decide⟩,
    ⟨by decide, .inl (.inr ⟨⟨by decide, List.all_eq_true.mp rfl⟩, by decide⟩)⟩, by decide,
    .inr (.inl rfl)⟩

/-- The member `b` is in the middle. -/
theorem child_flatMembers : flatMembers.root.child (.name (strText [.char 'b' plain_b])) =
    some ⟨[123, 34, 97, 34, 58, 34, 120, 34, 44, 34, 98, 34, 58], .word one,
      [44, 34, 99, 34, 58, 116, 114, 117, 101, 125]⟩ := by
  rfl

/-- The member in the middle gets the value 2. -/
theorem sdbJsonSet_get_flatMembers :
    ∃ st' : Sdb × World, sdbJsonSet (memDoc flatMembers).1 (memDoc flatMembers).2
      (CStr.ofBytes [107])
        (CStr.ofBytes [98]) (CStr.ofBytes [50]) 0 = some (true, st') ∧
      (∃ (d' : Doc) (y : CStr), d'.Flat ∧ sdbGet st'.1 st'.2 (CStr.ofBytes [107]) = some y ∧
        y.val = d'.text) ∧
      sdbJsonGet st'.1 st'.2 (CStr.ofBytes [107]) (CStr.ofBytes [98]) =
        some (some (CStr.ofBytes [50]).val) ∧
      ∀ q : CStr, q.val ∈ flatMembers.names → q ≠ CStr.ofBytes [98] →
        sdbJsonGet st'.1 st'.2 (CStr.ofBytes [107]) q =
          sdbJsonGet (memDoc flatMembers).1 (memDoc flatMembers).2 (CStr.ofBytes [107]) q :=
  @sdbJsonSet_get (memDoc flatMembers) (memory_memWith (by decide) fun v hv ↦ by cases hv; decide)
    (CStr.ofBytes [107]) (CStr.ofBytes [98]) (CStr.ofBytes [50]) (CStr.ofBytes flatMembers.text)
    (by decide +kernel) flatMembers (by decide)
    flat_flatMembers [.char 'b' plain_b] [.char '2' (by decide)] (by decide)
    (by decide) (by decide) (by decide) (by decide)
    { plain := by decide
      spelled := by decide +kernel
      kind := fun s hs ↦ by cases hs
      zero := by decide
      fresh := fun h ↦ by cases h
      short := fun u hu ↦ by
        rw [Doc.text_put child_flatMembers, hu]
        decide }

/-- `{"a":"x"}`. -/
def stringMember : Doc :=
  ⟨.none, .object (.lastMember (Name.bare [.char 'a' plain_a])
    (.string [.char 'x' plain_x]) .none), .none, rfl⟩

/-- The string is replaced by the number 3, and then nothing is read. -/
theorem not_sdbJsonSet_get : stringMember.Flat ∧
    (sdbJsonSet (memDoc stringMember).1 (memDoc stringMember).2 (CStr.ofBytes [107])
      (CStr.ofBytes [97])
      (CStr.ofBytes [51]) 0).map
        (fun r ↦ (r.1, sdbJsonGet r.2.1 r.2.2 (CStr.ofBytes [107]) (CStr.ofBytes [97]))) =
          some (true, some none) :=
  ⟨⟨by decide, show List.all _ _ = true by decide⟩, by decide +kernel⟩

end SdbStore.Json
