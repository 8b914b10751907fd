import SdbStore.NsTree

/-!
# Saving a text and loading it again

`sdb_text_save_fd` writes a tree of databases: for each of them its path, its pairs and then
its namespaces.  The three places of a text in which bytes are escaped have one loop,
`escape_loop`, and differ in the separator that is escaped besides; a `/` at the start of a
key is escaped on its own.  The writes to the descriptor all succeed here, and what is
written is a function of the tree.

`Saves` says that bytes are a sequence of whole lines with certain calls, so that bytes
written one after another make these calls one after another.  Loading the calls of a tree
into an empty database gives the tree again: `roundTrip`.
-/

namespace SdbStore

open Lib

/-! ## Writing -/

/-- `escape_loop`: the bytes of the string that have not been written yet stand in `p`. -/
def escapeLoop (ch : UInt8) : Bytes → Bytes → Bytes
  | p, [] => p
  | p, c :: n =>
      if c = 92 then p ++ [92, 92] ++ escapeLoop ch [] n
      else if c = 13 then p ++ [92, 114] ++ escapeLoop ch [] n
      else if c = 10 then p ++ [92, 110] ++ escapeLoop ch [] n
      else if ch ≠ 0 ∧ c = ch then p ++ [92, ch] ++ escapeLoop ch [] n
      else escapeLoop ch (p ++ [c]) n

/-- The loop of `write_path` over the tokens. -/
def writeTokens : Bool → List CStr → Bytes
  | _, [] => []
  | first, token :: path =>
      (if first then [] else [47]) ++ escapeLoop 47 [] token.val ++ writeTokens false path

/-- `write_path`. -/
def writePath (path : List CStr) : Bytes := 47 :: writeTokens true path

/-- `write_key`. -/
def writeKey (k : CStr) : Bytes :=
  (if k.val.head? = some 47 then [92] else []) ++ escapeLoop 61 [] k.val

/-- `write_value`. -/
def writeValue (v : CStr) : Bytes := escapeLoop 0 [] v.val

/-- `save_kv_cb`, on what has been written so far. -/
def saveKvCb (out : Bytes) (k : CStr) (v : Option CStr) : Bool × Bytes :=
  (true, out ++ writeKey k ++ [61] ++ writeValue (v.getD CStr.empty) ++ [10])

/-- `cmp_ns`. -/
def cmpNs (a b : SdbNs) : Int := strcmp a.name b.name

/-- The pairs of a database. -/
def textSavePairs (s : Sdb) (sort : Bool) : Bytes :=
  if sort then (sdbForeachList s true).foldl (fun out c ↦ (saveKvCb out c.1 c.2).2) []
  else (sdbForeach s saveKvCb []).2

/-- `text_save`.  It calls itself for the namespaces; `fuel` bounds the depth. -/
def textSave (h : Heap) (sort : Bool) : Nat → Ref → List CStr → Bytes
  | 0, _, _ => []
  | fuel + 1, s, path =>
      match h[s]? with
      | none => []
      | some node =>
          writePath path ++ [10] ++ textSavePairs node.sdb sort ++
            (if sort then lsSort cmpNs node.nss else node.nss).flatMap fun ns ↦
              10 :: textSave h sort fuel ns.sdb (path ++ [ns.name])

/-! ## Escaping -/

/-- What `escape_loop` writes behind a backslash. -/
def escapeRawChar (ch c : UInt8) : Option UInt8 :=
  if c = 92 then some 92
  else if c = 13 then some 114
  else if c = 10 then some 110
  else if ch ≠ 0 ∧ c = ch then some ch
  else none

theorem escapeLoop_eq (ch : UInt8) (p n : Bytes) :
    escapeLoop ch p n = p ++ escape 92 (escapeRawChar ch) n := by
  induction n generalizing p with
  | nil => simp [escapeLoop]
  | cons c n ih =>
      rw [escapeLoop, escape_cons, escapeChar, escapeRawChar]
      split
      · rw [ih]; simp
      · split
        · rw [ih]; simp
        · split
          · rw [ih]; simp
          · split
            · rw [ih]; simp
            · rw [ih]; simp

/-- The bytes that are escaped, and what is written for them. -/
theorem escapeRawChar_eq_some {ch a b : UInt8} (h : escapeRawChar ch a = some b) :
    (a = 92 ∧ b = 92) ∨ (a = 13 ∧ b = 114) ∨ (a = 10 ∧ b = 110) ∨ (ch ≠ 0 ∧ a = ch ∧ b = ch) := by
  unfold escapeRawChar at h
  split at h
  · next ha => exact .inl ⟨ha, (Option.some.inj h).symm⟩
  · split at h
    · next ha => exact .inr (.inl ⟨ha, (Option.some.inj h).symm⟩)
    · split at h
      · next ha => exact .inr (.inr (.inl ⟨ha, (Option.some.inj h).symm⟩))
      · split at h
        · next ha => exact .inr (.inr (.inr ⟨ha.1, ha.2, (Option.some.inj h).symm⟩))
        · cases h

/-- The bytes that are written as they are. -/
theorem escapeRawChar_eq_none {ch a : UInt8} (h : escapeRawChar ch a = none) :
    a ≠ 92 ∧ a ≠ 13 ∧ a ≠ 10 ∧ ¬ (ch ≠ 0 ∧ a = ch) := by
  unfold escapeRawChar at h
  split at h
  · cases h
  · split at h
    · cases h
    · split at h
      · cases h
      · split at h
        · cases h
        · next h92 h13 h10 hch => exact ⟨h92, h13, h10, hch⟩

theorem unescapeRawChar_escapeRawChar {ch : UInt8} (hch : unescapeRawChar ch = ch) {a b : UInt8}
    (h : escapeRawChar ch a = some b) : unescapeRawChar b = a := by
  rcases escapeRawChar_eq_some h with ⟨rfl, rfl⟩ | ⟨rfl, rfl⟩ | ⟨rfl, rfl⟩ | ⟨-, rfl, rfl⟩
  · rfl
  · rfl
  · rfl
  · exact hch

theorem escapeRawChar_esc (ch : UInt8) : escapeRawChar ch 92 ≠ none :=
  fun h ↦ (escapeRawChar_eq_none h).1 rfl

theorem escapeRawChar_self (ch : UInt8) (hch : ch ≠ 0) : escapeRawChar ch ch ≠ none :=
  fun h ↦ (escapeRawChar_eq_none h).2.2.2 ⟨hch, rfl⟩

/-- A byte inside of a line. -/
def InLine (c : UInt8) : Prop := c ≠ 0 ∧ lineEnd c = false

theorem inLine_escapeRawChar {ch : UInt8} (hch : lineEnd ch = false) {a b : UInt8}
    (h : escapeRawChar ch a = some b) : InLine b := by
  rcases escapeRawChar_eq_some h with ⟨-, rfl⟩ | ⟨-, rfl⟩ | ⟨-, rfl⟩ | ⟨h0, -, rfl⟩
  · exact ⟨by decide, rfl⟩
  · exact ⟨by decide, rfl⟩
  · exact ⟨by decide, rfl⟩
  · exact ⟨h0, hch⟩

theorem lineEnd_of_escapeRawChar {ch a : UInt8} (h : escapeRawChar ch a = none) :
    lineEnd a = false := by
  obtain ⟨-, h13, h10, -⟩ := escapeRawChar_eq_none h
  simp [lineEnd, h13, h10]

/-- What is written for a string stays inside of the line. -/
theorem inLine_escapeLoop {ch : UInt8} (hch : lineEnd ch = false) (s : CStr) :
    ∀ c ∈ escapeLoop ch [] s.val, InLine c := by
  rw [escapeLoop_eq, List.nil_append]
  intro c hc
  obtain ⟨a, ha, hc⟩ := List.mem_flatMap.mp hc
  rw [escapeChar] at hc
  split at hc
  · next hnone =>
      obtain rfl := List.mem_singleton.mp hc
      exact ⟨fun h0 ↦ s.property (h0 ▸ ha), lineEnd_of_escapeRawChar hnone⟩
  · next b hb =>
      rcases List.mem_cons.mp hc with rfl | hc
      · exact ⟨by decide, rfl⟩
      · obtain rfl := List.mem_singleton.mp hc
        exact inLine_escapeRawChar hch hb

/-- A string is read back from what is written for it. -/
theorem tokenStr_escapeLoop {ch : UInt8} (hch : unescapeRawChar ch = ch) (s : CStr) :
    tokenStr (escapeLoop ch [] s.val) = s := by
  rw [escapeLoop_eq, List.nil_append, tokenStr, unescape_escape (escapeRawChar_esc ch),
    CStr.ofBytes_val]
  exact fun a b h ↦ unescapeRawChar_escapeRawChar hch h

/-! ## Lines -/

/-- The bytes are whole lines, and make these calls. -/
structure Saves (bytes : Bytes) (calls : List TextCall) : Prop where
  noNul : 0 ∉ bytes
  grammar : ∀ rest, textGrammar (bytes ++ rest) = calls ++ textGrammar rest

theorem Saves.nil : Saves [] [] := ⟨nofun, fun _ ↦ rfl⟩

theorem Saves.append {b b' : Bytes} {c c' : List TextCall} (h : Saves b c) (h' : Saves b' c') :
    Saves (b ++ b') (c ++ c') := by
  refine ⟨fun h0 ↦ ?_, fun rest ↦ ?_⟩
  · rcases List.mem_append.mp h0 with h0 | h0
    · exact h.noNul h0
    · exact h'.noNul h0
  · rw [List.append_assoc, h.grammar, h'.grammar, List.append_assoc]

theorem Saves.flatMap {α : Type} {l : List α} {f : α → Bytes} {g : α → List TextCall}
    (h : ∀ a ∈ l, Saves (f a) (g a)) : Saves (l.flatMap f) (l.flatMap g) := by
  induction l with
  | nil => exact .nil
  | cons a l ih =>
      rw [List.flatMap_cons, List.flatMap_cons]
      exact (h a List.mem_cons_self).append (ih fun b hb ↦ h b (List.mem_cons_of_mem _ hb))

theorem Saves.line (line : Bytes) (hline : ∀ c ∈ line, InLine c) :
    Saves (line ++ [10]) (lineCall line).toList := by
  refine ⟨fun h0 ↦ ?_, fun rest ↦ ?_⟩
  · rcases List.mem_append.mp h0 with h0 | h0
    · exact (hline 0 h0).1 rfl
    · exact nomatch List.mem_singleton.mp h0
  · rw [List.append_assoc, List.singleton_append, textGrammar,
      List.splitOnP_append_cons_of_forall_mem (fun c hc ↦ (hline c hc).2) 10 (by decide),
      List.filterMap_cons, textGrammar]
    cases lineCall line with
    | none => rfl
    | some call => rfl

/-- An empty line. -/
theorem Saves.blank : Saves [10] [] := Saves.line [] fun _ hc ↦ nomatch hc

/-- The names that are read from a path line. -/
def pathNames (path : List CStr) : List CStr := if path = [] then [CStr.empty] else path

theorem inLine_writeTokens (first : Bool) (path : List CStr) :
    ∀ c ∈ writeTokens first path, InLine c := by
  induction path generalizing first with
  | nil => exact fun c hc ↦ nomatch hc
  | cons token path ih =>
      intro c hc
      rw [writeTokens, List.mem_append, List.mem_append] at hc
      rcases hc with (hc | hc) | hc
      · split at hc
        · cases hc
        · obtain rfl := List.mem_singleton.mp hc
          exact ⟨by decide, rfl⟩
      · exact inLine_escapeLoop rfl token c hc
      · exact ih false c hc

/-- The tokens of a path line. -/
theorem splitEsc_writeTokens (token : CStr) (path : List CStr) :
    splitEsc 92 47 (writeTokens true (token :: path)) =
      (token :: path).map fun t ↦ escapeLoop 47 [] t.val := by
  have hesc : ∀ s : Bytes, escapeLoop 47 [] s = escape 92 (escapeRawChar 47) s := fun s ↦ by
    rw [escapeLoop_eq, List.nil_append]
  have hself := escapeRawChar_self 47 (by decide)
  have hback := escapeRawChar_esc 47
  rw [writeTokens, if_pos rfl, List.nil_append, List.map_cons]
  induction path generalizing token with
  | nil => rw [writeTokens, List.append_nil, hesc, splitEsc_escape hback hself]; rfl
  | cons token' path ih =>
      rw [writeTokens, if_neg (by decide), List.append_assoc, List.singleton_append, hesc token.val,
        splitEsc_escape_cons hback hself (by decide), ih, List.map_cons]

/-- **A path line** is read back. -/
theorem lineCall_writePath (path : List CStr) :
    lineCall (writePath path) = some (.path (pathNames path)) := by
  have hline : ∀ l, lineCall (47 :: l) = some (.path ((splitEsc 92 47 l).map tokenStr)) :=
    fun _ ↦ rfl
  rw [writePath, hline, pathNames]
  cases path with
  | nil =>
      rw [writeTokens, splitEsc_nil, if_pos rfl, List.map_singleton]
      rfl
  | cons token path =>
      rw [splitEsc_writeTokens, if_neg (by simp), List.map_map]
      congr 2
      apply List.map_id''
      exact fun t ↦ tokenStr_escapeLoop rfl t

theorem Saves.writePath (path : List CStr) :
    Saves (writePath path ++ [10]) [.path (pathNames path)] := by
  have h := Saves.line (SdbStore.writePath path) fun c hc ↦ by
    rcases List.mem_cons.mp hc with rfl | hc
    · exact ⟨by decide, rfl⟩
    · exact inLine_writeTokens true path c hc
  rwa [lineCall_writePath] at h

/-- A line that is not a path. -/
theorem lineCall_of_ne {line : Bytes} (hne : line.head? ≠ some 47) : lineCall line =
    (cutEsc 92 61 line).bind fun kv ↦
      if tokenStr kv.1 = CStr.empty ∨ tokenStr kv.2 = CStr.empty then none
      else some (.set (tokenStr kv.1) (tokenStr kv.2)) := by
  unfold lineCall
  split
  · exact absurd rfl hne
  · rfl

/-- What is written for a key: it is no path, it ends at its `=`, and it is read back. -/
theorem writeKey_spec {k : CStr} (hk : k ≠ CStr.empty) (r : Bytes) :
    (writeKey k ++ 61 :: r).head? ≠ some 47 ∧
      cutEsc 92 61 (writeKey k ++ 61 :: r) = some (writeKey k, r) ∧ tokenStr (writeKey k) = k := by
  obtain ⟨c, l, hl⟩ : ∃ c l, k.val = c :: l := by
    apply List.exists_cons_of_ne_nil
    exact fun h ↦ hk (CStr.ext h)
  have hself := escapeRawChar_self 61 (by decide)
  have hback := escapeRawChar_esc 61
  have hesc : escapeLoop 61 [] k.val = escape 92 (escapeRawChar 61) k.val := by
    rw [escapeLoop_eq, List.nil_append]
  by_cases hslash : c = 47
  · -- the backslash stands before a byte that is not escaped otherwise
    subst hslash
    have hkey : writeKey k = 92 :: 47 :: escape 92 (escapeRawChar 61) l := by
      rw [writeKey, hesc, hl, List.head?_cons, if_pos rfl]
      rfl
    rw [hkey]
    refine ⟨by simp, ?_, ?_⟩
    · rw [List.cons_append, List.cons_append, cutEsc_esc_cons,
        cutEsc_escape_cons hback hself (by decide)]
      rfl
    · rw [tokenStr, unescape_esc_cons, unescape_escape hback fun a b h ↦
        unescapeRawChar_escapeRawChar rfl h]
      exact (congrArg CStr.ofBytes hl.symm).trans (CStr.ofBytes_val k)
  · have hkey : writeKey k = escapeLoop 61 [] k.val := by
      rw [writeKey, hl, List.head?_cons, if_neg (by simpa using hslash), List.nil_append]
    rw [hkey]
    refine ⟨?_, ?_, tokenStr_escapeLoop rfl k⟩
    · rw [hesc, hl, escape_cons]
      rcases escapeChar_cases (e := 92) (escapeRawChar 61) c with ⟨hchar, -⟩ | ⟨b, hchar, -⟩
      · rw [hchar]
        simpa using hslash
      · rw [hchar]
        simp
    · rw [hesc, cutEsc_escape_cons hback hself (by decide)]

/-- **A pair** is read back. -/
theorem lineCall_writeKey {k v : CStr} (hk : k ≠ CStr.empty) (hv : v ≠ CStr.empty) :
    lineCall (writeKey k ++ [61] ++ writeValue v) = some (.set k v) := by
  obtain ⟨hhead, hcut, hkey⟩ := writeKey_spec hk (writeValue v)
  have hval : tokenStr (writeValue v) = v := tokenStr_escapeLoop rfl v
  rw [List.append_assoc, List.singleton_append, lineCall_of_ne hhead, hcut, Option.bind_some]
  dsimp only
  rw [hkey, hval, if_neg]
  rintro (h | h)
  · exact hk h
  · exact hv h

theorem Saves.pair {k v : CStr} (hk : k ≠ CStr.empty) (hv : v ≠ CStr.empty) :
    Saves (writeKey k ++ [61] ++ writeValue v ++ [10]) [.set k v] := by
  have h := Saves.line (writeKey k ++ [61] ++ writeValue v) fun c hc ↦ by
    rw [List.mem_append, List.mem_append] at hc
    rcases hc with (hc | hc) | hc
    · rw [writeKey, List.mem_append] at hc
      rcases hc with hc | hc
      · split at hc
        · obtain rfl := List.mem_singleton.mp hc
          exact ⟨by decide, rfl⟩
        · cases hc
      · exact inLine_escapeLoop rfl k c hc
    · obtain rfl := List.mem_singleton.mp hc
      exact ⟨by decide, rfl⟩
    · exact inLine_escapeLoop rfl v c hc
  rwa [lineCall_writeKey hk hv] at h

/-! ## The calls of a tree -/

/-- The calls of `sdb_foreach`, in the order in which they are saved. -/
def savedCalls (s : Sdb) (sort : Bool) : List Call :=
  if sort then sdbForeachList s true else foreachCalls s

/-- The namespaces, in the order in which they are saved. -/
def savedNss (node : SdbNode) (sort : Bool) : List SdbNs :=
  if sort then lsSort cmpNs node.nss else node.nss

/-- The call that sets a pair. -/
def Call.set (c : Call) : TextCall := .set c.1 (c.2.getD CStr.empty)

/-- The calls that a tree is saved as. -/
def saveCalls (h : Heap) (sort : Bool) : Nat → Ref → List CStr → List TextCall
  | 0, _, _ => []
  | fuel + 1, s, path =>
      match h[s]? with
      | none => []
      | some node =>
          .path (pathNames path) :: (savedCalls node.sdb sort).map Call.set ++
            (savedNss node sort).flatMap fun ns ↦ saveCalls h sort fuel ns.sdb (path ++ [ns.name])

theorem mem_savedNss {node : SdbNode} {sort : Bool} {ns : SdbNs} :
    ns ∈ savedNss node sort ↔ ns ∈ node.nss := by
  rw [savedNss]
  split
  · exact (lsSort_perm cmpNs node.nss).mem_iff
  · exact Iff.rfl

theorem SdbNode.Plain.mem_savedCalls {node : SdbNode} (hp : node.Plain) {sort : Bool} {c : Call} :
    c ∈ savedCalls node.sdb sort ↔ ∃ v, c.2 = some v ∧ node.get c.1 = some v := by
  rw [← hp.mem_foreachCalls, savedCalls]
  split
  · exact (sdbForeachList_perm node.sdb true).mem_iff
  · exact Iff.rfl

/-- The bytes of the pairs. -/
theorem textSavePairs_eq (s : Sdb) (sort : Bool) :
    textSavePairs s sort = (savedCalls s sort).flatMap fun c ↦
      writeKey c.1 ++ [61] ++ writeValue (c.2.getD CStr.empty) ++ [10] := by
  have hfold : ∀ (calls : List Call) (out : Bytes),
      calls.foldl (fun out c ↦ (saveKvCb out c.1 c.2).2) out =
        out ++ calls.flatMap fun c ↦
          writeKey c.1 ++ [61] ++ writeValue (c.2.getD CStr.empty) ++ [10] := by
    intro calls
    induction calls with
    | nil => exact fun out ↦ (List.append_nil out).symm
    | cons c calls ih =>
        intro out
        rw [List.foldl_cons, ih, List.flatMap_cons, saveKvCb]
        simp only [List.append_assoc]
  rw [textSavePairs, savedCalls]
  split
  · exact hfold _ _
  · rw [sdbForeach_eq s (fun _ _ _ ↦ rfl)]
    exact hfold _ _

/-- **What is written for a tree** makes the calls of the tree. -/
theorem saves_textSave {h : Heap} (ht : NsTree h) (sort : Bool) (fuel : Nat) (s : Ref)
    (path : List CStr) : Saves (textSave h sort fuel s path) (saveCalls h sort fuel s path) := by
  induction fuel generalizing s path with
  | zero => exact .nil
  | succ fuel ih =>
      unfold textSave saveCalls
      cases hnode : h[s]? with
      | none => exact .nil
      | some node =>
          have hp := (ht.plain s node hnode).1
          dsimp only
          rw [← List.singleton_append, textSavePairs_eq, List.map_eq_flatMap]
          refine ((Saves.writePath path).append (.flatMap fun c hc ↦ ?_)).append
            (.flatMap fun ns _ ↦ Saves.blank.append (ih ns.sdb _))
          obtain ⟨v, hv, hget⟩ := hp.mem_savedCalls.mp hc
          have hst := hp.storable hget
          rw [Call.set, hv]
          exact Saves.pair hst.key_ne hst.val_ne

/-! ## Loading the calls -/

/-- What has been loaded of the tree `h`. -/
structure PartLoaded (h : Heap) (st : TextState) : Prop where
  tree : NsTree st.heap
  part : Part st.heap h

/-- The databases below `s` have been loaded, at the path `p`. -/
def LoadedBelow (h t : Heap) (s : Ref) (p : List CStr) : Prop :=
  ∀ q r, h.walk s q = some r →
    (t.walk 0 (p ++ q)).isSome ∧ ∀ k v, h.get r k = some v → t.getAt (p ++ q) k = some v

theorem LoadedBelow.mono {h t t' : Heap} {s : Ref} {p : List CStr} (hl : LoadedBelow h t s p)
    (hpart : Part t t') : LoadedBelow h t' s p := by
  intro q r hq
  obtain ⟨hsome, hget⟩ := hl q r hq
  exact ⟨hpart.ns _ hsome, fun k v hv ↦ hpart.get _ k v (hget k v hv)⟩

section Load

variable {h : Heap} (hh : NsTree h)
include hh

/-- The names of a path of the tree are found or made one after another. -/
theorem loadPath_part {t : Heap} (ht : NsTree t) (hpart : Part t h) {p : List CStr} {cur : Ref}
    (hcur : t.walk 0 p = some cur) (q : List CStr) (hq : (h.walk 0 (p ++ q)).isSome) :
    NsTree (loadPath 0 t cur q).2 ∧ Part t (loadPath 0 t cur q).2 ∧ Part (loadPath 0 t cur q).2 h ∧
      (loadPath 0 t cur q).2.walk 0 (p ++ q) = some (loadPath 0 t cur q).1 := by
  induction q generalizing t p cur with
  | nil =>
      rw [List.append_nil, loadPath]
      exact ⟨ht, .refl t, hpart, hcur⟩
  | cons name q ih =>
      rw [List.append_cons] at hq ⊢
      have hname : (h.walk 0 (p ++ [name])).isSome := by
        rw [Heap.walk_append] at hq
        exact Option.isSome_of_isSome_bind hq
      obtain ⟨hne, hcol⟩ := noCollision_of_part hh ht hpart hcur hname
      obtain ⟨r, hr, hg⟩ := sdbNs_grown ht (ht.walk_lt ht.root hcur) hne hcol
      obtain ⟨hwalk, hup, hsub⟩ := Part.grown ht hpart hcur hg hname
      have hload : loadPath 0 t cur (name :: q) = loadPath 0 (sdbNs t cur name true).2 r q := by
        rw [loadPath, if_neg hne, ← Prod.mk.eta (p := sdbNs t cur name true), hr]
      rw [hload]
      obtain ⟨htree, hpart₁, hpart₂, hw⟩ := ih hg.tree hsub hwalk hq
      exact ⟨htree, hup.trans hpart₁, hpart₂, hw⟩

/-- A path line leads to its database. -/
theorem run_path {st : TextState} (hst : PartLoaded h st) (p : List CStr)
    (hp : (h.walk 0 p).isSome) :
    PartLoaded h ((TextCall.path (pathNames p)).run 0 st) ∧
      Part st.heap ((TextCall.path (pathNames p)).run 0 st).heap ∧
      ((TextCall.path (pathNames p)).run 0 st).heap.walk 0 p =
        some ((TextCall.path (pathNames p)).run 0 st).cur := by
  -- the empty name of the root's path is skipped
  have hnames : loadPath 0 st.heap 0 (pathNames p) = loadPath 0 st.heap 0 p := by
    rw [pathNames]
    split
    · next hp =>
        rw [hp]
        exact if_pos rfl
    · rfl
  rw [TextCall.run, hnames]
  obtain ⟨htree, hup, hsub, hw⟩ := loadPath_part hh hst.tree hst.part (p := []) rfl p hp
  exact ⟨⟨htree, hsub⟩, hup, hw⟩

/-- The pairs of a database are set one after another. -/
theorem run_sets {p : List CStr} (calls : List Call)
    (hcalls : ∀ c ∈ calls, ∃ v, c.2 = some v ∧ h.getAt p c.1 = some v) {st : TextState}
    (hst : PartLoaded h st) (hcur : st.heap.walk 0 p = some st.cur) :
    PartLoaded h ((calls.map Call.set).foldl (TextCall.run 0) st) ∧
      Part st.heap ((calls.map Call.set).foldl (TextCall.run 0) st).heap ∧
      ∀ c ∈ calls, ((calls.map Call.set).foldl (TextCall.run 0) st).heap.getAt p c.1 = c.2 := by
  induction calls generalizing st with
  | nil => exact ⟨hst, .refl _, fun c hc ↦ nomatch hc⟩
  | cons c calls ih =>
      obtain ⟨v, hv, hget⟩ := hcalls c List.mem_cons_self
      have hstore : Storable c.1 v := by
        obtain ⟨s, -, hs⟩ := Heap.getAt_eq_some.mp hget
        obtain ⟨node, hnode, hv'⟩ := Option.bind_eq_some_iff.mp hs
        exact (hh.plain s node hnode).1.storable hv'
      have hlt := hst.tree.walk_lt hst.tree.root hcur
      obtain ⟨hup, hsub, hthere⟩ := Part.heapSet hst.tree hst.part hcur st.world hstore hget
      have hrun : (TextCall.run 0 st c.set).heap =
          (heapSet st.heap st.world st.cur c.1 v 0).1 := by
        rw [Call.set, hv]
        rfl
      rw [← hrun] at hup hsub hthere
      have hcur' : (TextCall.run 0 st c.set).heap.walk 0 p =
          some (TextCall.run 0 st c.set).cur := by
        rw [hrun, walk_heapSet hlt, hcur]
        rfl
      have htree : NsTree (TextCall.run 0 st c.set).heap := by
        rw [hrun]
        exact hst.tree.heapSet hlt _ hstore.key_ne hstore.val_ne 0
      rw [List.map_cons, List.foldl_cons]
      obtain ⟨hst', hup', hall⟩ := ih (fun c' hc' ↦ hcalls c' (List.mem_cons_of_mem _ hc'))
        ⟨htree, hsub⟩ hcur'
      refine ⟨hst', hup.trans hup', fun c' hc' ↦ ?_⟩
      rcases List.mem_cons.mp hc' with rfl | hc'
      · rw [hv]
        exact hup'.get p c'.1 v hthere
      · exact hall c' hc'

omit hh in
/-- What is loaded for one namespace after another stays loaded. -/
theorem run_flatMap {α : Type} {calls : α → List TextCall} {done : α → Heap → Prop}
    (hmono : ∀ a t t', done a t → Part t t' → done a t') (l : List α)
    (hrun : ∀ a ∈ l, ∀ st, PartLoaded h st →
      PartLoaded h ((calls a).foldl (TextCall.run 0) st) ∧
        Part st.heap ((calls a).foldl (TextCall.run 0) st).heap ∧
        done a ((calls a).foldl (TextCall.run 0) st).heap)
    {st : TextState} (hst : PartLoaded h st) :
    PartLoaded h ((l.flatMap calls).foldl (TextCall.run 0) st) ∧
      Part st.heap ((l.flatMap calls).foldl (TextCall.run 0) st).heap ∧
      ∀ a ∈ l, done a ((l.flatMap calls).foldl (TextCall.run 0) st).heap := by
  induction l generalizing st with
  | nil => exact ⟨hst, .refl _, fun a ha ↦ nomatch ha⟩
  | cons a l ih =>
      rw [List.flatMap_cons, List.foldl_append]
      obtain ⟨hst', hup, hdone⟩ := hrun a List.mem_cons_self st hst
      obtain ⟨hst'', hup', hall⟩ := ih (fun b hb ↦ hrun b (List.mem_cons_of_mem _ hb)) hst'
      refine ⟨hst'', hup.trans hup', fun b hb ↦ ?_⟩
      rcases List.mem_cons.mp hb with rfl | hb
      · exact hmono b _ _ hdone hup'
      · exact hall b hb

/-- **The calls of a subtree** load it.  A namespace has a greater reference than its parent,
so that the fuel is enough for the depth. -/
theorem run_saveCalls (sort : Bool) (fuel : Nat) (s : Ref) (p : List CStr)
    (hs : h.walk 0 p = some s) (hfuel : h.length ≤ s + fuel) {st : TextState}
    (hst : PartLoaded h st) :
    PartLoaded h ((saveCalls h sort fuel s p).foldl (TextCall.run 0) st) ∧
      Part st.heap ((saveCalls h sort fuel s p).foldl (TextCall.run 0) st).heap ∧
      LoadedBelow h ((saveCalls h sort fuel s p).foldl (TextCall.run 0) st).heap s p := by
  have hlt := hh.walk_lt hh.root hs
  induction fuel generalizing s p st with
  | zero => exact absurd hlt (Nat.not_lt.mpr hfuel)
  | succ fuel ih =>
      have hnode := List.getElem?_eq_getElem hlt
      have hplain := (hh.plain s _ hnode).1
      have hnss : h.nss s = (h[s]).nss := by rw [Heap.nss, hnode]
      have hcalls : ∀ c ∈ savedCalls h[s].sdb sort, ∃ v, c.2 = some v ∧ h.getAt p c.1 = some v := by
        intro c hc
        obtain ⟨v, hv, hget⟩ := hplain.mem_savedCalls.mp hc
        refine ⟨v, hv, Heap.getAt_eq_some.mpr ⟨s, hs, ?_⟩⟩
        rw [Heap.get, hnode, Option.bind_some, hget]
      have hchild : ∀ ns ∈ savedNss h[s] sort, h.child s ns.name = some ns.sdb := by
        intro ns hns
        exact hh.child_of_mem (hnss ▸ mem_savedNss.mp hns)
      unfold saveCalls
      rw [hnode]
      dsimp only
      rw [List.cons_append, List.foldl_cons, List.foldl_append]
      obtain ⟨hst₁, hup₁, hcur⟩ := run_path hh hst p (by rw [hs]; rfl)
      obtain ⟨hst₂, hup₂, hsets⟩ := run_sets hh _ hcalls hst₁ hcur
      have hmono : ∀ (ns : SdbNs) (t t' : Heap), LoadedBelow h t ns.sdb (p ++ [ns.name]) →
          Part t t' → LoadedBelow h t' ns.sdb (p ++ [ns.name]) :=
            fun ns t t' hl hpart ↦ hl.mono hpart
      obtain ⟨hst₃, hup₃, hbelow⟩ := run_flatMap hmono (savedNss h[s] sort) (fun ns hns st hst ↦ by
        have hc := hchild ns hns
        obtain ⟨hgt, hlt'⟩ := hh.child_lt hc
        have hfuel' : h.length ≤ ns.sdb + fuel :=
          calc h.length ≤ s + (fuel + 1) := hfuel
            _ = s + 1 + fuel := by rw [Nat.add_assoc, Nat.add_comm 1]
            _ ≤ ns.sdb + fuel := Nat.add_le_add_right hgt fuel
        apply ih ns.sdb (p ++ [ns.name]) _ hfuel' hst hlt'
        rw [Heap.walk_concat, hs, Option.bind_some, hc]) hst₂
      refine ⟨hst₃, hup₁.trans (hup₂.trans hup₃), fun q r hq ↦ ?_⟩
      cases q with
      | nil =>
          -- the database itself
          obtain rfl := Option.some.inj hq
          rw [List.append_nil]
          refine ⟨(hup₂.trans hup₃).ns p (by rw [hcur]; rfl), fun k v hv ↦ hup₃.get p k v ?_⟩
          have hget : (h[s]).get k = some v := by
            rwa [Heap.get, hnode, Option.bind_some] at hv
          exact hsets (k, some v) (hplain.mem_savedCalls.mpr ⟨v, rfl, hget⟩)
      | cons name q =>
          obtain ⟨r', hc, hq⟩ := Option.bind_eq_some_iff.mp hq
          obtain ⟨ns, hns, rfl, rfl⟩ := Heap.mem_of_child hc
          have hl := hbelow ns (mem_savedNss.mpr (hnss ▸ hns)) q r hq
          rwa [List.append_assoc, List.singleton_append] at hl

end Load

/-! ## The round trip -/

/-- `sdb_text_save_fd`.  A namespace has a greater reference than its parent. -/
def sdbTextSaveFd (h : Heap) (s : Ref) (sort : Bool) : Bytes := textSave h sort h.length s []

/-- The database that names lead to from the root. -/
def Heap.node (h : Heap) (p : List CStr) : Option SdbNode := (h.walk 0 p).bind fun i ↦ h[i]?

/-- The two trees have the same namespaces, with the same keys and values. -/
structure SameTree (h h' : Heap) : Prop where
  ns : ∀ p, (h.node p).isSome = (h'.node p).isSome
  get : ∀ p node node', h.node p = some node → h'.node p = some node' →
    ∀ w w' k, sdbGet node.sdb w k = sdbGet node'.sdb w' k

theorem NsTree.isSome_node {h : Heap} (hh : NsTree h) (p : List CStr) :
    (h.node p).isSome = (h.walk 0 p).isSome := by
  rw [Heap.node]
  cases hw : h.walk 0 p with
  | none => rfl
  | some i =>
      rw [Option.bind_some, List.getElem?_eq_getElem (hh.walk_lt hh.root hw)]
      rfl

/-- The values of a database of the tree. -/
theorem NsTree.sdbGet_node {h : Heap} (hh : NsTree h) {p : List CStr} {node : SdbNode}
    (hp : h.node p = some node) (w : World) (k : CStr) : sdbGet node.sdb w k = h.getAt p k := by
  obtain ⟨i, hi, hnode⟩ := Option.bind_eq_some_iff.mp hp
  rw [(hh.plain i node hnode).1.sdbGet, Heap.getAt, hi, Option.bind_some, Heap.get, hnode,
    Option.bind_some]

/-- A tree that has everything of the other and nothing else is the same. -/
theorem sameTree_of_part {h t : Heap} (hh : NsTree h) (ht : NsTree t) (hpart : Part t h)
    (hback : Part h t) : SameTree h t where
  ns p := by
    rw [hh.isSome_node, ht.isSome_node, Bool.eq_iff_iff]
    exact ⟨hback.ns p, hpart.ns p⟩
  get p node node' hnode hnode' w w' k := by
    rw [hh.sdbGet_node hnode, ht.sdbGet_node hnode']
    ext v
    exact ⟨hback.get p k v, hpart.get p k v⟩

/-- **A tree is the same after it has been saved and loaded** into an empty database. -/
theorem roundTrip {h : Heap} (hb : Built h) (sort : Bool) (junk : UInt8) (w : World) :
    SameTree h (sdbTextLoadInto junk [sdbNode0] w 0 (sdbTextSaveFd h 0 sort)).heap := by
  have hh := hb.tree
  have hsaves := saves_textSave hh sort h.length 0 []
  have hcalls : loadCalls junk (sdbTextSaveFd h 0 sort) = saveCalls h sort h.length 0 [] := by
    have hgrammar := hsaves.grammar []
    rw [List.append_nil] at hgrammar
    rw [sdbTextSaveFd, loadCalls_eq junk hsaves.noNul, hgrammar]
    exact List.append_nil _
  have hempty : PartLoaded h ⟨[sdbNode0], w, 0⟩ := ⟨nsTree_new, part_new h⟩
  obtain ⟨hst, -, hbelow⟩ := run_saveCalls hh sort h.length 0 [] rfl (by rw [Nat.zero_add]) hempty
  rw [sdbTextLoadInto, runTextCalls, hcalls]
  apply sameTree_of_part hh hst.tree hst.part
  refine ⟨fun p hp ↦ ?_, fun p k v hv ↦ ?_⟩
  · obtain ⟨r, hr⟩ := Option.isSome_iff_exists.mp hp
    exact (hbelow p r hr).1
  · obtain ⟨r, hr, hget⟩ := Heap.getAt_eq_some.mp hv
    exact (hbelow p r hr).2 k v hget

/-- A namespace `a/` with a key that begins with a slash and holds a `=` and a newline, and with
a backslash as its value. -/
theorem roundTrip_escaped :
    let name := CStr.ofBytes [97, 47]
    let key := CStr.ofBytes [47, 61, 10]
    let h := (heapSet (sdbNs [sdbNode0] 0 name true).2 World.empty 1 key (CStr.ofBytes [92]) 0).1
    (Built h ∧ h.walk 0 [name] = some 1) ∧
      SameTree h (sdbTextLoadInto 0 [sdbNode0] World.empty 0 (sdbTextSaveFd h 0 true)).heap := by
  intro name key h
  have hb : Built h := by
    apply Built.set
    · apply Built.ns .new
      intro ns hns
      cases hns
    · decide
    · decide
  refine ⟨⟨hb, ?_⟩, roundTrip hb true 0 World.empty⟩
  decide

end SdbStore
