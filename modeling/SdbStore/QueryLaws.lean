import SdbStore.Arrays
import SdbStore.Foreach
import SdbStore.Ns
import SdbStore.Query

/-!
# What queries do

Two laws of `sdb_querys` and `sdb_query`.  A query of two segments does what the segments do one
after another, as long as the first one finds its own `=` and not that of the second.  And a
query whose result says that nothing has to be saved has changed nothing, as long as none of its
segments is of a form that changes the database without a `=`.
-/

namespace SdbStore

open Lib

/-! ## Queries on databases with namespaces -/

/-- A function of one database, on a database of the heap. -/
def heapRun {α : Type} (none : α) (f : Sdb → World → α × Sdb × World) (st : Heap × World)
    (s : Ref) :
    α × Heap × World :=
  match st.1[s]? with
  | .none => (none, st)
  | .some node =>
      let r := f node.sdb st.2
      (r.1, st.1.set s { node with sdb := r.2.1 }, r.2.2)

/-- `sdb_const_get` on a database of the heap. -/
def heapGet (st : Heap × World) (s : Ref) (key : Bytes) : Option Bytes × Heap × World :=
  heapRun none (fun sdb w ↦
    let r := sdbConstGetLen sdb w (CStr.ofBytes key)
    (r.1.value.map (·.val), r.2)) st s

/-- What the functions that read do with the texts that they get. -/
structure QueryTexts where
  sdbArrayGet : Option Bytes → Int → Option Bytes
  sdbArrayGetNum : Option Bytes → Int → UInt64
  sdbArrayLength : Option Bytes → Int
  sdbJsonGet : Option Bytes → Bytes → Option Bytes
  /-- `sdbkv_match`. -/
  sdbkvMatch : Bytes → Call → Bool
  walkNamespaces : Heap → Ref → Bool → List Bytes
  optionFs : Heap → Ref → Bool
deriving Inhabited

instance : Inhabited World := ⟨.empty⟩

/-- A pair that is listed. -/
def callTexts (c : Call) : Bytes × Bytes := (c.1.val, (c.2.getD CStr.empty).val)

/-- The functions that queries call.  The ones that read get at the database with `sdb_const_get`
and `sdb_foreach` alone, and what they do then is `texts`; the ones that write numbers and plain
values are those of the model, and the others those of `rest`. -/
def heapApi (texts : QueryTexts) (rest : QueryApi (Heap × World) Ref) :
    QueryApi (Heap × World) Ref :=
  { rest with
    sdbConstGet := heapGet
    sdbNs := fun st s name create ↦
      let r := sdbNs st.1 s (CStr.ofBytes name) create
      (r.1, r.2, st.2)
    optionFs := fun st s ↦ texts.optionFs st.1 s
    walkNamespaces := fun st s encode ↦ (texts.walkNamespaces st.1 s encode, st)
    nsNames := fun st s ↦ (st.1.nss s).map (·.name.val)
    sdbForeachList := fun st s ↦
      heapRun [] (fun sdb w ↦ ((sdbForeachList sdb true).map callTexts, sdb, w)) st s
    sdbForeachMatch := fun st s expr ↦
      heapRun [] (fun sdb w ↦
        (((sdbForeachList sdb false).filter (texts.sdbkvMatch expr)).map callTexts, sdb, w)) st s
    sdbArrayGetNum := fun st s key i ↦
      let r := heapGet st s key
      (texts.sdbArrayGetNum r.1 i, r.2)
    sdbArrayGet := fun st s key i ↦
      let r := heapGet st s key
      (texts.sdbArrayGet r.1 i, r.2)
    sdbArrayLength := fun st s key ↦
      let r := heapGet st s key
      (texts.sdbArrayLength r.1, r.2)
    sdbJsonGet := fun st s key p ↦
      let r := heapGet st s key
      (texts.sdbJsonGet r.1 p, r.2)
    sdbSet := fun st s key val ↦
      (heapRun false (fun sdb w ↦ sdbSet sdb w (CStr.ofBytes key) (CStr.ofBytes val) 0) st s).2
    sdbSetOwned := fun st s key val ↦
      (heapRun false (fun sdb w ↦ sdbSetOwned sdb w (CStr.ofBytes key) (CStr.ofBytes val) 0) st s).2
    sdbNumInc := fun st s key n ↦
      heapRun 0 (fun sdb w ↦ sdbNumInc sdb w (CStr.ofBytes key) n 0) st s
    sdbNumDec := fun st s key n ↦
      heapRun 0 (fun sdb w ↦ sdbNumDec sdb w (CStr.ofBytes key) n 0) st s
    sdbArrayAddSorted := fun st s key val ↦
      match val with
      | none => (heapGet st s key).2
      | some val => (heapRun false (fun sdb w ↦
          sdbArrayAddSorted sdb w (CStr.ofBytes key) (CStr.ofBytes val) 0) st s).2 }

section Querys

variable {σ ρ : Type} (api : QueryApi σ ρ)

/-! ## Segments one after another -/

theorem querysLoop_last {r : ρ} {cmd : Bytes} {st : σ} (h : (qSegment api r cmd st).2 = none) :
    querysLoop api r cmd st = (qSegment api r cmd st).1 := by
  rw [querysLoop]
  dsimp only
  split
  · next heq => rw [h] at heq; cases heq
  · rfl

theorem querysLoop_next {r : ρ} {cmd rest : Bytes} {st : σ}
    (hst : (qSegment api r cmd st).1.1 = .next) (h : (qSegment api r cmd st).2 = some rest) :
    querysLoop api r cmd st =
      let t := querysLoop api r rest (qSegment api r cmd st).1.2.2
      (t.1, StrBuf.cat (qSegment api r cmd st).1.2.1 t.2.1, t.2.2) := by
  conv_lhs => rw [querysLoop]
  dsimp only
  split
  · next heq =>
      obtain rfl := Option.some.inj (h.symm.trans heq)
      rfl
  · next hno => exact (hno rest hst h).elim

theorem querysLoop_end {r : ρ} {cmd : Bytes} {st : σ} (hst : (qSegment api r cmd st).1.1 ≠ .next) :
    querysLoop api r cmd st = (qSegment api r cmd st).1 := by
  rw [querysLoop]
  dsimp only
  split
  · next heq _ => exact (hst heq).elim
  · rfl

end Querys

/-- A segment with nothing in it that a quoted value or a reference would need. -/
structure PlainSegment (a : Bytes) : Prop where
  noEnd : 59 ∉ a
  noQuote : 34 ∉ a
  noRef : ¬ [61, 36] <:+: a

/-- The text begins with `#`, after blanks. -/
def Hashes (a : Bytes) : Prop := (a.dropWhile fun c ↦ c = 32 ∨ c = 9).head? = some 35

theorem PlainSegment.of_suffix {a a' : Bytes} (ha : PlainSegment a) (hs : a' <:+ a) :
    PlainSegment a' :=
  ⟨fun h ↦ ha.noEnd (hs.subset h), fun h ↦ ha.noQuote (hs.subset h),
    fun h ↦ ha.noRef (h.trans hs.isInfix)⟩

/-- A plain value ends where the segment does. -/
theorem qParseEq_append {pre post b : Bytes} (ha : PlainSegment (pre ++ 61 :: post)) :
    qParseEq pre (post ++ 59 :: b) = { qParseEq pre post with rest := some b } ∧
      (qParseEq pre post).rest = none := by
  have hend : 59 ∉ post := fun h ↦ ha.noEnd (List.mem_append_right _ (List.mem_cons_of_mem _ h))
  have hcut := cutAt_of_notMem hend
  have hcut' := cutAt_append hend b
  cases post with
  | nil => exact ⟨rfl, rfl⟩
  | cons c l =>
      have hquote : c ≠ 34 := by
        rintro rfl
        exact ha.noQuote (by simp)
      have href : c ≠ 36 := by
        rintro rfl
        exact ha.noRef ⟨pre, l, by simp⟩
      have hplain : ∀ m, qParseEq pre (c :: m) =
          ⟨pre, some (cutAt 59 (c :: m)).1, .text (cutAt 59 (c :: m)).1,
            (cutAt 59 (c :: m)).2⟩ := by
        intro m
        unfold qParseEq
        split
        · next heq => exact absurd (List.cons.inj heq).1 href
        · next heq => exact absurd (List.cons.inj heq).1 hquote
        · rfl
      rw [List.cons_append] at hcut' ⊢
      rw [hplain, hplain, hcut, hcut']
      exact ⟨rfl, rfl⟩

/-- A segment ends at the `;`, if the `=` that it finds is its own. -/
theorem qParse_append {a b : Bytes} (ha : PlainSegment a) (heq : 61 ∈ a ∨ 61 ∉ b) :
    qParse (a ++ 59 :: b) = { qParse a with rest := some b } ∧ (qParse a).rest = none := by
  by_cases hmem : 61 ∈ a
  · obtain ⟨pre, post, rfl, hpre, hcut⟩ := cutAt_of_mem hmem
    have hcut' := cutAt_append hpre (post ++ 59 :: b)
    rw [List.append_assoc, List.cons_append, qParse, qParse, hcut, hcut']
    exact qParseEq_append ha
  · have hb : 61 ∉ a ++ 59 :: b := by
      have := heq.resolve_left hmem
      simp [hmem, this]
    rw [qParse, qParse, cutAt_of_notMem hb, cutAt_of_notMem hmem]
    dsimp only
    rw [cutAt_append ha.noEnd, cutAt_of_notMem ha.noEnd]
    exact ⟨rfl, rfl⟩

theorem dropWhile_blank_append (a b : Bytes) :
    (a ++ 59 :: b).dropWhile (fun c ↦ c = 32 ∨ c = 9) =
      a.dropWhile (fun c ↦ c = 32 ∨ c = 9) ++ 59 :: b := by
  induction a with
  | nil => rfl
  | cons c a ih =>
      by_cases hc : c = 32 ∨ c = 9
      · rw [List.cons_append, List.dropWhile_cons_of_pos (by simpa using hc),
          List.dropWhile_cons_of_pos (by simpa using hc), ih]
      · rw [List.cons_append, List.dropWhile_cons_of_neg (by simpa using hc),
          List.dropWhile_cons_of_neg (by simpa using hc), List.cons_append]

section Kinds

variable {σ ρ : Type} (api : QueryApi σ ρ) {cmd : Bytes} (r : ρ) (st : σ)

theorem qSegment_hash {text : Bytes}
    (h : cmd.dropWhile (fun c ↦ c = 32 ∨ c = 9) = 35 :: text) :
    qSegment api r cmd st =
      ((.next, strbufAppend (hashLine (cutAt 59 text).1), st), (cutAt 59 text).2) := by
  rw [qSegment, h]
  rfl

theorem qSegment_encode {text : Bytes}
    (h : cmd.dropWhile (fun c ↦ c = 32 ∨ c = 9) = 37 :: text) :
    qSegment api r cmd st = (qExec api true (qParse text) r st, (qParse text).rest) := by
  rw [qSegment, h]
  rfl

theorem qSegment_plain {text : Bytes}
    (h : cmd.dropWhile (fun c ↦ c = 32 ∨ c = 9) = text) (hhash : text.head? ≠ some 35)
    (hpct : text.head? ≠ some 37) :
    qSegment api r cmd st = (qExec api false (qParse text) r st, (qParse text).rest) := by
  rw [qSegment, h]
  split
  · exact absurd rfl hhash
  · exact absurd rfl hpct
  · rfl

end Kinds

/-- **A segment** does the same with another one after it. -/
theorem qSegment_append {σ ρ : Type} (api : QueryApi σ ρ) {a b : Bytes} (ha : PlainSegment a)
    (heq : 61 ∈ a ∨ Hashes a ∨ 61 ∉ b) (r : ρ) (st : σ) :
    qSegment api r (a ++ 59 :: b) st = ((qSegment api r a st).1, some b) ∧
      (qSegment api r a st).2 = none := by
  have hsuf : a.dropWhile (fun c ↦ c = 32 ∨ c = 9) <:+ a := List.dropWhile_suffix _
  have hplain := ha.of_suffix hsuf
  -- a `=` is no blank
  have hkeep : 61 ∈ a → 61 ∈ a.dropWhile fun c ↦ c = 32 ∨ c = 9 := by
    intro hmem
    obtain ⟨l, hl⟩ := hsuf
    rw [← hl] at hmem
    rcases List.mem_append.mp hmem with h | h
    · exfalso
      have htake : a.takeWhile (fun c ↦ c = 32 ∨ c = 9) = l :=
        List.append_cancel_right ((List.takeWhile_append_dropWhile ..).trans hl.symm)
      have hblank := List.mem_takeWhile_imp (htake.symm ▸ h)
      exact absurd hblank (by decide)
    · exact h
  have hdrop := dropWhile_blank_append a b
  have hparse : ∀ c, c <:+ a.dropWhile (fun c ↦ c = 32 ∨ c = 9) →
      (61 ∈ a.dropWhile (fun c ↦ c = 32 ∨ c = 9) → 61 ∈ c) → ¬ Hashes a →
      qParse (c ++ 59 :: b) = { qParse c with rest := some b } ∧ (qParse c).rest = none := by
    intro c hc hin hno
    refine qParse_append (hplain.of_suffix hc) ?_
    rcases heq with h | h | h
    · exact .inl (hin (hkeep h))
    · exact absurd h hno
    · exact .inr h
  cases ha' : a.dropWhile fun c ↦ c = 32 ∨ c = 9 with
  | nil =>
      rw [Hashes, ha'] at hparse
      obtain ⟨hp, hrest⟩ := hparse [] (List.suffix_refl _) id nofun
      rw [ha'] at hdrop
      rw [qSegment_plain api r st hdrop (by simp) (by simp),
        qSegment_plain api r st ha' nofun nofun, hp]
      exact ⟨rfl, hrest⟩
  | cons c l =>
      rw [ha', List.cons_append] at hdrop
      rw [ha'] at hplain
      rw [Hashes, ha'] at hparse
      by_cases hhash : c = 35
      · subst hhash
        have hend : 59 ∉ l := fun h ↦ hplain.noEnd (List.mem_cons_of_mem _ h)
        rw [qSegment_hash api r st hdrop, qSegment_hash api r st ha', cutAt_append hend,
          cutAt_of_notMem hend]
        exact ⟨rfl, rfl⟩
      have hhead : (c :: l).head? ≠ some 35 := fun h ↦ hhash (Option.some.inj h)
      by_cases hpct : c = 37
      · subst hpct
        obtain ⟨hp, hrest⟩ := hparse l (List.suffix_cons _ _)
          (fun h ↦ (List.mem_cons.mp h).resolve_left (by decide)) hhead
        rw [qSegment_encode api r st hdrop, qSegment_encode api r st ha', hp]
        exact ⟨rfl, hrest⟩
      · have hhead' : (c :: l).head? ≠ some 37 := fun h ↦ hpct (Option.some.inj h)
        obtain ⟨hp, hrest⟩ := hparse (c :: l) (List.suffix_refl _) id hhead
        rw [List.cons_append] at hp
        rw [qSegment_plain api r st hdrop hhead hhead', qSegment_plain api r st ha' hhead hhead',
          hp]
        exact ⟨rfl, hrest⟩

/-- What is printed of a result; of `NULL` it is nothing. -/
def printed (out : StrBuf) : Bytes := out.getD []

theorem printed_cat (out out' : StrBuf) :
    printed (StrBuf.cat out out') = printed out ++ printed out' := by
  cases out' with
  | none => exact (List.append_nil _).symm
  | some text => rfl

/-- The status in which `sdb_querys` ends. -/
def sdbQuerysStatus {σ ρ : Type} (api : QueryApi σ ρ) (r : ρ) (cmd : CStr) (st : σ) : QStatus :=
  (querysLoop api r cmd.val st).1

/-- The query `a;b`. -/
def CStr.semicolon (a b : CStr) : CStr := a ++ (CStr.ofBytes [59] ++ b)

/-- The query `a;b` leaves the state that `a` and then `b` leave, and prints what they print. -/
def QuerysCompose {σ ρ : Type} (api : QueryApi σ ρ) (r : ρ) (a b : CStr) (st : σ) : Prop :=
  let ra := sdbQuerys api r a st
  let rb := sdbQuerys api r b ra.2
  (sdbQuerys api r (a.semicolon b) st).2 = rb.2 ∧
    printed (sdbQuerys api r (a.semicolon b) st).1 = printed ra.1 ++ printed rb.1

/-- **Queries compose**, if the first one finds no `=` of the second one.  When the second one
fails, nothing is printed at all. -/
theorem querysCompose {σ ρ : Type} (api : QueryApi σ ρ) (r : ρ) {a b : CStr} (st : σ)
    (ha : PlainSegment a.val) (hnext : sdbQuerysStatus api r a st = .next)
    (heq : 61 ∈ a.val ∨ Hashes a.val ∨ 61 ∉ b.val) :
    let st' := (sdbQuerys api r a st).2
    (sdbQuerysStatus api r b st' ≠ .err → QuerysCompose api r a b st) ∧
      (sdbQuerysStatus api r b st' = .err →
        sdbQuerys api r (a.semicolon b) st = (none, (sdbQuerys api r b st').2)) := by
  obtain ⟨hseg, hlast⟩ := qSegment_append api ha heq r st
  have hloop := querysLoop_last api hlast
  rw [sdbQuerysStatus, hloop] at hnext
  have hval : (a.semicolon b).val = a.val ++ 59 :: b.val := rfl
  have hstatus : (qSegment api r (a.val ++ 59 :: b.val) st).1.1 = .next := by
    rw [hseg]
    exact hnext
  have hnext' := querysLoop_next api hstatus (congrArg Prod.snd hseg)
  rw [hseg, ← hval] at hnext'
  have hst : (sdbQuerys api r a st).2 = (qSegment api r a.val st).1.2.2 := by rw [sdbQuerys, hloop]
  have hout : (sdbQuerys api r a st).1 = (qSegment api r a.val st).1.2.1 := by
    rw [sdbQuerys, hloop, hnext]
    rfl
  dsimp only at hnext' ⊢
  rw [hst]
  constructor
  · intro hb
    rw [sdbQuerysStatus] at hb
    refine ⟨?_, ?_⟩
    · rw [sdbQuerys, hnext', hst, sdbQuerys]
    · rw [sdbQuerys, hnext', hst, hout, sdbQuerys]
      dsimp only
      rw [if_neg hb, if_neg hb, printed_cat]
  · intro hb
    rw [sdbQuerysStatus] at hb
    rw [sdbQuerys, hnext', sdbQuerys]
    dsimp only
    rw [if_pos hb]

/-- A number is stored in an empty database, and then printed. -/
theorem querysCompose_inc :
    QuerysCompose (heapApi default default) 0 (CStr.ofBytes [43, 97, 61, 49])
    (CStr.ofBytes [97]) ([sdbNode0], .empty) := by
  refine (@querysCompose _ _ (heapApi default default) 0 (CStr.ofBytes [43, 97, 61, 49])
    (CStr.ofBytes [97]) ([sdbNode0], .empty) ⟨by decide, by decide, by decide⟩ ?_
    (.inl (by decide))).1 ?_
  · rw [sdbQuerysStatus, querysLoop_last (heapApi default default) rfl]
    rfl
  · rw [sdbQuerysStatus, querysLoop_last (heapApi default default) rfl]
    decide

/-- A hash is not printed when the segment after it fails. -/
theorem not_querysCompose_fails :
    PlainSegment (CStr.ofBytes [35, 97]).val ∧
      sdbQuerysStatus (heapApi default default) 0 (CStr.ofBytes [35, 97]) ([sdbNode0], .empty) =
        .next ∧
      ¬ QuerysCompose (heapApi default default) 0 (CStr.ofBytes [35, 97]) (CStr.ofBytes [47])
        ([sdbNode0], .empty) := by
  have hfirst := @querysLoop_last _ _ (heapApi default default) 0 (CStr.ofBytes [35, 97]).val
    ([sdbNode0], .empty) rfl
  have hboth := @querysLoop_next _ _ (heapApi default default) 0
    ((CStr.ofBytes [35, 97]).semicolon (CStr.ofBytes [47])).val [47] ([sdbNode0], .empty) rfl rfl
  rw [@querysLoop_last _ _ (heapApi default default) 0 [47] _ rfl] at hboth
  have hnone : sdbQuerys (heapApi default default) 0
      ((CStr.ofBytes [35, 97]).semicolon (CStr.ofBytes [47])) ([sdbNode0], .empty) =
        (none, [sdbNode0], .empty) := by
    rw [sdbQuerys, hboth]
    rfl
  refine ⟨⟨by decide, by decide, by decide⟩, ?_, fun hcompose ↦ ?_⟩
  · rw [sdbQuerysStatus, hfirst]
    rfl
  · have hprint := hcompose.2
    rw [hnone] at hprint
    have hempty := (List.append_eq_nil_iff.mp hprint.symm).1
    rw [sdbQuerys, hfirst] at hempty
    cases hempty

/-! ## Segments that only read -/

/-- `sdb_query`: whether there is something to save, what is printed, and the state. -/
def sdbQuery {σ ρ : Type} (api : QueryApi σ ρ) (r : ρ) (cmd : CStr) (st : σ) : Bool × Bytes × σ :=
  let mustSave : Bool := cmd.val.head? = some 126 ∨ 61 ∈ cmd.val
  let t := sdbQuerys api r cmd st
  (mustSave, printed t.1, t.2)

/-- The text in brackets, without a value after it, is no reason to write. -/
def quietSpec : Bytes → Bool
  | 33 :: spec => spec.head? = some 43
  | 35 :: _ => false
  | 43 :: spec => spec ≠ []
  | 45 :: _ => false
  | _ => true

/-- Neither is the command, in a database that may read files if `fs`. -/
def quietCmd (fs : Bool) : Bytes → Bool
  | 46 :: _ => !fs
  | 126 :: key => key.head? = some 126
  | 43 :: key => key.head? = some 91
  | 45 :: key => key.head? = some 91
  | 91 :: spec => quietSpec spec
  | _ => true

section Quiet

variable {σ ρ : Type} (api : QueryApi σ ρ)

/-- The last part of a segment is of a form that only reads.  What `$key` stands for is looked
up. -/
def quietAt (s : ρ) (cmd : Bytes) (st : σ) : Bool :=
  match cmd with
  | 36 :: key =>
      let g := api.sdbConstGet st s key
      quietCmd (api.optionFs g.2 s) (g.1.getD [])
  | 91 :: _ =>
      match cutAt 93 cmd with
      | (_, none) => true
      | (spec, some _) => quietCmd (api.optionFs st s) spec
  | _ => quietCmd (api.optionFs st s) cmd

/-- So is a segment without `=` in the namespace that it names, if there is one. -/
def quietWalk (r : ρ) (cmd : Bytes) (st : σ) : Bool :=
  let parts := (cutAt 59 cmd).1.splitOn 47
  let t := qPath api false parts.dropLast r st
  match t.1 with
  | none => true
  | some s => quietAt api s (parts.getLastD []) t.2

/-- The first segment of a query. -/
def quietSegment (r : ρ) (cmd : Bytes) (st : σ) : Bool :=
  match cmd.dropWhile fun c ↦ c = 32 ∨ c = 9 with
  | 35 :: _ => true
  | 37 :: cmd => quietWalk api r cmd st
  | cmd => quietWalk api r cmd st

/-- Every segment that is run is of a form that only reads, in the state before it. -/
inductive QuietQuery (r : ρ) : Bytes → σ → Prop
  | last {cmd : Bytes} {st : σ} (hq : quietSegment api r cmd st = true)
      (hlast : (qSegment api r cmd st).1.1 ≠ .next ∨ (qSegment api r cmd st).2 = none) :
      QuietQuery r cmd st
  | next {cmd rest : Bytes} {st : σ} (hq : quietSegment api r cmd st = true)
      (hst : (qSegment api r cmd st).1.1 = .next) (hrest : (qSegment api r cmd st).2 = some rest)
      (hquiet : QuietQuery r rest (qSegment api r cmd st).1.2.2) : QuietQuery r cmd st

/-- The functions that read leave a state that is as good as the one before, in a sense `R`. -/
structure QueryApi.Reads (R : σ → σ → Prop) : Prop where
  refl : ∀ st, R st st
  trans : ∀ st st' st'', R st st' → R st' st'' → R st st''
  sdbConstGet : ∀ st s k, R st (api.sdbConstGet st s k).2
  sdbNs : ∀ st s name, R st (api.sdbNs st s name false).2
  walkNamespaces : ∀ st s encode, R st (api.walkNamespaces st s encode).2
  sdbForeachList : ∀ st s, R st (api.sdbForeachList st s).2
  sdbForeachMatch : ∀ st s expr, R st (api.sdbForeachMatch st s expr).2
  sdbArrayGetNum : ∀ st s k i, R st (api.sdbArrayGetNum st s k i).2
  sdbArrayGet : ∀ st s k i, R st (api.sdbArrayGet st s k i).2
  sdbArrayLength : ∀ st s k, R st (api.sdbArrayLength st s k).2
  sdbJsonGet : ∀ st s k p, R st (api.sdbJsonGet st s k p).2
  sdbArrayAddSorted : ∀ st s k, R st (api.sdbArrayAddSorted st s k none)

variable {api} {R : σ → σ → Prop} (hr : api.Reads R)
include hr

theorem qArrayPm_reads {q : Query ρ} (heq : q.eq = none) {spec : Bytes} (hne : spec ≠ []) (st : σ) :
    R st (qArrayPm api q 43 spec st).2.2 := by
  rw [qArrayPm, heq]
  split
  · exact hr.refl st
  · dsimp only
    split
    · exact hr.refl st
    · have hi : ¬ atoi (43 :: spec) < 0 := by
        have htail : atoi (43 :: spec) = digitsVal 10 spec := rfl
        omega
      simp only [if_neg hi]
      split
      · exact hr.sdbArrayGet _ _ _ _
      · exact hr.sdbArrayGet _ _ _ _

theorem qArrayPrint_reads (q : Query ρ) (spec : Bytes) (st : σ) :
    R st (qArrayPrint api q spec st).2.2 := by
  rw [qArrayPrint]
  split
  · dsimp only
    split
    · exact hr.sdbConstGet _ _ _
    · exact hr.sdbConstGet _ _ _
  · exact hr.sdbArrayGet _ _ _ _

theorem qArray_reads {q : Query ρ} (heq : q.eq = none) (hval : q.val = none)
    (hq : quietSpec (q.cmd.drop 1) = true) (st : σ) : R st (qArray api q st).2.2 := by
  unfold qArray
  revert hq
  generalize q.cmd.drop 1 = spec
  intro hq
  split
  · exact hr.sdbArrayLength _ _ _
  · rw [hval]
    exact hr.sdbArrayAddSorted _ _ _
  · next spec hno =>
      have hhead : spec.head? = some 43 := by simpa [quietSpec] using hq
      obtain ⟨tail, rfl⟩ := List.head?_eq_some_iff.mp hhead
      exact (hno tail rfl).elim
  · cases hq
  · cases hq
  · refine qArrayPm_reads hr heq ?_ st
    simpa [quietSpec] using hq
  · cases hq
  · rw [heq]
    exact qArrayPrint_reads hr q _ st

theorem qKvGet_reads (q : Query ρ) (st : σ) : R st (qKvGet api q st).2.2 := by
  unfold qKvGet
  split
  · exact hr.sdbConstGet _ _ _
  · dsimp only
    split
    · exact hr.sdbJsonGet _ _ _ _
    · split
      · exact hr.sdbJsonGet _ _ _ _
      · exact hr.sdbJsonGet _ _ _ _
  · exact hr.sdbConstGet _ _ _

theorem qRun_reads {q : Query ρ} (heq : q.eq = none) (hval : q.val = none) (st : σ)
    (hq : quietCmd (api.optionFs st q.s) q.cmd = true) : R st (qRun api q st).2.2 := by
  have hdrop : ∀ {c cmd}, q.cmd = c :: cmd → q.cmd.drop 1 = cmd := by
    intro c cmd h
    rw [h]
    rfl
  have hincdec : (q.cmd.drop 1).head? = some 91 → R st (qIncdec api q st).2.2 := by
    intro hhead
    obtain ⟨idx, hidx⟩ := List.head?_eq_some_iff.mp hhead
    unfold qIncdec
    rw [hidx, heq]
    split
    · split
      · exact hr.refl st
      · exact hr.sdbArrayGetNum _ _ _ _
    · next hno => exact (hno idx rfl).elim
  unfold qRun
  split
  · next file hcmd =>
      rw [hcmd] at hq
      have hfs : api.optionFs st q.s = false := by simpa [quietCmd] using hq
      rw [hfs, if_neg (by decide)]
      exact hr.refl st
  · next key hcmd =>
      rw [hcmd] at hq
      have hhead : key.head? = some 126 := by simpa [quietCmd] using hq
      obtain ⟨expr, rfl⟩ := List.head?_eq_some_iff.mp hhead
      rw [qGrep, hdrop hcmd]
      exact hr.sdbForeachMatch _ _ _
  · next key hcmd =>
      refine hincdec ?_
      rw [hdrop hcmd]
      rw [hcmd] at hq
      simpa [quietCmd] using hq
  · next key hcmd =>
      refine hincdec ?_
      rw [hdrop hcmd]
      rw [hcmd] at hq
      simpa [quietCmd] using hq
  · next spec hcmd =>
      refine qArray_reads hr heq hval ?_ st
      rw [hdrop hcmd]
      rw [hcmd] at hq
      exact hq
  · rw [qKv, heq]
    exact qKvGet_reads hr q st

theorem qDump_reads {q : Query ρ} {st : σ} {t : StrBuf × σ} (h : qDump api q st = some t) :
    R st t.2 := by
  unfold qDump at h
  split at h
  · obtain rfl := Option.some.inj h
    exact hr.walkNamespaces _ _ _
  · split at h
    · obtain rfl := Option.some.inj h
      exact hr.refl st
    · split at h
      · obtain rfl := Option.some.inj h
        exact hr.sdbForeachList _ _
      · cases h

theorem qDispatch_reads (encode : Bool) (s : ρ) (cmd : Bytes) (st : σ)
    (hq : quietAt api s cmd st = true) :
    R st (qDispatch api encode none none s cmd st).2.2 := by
  unfold qDispatch
  dsimp only
  split
  · exact hr.trans _ _ _ (hr.sdbConstGet _ _ _) (qRun_reads hr rfl rfl _ rfl)
  · split
    · next h => exact qDump_reads hr h
    · exact qRun_reads hr rfl rfl st hq
  · next spec =>
      rw [quietAt] at hq
      split
      · exact hr.refl st
      · next hcut =>
          simp only [hcut] at hq
          exact qRun_reads hr rfl rfl st hq
  · exact hr.trans _ _ _ (hr.sdbConstGet _ _ _) (qRun_reads hr rfl rfl _ hq)
  · next hcut href =>
      refine qRun_reads hr rfl rfl st ?_
      unfold quietAt at hq
      split at hq
      · exact (href _ rfl).elim
      · exact (hcut _ rfl).elim
      · exact hq

theorem qPath_reads (names : List Bytes) (s : ρ) (st : σ) :
    R st (qPath api false names s st).2 := by
  induction names generalizing s st with
  | nil => exact hr.refl st
  | cons name names ih =>
      rw [qPath]
      split
      · exact hr.sdbNs _ _ _
      · exact hr.trans _ _ _ (hr.sdbNs _ _ _) (ih _ _)

omit hr in
/-- A text without `=` is cut at the `;` only. -/
theorem qParse_of_notMem {cmd : Bytes} (h : 61 ∉ cmd) :
    qParse cmd = ⟨(cutAt 59 cmd).1, none, .absent, (cutAt 59 cmd).2⟩ := by
  rw [qParse, cutAt_of_notMem h]

theorem qExec_reads (encode : Bool) (r : ρ) {cmd : Bytes} (h : 61 ∉ cmd) (st : σ)
    (hq : quietWalk api r cmd st = true) : R st (qExec api encode (qParse cmd) r st).2.2 := by
  rw [quietWalk] at hq
  rw [qParse_of_notMem h, qExec]
  dsimp only at hq ⊢
  rw [qWalk, Option.isSome_none]
  have hpath := qPath_reads hr ((cutAt 59 cmd).1.splitOn 47).dropLast r st
  split
  · exact hpath
  · next hs =>
      rw [hs] at hq
      exact hr.trans _ _ _ hpath (qDispatch_reads hr encode _ _ _ hq)

omit hr in
theorem notMem_cutAt {c x : UInt8} {l m : Bytes} (h : x ∉ l) (hm : (cutAt c l).2 = some m) :
    x ∉ m := by
  by_cases hc : c ∈ l
  · obtain ⟨pre, post, rfl, -, hcut⟩ := cutAt_of_mem hc
    rw [hcut] at hm
    obtain rfl := Option.some.inj hm
    exact fun hx ↦ h (List.mem_append_right _ (List.mem_cons_of_mem _ hx))
  · rw [cutAt_of_notMem hc] at hm
    cases hm

/-- One segment. -/
theorem qSegment_reads (r : ρ) {cmd : Bytes} (h : 61 ∉ cmd) (st : σ)
    (hq : quietSegment api r cmd st = true) :
    R st (qSegment api r cmd st).1.2.2 ∧ ∀ rest, (qSegment api r cmd st).2 = some rest →
      61 ∉ rest := by
  have hno : ∀ c ∈ cmd.dropWhile (fun c ↦ c = 32 ∨ c = 9), c ∈ cmd :=
    fun c hc ↦ (List.dropWhile_suffix _).subset hc
  unfold quietSegment at hq
  unfold qSegment
  split
  · next text htext =>
      rw [htext] at hno
      refine ⟨hr.refl st, fun rest hrest ↦ notMem_cutAt (fun hc ↦ h (hno _ ?_)) hrest⟩
      exact List.mem_cons_of_mem _ hc
  · next text htext =>
      rw [htext] at hno hq
      have htext : 61 ∉ text := fun hc ↦ h (hno _ (List.mem_cons_of_mem _ hc))
      refine ⟨qExec_reads hr true r htext st hq, fun rest hrest ↦ ?_⟩
      rw [qParse_of_notMem htext] at hrest
      exact notMem_cutAt htext hrest
  · next hhash hpct =>
      have htext : 61 ∉ cmd.dropWhile fun c ↦ c = 32 ∨ c = 9 := fun hc ↦ h (hno _ hc)
      refine ⟨qExec_reads hr false r htext st ?_, fun rest hrest ↦ ?_⟩
      · split at hq
        · next heq => exact (hhash _ heq).elim
        · next heq => exact (hpct _ heq).elim
        · exact hq
      · rw [qParse_of_notMem htext] at hrest
        exact notMem_cutAt htext hrest

/-- **A quiet query** only reads. -/
theorem QuietQuery.reads {r : ρ} {cmd : Bytes} {st : σ} (hq : QuietQuery api r cmd st)
    (h : 61 ∉ cmd) : R st (querysLoop api r cmd st).2.2 := by
  induction hq with
  | last hseg hlast =>
      have hread := (qSegment_reads hr r h _ hseg).1
      rcases hlast with hst | hrest
      · rwa [querysLoop_end api hst]
      · rwa [querysLoop_last api hrest]
  | next hseg hst hrest _ ih =>
      obtain ⟨hread, hno⟩ := qSegment_reads hr r h _ hseg
      rw [querysLoop_next api hst hrest]
      exact hr.trans _ _ _ hread (ih (hno _ hrest))

end Quiet

/-! ## What there is to save -/

/-- The value of a key in a database, as `sdb_get` gives it. -/
def heapValue (st : Heap × World) (s : Ref) (k : CStr) : Option CStr :=
  st.1[s]?.bind fun node ↦ sdbGet node.sdb st.2 k

/-- `sdb_query` says that there is something to save if it has changed a value. -/
def QueryReports (api : QueryApi (Heap × World) Ref) (r : Ref) (cmd : CStr) (st : Heap × World) :
    Prop :=
  (∃ s k, heapValue (sdbQuery api r cmd st).2.2 s k ≠ heapValue st s k) →
    (sdbQuery api r cmd st).1 = true

/-- Every table is well formed. -/
def Heap.WF (h : Heap) : Prop := ∀ node ∈ h, node.sdb.WF

/-- What `sdb_get` finds, by the entry in memory. -/
theorem sdbGet_eq_match (s : Sdb) (w : World) (k : CStr) :
    sdbGet s w k = match sdbHtFindKvp s k with
      | none => (sdbGetDisk s k).value
      | some kv => kv.value.bind fun v ↦
          if v = CStr.empty ∨ s.timestamped ∧ kv.expire ≠ 0 ∧ w.now > kv.expire then none
          else some v := by
  unfold sdbGet sdbConstGetLen
  cases sdbHtFindKvp s k with
  | none => rfl
  | some kv =>
      dsimp only
      cases kv.value with
      | none => rfl
      | some v =>
          dsimp only
          rw [Option.bind_some]
          by_cases hv : v = CStr.empty
          · rw [if_pos hv, if_pos (.inl hv)]
            rfl
          · rw [if_neg hv]
            by_cases hx : s.timestamped ∧ kv.expire ≠ 0 ∧ w.now > kv.expire
            · rw [if_pos hx, if_pos (.inr hx)]
              rfl
            · rw [if_neg hx, if_neg (not_or.mpr ⟨hv, hx⟩)]

theorem sdbGetDisk_of_notFound {s : Sdb} {k : CStr} (h : (cdbLookup s.db k).1 = 0) :
    sdbGetDisk s k = .null := by
  unfold sdbGetDisk
  split
  · rfl
  · dsimp only
    rw [if_pos (by rw [h]; decide)]

theorem Sdb.Frame.timestamped {s s' : Sdb} (h : s.Frame s') : s'.timestamped = s.timestamped := by
  rw [h]

theorem now_sdbUnset (s : Sdb) (w : World) (key : CStr) : (sdbUnset s w key 0).2.2.now = w.now := by
  rcases sdbSetInternal_world s w key CStr.empty false 0 with h | h
  · exact congrArg World.now h
  · refine (congrArg World.now h).trans ?_
    rw [sdbJournalLog]
    split
    · rfl
    · rfl

/-- A value that has expired is unset, and was not to be seen before. -/
theorem sdbGet_sdbUnset_expired {s : Sdb} (hw : s.WF) (w : World) {key v : CStr} {kv : SdbKv}
    (hkv : sdbHtFindKvp s key = some kv) (hv : kv.value = some v) (hne : v ≠ CStr.empty)
    (hx : s.timestamped ∧ kv.expire ≠ 0 ∧ w.now > kv.expire) (k : CStr) :
    sdbGet (sdbUnset s w key 0).2.1 (sdbUnset s w key 0).2.2 k = sdbGet s w k := by
  have hspec := sdbSetInternal_spec hw w key CStr.empty false 0
  have hdisk : sdbGetDisk (sdbUnset s w key 0).2.1 k = sdbGetDisk s k := hspec.disk k
  have htime : (sdbUnset s w key 0).2.1.timestamped = s.timestamped := hspec.frame.timestamped
  have hfind := hspec.find k
  rw [sdbGet_eq_match, sdbGet_eq_match, hdisk, htime, now_sdbUnset,
    show sdbHtFindKvp (sdbUnset s w key 0).2.1 k = _ from hfind]
  by_cases hk : k = key
  · subst hk
    have hbefore : (kv.value.bind fun v ↦ if v = CStr.empty ∨ s.timestamped ∧ kv.expire ≠ 0 ∧
        w.now > kv.expire then none else some v) = none := by
      rw [hv, Option.bind_some, if_pos (.inr hx)]
    rw [if_pos rfl, hkv]
    dsimp only
    rw [hbefore]
    unfold setEntry
    by_cases hlen : k.length ≥ 0xff ∨ CStr.empty.length ≥ 0xffffff
    · rw [if_pos hlen]
      exact hbefore
    · rw [if_neg hlen]
      simp only [hv]
      by_cases hlook : (cdbLookup s.db k).1 = 0
      · rw [if_neg (not_not.mpr hlook), sdbGetDisk_of_notFound hlook]
        rfl
      · rw [if_pos hlook, if_neg (by simp), if_neg (Ne.symm hne)]
        rfl
  · rw [if_neg hk]

/-- A function on one database changes no value. -/
structure Sdb.Unchanged (s : Sdb) (w : World) (s' : Sdb) (w' : World) : Prop where
  wf : s'.WF
  now : w'.now = w.now
  get : ∀ k, sdbGet s' w' k = sdbGet s w k

theorem Sdb.Unchanged.refl {s : Sdb} (hw : s.WF) (w : World) : s.Unchanged w s w :=
  ⟨hw, rfl, fun _ ↦ rfl⟩

/-- A lookup changes no value. -/
theorem unchanged_sdbConstGetLen {s : Sdb} (hw : s.WF) (w : World) (key : CStr) :
    s.Unchanged w (sdbConstGetLen s w key).2.1 (sdbConstGetLen s w key).2.2 := by
  unfold sdbConstGetLen
  split
  · exact .refl hw w
  · next kv hkv =>
      split
      · exact .refl hw w
      · next v hv =>
          split
          · exact .refl hw w
          · next hne =>
              split
              · next hx =>
                  exact ⟨(sdbSetInternal_spec hw w key CStr.empty false 0).wf, now_sdbUnset s w key,
                    sdbGet_sdbUnset_expired hw w hkv hv hne hx⟩
              · exact .refl hw w

/-- No value has changed, if the tables were well formed. -/
def SameValues (st st' : Heap × World) : Prop :=
  st.1.WF → st'.1.WF ∧ ∀ s k, heapValue st' s k = heapValue st s k

/-- The world matters to `sdb_get` for the time only. -/
theorem sdbGet_now {s : Sdb} {w w' : World} (h : w'.now = w.now) (k : CStr) :
    sdbGet s w' k = sdbGet s w k := by
  rw [sdbGet_eq_match, sdbGet_eq_match, h]

theorem heapRun_same {α : Type} (a : α) {f : Sdb → World → α × Sdb × World}
    (hf : ∀ (sdb : Sdb) w, sdb.WF → sdb.Unchanged w (f sdb w).2.1 (f sdb w).2.2)
    (st : Heap × World) (s : Ref) : SameValues st (heapRun a f st s).2 := by
  intro hw
  unfold heapRun
  cases hnode : st.1[s]? with
  | none => exact ⟨hw, fun _ _ ↦ rfl⟩
  | some node =>
      obtain ⟨hwf, hnow, hget⟩ := hf node.sdb st.2 (hw node (List.mem_of_getElem? hnode))
      have hlt := (List.getElem?_eq_some_iff.mp hnode).1
      refine ⟨fun node' hmem ↦ ?_, fun s' k ↦ ?_⟩
      · rcases List.mem_or_eq_of_mem_set hmem with hmem | rfl
        · exact hw node' hmem
        · exact hwf
      · rw [heapValue, heapValue]
        dsimp only
        rw [List.getElem?_set]
        by_cases hs : s = s'
        · subst hs
          rw [if_pos rfl, if_pos hlt, hnode, Option.bind_some, Option.bind_some, hget]
        · rw [if_neg hs]
          congr 1
          funext node'
          exact sdbGet_now hnow k

theorem heapGet_same (st : Heap × World) (s : Ref) (key : Bytes) :
    SameValues st (heapGet st s key).2 :=
  heapRun_same none (fun _ w hw ↦ unchanged_sdbConstGetLen hw w (CStr.ofBytes key)) st s

theorem sdbNs_false (h : Heap) (s : Ref) (name : CStr) : (sdbNs h s name false).2 = h := by
  unfold sdbNs
  split
  · rfl
  · split
    · rfl
    · split
      · rfl
      · rfl

/-- The functions that read change no value. -/
theorem reads_heapApi (texts : QueryTexts) (rest : QueryApi (Heap × World) Ref) :
    (heapApi texts rest).Reads SameValues where
  refl _ hw := ⟨hw, fun _ _ ↦ rfl⟩
  trans _ _ _ h₁ h₂ hw := by
    obtain ⟨hw₁, hv₁⟩ := h₁ hw
    obtain ⟨hw₂, hv₂⟩ := h₂ hw₁
    exact ⟨hw₂, fun s k ↦ (hv₂ s k).trans (hv₁ s k)⟩
  sdbConstGet := heapGet_same
  sdbNs st s name hw := by
    refine ⟨?_, fun s' k ↦ ?_⟩
    · change Heap.WF (sdbNs st.1 s (CStr.ofBytes name) false).2
      rwa [sdbNs_false]
    · change heapValue ((sdbNs st.1 s (CStr.ofBytes name) false).2, st.2) s' k = _
      rw [sdbNs_false]
  walkNamespaces _ _ _ hw := ⟨hw, fun _ _ ↦ rfl⟩
  sdbForeachList st s := heapRun_same [] (fun _ w hw ↦ .refl hw w) st s
  sdbForeachMatch st s expr := heapRun_same [] (fun _ w hw ↦ .refl hw w) st s
  sdbArrayGetNum st s k i := heapGet_same st s k
  sdbArrayGet st s k i := heapGet_same st s k
  sdbArrayLength st s k := heapGet_same st s k
  sdbJsonGet st s k p := heapGet_same st s k
  sdbArrayAddSorted st s k := heapGet_same st s k

/-- **`sdb_query`** says that there is something to save whenever it has changed a value, if its
text says so by a `=` or a `~` at its beginning, or if every segment that is run only reads. -/
theorem queryReports (texts : QueryTexts) (rest : QueryApi (Heap × World) Ref) (r : Ref)
    {cmd : CStr} {st : Heap × World} (hw : st.1.WF)
    (hcmd : cmd.val.head? = some 126 ∨ 61 ∈ cmd.val ∨
      QuietQuery (heapApi texts rest) r cmd.val st) :
    QueryReports (heapApi texts rest) r cmd st := by
  rintro ⟨s, k, hchange⟩
  rw [sdbQuery]
  dsimp only
  rw [decide_eq_true_eq]
  rcases hcmd with htilde | heq | hquiet
  · exact .inl htilde
  · exact .inr heq
  · by_contra hno
    have hread := (hquiet.reads (reads_heapApi texts rest) fun h ↦ hno (.inr h)) hw
    exact hchange (hread.2 s k)

/-- A key that is not there is printed. -/
theorem queryReports_get :
    QueryReports (heapApi default default) 0 (CStr.ofBytes [97]) ([sdbNode0], .empty) := by
  refine queryReports default default 0 (fun node hnode ↦ ?_) (.inr (.inr (.last rfl (.inr rfl))))
  rw [List.mem_singleton.mp hnode]
  exact (sound_of_htNew rfl).wf

/-- `+a` changes a value, and nothing is said to be saved. -/
theorem not_queryReports_inc :
    ¬ QueryReports (heapApi default default) 0 (CStr.ofBytes [43, 97]) ([sdbNode0], .empty) := by
  intro h
  refine absurd (h ⟨0, CStr.ofBytes [97], ?_⟩) (by decide)
  rw [sdbQuery, sdbQuerys, querysLoop_last (heapApi default default) rfl]
  decide

end SdbStore
