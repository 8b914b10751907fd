import SdbStore.Json.Edges
import SdbStore.Json.Syntax

/-!
# The tokens of well-formed JSON

The tokeniser goes over a well-formed value and is where it was before, and `Node.edges` are the
edges of tokens that it finds there.  A string with the character 127 is well-formed and is refused.
-/

namespace SdbStore.Json

open Lib

/-! ## Passing over bytes -/

/-- Between tokens, at a depth. -/
abbrev between (d : Int) : Lexer := ⟨.gostruct, d, 0⟩

/-- Going over `s` leads from `q` to `q'` and finds the edges `es`, if what is behind is as `ok`
says. -/
def Passes (s : Bytes) (q : Lexer) (es : Nat → List Nat) (q' : Lexer) (ok : Bytes → Prop) : Prop :=
  ∀ t cur, ok t →
    lexAll (s ++ t) q = lexAll t q' ∧ edges (s ++ t) cur q = es cur ++ edges t (cur + s.length) q'

/-- Any bytes. -/
def Any : Bytes → Prop := fun _ ↦ True

/-- A number ends here. -/
def Stops : Bytes → Prop
  | [] => False
  | c :: _ => (isBlank c || c = 44 || closes c) = true

section Passes

variable {s s' : Bytes} {q q' q'' : Lexer} {es es' : Nat → List Nat} {ok ok' : Bytes → Prop}

theorem Passes.nil : Passes [] q (fun _ ↦ []) q Any :=
  fun _ _ _ ↦ ⟨rfl, rfl⟩

theorem Passes.append (h : Passes s q es q' ok) (h' : Passes s' q' es' q'' ok')
    (hok : ∀ t, ok' t → ok (s' ++ t)) :
    Passes (s ++ s') q (fun cur ↦ es cur ++ es' (cur + s.length)) q'' ok' := by
  intro t cur ht
  obtain ⟨hlex, hedges⟩ := h (s' ++ t) cur (hok t ht)
  obtain ⟨hlex', hedges'⟩ := h' t (cur + s.length) ht
  rw [List.append_assoc, List.length_append, ← Nat.add_assoc]
  exact ⟨hlex.trans hlex', by rw [hedges, hedges', List.append_assoc]⟩

/-- One byte. -/
theorem Passes.byte {c : UInt8} (h : lex 2 c q = some q') :
    Passes [c] q (fun cur ↦ if marks c q then [edge c cur q] else []) q' Any :=
  fun t cur _ ↦ ⟨lexAll_of_some h t, edges_of_some h t cur⟩

theorem Passes.weaken (h : Passes s q es q' ok) (hok : ∀ t, ok' t → ok t) : Passes s q es q' ok' :=
  fun t cur ht ↦ h t cur (hok t ht)

theorem Passes.congr (h : Passes s q es q' ok) (hes : ∀ cur, es cur = es' cur) :
    Passes s q es' q' ok :=
  fun t cur ht ↦ ⟨(h t cur ht).1, by rw [(h t cur ht).2, hes]⟩

/-- One byte that is no edge. -/
theorem Passes.cons {c : UInt8} (h : lex 2 c q = some q') (hmarks : marks c q = false)
    (hs : Passes s q' (fun _ ↦ []) q'' ok) : Passes (c :: s) q (fun _ ↦ []) q'' ok := by
  intro t cur ht
  obtain ⟨hlex, hedges⟩ := hs t (cur + 1) ht
  rw [List.cons_append, lexAll_of_some h, edges_of_some h, hmarks, if_neg Bool.false_ne_true,
    hedges, List.length_cons, Nat.add_right_comm, Nat.add_assoc]
  exact ⟨hlex, rfl⟩

/-- Bytes that change nothing. -/
theorem Passes.same (h : ∀ c ∈ s, lex 2 c q = some q ∧ marks c q = false) :
    Passes s q (fun _ ↦ []) q Any := by
  induction s with
  | nil => exact Passes.nil
  | cons c s ih =>
      obtain ⟨hlex, hmarks⟩ := h c List.mem_cons_self
      exact Passes.cons hlex hmarks (ih fun x hx ↦ h x (List.mem_cons_of_mem _ hx))

end Passes

theorem Blanks.passes (ws : Blanks) (d : Int) :
    Passes ws.val (between d) (fun _ ↦ []) (between d) Any := by
  refine Passes.same fun c hc ↦ ?_
  have hidle : (isBlank c || c = 58 || c = 44) = true := by
    rw [ws.blank c hc]
    rfl
  obtain ⟨hquote, hopen, hclose, hbare⟩ := of_idle hidle
  refine ⟨if_pos hidle, ?_⟩
  rw [marks, hopen, hclose, hbare]
  simp only [hquote, decide_false, Bool.or_false, Bool.and_false]

/-! ## Strings -/

/-- No character is 127. -/
def Piece.plain : Piece → Bool
  | .char c _ => c.val.toNat ≠ 127
  | _ => true

/-- In a string. -/
abbrev inString (d : Int) : Lexer := ⟨.gostring, d, 0⟩

/-- A character of ASCII. -/
theorem lex_inString {c : UInt8} (h : 32 ≤ c ∧ c ≤ 126) (hquote : c ≠ 34) (hback : c ≠ 92)
    (d : Int) :
    lex 2 c (inString d) = some (inString d) ∧ marks c (inString d) = false := by
  have hplain : (32 ≤ c && c ≤ 126) = true := by
    rw [Bool.and_eq_true, decide_eq_true_iff, decide_eq_true_iff]
    exact h
  refine ⟨?_, ?_⟩
  · exact (if_neg hback).trans ((if_neg hquote).trans (if_pos hplain))
  · rw [marks]
    simp only [hquote, decide_false, Bool.and_false]

theorem isHex_plain {c : UInt8} (h : isHex c = true) : (32 ≤ c ∧ c ≤ 126) ∧ c ≠ 34 ∧ c ≠ 92 := by
  rw [isHex, isDigit] at h
  grind

/-- The byte that begins a longer character. -/
theorem lex_lead {n : Nat} (h : 192 ≤ n ∧ n ≤ 247) (d : Int) :
    lex 2 (UInt8.ofNat n) (inString d) =
      some ⟨.goutf8, d, if n ≤ 223 then 1 else if n ≤ 239 then 2 else 3⟩ ∧
        marks (UInt8.ofNat n) (inString d) = false := by
  have hn : (UInt8.ofNat n).toNat = n := by
    rw [UInt8.toNat_ofNat']
    exact Nat.mod_eq_of_lt (by omega)
  generalize UInt8.ofNat n = c at hn ⊢
  subst hn
  have hlex : lex 2 c (inString d) =
      if c = 92 then some ⟨.goesc, d, 0⟩
      else if c = 34 then some ⟨.gostruct, d, 0⟩
      else if 32 ≤ c && c ≤ 126 then some ⟨.gostring, d, 0⟩
      else if 192 ≤ c && c ≤ 223 then some ⟨.goutf8, d, 1⟩
      else if c = 239 then some ⟨.goutf8, d, 2⟩
      else if 224 ≤ c && c ≤ 238 then some ⟨.goutf8, d, 2⟩
      else if 240 ≤ c && c ≤ 247 then some ⟨.goutf8, d, 3⟩
      else none := rfl
  simp only [Bool.and_eq_true, decide_eq_true_iff, UInt8.le_iff_toNat_le, ← UInt8.toNat_inj,
    UInt8.reduceToNat] at hlex
  refine ⟨?_, ?_⟩
  · rw [hlex]
    split_ifs
    all_goals first | rfl | omega
  · have hquote : c ≠ 34 := by
      rintro rfl
      exact absurd h.1 (by decide)
    rw [marks]
    simp only [hquote, decide_false, Bool.and_false]

/-- The other bytes of a longer character. -/
theorem lex_continues {n : Nat} (d : Int) {remain : Int} :
    lex 2 (UInt8.ofNat (n % 64 + 128)) ⟨.goutf8, d, remain⟩ =
      some ⟨if remain - 1 = 0 then .gostring else .goutf8, d, remain - 1⟩ := by
  have hn : continues (UInt8.ofNat (n % 64 + 128)) = true := by
    have hlt : n % 64 < 64 := Nat.mod_lt _ (by decide)
    rw [continues, Bool.and_eq_true, decide_eq_true_iff, decide_eq_true_iff, UInt8.le_iff_toNat_le,
      UInt8.le_iff_toNat_le, UInt8.toNat_ofNat']
    change 128 ≤ (n % 64 + 128) % 256 ∧ (n % 64 + 128) % 256 ≤ 191
    omega
  exact if_pos hn

theorem Piece.passes {p : Piece} (h : p.plain = true) (d : Int) :
    Passes p.text (inString d) (fun _ ↦ []) (inString d) Any := by
  cases p with
  | escape c short =>
      have hesc : escapable c = true := by
        simp only [List.mem_cons, List.not_mem_nil, or_false] at short
        rcases short with rfl | rfl | rfl | rfl | rfl | rfl | rfl | rfl
        all_goals rfl
      exact Passes.cons (show lex 2 92 (inString d) = some ⟨.goesc, d, 0⟩ from rfl)
        (Bool.and_false _)
        (Passes.cons (if_pos hesc) rfl Passes.nil)
  | unicode a b c e hex =>
      have hhex : ∀ x ∈ [a, b, c, e], isHex x = true := by
        simp only [List.forall_mem_cons, List.not_mem_nil, false_imp_iff, implies_true, and_true]
        exact ⟨hex.1, hex.2.1, hex.2.2.1, hex.2.2.2⟩
      refine Passes.cons (show lex 2 92 (inString d) = some ⟨.goesc, d, 0⟩ from rfl)
        (Bool.and_false _)
        (Passes.cons (show lex 2 117 ⟨.goesc, d, 0⟩ = some (inString d) from rfl) rfl ?_)
      refine Passes.same fun x hx ↦ ?_
      obtain ⟨hplain, hquote, hback⟩ := isHex_plain (hhex x hx)
      exact lex_inString hplain hquote hback d
  | char c plain =>
      obtain ⟨hlow, hquote, hback⟩ := plain
      have hdel : c.val.toNat ≠ 127 := of_decide_eq_true h
      clear h
      change Passes (String.utf8EncodeChar c) _ _ _ _
      rw [String.utf8EncodeChar]
      generalize c.val.toNat = v at hlow hquote hback hdel ⊢
      by_cases hone : v ≤ 0x7f
      · have hv : (UInt8.ofNat v).toNat = v := by
          rw [UInt8.toNat_ofNat']
          exact Nat.mod_eq_of_lt (by omega)
        have hplain := lex_inString (c := UInt8.ofNat v) (by
          rw [UInt8.le_iff_toNat_le, UInt8.le_iff_toNat_le, hv]
          change 32 ≤ v ∧ v ≤ 126
          omega) (fun h ↦ hquote (by rw [← hv, h]; rfl)) (fun h ↦ hback (by rw [← hv, h]; rfl)) d
        rw [if_pos hone]
        exact Passes.cons hplain.1 hplain.2 Passes.nil
      rw [if_neg hone]
      by_cases htwo : v ≤ 0x7ff
      · have hlead := lex_lead (n := v / 64 % 32 + 192) (by omega) d
        rw [if_pos (by omega)] at hlead
        rw [if_pos htwo]
        exact Passes.cons hlead.1 hlead.2 (Passes.cons (lex_continues d) rfl Passes.nil)
      rw [if_neg htwo]
      by_cases hthree : v ≤ 0xffff
      · have hlead := lex_lead (n := v / 4096 % 16 + 224) (by omega) d
        rw [if_neg (by omega), if_pos (by omega)] at hlead
        rw [if_pos hthree]
        exact Passes.cons hlead.1 hlead.2
          (Passes.cons (lex_continues d) rfl (Passes.cons (lex_continues d) rfl Passes.nil))
      · have hlead := lex_lead (n := v / 262144 % 8 + 240) (by omega) d
        rw [if_neg (by omega), if_neg (by omega)] at hlead
        rw [if_neg hthree]
        exact Passes.cons hlead.1 hlead.2
          (Passes.cons (lex_continues d) rfl (Passes.cons (lex_continues d) rfl
          (Passes.cons (lex_continues d) rfl Passes.nil)))

theorem strText_passes {s : List Piece} (h : ∀ p ∈ s, p.plain = true) (d : Int) :
    Passes (strText s) (inString d) (fun _ ↦ []) (inString d) Any := by
  induction s with
  | nil => exact Passes.nil
  | cons p s ih =>
      refine ((p.passes (h p List.mem_cons_self) d).append
        (ih fun x hx ↦ h x (List.mem_cons_of_mem _ hx))
        fun _ _ ↦ trivial).congr fun _ ↦ rfl

/-- A name or a string with its quotes. -/
theorem quoted_passes {s : List Piece} (h : ∀ p ∈ s, p.plain = true) (d : Int) :
    Passes (34 :: (strText s ++ [34])) (between d)
      (fun cur ↦ if d = 1 then [cur + 1, cur + 1 + (strText s).length] else [])
      (between d) Any := by
  have hbegin := Passes.byte (show lex 2 34 (between d) = some (inString d) from rfl)
  have hend := Passes.byte (show lex 2 34 (inString d) = some (between d) from rfl)
  have hbegins : marks 34 (between d) = decide (d = 1) := by
    change (decide (d = 1) && true || decide (d = 2) && false) = _
    rw [Bool.and_true, Bool.and_false, Bool.or_false]
  have hends : marks 34 (inString d) = decide (d = 1) := Bool.and_true _
  refine (hbegin.append
    ((strText_passes h d).append hend fun _ _ ↦ trivial) fun _ _ ↦ trivial).congr fun cur ↦ ?_
  rw [hbegins, hends]
  by_cases hd : d = 1
  · rw [decide_eq_true hd, if_pos rfl, if_pos rfl, if_pos hd]
    rfl
  · rw [decide_eq_false hd, if_neg Bool.false_ne_true, if_neg Bool.false_ne_true, if_neg hd]
    rfl

/-! ## Numbers and literals -/

/-- A number or a literal goes on. -/
def goesOn (c : UInt8) : Bool := (32 ≤ c && c ≤ 126) && !(isBlank c || c = 44 || closes c)

theorem startsBare_of_isDigit {c : UInt8} (h : isDigit c = true) : startsBare c = true := by
  rw [startsBare, show (48 ≤ c && c ≤ 57) = true from h, Bool.or_true, Bool.true_or, Bool.true_or,
    Bool.true_or]

theorem goesOn_of_isDigit {c : UInt8} (h : isDigit c = true) : goesOn c = true := by
  rw [isDigit] at h
  grind [goesOn, isBlank, closes]

theorem IsInt.isDigit {s : Bytes} (h : IsInt s) : IsDigits s := by
  rcases h with rfl | h
  · refine ⟨List.cons_ne_nil _ _, fun c hc ↦ ?_⟩
    rw [List.mem_singleton.mp hc]
    rfl
  · exact h.1

theorem IsDigits.goes {s : Bytes} (h : IsDigits s) : ∀ x ∈ s, goesOn x = true :=
  fun x hx ↦ goesOn_of_isDigit (h.2 x hx)

theorem IsFrac.goes {s : Bytes} (h : IsFrac s) : ∀ x ∈ s, goesOn x = true := by
  rcases h with rfl | ⟨ds, hds, rfl⟩
  · exact fun x hx ↦ absurd hx List.not_mem_nil
  · exact List.forall_mem_cons.mpr ⟨rfl, hds.goes⟩

theorem IsExp.goes {s : Bytes} (h : IsExp s) : ∀ x ∈ s, goesOn x = true := by
  rcases h with rfl | ⟨e, sign, ds, he, hsign, hds, rfl⟩
  · exact fun x hx ↦ absurd hx List.not_mem_nil
  · have hsigns : ∀ x ∈ sign, goesOn x = true := by
      simp only [List.mem_cons, List.not_mem_nil, or_false] at hsign
      rcases hsign with rfl | rfl | rfl
      all_goals exact List.all_eq_true.mp rfl
    refine List.forall_mem_cons.mpr ⟨?_, List.forall_mem_append.mpr ⟨hsigns, hds.goes⟩⟩
    simp only [List.mem_cons, List.not_mem_nil, or_false] at he
    rcases he with rfl | rfl
    · rfl
    · rfl

/-- How a number or a literal is read. -/
theorem Word.reads (w : Word) :
    ∃ c s, w.val = c :: s ∧ startsBare c = true ∧ ∀ x ∈ s, goesOn x = true := by
  obtain ⟨val, hnumber | hliteral⟩ := w
  · obtain ⟨sign, int, frac, exp, hsign, hint, hfrac, hexp, rfl⟩ := hnumber
    obtain ⟨hne, hdigits⟩ := hint.isDigit
    have hrest : ∀ x ∈ frac ++ exp, goesOn x = true :=
      List.forall_mem_append.mpr ⟨hfrac.goes, hexp.goes⟩
    simp only [List.mem_cons, List.not_mem_nil, or_false] at hsign
    rcases hsign with rfl | rfl
    · obtain ⟨c, s, rfl⟩ := List.exists_cons_of_ne_nil hne
      refine ⟨c, s ++ (frac ++
        exp), by simp, startsBare_of_isDigit (hdigits c List.mem_cons_self), ?_⟩
      refine List.forall_mem_append.mpr ⟨fun x hx ↦ ?_, hrest⟩
      exact goesOn_of_isDigit (hdigits x (List.mem_cons_of_mem _ hx))
    · refine ⟨45, int ++ (frac ++ exp), by simp, rfl, ?_⟩
      exact List.forall_mem_append.mpr ⟨fun x hx ↦ goesOn_of_isDigit (hdigits x hx), hrest⟩
  · simp only [literals, List.mem_cons, List.not_mem_nil, or_false] at hliteral
    rcases hliteral with rfl | rfl | rfl
    · exact ⟨116, _, rfl, rfl, List.all_eq_true.mp rfl⟩
    · exact ⟨102, _, rfl, rfl, List.all_eq_true.mp rfl⟩
    · exact ⟨110, _, rfl, rfl, List.all_eq_true.mp rfl⟩

/-- A number or a literal ends at a byte that is read again. -/
theorem bare_stops {t : Bytes} (h : Stops t) (d : Int) (cur : Nat) :
    lexAll t ⟨.gobare, d, 0⟩ = lexAll t (between d) ∧
      edges t cur ⟨.gobare, d, 0⟩ = (if d = 1 then [cur] else []) ++ edges t cur (between d) := by
  cases t with
  | nil => exact absurd h id
  | cons c t =>
      have hidle := @of_idle c
      have hclose := @not_of_closes c
      have hlex : lex 2 c ⟨.gobare, d, 0⟩ = lex 2 c (between d) := by
        grind [lex, Stops]
      have hmarks : marks c ⟨.gobare, d, 0⟩ = (decide (d = 1) || marks c (between d)) := by
        grind [marks, Stops]
      have hnot : d = 1 → marks c (between d) = false := by
        grind [marks, Stops]
      have hsome : ∃ q, lex 2 c (between d) = some q := by
        cases hc : closes c with
        | true =>
            obtain ⟨hblank, hcolon, hcomma, hquote, hopen, -⟩ := hclose hc
            refine ⟨between (d - 1), ?_⟩
            rw [lex, hblank, hopen, hc]
            simp only [hcolon, hcomma, hquote, decide_false, Bool.or_self, Bool.false_eq_true,
              if_false, if_true]
        | false =>
            have hblank : (isBlank c || c = 58 || c = 44) = true := by
              have hstops : (isBlank c || c = 44 || closes c) = true := h
              rw [hc, Bool.or_false] at hstops
              rw [Bool.or_right_comm, hstops, Bool.true_or]
            exact ⟨between d, if_pos hblank⟩
      obtain ⟨q, hq⟩ := hsome
      rw [lexAll_of_some (hlex.trans hq), lexAll_of_some hq, edges_of_some (hlex.trans hq),
        edges_of_some hq, hmarks]
      refine ⟨rfl, ?_⟩
      by_cases hd : d = 1
      · rw [hnot hd, decide_eq_true hd, Bool.true_or, if_pos rfl, if_pos hd,
          if_neg Bool.false_ne_true, edge, if_pos hd]
        rfl
      · rw [decide_eq_false hd, Bool.false_or, if_neg hd, List.nil_append]
        cases hm : marks c (between d) with
        | false => rfl
        | true =>
            have hcloses : closes c = true := by grind [marks]
            rw [edge, edge, if_neg hd, hcloses]
            rfl

/-- A number or a literal begins. -/
theorem lex_startsBare {c : UInt8} (h : startsBare c = true) (d : Int) :
    lex 2 c (between d) = some ⟨.gobare, d, 0⟩ ∧ marks c (between d) = decide (d = 1) ∧
      ∀ cur, edge c cur (between d) = cur := by
  have hidle : ¬ (isBlank c || c = 58 || c = 44) = true := fun hno ↦ by
    rw [(of_idle hno).2.2.2] at h
    cases h
  have hclose : closes c = false := by
    cases hc : closes c with
    | false => rfl
    | true => rw [(not_of_closes hc).2.2.2.2.2] at h; cases h
  have hquote : c ≠ 34 := by
    rintro rfl
    cases h
  have hopen : opens c = false := by
    cases hc : opens c with
    | false => rfl
    | true =>
        rw [opens, Bool.or_eq_true, decide_eq_true_iff, decide_eq_true_iff] at hc
        rcases hc with rfl | rfl
        · cases h
        · cases h
  refine ⟨?_, ?_, fun cur ↦ ?_⟩
  · rw [lex, hopen, hclose, h]
    simp only [hidle, hquote, Bool.false_eq_true, if_false, if_true]
  · rw [marks, hopen, hclose, h, Bool.or_true, Bool.and_true, Bool.and_false, Bool.or_false]
  · rw [edge, hclose]
    simp only [hquote, decide_false, Bool.or_self, Bool.false_eq_true, if_false]

theorem lex_goesOn {c : UInt8} (h : goesOn c = true) (d : Int) :
    lex 2 c ⟨.gobare, d, 0⟩ = some ⟨.gobare, d, 0⟩ ∧ marks c ⟨.gobare, d, 0⟩ = false := by
  rw [goesOn, Bool.and_eq_true, Bool.not_eq_true', Bool.or_eq_false_iff] at h
  obtain ⟨hplain, hstop, hclose⟩ := h
  rw [lex, marks, hplain, hstop, hclose]
  simp only [Bool.false_eq_true, if_false, if_true, Bool.or_self, Bool.and_false, and_self]

theorem Word.passes (w : Word) (d : Int) :
    Passes w.val (between d) (fun cur ↦ if d = 1 then [cur, cur + w.val.length] else [])
      (between d) Stops := by
  obtain ⟨c, s, hval, hbare, hs⟩ := w.reads
  obtain ⟨hlex, hmarks, hedge⟩ := lex_startsBare hbare d
  have hrest : Passes s ⟨.gobare, d, 0⟩ (fun _ ↦ []) ⟨.gobare, d, 0⟩ Any :=
    Passes.same fun x hx ↦ lex_goesOn (hs x hx) d
  have hstop : Passes [] ⟨.gobare, d, 0⟩ (fun cur ↦ if d = 1 then [cur] else [])
      (between d) Stops :=
    fun t cur ht ↦ bare_stops ht d cur
  have hall := (Passes.byte hlex).append (hrest.append hstop fun _ _ ↦ trivial) fun _ _ ↦ trivial
  rw [List.append_nil, List.singleton_append] at hall
  rw [hval]
  refine hall.congr fun cur ↦ ?_
  rw [hmarks, hedge]
  by_cases hd : d = 1
  · rw [decide_eq_true hd, if_pos rfl, if_pos hd, if_pos hd, List.nil_append, List.length_singleton,
      List.length_cons, List.singleton_append, Nat.add_assoc, Nat.add_comm 1]
  · rw [decide_eq_false hd, if_neg Bool.false_ne_true, if_neg hd, if_neg hd]
    rfl

/-! ## Values -/

/-- No string holds the character 127. -/
def Node.plain {k : Kind} : Node k → Bool
  | .word _ => true
  | .string s => s.all Piece.plain
  | .noElems _ => true
  | .array es => es.plain
  | .noMembers _ => true
  | .object ms => ms.plain
  | .lastElem _ v _ => v.plain
  | .elem _ v _ es => v.plain && es.plain
  | .lastMember m v _ => m.name.all Piece.plain && v.plain
  | .member m v _ ms => m.name.all Piece.plain && (v.plain && ms.plain)

/-- The token of a name. -/
def Name.token (m : Name) (cur : Nat) : Nat × Nat :=
  (cur + m.before.val.length + 1, cur + m.before.val.length + 1 + (strText m.name).length)

/-- The edges of a name. -/
def Name.edges (m : Name) (d : Int) (cur : Nat) : List Nat :=
  if d = 1 then [(m.token cur).1, (m.token cur).2] else []

/-- The edges of the tokens, at the depth `d` in front and with the first byte at `cur`. -/
def Node.edges {k : Kind} : Node k → Int → Nat → List Nat
  | .word w, d, cur => if d = 1 then [cur, cur + w.val.length] else []
  | .string s, d, cur => if d = 1 then [cur + 1, cur + 1 + (strText s).length] else []
  | .noElems ws, d, cur => if d = 1 then [cur, cur + (ws.val.length + 2)] else []
  | .array es, d, cur => (if d = 1 then [cur] else []) ++ es.edges (d + 1) (cur + 1)
  | .noMembers ws, d, cur => if d = 1 then [cur, cur + (ws.val.length + 2)] else []
  | .object ms, d, cur => (if d = 1 then [cur] else []) ++ ms.edges (d + 1) (cur + 1)
  | .lastElem ws v ws', d, cur =>
      v.edges d (cur + ws.val.length) ++
        if d = 2 then [cur + (ws.val.length + (v.text.length + (ws'.val.length + 1)))] else []
  | .elem ws v ws' es, d, cur =>
      v.edges d (cur + ws.val.length) ++
        es.edges d (cur + (ws.val.length + (v.text.length + (ws'.val.length + 1))))
  | .lastMember m v ws', d, cur =>
      m.edges d cur ++ (v.edges d (cur + m.text.length) ++
        if d = 2 then [cur + (m.text.length + (v.text.length + (ws'.val.length + 1)))] else [])
  | .member m v ws' ms, d, cur =>
      m.edges d cur ++ (v.edges d (cur + m.text.length) ++
        ms.edges d (cur + (m.text.length + (v.text.length + (ws'.val.length + 1)))))

section Edges

variable (ws : Blanks) (m : Name) (v : Value) (ws' : Blanks) (es : Node .elems) (ms : Node .members)
    (d : Int) (cur : Nat)

theorem Node.edges_array :
    (Node.array es).edges d cur = (if d = 1 then [cur] else []) ++ es.edges (d + 1) (cur + 1) := rfl

theorem Node.edges_object :
    (Node.object ms).edges d cur = (if d = 1 then [cur] else []) ++ ms.edges (d + 1) (cur + 1) :=
      rfl

theorem Node.edges_lastElem :
    (Node.lastElem ws v ws').edges d cur = v.edges d (cur + ws.val.length) ++
      if d = 2 then [cur + (ws.val.length + (v.text.length + (ws'.val.length + 1)))] else [] := rfl

theorem Node.edges_elem : (Node.elem ws v ws' es).edges d cur = v.edges d (cur + ws.val.length) ++
    es.edges d (cur + (ws.val.length + (v.text.length + (ws'.val.length + 1)))) := rfl

theorem Node.edges_lastMember : (Node.lastMember m v ws').edges d cur =
    m.edges d cur ++ (v.edges d (cur + m.text.length) ++
      if d = 2 then [cur + (m.text.length + (v.text.length + (ws'.val.length + 1)))] else []) := rfl

theorem Node.edges_member : (Node.member m v ws' ms).edges d cur =
    m.edges d cur ++ (v.edges d (cur + m.text.length) ++
      ms.edges d (cur + (m.text.length + (v.text.length + (ws'.val.length + 1))))) := rfl

end Edges

/-- The depth behind. -/
def Kind.behind : Kind → Int → Int
  | .value, d => d
  | .elems, d => d - 1
  | .members, d => d - 1

/-- What may stand behind. -/
def Node.ends {k : Kind} : Node k → Bytes → Prop
  | .word _ => Stops
  | _ => Any

theorem Node.ends_of_stops {k : Kind} (n : Node k) {t : Bytes} (h : Stops t) : n.ends t := by
  cases n with
  | word w => exact h
  | _ => trivial

theorem Node.ends_elems (es : Node .elems) (t : Bytes) : es.ends t := by
  cases es with
  | lastElem => trivial
  | elem => trivial

theorem Node.ends_members (ms : Node .members) (t : Bytes) : ms.ends t := by
  cases ms with
  | lastMember => trivial
  | member => trivial

theorem Node.ends_container {v : Value} (h : v.isContainer = true) (t : Bytes) : v.ends t := by
  cases v with
  | word w => cases h
  | _ => trivial

theorem Blanks.stops (ws : Blanks) {t : Bytes} (h : Stops t) : Stops (ws.val ++ t) := by
  obtain ⟨val, hblank⟩ := ws
  cases val with
  | nil => exact h
  | cons c val =>
      change (isBlank c || c = 44 || closes c) = true
      rw [hblank c List.mem_cons_self]
      rfl

section Bytes

variable {c : UInt8}

theorem Passes.opening (h : opens c = true) (d : Int) :
    Passes [c] (between d) (fun cur ↦ if d = 1 then [cur] else []) (between (d + 1)) Any := by
  obtain ⟨hblank, hcolon, hcomma, hquote⟩ := of_opens h
  have hclose := opens_not_closes h
  have hlex : lex 2 c (between d) = some (between (d + 1)) := by
    rw [lex, hblank, h]
    simp only [hcolon, hcomma, hquote, decide_false, Bool.or_self, Bool.false_eq_true, if_false,
      if_true]
  refine (Passes.byte hlex).congr fun cur ↦ ?_
  rw [marks, edge, h, hclose]
  simp only [hquote, decide_false, Bool.false_or, Bool.true_or, Bool.and_true, Bool.and_false,
    Bool.or_false, Bool.false_eq_true, if_false, decide_eq_true_eq]

theorem Passes.closing (h : closes c = true) (d : Int) :
    Passes [c] (between d) (fun cur ↦ if d = 2 then [cur + 1] else []) (between (d - 1)) Any := by
  obtain ⟨hblank, hcolon, hcomma, hquote, hopen, hbare⟩ := not_of_closes h
  have hlex : lex 2 c (between d) = some (between (d - 1)) := by
    rw [lex, hblank, hopen, h]
    simp only [hcolon, hcomma, hquote, decide_false, Bool.or_self, Bool.false_eq_true, if_false,
      if_true]
  refine (Passes.byte hlex).congr fun cur ↦ ?_
  rw [marks, edge, h, hopen, hbare]
  simp only [hquote, decide_false, Bool.or_self, Bool.and_false, Bool.false_or, Bool.and_true,
    Bool.true_or, if_true, decide_eq_true_eq]

theorem Passes.idle (h : (isBlank c || c = 58 || c = 44) = true) (d : Int) :
    Passes [c] (between d) (fun _ ↦ []) (between d) Any := by
  obtain ⟨hquote, hopen, hclose, hbare⟩ := of_idle h
  refine (Passes.byte (show lex 2 c (between d) =
    some (between d) from if_pos h)).congr fun cur ↦ ?_
  rw [marks, hopen, hclose, hbare]
  simp only [hquote, decide_false, Bool.or_self, Bool.and_false, Bool.false_eq_true, if_false]

end Bytes

theorem Name.passes {m : Name} (h : m.name.all Piece.plain = true) (d : Int) :
    Passes m.text (between d) (m.edges d) (between d) Any := by
  have hquoted := quoted_passes (List.all_eq_true.mp h) d
  have hcolon := (m.colon.passes d).append
      ((Passes.idle (c := 58) rfl d).append (m.after.passes d) fun _ _ ↦ trivial)
    fun _ _ ↦ trivial
  have hall := (m.before.passes d).append
      (hquoted.append hcolon fun _ _ ↦ trivial) fun _ _ ↦ trivial
  have htext : m.before.val ++
      (34 :: (strText m.name ++ [34]) ++ (m.colon.val ++ ([58] ++ m.after.val))) = m.text := by
    rw [Name.text, List.cons_append, List.append_assoc]
    rfl
  rw [htext] at hall
  refine hall.congr fun cur ↦ ?_
  simp only [List.nil_append, List.append_nil]
  rfl

/-- Brackets with nothing in them. -/
theorem brackets_passes (ws : Blanks) {c c' : UInt8} (h : opens c = true) (h' : closes c' = true)
    (d : Int) :
    Passes (c :: (ws.val ++ [c'])) (between d)
      (fun cur ↦ if d = 1 then [cur, cur + (ws.val.length + 2)] else [])
      (between d) Any := by
  have hall := (Passes.opening h d).append ((ws.passes (d + 1)).append (Passes.closing h' (d + 1))
    fun _ _ ↦ trivial) fun _ _ ↦ trivial
  rw [Int.add_sub_cancel] at hall
  refine hall.congr fun cur ↦ ?_
  rw [List.nil_append, List.length_singleton]
  by_cases hd : d = 1
  · rw [if_pos hd, if_pos (by omega), if_pos hd]
    exact congrArg (fun e ↦ [cur, e]) (by omega)
  · rw [if_neg hd, if_neg (by omega), if_neg hd]
    rfl

/-- The tokeniser goes over a value, or over the rest of an array or an object. -/
theorem Node.passes {k : Kind} {n : Node k} (h : n.plain = true) (d : Int) :
    Passes n.text (between d) (n.edges d) (between (k.behind d)) n.ends := by
  induction n generalizing d with
  | word w => exact w.passes d
  | string s => exact quoted_passes (List.all_eq_true.mp h) d
  | noElems ws => exact brackets_passes ws rfl rfl d
  | array es ih =>
      have hall := (Passes.opening (c := 91) rfl d).append
          ((ih h (d + 1)).weaken fun t (_ : Any t) ↦ es.ends_elems t)
        fun _ _ ↦ trivial
      rw [Kind.behind, Int.add_sub_cancel] at hall
      exact hall
  | noMembers ws => exact brackets_passes ws rfl rfl d
  | object ms ih =>
      have hall := (Passes.opening (c := 123) rfl d).append
          ((ih h (d + 1)).weaken fun t (_ : Any t) ↦ ms.ends_members t)
        fun _ _ ↦ trivial
      rw [Kind.behind, Int.add_sub_cancel] at hall
      exact hall
  | lastElem ws v ws' ih =>
      have hall := (ws.passes d).append
          ((ih h d).append ((ws'.passes d).append (Passes.closing (c := 93) rfl d)
        fun _ _ ↦ trivial) fun t _ ↦ v.ends_of_stops
          (by rw [List.append_assoc]; exact ws'.stops rfl)) fun _ _ ↦ trivial
      refine hall.congr fun cur ↦ ?_
      rw [Node.edges_lastElem, List.nil_append, List.nil_append]
      simp only [Nat.add_assoc]
  | elem ws v ws' es ihv ihes =>
      obtain ⟨hv, hes⟩ := Bool.and_eq_true_iff.mp h
      have hcomma := (Passes.idle (c := 44) rfl d).append
          ((ihes hes d).weaken fun t (_ : Any t) ↦ es.ends_elems t)
        fun _ _ ↦ trivial
      have hall := (ws.passes d).append ((ihv hv d).append ((ws'.passes d).append hcomma
        fun _ _ ↦ trivial) fun t _ ↦ v.ends_of_stops
          (by rw [List.append_assoc]; exact ws'.stops rfl)) fun _ _ ↦ trivial
      refine hall.congr fun cur ↦ ?_
      rw [Node.edges_elem, List.nil_append, List.nil_append, List.nil_append]
      simp only [Nat.add_assoc, List.length_singleton]
  | lastMember m v ws' ih =>
      obtain ⟨hm, hv⟩ := Bool.and_eq_true_iff.mp h
      have hall := (Name.passes hm d).append
          ((ih hv d).append ((ws'.passes d).append (Passes.closing (c := 125) rfl d)
        fun _ _ ↦ trivial) fun t _ ↦ v.ends_of_stops
          (by rw [List.append_assoc]; exact ws'.stops rfl)) fun _ _ ↦ trivial
      refine hall.congr fun cur ↦ ?_
      rw [Node.edges_lastMember, List.nil_append]
      simp only [Nat.add_assoc]
  | member m v ws' ms ihv ihms =>
      obtain ⟨hm, hrest⟩ := Bool.and_eq_true_iff.mp h
      obtain ⟨hv, hms⟩ := Bool.and_eq_true_iff.mp hrest
      have hcomma := (Passes.idle (c := 44) rfl d).append
          ((ihms hms d).weaken fun t (_ : Any t) ↦ ms.ends_members t)
        fun _ _ ↦ trivial
      have hall := (Name.passes hm d).append ((ihv hv d).append ((ws'.passes d).append hcomma
        fun _ _ ↦ trivial) fun t _ ↦ v.ends_of_stops
          (by rw [List.append_assoc]; exact ws'.stops rfl)) fun _ _ ↦ trivial
      refine hall.congr fun cur ↦ ?_
      rw [Node.edges_member, List.nil_append, List.nil_append]
      simp only [Nat.add_assoc, List.length_singleton]

/-! ## The tokens of an array and of an object -/

/-- How many bytes of a value are in front of its token. -/
def Node.quote : Value → Nat
  | .string _ => 1
  | _ => 0

/-- The contents of a string, or the text of another value. -/
def Node.content : Value → Bytes
  | .string s => strText s
  | v => v.text

/-- The edges behind a value that is deeper are none, and the bracket that closes the rest of an
array or of an object is one if it ends a token. -/
def Kind.lastEdge : Kind → Int → Nat → List Nat
  | .value, _, _ => []
  | .elems, d, e => if d = 2 then [e] else []
  | .members, d, e => if d = 2 then [e] else []

theorem Node.edges_deep {k : Kind} (n : Node k) {d : Int} (h : 2 ≤ d) (cur : Nat) :
    n.edges d cur = k.lastEdge d (cur + n.text.length) := by
  have hone : ∀ d : Int, 2 ≤ d → ¬ d = 1 := by omega
  induction n generalizing d cur with
  | word w => exact if_neg (hone d h)
  | string s => exact if_neg (hone d h)
  | noElems ws => exact if_neg (hone d h)
  | array es ih =>
      have hnot : ¬ d + 1 = 2 := by omega
      rw [Node.edges_array, if_neg (hone d h), ih (by omega)]
      exact if_neg hnot
  | noMembers ws => exact if_neg (hone d h)
  | object ms ih =>
      have hnot : ¬ d + 1 = 2 := by omega
      rw [Node.edges_object, if_neg (hone d h), ih (by omega)]
      exact if_neg hnot
  | lastElem ws v ws' ih =>
      rw [Node.edges_lastElem, ih h, Node.text]
      simp only [List.length_append, List.length_singleton]
      rfl
  | elem ws v ws' es ihv ihes =>
      rw [Node.edges_elem, ihv h, ihes h, Node.text]
      simp only [List.length_append, List.length_cons, Nat.add_assoc, Nat.add_comm 1]
      rfl
  | lastMember m v ws' ih =>
      rw [Node.edges_lastMember, Name.edges, if_neg (hone d h), ih h, Node.text]
      simp only [List.length_append, List.length_singleton]
      rfl
  | member m v ws' ms ihv ihms =>
      rw [Node.edges_member, Name.edges, if_neg (hone d h), ihv h, ihms h, Node.text]
      simp only [List.length_append, List.length_cons, Nat.add_assoc, Nat.add_comm 1]
      rfl

/-- The token of a value. -/
def Node.token (v : Value) (cur : Nat) : Nat × Nat :=
  (cur + v.quote, cur + v.quote + v.content.length)

theorem Node.edges_one (v : Value) (cur : Nat) :
    v.edges 1 cur = [(v.token cur).1, (v.token cur).2] := by
  cases v with
  | word w => rfl
  | string s => rfl
  | noElems ws =>
      change [cur, _] = [cur, cur + (91 :: (ws.val ++ [93])).length]
      rw [List.length_cons, List.length_append]
      rfl
  | array es =>
      rw [Node.edges_array, Node.edges_deep es (by decide)]
      change [cur, _] = [cur, cur + (91 :: es.text).length]
      rw [List.length_cons, Nat.add_assoc, Nat.add_comm 1]
  | noMembers ws =>
      change [cur, _] = [cur, cur + (123 :: (ws.val ++ [125])).length]
      rw [List.length_cons, List.length_append]
      rfl
  | object ms =>
      rw [Node.edges_object, Node.edges_deep ms (by decide)]
      change [cur, _] = [cur, cur + (123 :: ms.text).length]
      rw [List.length_cons, Nat.add_assoc, Nat.add_comm 1]

/-- The tokens of the elements, or of the names and values in turn. -/
def Node.tokens {k : Kind} : Node k → Nat → List (Nat × Nat)
  | .lastElem ws v _, cur => [v.token (cur + ws.val.length)]
  | .elem ws v ws' es, cur =>
      v.token (cur + ws.val.length) ::
        es.tokens (cur + (ws.val.length + (v.text.length + (ws'.val.length + 1))))
  | .lastMember m v _, cur => [m.token cur, v.token (cur + m.text.length)]
  | .member m v ws' ms, cur =>
      m.token cur :: v.token (cur + m.text.length) ::
        ms.tokens (cur + (m.text.length + (v.text.length + (ws'.val.length + 1))))
  | _, _ => []

/-- The tokens directly inside of the brackets. -/
def Node.inner : Value → Nat → List (Nat × Nat)
  | .array es, cur => es.tokens (cur + 1)
  | .object ms, cur => ms.tokens (cur + 1)
  | _, _ => []

/-- Where the tokens begin and end. -/
def unpair (l : List (Nat × Nat)) : List Nat := l.flatMap fun x ↦ [x.1, x.2]

/-- Inside of the outermost brackets. -/
theorem Node.edges_list {k : Kind} (n : Node k) (hk : k ≠ .value) (cur : Nat) :
    n.edges 1 cur = unpair (n.tokens cur) := by
  induction n generalizing cur with
  | word w => exact absurd rfl hk
  | string s => exact absurd rfl hk
  | noElems ws => exact absurd rfl hk
  | array es ih => exact absurd rfl hk
  | noMembers ws => exact absurd rfl hk
  | object ms ih => exact absurd rfl hk
  | lastElem ws v ws' ih =>
      rw [Node.edges_lastElem, if_neg (by decide), Node.edges_one, List.append_nil]
      rfl
  | elem ws v ws' es ihv ihes =>
      rw [Node.edges_elem, Node.edges_one, ihes (fun h ↦ Kind.noConfusion h)]
      rfl
  | lastMember m v ws' ih =>
      rw [Node.edges_lastMember, if_neg (by decide), Node.edges_one, List.append_nil, Name.edges,
        if_pos rfl]
      rfl
  | member m v ws' ms ihv ihms =>
      rw [Node.edges_member, Node.edges_one, ihms (fun h ↦ Kind.noConfusion h), Name.edges,
        if_pos rfl]
      rfl

theorem Node.edges_zero {v : Value} (h : v.isContainer = true) (cur : Nat) :
    v.edges 0 cur = unpair (v.inner cur) := by
  cases v with
  | word w => cases h
  | string s => cases h
  | noElems ws => rfl
  | array es => exact es.edges_list (fun h ↦ Kind.noConfusion h) (cur + 1)
  | noMembers ws => rfl
  | object ms => exact ms.edges_list (fun h ↦ Kind.noConfusion h) (cur + 1)

end SdbStore.Json
