import Mathlib.Data.List.Forall2
import Mathlib.Tactic.Common

/-!
# Matching a list against a pattern

Two loops over a list and a pattern, with an arbitrary test for an element to fit an element of
the pattern.

`scan` looks for the pattern in one pass: an element that does not fit ends the attempt and the
next attempt begins behind it.  It misses occurrences that begin inside of a failed attempt;
`scan_iff` says which ones it finds.

`globLoop` matches the whole list against a pattern with stars.  It remembers the last star
only, and `globLoop_iff` says that this is enough.
-/

namespace SdbStore.Lib.Pattern

universe u v

variable {α : Type u} {β : Type v} (eq : β → α → Bool)

/-- An element for every element of the pattern. -/
def Fits (p : List β) (m : List α) : Prop := List.Forall₂ (fun b a ↦ eq b a = true) p m

variable {eq}

theorem Fits.length_eq {p : List β} {m : List α} (h : Fits eq p m) : p.length = m.length :=
  List.Forall₂.length_eq h

theorem Fits.getElem? {p : List β} {m : List α} (h : Fits eq p m) {i : Nat} {b : β} {a : α}
    (hb : p[i]? = some b) (ha : m[i]? = some a) : eq b a = true := by
  induction h generalizing i with
  | nil => simp at hb
  | cons hd _ ih =>
      cases i with
      | zero =>
          simp only [List.getElem?_cons_zero, Option.some.injEq] at hb ha
          rwa [← hb, ← ha]
      | succ i => exact ih (by simpa using hb) (by simpa using ha)

theorem Fits.concat {p : List β} {m : List α} (h : Fits eq p m) {b : β} {a : α}
    (hab : eq b a = true) : Fits eq (p ++ [b]) (m ++ [a]) :=
  List.rel_append h (.cons hab .nil)

/-! ## Search in one pass -/

variable (eq)

/-- Search in one pass; the second argument is what is left of the pattern. -/
def scan (p : List β) : List β → List α → Bool
  | [], _ => true
  | _ :: _, [] => false
  | b :: q, a :: s => if eq b a then scan p q s else scan p p s

/-- An attempt that fails: it fits the beginning of the pattern, up to its last element. -/
def Fails (p : List β) (w : List α) : Prop :=
  ∃ q b r u a, p = q ++ b :: r ∧ w = u ++ [a] ∧ Fits eq q u ∧ eq b a = false

/-- The pattern stands behind attempts that fail. -/
def Found (p : List β) (s : List α) : Prop :=
  ∃ (ws : List (List α)) (m t : List α), s = ws.flatten ++ (m ++ t) ∧ (∀ w ∈ ws, Fails eq p w) ∧
    Fits eq p m

variable {eq} {p : List β}

theorem Found.of_fits {m : List α} (h : Fits eq p m) (t : List α) : Found eq p (m ++ t) :=
  ⟨[], m, t, rfl, by simp, h⟩

theorem Found.cons {w s : List α} (hw : Fails eq p w) (h : Found eq p s) :
    Found eq p (w ++ s) := by
  obtain ⟨ws, m, t, rfl, hws, hm⟩ := h
  refine ⟨w :: ws, m, t, by simp, ?_, hm⟩
  rintro x (_ | ⟨_, hx⟩)
  · exact hw
  · exact hws x hx

section Attempt

variable {q r : List β} {u : List α} (hp : p = q ++ r) (hu : Fits eq q u)
include hp hu

/-- Where a list fits the beginning of the pattern, no attempt has failed. -/
theorem length_lt_of_fails {w s x : List α} (hw : Fails eq p w) (hx : u ++ s = w ++ x) :
    u.length < w.length := by
  obtain ⟨q', b, r', u', a, hp', rfl, hu', hne⟩ := hw
  by_contra hle
  rw [List.length_append, List.length_singleton] at hle
  have hb : p[u'.length]? = some b := by
    rw [hp', ← hu'.length_eq]
    simp
  have ha : (u ++ s)[u'.length]? = some a := by
    rw [hx]
    simp
  rw [hp, List.getElem?_append_left (by rw [hu.length_eq]; omega)] at hb
  rw [List.getElem?_append_left (by omega)] at ha
  rw [hu.getElem? hb ha] at hne
  exact absurd hne (by decide)

/-- A list that fits a part of the pattern is too short for the whole of it. -/
theorem not_found_of_short (hr : r ≠ []) : ¬ Found eq p u := by
  rintro ⟨ws, m, t, h, hws, hm⟩
  cases ws with
  | nil =>
      have hlen := congrArg List.length h
      have hpos := List.length_pos_of_ne_nil hr
      have hm' := hm.length_eq
      have hu' := hu.length_eq
      rw [hp, List.length_append] at hm'
      simp only [List.flatten_nil, List.nil_append, List.length_append] at hlen
      omega
  | cons w ws =>
      rw [List.flatten_cons, List.append_assoc] at h
      have hlt := length_lt_of_fails hp hu (hws w List.mem_cons_self) (s := [])
        ((List.append_nil u).trans h)
      have hlen := congrArg List.length h
      rw [List.length_append] at hlen
      omega

/-- The element that ends an attempt is skipped. -/
theorem found_skip {b : β} {r' : List β} {a : α} (hr : r = b :: r') (hne : eq b a = false)
    (s : List α) : Found eq p (u ++ a :: s) ↔ Found eq p s := by
  have hb : p[u.length]? = some b := by
    rw [hp, hr, ← hu.length_eq]
    simp
  have ha : (u ++ a :: s)[u.length]? = some a := by simp
  constructor
  · rintro ⟨ws, m, t, h, hws, hm⟩
    cases ws with
    | nil =>
        rw [List.flatten_nil, List.nil_append] at h
        have hlt := (List.getElem?_eq_some_iff.mp hb).1
        rw [h, List.getElem?_append_left (by rw [← hm.length_eq]; exact hlt)] at ha
        rw [hm.getElem? hb ha] at hne
        exact absurd hne (by decide)
    | cons w ws =>
        have hw := hws w List.mem_cons_self
        rw [List.flatten_cons, List.append_assoc] at h
        have hlt := length_lt_of_fails hp hu hw h
        obtain ⟨q', b', r'', u', a', hp', rfl, hu', hne'⟩ := hw
        have hle : u'.length ≤ u.length := by
          by_contra hlong
          rw [hp', List.getElem?_append_left (by rw [hu'.length_eq]; omega)] at hb
          rw [h, List.append_assoc, List.getElem?_append_left (by omega)] at ha
          rw [hu'.getElem? hb ha] at hne
          exact absurd hne (by decide)
        rw [List.length_append, List.length_singleton] at hlt
        have hsame : u ++ [a] = u' ++ [a'] ∧ s = ws.flatten ++ (m ++ t) := by
          apply List.append_inj
          · rw [← h, List.append_assoc]
            rfl
          · simp only [List.length_append, List.length_singleton]
            omega
        exact ⟨ws, m, t, hsame.2, fun x hx ↦ hws x (List.mem_cons_of_mem _ hx), hm⟩
  · intro h
    have hcons := Found.cons (w := u ++ [a]) ⟨q, b, r', u, a, by rw [hp, hr], rfl, hu, hne⟩ h
    rwa [List.append_assoc] at hcons

end Attempt

/-- What is left of the pattern is looked for behind a list that fits the rest of it. -/
theorem scan_iff_of_fits {q r : List β} {u : List α} (hp : p = q ++ r) (hu : Fits eq q u)
    (s : List α) : scan eq p r s = true ↔ Found eq p (u ++ s) := by
  induction s generalizing q r u with
  | nil =>
      cases r with
      | nil =>
          rw [List.append_nil] at hp
          exact iff_of_true rfl (Found.of_fits (hp ▸ hu) [])
      | cons b r =>
          rw [List.append_nil]
          exact iff_of_false Bool.false_ne_true (not_found_of_short hp hu (List.cons_ne_nil b r))
  | cons a s ih =>
      cases r with
      | nil =>
          rw [List.append_nil] at hp
          exact iff_of_true rfl (Found.of_fits (hp ▸ hu) _)
      | cons b r =>
          rw [scan]
          cases hab : eq b a with
          | true =>
              have hstep := ih (q := q ++ [b]) (r := r) (u := u ++ [a]) (by rw [hp]; simp)
                  (hu.concat hab)
              rw [List.append_assoc] at hstep
              exact hstep
          | false =>
              rw [if_neg (by decide), found_skip hp hu rfl hab]
              exact ih (q := []) (u := []) rfl .nil

/-- The search finds the pattern behind attempts that fail, and nowhere else. -/
theorem scan_iff (s : List α) : scan eq p p s = true ↔ Found eq p s :=
  scan_iff_of_fits (q := []) (u := []) rfl .nil s

/-- A search that looks at the images of the elements. -/
theorem scan_map {γ : Type u} {δ : Type v} (f : γ → α) (g : δ → β) (p q : List δ) (s : List γ) :
    scan (fun d c ↦ eq (g d) (f c)) p q s = scan eq (p.map g) (q.map g) (s.map f) := by
  induction s generalizing q with
  | nil =>
      cases q with
      | nil => rfl
      | cons d q => rfl
  | cons c s ih =>
      cases q with
      | nil => rfl
      | cons d q =>
          rw [List.map_cons, List.map_cons, scan, scan, ih, ih]

theorem fits_beq {α : Type u} [BEq α] [LawfulBEq α] {p m : List α} :
    Fits (fun b a ↦ b == a) p m ↔ m = p := by
  rw [Fits, show (fun b a : α ↦ (b == a) = true) = Eq by funext b a; rw [beq_iff_eq],
    List.forall₂_eq_eq_eq]
  exact eq_comm

/-! ## Patterns with stars -/

variable (eq) (star : β → Bool)

/-- A star stands for any list, any other element of the pattern for an element that fits. -/
def Matches : List β → List α → Prop
  | [], s => s = []
  | b :: p, s =>
      if star b then ∃ t, t <:+ s ∧ Matches p t
      else ∃ a t, s = a :: t ∧ eq b a = true ∧ Matches p t

/-- The loop: what is left of the list and of the pattern, and what was left of both behind the
last star. -/
def globLoop (s : List α) (p : List β) (back : Option (List β × List α))
    (h : ∀ q sa, back = some (q, sa) → s <:+ sa) : Bool :=
  match s, h with
  | [], _ => (p.dropWhile star).isEmpty
  | a :: s, h =>
      if hstar : p.head?.any star then
        globLoop (a :: s) p.tail (some (p.tail, a :: s))
          (by rintro q sa ⟨⟩; exact List.suffix_refl _)
      else if hchar : p.head?.any (eq · a) then
        globLoop s p.tail back fun q sa hb ↦ (List.suffix_cons a s).trans (h q sa hb)
      else
        match back, h with
        | none, _ => false
        | some (q, sa), h =>
            globLoop sa.tail q (some (q, sa.tail)) (by rintro q' sa' ⟨⟩; exact List.suffix_refl _)
termination_by (back.elim (s.length + 1) (·.2.length), s.length + p.length)
decreasing_by
  · rw [Prod.lex_def]
    cases p with
    | nil => simp at hstar
    | cons b p =>
        cases back with
        | none =>
            left
            exact Nat.lt_succ_self _
        | some qsa =>
            have hle := (h qsa.1 qsa.2 rfl).length_le
            simp only [Option.elim_some, List.tail_cons, List.length_cons] at hle ⊢
            omega
  · rw [Prod.lex_def]
    cases p with
    | nil => simp at hchar
    | cons b p =>
        cases back with
        | none =>
            left
            exact Nat.lt_succ_self _
        | some qsa =>
            right
            simp only [Option.elim_some, List.tail_cons, List.length_cons, true_and]
            omega
  · rw [Prod.lex_def]
    left
    have hle := (h q sa rfl).length_le
    simp only [Option.elim_some, List.length_tail, List.length_cons] at hle ⊢
    omega

variable {eq star}

theorem matches_star {b : β} (hb : star b = true) (p : List β) (s : List α) :
    Matches eq star (b :: p) s ↔ ∃ t, t <:+ s ∧ Matches eq star p t := by
  rw [Matches, if_pos hb]

theorem matches_char {b : β} (hb : star b = false) (p : List β) (a : α) (s : List α) :
    Matches eq star (b :: p) (a :: s) ↔ eq b a = true ∧ Matches eq star p s := by
  rw [Matches, if_neg (by simp [hb])]
  constructor
  · rintro ⟨a', t, h, hab, hm⟩
    cases h
    exact ⟨hab, hm⟩
  · rintro ⟨hab, hm⟩
    exact ⟨a, s, rfl, hab, hm⟩

/-- Only stars match the empty list. -/
theorem matches_nil_iff (p : List β) :
    Matches eq star p [] ↔ (p.dropWhile star).isEmpty = true := by
  induction p with
  | nil => exact iff_of_true rfl rfl
  | cons b p ih =>
      cases hb : star b with
      | true =>
          rw [matches_star hb, List.dropWhile_cons_of_pos hb, ← ih]
          simp
      | false =>
          rw [List.dropWhile_cons_of_neg (by simp [hb]), Matches, if_neg (by simp [hb])]
          simp

/-- A part of the pattern without stars takes as many elements as it has. -/
theorem Matches.split {l p : List β} (hl : ∀ b ∈ l, star b = false) {t : List α}
    (h : Matches eq star (l ++ p) t) :
    ∃ w t', t = w ++ t' ∧ w.length = l.length ∧ Matches eq star p t' := by
  induction l generalizing t with
  | nil => exact ⟨[], t, rfl, rfl, h⟩
  | cons b l ih =>
      rw [List.cons_append, Matches, if_neg (by simp [hl b List.mem_cons_self])] at h
      obtain ⟨a, t, rfl, -, hm⟩ := h
      obtain ⟨w, t', rfl, hlen, hm'⟩ := ih (fun b' hb' ↦ hl b' (List.mem_cons_of_mem _ hb')) hm
      exact ⟨a :: w, t', rfl, by rw [List.length_cons, List.length_cons, hlen], hm'⟩

/-- Behind the last star only elements without a star have been matched, one by one. -/
def SinceStar (star : β → Bool) (s : List α) (p : List β) (back : Option (List β × List α)) :
    Prop :=
  ∀ q sa, back = some (q, sa) → ∃ l w, q = l ++ p ∧ sa = w ++ s ∧
    (∀ b ∈ l, star b = false) ∧ l.length = w.length

/-- What the loop has not ruled out: the rest matches the rest of the pattern, or the pattern
behind the last star matches further on. -/
def Open (eq : β → α → Bool) (star : β → Bool) (s : List α) (p : List β)
    (back : Option (List β × List α)) : Prop :=
  Matches eq star p s ∨ ∃ q sa, back = some (q, sa) ∧
    ∃ t, t <:+ sa ∧ t.length < sa.length ∧ Matches eq star q t

section Loop

variable {s : List α} {p : List β} {back : Option (List β × List α)}
  (hinv : SinceStar star s p back)
include hinv

/-- At the end of the list there is nothing further on. -/
theorem SinceStar.open_nil (hs : s = []) : Open eq star s p back ↔ Matches eq star p s := by
  refine ⟨fun h ↦ h.elim id ?_, .inl⟩
  rintro ⟨q, sa, hback, t, -, hlt, hm⟩
  obtain ⟨l, w, rfl, rfl, hl, hlen⟩ := hinv q sa hback
  obtain ⟨w', t', rfl, hlen', -⟩ := hm.split hl
  rw [hs, List.append_nil, List.length_append] at hlt
  omega

/-- A star makes the star before it redundant. -/
theorem SinceStar.open_star {b : β} {p' : List β} (hp : p = b :: p') (hb : star b = true) :
    Open eq star s p back ↔ ∃ t, t <:+ s ∧ Matches eq star p' t := by
  rw [← matches_star hb, ← hp]
  refine ⟨fun h ↦ h.elim id ?_, .inl⟩
  rintro ⟨q, sa, hback, t, hsuf, hlt, hm⟩
  obtain ⟨l, w, rfl, rfl, hl, hlen⟩ := hinv q sa hback
  obtain ⟨w', t', rfl, hlen', hm'⟩ := hm.split hl
  rw [hp, matches_star hb] at hm' ⊢
  obtain ⟨t'', ht'', hm''⟩ := hm'
  refine ⟨t'', ht''.trans ?_, hm''⟩
  refine List.suffix_of_suffix_length_le ((List.suffix_append w' t').trans hsuf)
    (List.suffix_append w s) ?_
  simp only [List.length_append] at hlt
  omega

theorem SinceStar.char {b : β} {p' : List β} {a : α} {s' : List α} (hs : s = a :: s')
    (hp : p = b :: p') (hb : star b = false) : SinceStar star s' p' back := by
  intro q sa hback
  obtain ⟨l, w, rfl, rfl, hl, hlen⟩ := hinv q sa hback
  refine ⟨l ++ [b], w ++ [a], by rw [hp]; simp, by rw [hs]; simp, ?_, by simp [hlen]⟩
  intro b' hb'
  rcases List.mem_append.mp hb' with h | h
  · exact hl b' h
  · rw [List.mem_singleton.mp h, hb]

end Loop

theorem sinceStar_some (star : β → Bool) (q : List β) (sa : List α) :
    SinceStar star sa q (some (q, sa)) := by
  rintro q' sa' ⟨⟩
  exact ⟨[], [], rfl, rfl, by simp, rfl⟩

/-- A proper suffix is a suffix of the tail. -/
theorem exists_suffix_tail {P : List α → Prop} {sa : List α} :
    (∃ t, t <:+ sa ∧ t.length < sa.length ∧ P t) ↔ sa ≠ [] ∧ ∃ t, t <:+ sa.tail ∧ P t := by
  cases sa with
  | nil => simp
  | cons a sa =>
      simp only [List.tail_cons, ne_eq, List.cons_ne_nil, not_false_eq_true, true_and]
      constructor
      · rintro ⟨t, ht, hlt, hP⟩
        rcases List.suffix_cons_iff.mp ht with rfl | ht
        · omega
        · exact ⟨t, ht, hP⟩
      · rintro ⟨t, ht, hP⟩
        refine ⟨t, ht.trans (List.suffix_cons a sa), ?_, hP⟩
        exact Nat.lt_succ_of_le ht.length_le

/-- The alternatives behind a star, the list at hand included. -/
theorem open_some (eq : β → α → Bool) (star : β → Bool) (q : List β) (sa : List α) :
    Open eq star sa q (some (q, sa)) ↔ ∃ t, t <:+ sa ∧ Matches eq star q t := by
  constructor
  · rintro (h | ⟨q', sa', ⟨⟩, t, ht, -, hm⟩)
    · exact ⟨sa, List.suffix_refl _, h⟩
    · exact ⟨t, ht, hm⟩
  · rintro ⟨t, ht, hm⟩
    rcases Nat.lt_or_ge t.length sa.length with hlt | hge
    · exact .inr ⟨q, sa, rfl, t, ht, hlt, hm⟩
    · rw [ht.eq_of_length (Nat.le_antisymm ht.length_le hge)] at hm
      exact .inl hm

/-- A pattern that begins with neither a star nor an element that fits matches nothing. -/
theorem not_matches_of_head {a : α} {s : List α} {p : List β} (hstar : ¬ p.head?.any star = true)
    (hchar : ¬ p.head?.any (eq · a) = true) : ¬ Matches eq star p (a :: s) := by
  cases p with
  | nil => exact List.cons_ne_nil a s
  | cons b p =>
      rw [List.head?_cons, Option.any_some, Bool.not_eq_true] at hstar hchar
      rw [matches_char hstar, hchar]
      exact fun h ↦ Bool.false_ne_true h.1

/-- The loop answers whether something is still open. -/
theorem globLoop_iff_open (s : List α) (p : List β) (back : Option (List β × List α))
    (h : ∀ q sa, back = some (q, sa) → s <:+ sa) (hinv : SinceStar star s p back) :
    globLoop eq star s p back h = true ↔ Open eq star s p back := by
  fun_induction globLoop eq star s p back h with
  | case1 p back =>
      rw [hinv.open_nil rfl, matches_nil_iff]
  | case2 p back a s _ hstar _ ih =>
      obtain ⟨b, p, rfl⟩ : ∃ b p', p = b :: p' := by
        cases p with
        | nil => cases hstar
        | cons b p => exact ⟨b, p, rfl⟩
      rw [ih (sinceStar_some star _ _), open_some, List.tail_cons, hinv.open_star rfl hstar]
  | case3 p back a s _ hstar hchar _ ih =>
      obtain ⟨b, p, rfl⟩ : ∃ b p', p = b :: p' := by
        cases p with
        | nil => cases hchar
        | cons b p => exact ⟨b, p, rfl⟩
      rw [List.head?_cons, Option.any_some, Bool.not_eq_true] at hstar
      rw [List.head?_cons, Option.any_some] at hchar
      rw [List.tail_cons] at ih ⊢
      rw [ih (hinv.char rfl rfl hstar), Open, Open, matches_char hstar, hchar]
      simp
  | case4 p a s hstar hchar =>
      refine iff_of_false Bool.false_ne_true ?_
      rintro (hm | ⟨q, sa, hback, -⟩)
      · exact not_matches_of_head hstar hchar hm
      · cases hback
  | case5 p a s hstar hchar q sa _ _ hsuf ih =>
      have hne : sa ≠ [] := by
        rintro rfl
        exact List.cons_ne_nil a s (List.suffix_nil.mp (hsuf q [] rfl))
      rw [ih (sinceStar_some star _ _), open_some, Open,
        or_iff_right (not_matches_of_head hstar hchar)]
      constructor
      · rintro ⟨t, ht, hm⟩
        obtain ⟨t', ht', hlt, hm'⟩ := exists_suffix_tail.mpr ⟨hne, t, ht, hm⟩
        exact ⟨q, sa, rfl, t', ht', hlt, hm'⟩
      · rintro ⟨q', sa', hback, t, ht, hlt, hm⟩
        cases hback
        exact (exists_suffix_tail.mp ⟨t, ht, hlt, hm⟩).2

variable (eq star) in
/-- The loop from the beginning of the list and of the pattern. -/
def glob (s : List α) (p : List β) : Bool :=
  globLoop eq star s p none fun _ _ h ↦ absurd h (by simp)

/-- The loop decides whether the whole list matches. -/
theorem glob_iff (s : List α) (p : List β) : glob eq star s p = true ↔ Matches eq star p s := by
  rw [glob, globLoop_iff_open s p none _ fun _ _ h ↦ absurd h (by simp), Open]
  refine or_iff_left ?_
  rintro ⟨q, sa, hback, -⟩
  cases hback

end SdbStore.Lib.Pattern
