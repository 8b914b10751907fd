import Mathlib.Data.List.Nodup
import Mathlib.Data.List.Pairwise
import Mathlib.Data.Set.Function
import Mathlib.Tactic.Common

/-!
# Moving values one after another

A partial map whose values are moved along a map of its keys, one key after another, against the map
in which all of them have moved at once.  A value can be lost on the way.  The two maps agree when
and only when no value is moved onto a key whose turn is still to come, and none is lost that is not
at its target anyway.
-/

namespace SdbStore.Lib

universe u v

section Moves

variable {K : Type u} {V : Type v} [DecidableEq K] (f : K → K)

/-- Move the value of the key `m.1`, which is lost on the way if `m.2` is set. -/
def move (g : K → Option V) (m : K × Bool) : K → Option V :=
  match g m.1 with
  | none => g
  | some v =>
      if m.2 then Function.update g m.1 none
      else Function.update (Function.update g m.1 none) (f m.1) (some v)

/-- Move one value after another. -/
def moves (g : K → Option V) (l : List (K × Bool)) : K → Option V := l.foldl (move f) g

omit [DecidableEq K] in
/-- The values of the keys in `D` have moved at once. -/
structure Moved (D : K → Prop) (g g' : K → Option V) : Prop where
  target : ∀ {k v}, D k → g k = some v → g' (f k) = some v
  source : ∀ {x}, D x → (∀ k, D k → g k ≠ none → f k ≠ x) → g' x = none
  frame : ∀ {x}, ¬ D x → (∀ k, D k → g k ≠ none → f k ≠ x) → g' x = g x

/-- No value moves onto a key that comes later. -/
def MovesAhead (g : K → Option V) (l : List (K × Bool)) : Prop :=
  l.Pairwise fun a b ↦ g a.1 ≠ none → f a.1 ≠ b.1

variable {f} {g : K → Option V} {m : K × Bool} {l : List (K × Bool)} {x : K}

/-! ## One move -/

theorem move_of_none (h : g m.1 = none) : move f g m = g := by rw [move, h]

theorem move_target {v : V} (h : g m.1 = some v) (hm : m.2 = false) :
    move f g m (f m.1) = some v := by
  rw [move, h, hm]
  exact Function.update_self _ _ _

theorem move_source (h : g m.1 ≠ none → m.2 = false → f m.1 ≠ m.1) : move f g m m.1 = none := by
  cases hg : g m.1 with
  | none => rw [move_of_none hg, hg]
  | some v =>
      rw [move, hg]
      cases hm : m.2 with
      | true => exact Function.update_self _ _ _
      | false =>
          have hne := h (by simp [hg]) hm
          dsimp only
          rw [if_neg Bool.false_ne_true, Function.update_of_ne hne.symm]
          exact Function.update_self _ _ _

theorem move_of_ne (hx : x ≠ m.1) (h : g m.1 ≠ none → m.2 = false → f m.1 ≠ x) :
    move f g m x = g x := by
  cases hg : g m.1 with
  | none => rw [move_of_none hg]
  | some v =>
      rw [move, hg]
      cases hm : m.2 with
      | true => exact Function.update_of_ne hx _ _
      | false =>
          have hne := h (by simp [hg]) hm
          dsimp only
          rw [if_neg Bool.false_ne_true, Function.update_of_ne hne.symm]
          exact Function.update_of_ne hx _ _

/-! ## What a run of moves leaves in any case -/

theorem moves_append (g : K → Option V) (l l' : List (K × Bool)) :
    moves f g (l ++ l') = moves f (moves f g l) l' := List.foldl_append

theorem moves_of_ne (hx : x ∉ l.map Prod.fst) (h : ∀ m ∈ l, f m.1 ≠ x) : moves f g l x = g x := by
  induction l generalizing g with
  | nil => rfl
  | cons m l ih =>
      obtain ⟨hm, hl⟩ := not_or.mp (mt List.mem_cons.mpr hx)
      rw [moves, List.foldl_cons]
      refine (ih hl fun m' hm' ↦ h m' (List.mem_cons_of_mem m hm')).trans ?_
      exact move_of_ne hm fun _ _ ↦ h m List.mem_cons_self

/-- A key that has its turn, and onto which nothing moves then or later, loses its value. -/
theorem moves_eq_none (hx : x ∈ l.map Prod.fst) (h : ∀ m ∈ l, f m.1 ≠ x) :
    moves f g l x = none := by
  induction l generalizing g with
  | nil => cases hx
  | cons m l ih =>
      have hl : ∀ m' ∈ l, f m'.1 ≠ x := fun m' hm' ↦ h m' (List.mem_cons_of_mem m hm')
      rw [moves, List.foldl_cons]
      by_cases hmem : x ∈ l.map Prod.fst
      · exact ih hmem hl
      · obtain rfl : x = m.1 := (List.mem_cons.mp hx).resolve_right hmem
        exact (moves_of_ne hmem hl).trans (move_source fun _ _ ↦ h m List.mem_cons_self)

/-! ## Moves that are ahead -/

omit [DecidableEq K] in
theorem movesAhead_iff :
    MovesAhead f g l ↔ (l.map Prod.fst).Pairwise fun a b ↦ g a ≠ none → f a ≠ b := by
  rw [List.pairwise_map]
  rfl

namespace MovesAhead

/-- A move changes no key that comes later. -/
theorem move_later (h : MovesAhead f g (m :: l)) (hnodup : ((m :: l).map Prod.fst).Nodup)
    {b : K × Bool} (hb : b ∈ l) : move f g m b.1 = g b.1 :=
  move_of_ne (fun hno ↦ (List.nodup_cons.mp hnodup).1 (hno ▸ List.mem_map_of_mem hb))
    fun hlive _ ↦ List.rel_of_pairwise_cons h hb hlive

theorem tail (h : MovesAhead f g (m :: l)) (hnodup : ((m :: l).map Prod.fst).Nodup) :
    MovesAhead f (move f g m) l := by
  refine (List.pairwise_cons.mp h).2.imp_of_mem fun {a b} ha _ hab hlive ↦ hab ?_
  rwa [h.move_later hnodup ha] at hlive

/-- What is not the target of a value that arrives loses its own if it has its turn, and keeps it
otherwise. -/
theorem moves_other (h : MovesAhead f g l) (hnodup : (l.map Prod.fst).Nodup)
    (hx : ∀ m ∈ l, m.2 = false → g m.1 ≠ none → f m.1 ≠ x) :
    moves f g l x = if x ∈ l.map Prod.fst then none else g x := by
  induction l generalizing g with
  | nil => rfl
  | cons m l ih =>
      have hmove := ih (h.tail hnodup) (List.nodup_cons.mp hnodup).2 fun a ha harrives hlive ↦
        hx a (List.mem_cons_of_mem m ha) harrives (h.move_later hnodup ha ▸ hlive)
      have hhead : g m.1 ≠ none → m.2 = false → f m.1 ≠ x :=
        fun hlive harrives ↦ hx m List.mem_cons_self harrives hlive
      rw [moves, List.foldl_cons]
      refine hmove.trans ?_
      by_cases hl : x ∈ l.map Prod.fst
      · rw [if_pos hl]
        exact (if_pos (List.mem_cons_of_mem m.1 hl)).symm
      · rw [if_neg hl]
        by_cases hm : x = m.1
        · subst hm
          exact (move_source hhead).trans (if_pos List.mem_cons_self).symm
        · have hnot : x ∉ (m :: l).map Prod.fst := fun hno ↦ (List.mem_cons.mp hno).elim hm hl
          exact (move_of_ne hm hhead).trans (if_neg hnot).symm

/-- A value that arrives stays where it is. -/
theorem moves_target (h : MovesAhead f g l) (hnodup : (l.map Prod.fst).Nodup)
    (hinj : Set.InjOn f {k | k ∈ l.map Prod.fst}) (hm : m ∈ l) (harrives : m.2 = false) {v : V}
    (hv : g m.1 = some v) : moves f g l (f m.1) = some v := by
  induction l generalizing g with
  | nil => cases hm
  | cons a l ih =>
      obtain ⟨ha, hl⟩ := List.nodup_cons.mp hnodup
      rw [moves, List.foldl_cons]
      rcases List.mem_cons.mp hm with rfl | hm
      · -- nothing else moves to this target, and its turn is over
        have hother := (h.tail hnodup).moves_other (x := f m.1) hl fun b hb _ _ heq ↦
          ha (hinj (List.mem_cons_of_mem _ (List.mem_map_of_mem hb)) List.mem_cons_self heq ▸
            List.mem_map_of_mem hb)
        refine hother.trans ?_
        rw [if_neg]
        · exact move_target hv harrives
        · intro hmem
          obtain ⟨b, hb, hkey⟩ := List.mem_map.mp hmem
          exact List.rel_of_pairwise_cons h hb (by simp [hv]) hkey.symm
      · refine ih (h.tail hnodup) hl (hinj.mono fun k hk ↦ List.mem_cons_of_mem _ hk) hm ?_
        rw [h.move_later hnodup hm, hv]

/-- What a lost value leaves at its target. -/
theorem moves_lost (h : MovesAhead f g l) (hnodup : (l.map Prod.fst).Nodup)
    (hinj : Set.InjOn f {k | k ∈ l.map Prod.fst}) (hm : m ∈ l) (hlost : m.2 = true) :
    moves f g l (f m.1) = if f m.1 ∈ l.map Prod.fst then none else g (f m.1) := by
  refine h.moves_other hnodup fun a ha harrives _ heq ↦ ?_
  have hkey := hinj (List.mem_map_of_mem ha) (List.mem_map_of_mem hm) heq
  rw [List.inj_on_of_nodup_map hnodup ha hm hkey, hlost] at harrives
  cases harrives

end MovesAhead

/-! ## One after another and at once -/

section Iff

variable {D : K → Prop} (hnodup : (l.map Prod.fst).Nodup) (hinj : Set.InjOn f {k | D k})
  (hturn : ∀ k ∈ l.map Prod.fst, D k) (hlive : ∀ k, D k → g k ≠ none → k ∈ l.map Prod.fst)
include hnodup hinj hturn

/-- No value has moved onto a key that comes later. -/
theorem Moved.ahead (h : Moved f D g (moves f g l)) : MovesAhead f g l := by
  refine List.pairwise_iff_forall_sublist.mpr fun {a b} hab hlive heq ↦ ?_
  obtain ⟨r, r', rfl, ha, hb⟩ := List.cons_sublist_iff.mp hab
  rw [List.map_append] at hnodup hturn
  have hb := List.singleton_sublist.mp hb
  obtain ⟨v, hv⟩ := Option.ne_none_iff_exists'.mp hlive
  have hkey : ∀ {m}, m ∈ r → D m.1 := fun hm ↦
    hturn _ (List.mem_append_left _ (List.mem_map_of_mem hm))
  have hkey' : ∀ {m}, m ∈ r' → D m.1 := fun hm ↦
    hturn _ (List.mem_append_right _ (List.mem_map_of_mem hm))
  -- the key loses the value in its turn, and nothing else moves there
  have hnone : moves f (moves f g r) r' b.1 = none := by
    refine moves_eq_none (List.mem_map_of_mem hb) fun m hm hno ↦ ?_
    have hsame : m.1 = a.1 := hinj (hkey' hm) (hkey ha) (hno.trans heq.symm)
    exact List.disjoint_of_nodup_append hnodup (List.mem_map_of_mem ha)
      (hsame ▸ List.mem_map_of_mem hm)
  have htarget := h.target (hkey ha) hv
  rw [moves_append, heq, hnone] at htarget
  cases htarget

include hlive

/-- **Moving one after another** is moving at once when and only when no value moves onto a key that
comes later, and the values that are lost are at their targets, which have no turn. -/
theorem moved_iff : Moved f D g (moves f g l) ↔
    MovesAhead f g l ∧ ∀ m ∈ l, m.2 = true → ∀ v, g m.1 = some v → ¬ D (f m.1) ∧
      g (f m.1) = some v := by
  constructor
  · intro h
    have hahead := h.ahead hnodup hinj hturn
    refine ⟨hahead, fun m hm hlost v hv ↦ ?_⟩
    have htarget := h.target (hturn _ (List.mem_map_of_mem hm)) hv
    rw [hahead.moves_lost hnodup (hinj.mono hturn) hm hlost] at htarget
    split at htarget
    · cases htarget
    · next hmem => exact ⟨fun hD ↦ hmem (hlive _ hD (by simp [htarget])), htarget⟩
  · rintro ⟨hahead, hlost⟩
    have hother : ∀ {x}, (∀ k, D k → g k ≠ none → f k ≠ x) →
        moves f g l x = if x ∈ l.map Prod.fst then none else g x := fun hx ↦
      hahead.moves_other hnodup fun m hm _ hsome ↦ hx _ (hturn _ (List.mem_map_of_mem hm)) hsome
    refine ⟨fun {k v} hD hv ↦ ?_, fun {x} hD hx ↦ ?_, fun {x} hD hx ↦ ?_⟩
    · obtain ⟨⟨k, lost⟩, hm, rfl⟩ := List.mem_map.mp (hlive k hD (by simp [hv]))
      cases lost with
      | false => exact hahead.moves_target hnodup (hinj.mono hturn) hm rfl hv
      | true =>
          obtain ⟨hnot, hsame⟩ := hlost _ hm rfl v hv
          rw [hahead.moves_lost hnodup (hinj.mono hturn) hm rfl,
            if_neg fun hno ↦ hnot (hturn _ hno)]
          exact hsame
    · rw [hother hx]
      split
      · rfl
      · next hmem => exact by_contra fun hsome ↦ hmem (hlive x hD hsome)
    · rw [hother hx, if_neg fun hmem ↦ hD (hturn x hmem)]

end Iff

end Moves

end SdbStore.Lib
