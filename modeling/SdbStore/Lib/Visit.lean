import Mathlib.Data.Finset.Card
import Mathlib.Data.Finset.Basic
import Mathlib.Logic.Relation
import Mathlib.Tactic.Common

/-!
# Visiting a graph along its edges

A search that marks the edges that it follows, not the nodes that it comes to: a node is visited
once for every edge that leads to it, and once more by the search that starts there.

When the edges are finitely many the search ends, `visit_total`, and from no marks at all it comes
to the nodes that can be reached and to no others, `Visited.mem_iff`.
-/

namespace SdbStore.Lib.Visit

universe u v

variable {ν : Type u} {ε : Type v} (out : ν → List ε) (target : ε → ν)

/-- One edge: nothing is done when it has a mark.  The marks and the visits so far are handed
around. -/
def visitEdge [DecidableEq ε] (visit : List ε → ν → Option (List ε × List ν)) (r : List ε × List ν)
    (e : ε) :
    Option (List ε × List ν) :=
  if e ∈ r.1 then some r
  else do
    let a ← visit (r.1 ++ [e]) (target e)
    some (a.1, r.2 ++ (a.2 ++ [target e]))

/-- The search from a node: the edges that go out of it one after another, then the node itself. -/
def visit [DecidableEq ε] : Nat → List ε → ν → Option (List ε × List ν)
  | 0, _, _ => none
  | fuel + 1, marked, s => do
      let r ← (out s).foldlM (visitEdge target (visit fuel)) (marked, [])
      some (r.1, r.2 ++ [s])

/-- An edge leads from one node to the other. -/
def Edge (s x : ν) : Prop := ∃ e ∈ out s, target e = x

/-- The edges that have got a mark lead to nodes that have been visited, with all their edges. -/
def Closed (marked : List ε) (r : List ε × List ν) : Prop :=
  ∀ e ∈ r.1, e ∈ marked ∨ (target e ∈ r.2 ∧ ∀ e' ∈ out (target e), e' ∈ r.1)

/-- What a search leaves behind. -/
structure Visited (marked : List ε) (s : ν) (r : List ε × List ν) : Prop where
  mono : marked ⊆ r.1
  edges : ∀ e ∈ out s, e ∈ r.1
  self : s ∈ r.2
  closed : Closed out target marked r
  reach : ∀ x ∈ r.2, Relation.ReflTransGen (Edge out target) s x

/-- What it leaves behind in the middle of the edges of `s`: the edges `l` have been looked at. -/
structure Looked (marked : List ε) (s : ν) (l : List ε) (r : List ε × List ν) : Prop where
  mono : marked ⊆ r.1
  edges : ∀ e ∈ l, e ∈ r.1
  closed : Closed out target marked r
  reach : ∀ x ∈ r.2, Relation.ReflTransGen (Edge out target) s x

variable {out target}

theorem looked_nil (marked : List ε) (s : ν) : Looked out target marked s [] (marked, []) :=
  ⟨List.Subset.refl _, by simp, fun _ he ↦ .inl he, by simp⟩

section Step

variable {marked l : List ε} {s : ν} {e : ε} {r : List ε × List ν}
  (h : Looked out target marked s l r)
include h

theorem Looked.skip (he : e ∈ r.1) : Looked out target marked s (l ++ [e]) r where
  mono := h.mono
  edges e' he' := by
    rcases List.mem_append.mp he' with he' | he'
    · exact h.edges e' he'
    · rwa [List.mem_singleton.mp he']
  closed := h.closed
  reach := h.reach

/-- An edge is followed. -/
theorem Looked.follow (hs : e ∈ out s) {a : List ε × List ν}
    (ha : Visited out target (r.1 ++ [e]) (target e) a) :
    Looked out target marked s (l ++ [e]) (a.1, r.2 ++ (a.2 ++ [target e])) where
  mono e' he' := ha.mono (List.mem_append_left _ (h.mono he'))
  edges e' he' := by
    rcases List.mem_append.mp he' with he' | he'
    · exact ha.mono (List.mem_append_left _ (h.edges e' he'))
    · rw [List.mem_singleton.mp he']
      exact ha.mono (List.mem_append_right _ List.mem_cons_self)
  closed e' he' := by
    rcases ha.closed e' he' with hold | ⟨hmem, hout⟩
    · rcases List.mem_append.mp hold with hold | hnew
      · rcases h.closed e' hold with hmarked | ⟨hmem, hout⟩
        · exact .inl hmarked
        · exact .inr ⟨List.mem_append_left _ hmem,
            fun e'' he'' ↦ ha.mono (List.mem_append_left _ (hout e'' he''))⟩
      · -- the edge itself
        rw [List.mem_singleton.mp hnew]
        exact .inr ⟨List.mem_append_right _ (List.mem_append_left _ ha.self), ha.edges⟩
    · exact .inr ⟨List.mem_append_right _ (List.mem_append_left _ hmem), hout⟩
  reach x hx := by
    have hedge : Edge out target s (target e) := ⟨e, hs, rfl⟩
    rcases List.mem_append.mp hx with hx | hx
    · exact h.reach x hx
    · rcases List.mem_append.mp hx with hx | hx
      · exact .head hedge (ha.reach x hx)
      · rw [List.mem_singleton.mp hx]
        exact .single hedge

end Step

theorem Looked.visited {marked : List ε} {s : ν} {r : List ε × List ν}
    (h : Looked out target marked s (out s) r) : Visited out target marked s (r.1, r.2 ++ [s]) where
  mono := h.mono
  edges := h.edges
  self := List.mem_append_right _ List.mem_cons_self
  closed e he := (h.closed e he).imp_right fun hc ↦ ⟨List.mem_append_left _ hc.1, hc.2⟩
  reach x hx := by
    rcases List.mem_append.mp hx with hx | hx
    · exact h.reach x hx
    · rw [List.mem_singleton.mp hx]

section Total

variable [DecidableEq ε] {E : Finset ε} (hE : ∀ s, ∀ e ∈ out s, e ∈ E)
include hE

/-- The edges of one node, when the searches behind them end. -/
theorem foldlM_visitEdge {fuel : Nat}
    (ih : ∀ (marked : List ε) (s : ν), (E \ marked.toFinset).card < fuel →
      ∃ r, visit out target fuel marked s = some r ∧ Visited out target marked s r)
    {marked : List ε} {s : ν} (hfuel : (E \ marked.toFinset).card < fuel + 1) (l done : List ε)
    (hl : done ++ l = out s) {r : List ε × List ν} (hr : Looked out target marked s done r) :
    ∃ r', l.foldlM (visitEdge target (visit out target fuel)) r = some r' ∧
      Looked out target marked s (out s) r' := by
  induction l generalizing done r with
  | nil =>
      rw [List.append_nil] at hl
      exact ⟨r, rfl, hl ▸ hr⟩
  | cons e l loop =>
      have hout : e ∈ out s := by
        rw [← hl]
        simp
      have hl' : (done ++ [e]) ++ l = out s := by
        rw [← hl, List.append_assoc, List.singleton_append]
      rw [List.foldlM_cons, visitEdge]
      by_cases he : e ∈ r.1
      · rw [if_pos he]
        exact loop (done ++ [e]) hl' (hr.skip he)
      · have hlt : (E \ (r.1 ++ [e]).toFinset).card < fuel := by
          have hsub : E \ (r.1 ++ [e]).toFinset ⊂ E \ marked.toFinset := by
            rw [Finset.ssubset_iff_of_subset]
            · refine ⟨e, ?_, ?_⟩
              · rw [Finset.mem_sdiff, List.mem_toFinset]
                exact ⟨hE s e hout, fun hm ↦ he (hr.mono hm)⟩
              · simp
            · refine Finset.sdiff_subset_sdiff (Finset.Subset.refl E) fun x hx ↦ ?_
              rw [List.mem_toFinset] at hx ⊢
              exact List.mem_append_left _ (hr.mono hx)
          have hcard := Finset.card_lt_card hsub
          omega
        obtain ⟨a, ha, hvisited⟩ := ih (r.1 ++ [e]) (target e) hlt
        rw [if_neg he, ha]
        exact loop (done ++ [e]) hl' (hr.follow hout hvisited)

/-- **The search ends** when the fuel is more than the edges without a mark. -/
theorem visit_total (fuel : Nat) (marked : List ε) (s : ν)
    (hfuel : (E \ marked.toFinset).card < fuel) :
    ∃ r, visit out target fuel marked s = some r ∧ Visited out target marked s r := by
  induction fuel generalizing marked s with
  | zero => exact absurd hfuel (Nat.not_lt_zero _)
  | succ fuel ih =>
      obtain ⟨r, hr, hlooked⟩ := foldlM_visitEdge hE ih hfuel (out s) [] rfl (looked_nil marked s)
      exact ⟨(r.1, r.2 ++ [s]), by rw [visit, hr]; rfl, hlooked.visited⟩

end Total

/-- **From no marks at all** the search comes to the nodes that can be reached. -/
theorem Visited.mem_iff {s : ν} {r : List ε × List ν} (h : Visited out target [] s r) (x : ν) :
    x ∈ r.2 ↔ Relation.ReflTransGen (Edge out target) s x := by
  refine ⟨h.reach x, fun hx ↦ ?_⟩
  suffices hboth : x ∈ r.2 ∧ ∀ e ∈ out x, e ∈ r.1 from hboth.1
  induction hx with
  | refl => exact ⟨h.self, h.edges⟩
  | tail _ hstep ih =>
      obtain ⟨e, he, rfl⟩ := hstep
      exact (h.closed e (ih.2 e he)).resolve_left List.not_mem_nil

end SdbStore.Lib.Visit
