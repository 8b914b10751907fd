import SdbStore.Refs

/-!
# Freeing a database with its namespaces

`sdb_free` of the last reference frees all that is below: `ns_free` sets the counter of what it
finds to one and frees it, whoever else owns it.  The list of what has been seen does not help,
since `sdb_fini` begins a new one for every database; what is found below a second database is used
after it has been freed.  So a parent drops one reference for every namespace only when what is
below it belongs to nobody else, and is found in one place.
-/

namespace SdbStore.Pool

open Lib Lib.RefCount Relation

/-! ## What `ns_free` does -/

/-- `ls_delete` of the first namespace. -/
def pop (c : SdbCell) : SdbCell := { c with node := { c.node with ns := c.node.ns.map List.tail } }

/-- What is being freed is not freed again. -/
theorem sdbFree_zero (nsFree : Pool → Ref → List Ref → Option (Pool × List Ref)) {p : Pool}
    {x : Ref} {c : SdbCell} (hc : p.cell x = some c) (hrefs : c.refs = 0) :
    sdbFree nsFree p x = some p := by
  rw [sdbFree, hc]
  simp [hrefs]

/-- The last reference: the namespaces are gone through, and the database is freed. -/
theorem sdbFree_one (fuel : Nat) {p : Pool} {x : Ref} {c : SdbCell} (hc : p.cell x = some c)
    (hrefs : c.refs = 1) :
    sdbFree (nsFree (fuel + 1)) p x =
      (c.node.nss.foldlM (nsFreeChild (nsFree fuel) x)
        (p.put x (some { c with refs := 0 }), [x])).bind fun st ↦
          (st.1.cell x).map fun _ ↦ st.1.put x none := by
  have hlt := lt_of_cell hc
  rw [sdbFree, hc]
  simp only [Option.bind_eq_bind, Option.bind_some, hrefs, sdbFini, sdbNsFree, nsFree,
    List.not_mem_nil, if_false, cell_put_self hlt, List.nil_append, Nat.sub_self]
  cases c.node.nss.foldlM (nsFreeChild (nsFree fuel) x)
    (p.put x (some { c with refs := 0 }), [x]) with
  | none => rfl
  | some st =>
      cases hst : st.1.cell x with
      | none => simp [hst]
      | some c' => simp [hst, cell_put_self (lt_of_cell hst), put_put]

section Child

variable {p : Pool} {s : Ref} {c : SdbCell} (hc : p.cell s = some c) {ns : SdbNs} {list : List Ref}
include hc

/-- The database has been found in this list before. -/
theorem nsFreeChild_of_mem (nsFree : Pool → Ref → List Ref → Option (Pool × List Ref))
    (hmem : ns.sdb ∈ list) :
    nsFreeChild nsFree s (p, list) ns = some (p.put s (some (pop c)), list) := by
  rw [nsFreeChild, hc]
  simp only [Option.bind_eq_bind, Option.bind_some, if_pos hmem]
  rfl

/-- It has not: it is freed, whatever its counter is. -/
theorem nsFreeChild_of_notMem (fuel : Nat) (hmem : ns.sdb ∉ list) :
    nsFreeChild (nsFree (fuel + 1)) s (p, list) ns =
      ((p.put s (some (pop c))).cell ns.sdb).bind fun child ↦
        (sdbFree (nsFree (fuel + 1))
          (if child.refs > 1 then
            (p.put s (some (pop c))).put ns.sdb (some { child with refs := 1 })
          else p.put s (some (pop c))) ns.sdb).bind fun p' ↦ some (p', list ++ [ns.sdb]) := by
  have hlist : ns.sdb ∈ list ++ [ns.sdb] := List.mem_append_right _ (List.mem_singleton_self _)
  have hseen (p' : Pool) : nsFree (fuel + 1) p' ns.sdb (list ++ [ns.sdb]) =
      some (p', list ++ [ns.sdb]) := if_pos hlist
  rw [nsFreeChild, hc]
  simp only [Option.bind_eq_bind, Option.bind_some, if_neg hmem, hseen]
  rfl

end Child

theorem nsFreeChild_zero {p p' : Pool} {s : Ref} {ns : SdbNs} {list list' : List Ref}
    (hrun : nsFreeChild (nsFree 0) s (p, list) ns = some (p', list')) : ns.sdb ∈ list := by
  by_contra hmem
  obtain ⟨c, -, hrun⟩ := Option.bind_eq_some_iff.mp hrun
  rw [if_neg hmem] at hrun
  cases hrun

theorem put_self {p : Pool} {x : Ref} {c : SdbCell} (hc : p.cell x = some c) :
    p.put x (some c) = p := by
  obtain ⟨o, ho, rfl⟩ := Option.bind_eq_some_iff.mp hc
  refine List.ext_getElem? fun i ↦ ?_
  rw [put, List.getElem?_set]
  split
  · next heq => rw [← heq, if_pos (lt_of_cell hc), ho]
  · rfl

/-- The counter is set to one. -/
theorem ite_put {p : Pool} {x : Ref} {c : SdbCell} (hc : p.cell x = some c) (hpos : 0 < c.refs) :
    (if c.refs > 1 then p.put x (some { c with refs := 1 }) else p) =
      p.put x (some { c with refs := 1 }) := by
  split
  · rfl
  · next hle =>
      have hone : c.refs = 1 := by omega
      rw [← hone, put_self hc]

/-! ## What is freed -/

/-- A database that is there, and is not being freed. -/
def Active (p : Pool) (x : Ref) : Prop := ∃ c, p.cell x = some c ∧ 0 < c.refs

/-- A database that is being freed. -/
def Busy (p : Pool) (x : Ref) : Prop := ∃ c, p.cell x = some c ∧ c.refs = 0

theorem Busy.not_active {p : Pool} {x : Ref} (h : p.Busy x) : ¬ p.Active x := by
  rintro ⟨c, hc, hpos⟩
  obtain ⟨c', hc', hzero⟩ := h
  obtain rfl := Option.some.inj (hc.symm.trans hc')
  exact hpos.ne' hzero

theorem not_active_of_none {p : Pool} {x : Ref} (h : p.cell x = none) : ¬ p.Active x := by
  rintro ⟨c, hc, -⟩
  exact nomatch h.symm.trans hc

/-- What has not begun to be freed is as it was. -/
def Keeps (p₀ p : Pool) : Prop :=
  ∀ x c, p.cell x = some c → 0 < c.refs → ∃ c₀, p₀.cell x = some c₀ ∧ c.node = c₀.node

/-- Both have the same databases that are there or being freed. -/
structure SameStatus (p p' : Pool) : Prop where
  active : ∀ x, p'.Active x ↔ p.Active x
  busy : ∀ x, p'.Busy x ↔ p.Busy x

theorem SameStatus.put {p : Pool} {x : Ref} {c c' : SdbCell} (hc : p.cell x = some c)
    (hrefs : c'.refs = 0 ↔ c.refs = 0) : SameStatus p (p.put x (some c')) := by
  have hcell := cell_put_self (lt_of_cell hc) (some c')
  have hpos : 0 < c'.refs ↔ 0 < c.refs := by omega
  constructor
  · intro y
    by_cases hy : y = x
    · subst hy
      simp [Active, hcell, hc, hpos]
    · rw [Active, Active, cell_put_ne _ hy]
  · intro y
    by_cases hy : y = x
    · subst hy
      simp [Busy, hcell, hc, hrefs]
    · rw [Busy, Busy, cell_put_ne _ hy]

theorem SameStatus.trans {p p' p'' : Pool} (h : SameStatus p p') (h' : SameStatus p' p'') :
    SameStatus p p'' :=
  ⟨fun x ↦ (h'.active x).trans (h.active x), fun x ↦ (h'.busy x).trans (h.busy x)⟩

section Forced

variable {p : Pool} {s x : Ref} {c child : SdbCell} (hc : p.cell s = some c) (hxs : x ≠ s)
  (hchild : p.cell x = some child) (hpos : 0 < child.refs)

/-- The pool in which `ns_free` frees a database: the namespace has been taken out of the list of
`s`, and the counter is one. -/
def forced (p : Pool) (s : Ref) (c : SdbCell) (x : Ref) (child : SdbCell) : Pool :=
  (p.put s (some (pop c))).put x (some { child with refs := 1 })

theorem cell_forced_ne {y : Ref} (hys : y ≠ s) (hyx : y ≠ x) :
    (forced p s c x child).cell y = p.cell y := by
  rw [forced, cell_put_ne _ hyx, cell_put_ne _ hys]

include hchild

theorem cell_forced : (forced p s c x child).cell x = some { child with refs := 1 } := by
  rw [forced, cell_put_self]
  rw [length_put]
  exact lt_of_cell hchild

include hc hxs hpos

theorem sameStatus_forced : SameStatus p (forced p s c x child) := by
  have hpop : SameStatus p (p.put s (some (pop c))) := .put hc Iff.rfl
  refine hpop.trans (.put (c := child) ?_ ?_)
  · rwa [cell_put_ne _ hxs]
  · exact iff_of_false Nat.one_ne_zero hpos.ne'

theorem Keeps.forced {p₀ : Pool} (hk : Keeps p₀ p) (hs : p.Busy s) :
    Keeps p₀ (forced p s c x child) := by
  intro y cy hcy hy
  have hys : y ≠ s := by
    rintro rfl
    exact hs.not_active (((sameStatus_forced hc hxs hchild hpos).active y).mp ⟨cy, hcy, hy⟩)
  by_cases hyx : y = x
  · subst hyx
    rw [cell_forced hchild] at hcy
    rw [← Option.some.inj hcy]
    exact hk y child hchild hpos
  · rw [cell_forced_ne hys hyx] at hcy
    exact hk y cy hcy hy

end Forced

/-- Databases are freed, and with each of them what is in its namespaces. -/
structure Kills (out : Ref → Multiset Ref) (p p' : Pool) (F : Finset Ref) : Prop where
  active : ∀ y ∈ F, p.Active y
  freed : ∀ y ∈ F, p'.cell y = none
  closed : ∀ y ∈ F, ∀ z ∈ out y, z ∈ F ∨ p.Busy z

/-- What `sdb_free` frees: a database and what is below it, each in one place only, apart from
namespaces that lead back. -/
structure Frees (out : Ref → Multiset Ref) (p : Pool) (x : Ref) (p' : Pool) (F : Finset Ref) : Prop
    extends Kills out p p' F where
  root : x ∈ F
  frame : ∀ y ∉ F, p'.cell y = p.cell y
  path : ∀ y ∈ F, ReflTransGen (Edge out) x y
  tree : ∀ z ∈ F, ∃ u, ∀ y ∈ F, z ∈ out y → y = u ∨ ReflTransGen (Edge out) z y

/-- What the loop over the namespaces of `s` frees. -/
structure LoopFrees (out : Ref → Multiset Ref) (p : Pool) (s : Ref) (list : List Ref)
    (l : List SdbNs) (p' : Pool) (F : Finset Ref) : Prop extends Kills out p p' F where
  frame : ∀ y ∉ F, y ≠ s → p'.cell y = p.cell y
  self : p'.Busy s
  children : ∀ ns ∈ l, ns.sdb ∈ F ∨ ns.sdb ∈ list ∨ p.Busy ns.sdb
  path : ∀ y ∈ F, ∃ ns ∈ l, ReflTransGen (Edge out) ns.sdb y
  tree : ∀ z ∈ F, ∃ u, (∀ y ∈ F, z ∈ out y → y = u ∨ ReflTransGen (Edge out) z y) ∧
    ((∃ ns ∈ l, ns.sdb = z) → s = u)

section Loop

variable {out : Ref → Multiset Ref} {p p₁ p' : Pool} {s : Ref} {list list₁ : List Ref}
  {l : List SdbNs} {ns : SdbNs} {F F₁ F₂ : Finset Ref}

theorem LoopFrees.active_of (h : LoopFrees out p s list l p' F) {y : Ref} (hy : p'.Active y) :
    p.Active y ∧ y ∉ F := by
  have hF : y ∉ F := fun hmem ↦ not_active_of_none (h.freed y hmem) hy
  have hne : y ≠ s := fun heq ↦ h.self.not_active (heq ▸ hy)
  rw [Active, h.frame y hF hne] at hy
  exact ⟨hy, hF⟩

theorem LoopFrees.busy_of (h : LoopFrees out p s list l p' F) (hs : p.Busy s) {y : Ref}
    (hy : p'.Busy y) : p.Busy y ∧ y ∉ F := by
  have hF : y ∉ F := by
    intro hmem
    obtain ⟨c, hc, -⟩ := hy
    exact nomatch (h.freed y hmem).symm.trans hc
  by_cases hys : y = s
  · exact ⟨hys ▸ hs, hF⟩
  · rw [Busy, h.frame y hF hys] at hy
    exact ⟨hy, hF⟩

/-- A round, and the rest of the loop. -/
theorem LoopFrees.cons (hs : p.Busy s) (hlist : ∀ w ∈ list, ¬ p.Active w)
    (h₁ : LoopFrees out p s list [ns] p₁ F₁) (h₂ : LoopFrees out p₁ s list₁ l p' F₂)
    (hsub : ∀ w ∈ list₁, w ∈ list ∨ w = ns.sdb) :
    LoopFrees out p s list (ns :: l) p' (F₁ ∪ F₂) := by
  have hns := h₁.children ns (List.mem_singleton_self ns)
  have hactive : ∀ y ∈ F₂, p.Active y ∧ y ∉ F₁ := fun y hy ↦ h₁.active_of (h₂.active y hy)
  have hbusy : ∀ y, p₁.Busy y → p.Busy y ∧ y ∉ F₁ := fun y hy ↦ h₁.busy_of hs hy
  refine ⟨⟨fun y hy ↦ ?_, fun y hy ↦ ?_, fun y hy z hz ↦ ?_⟩, fun y hy hys ↦ ?_, h₂.self,
    fun ns' hns' ↦ ?_, fun y hy ↦ ?_, fun z hz ↦ ?_⟩
  · rcases Finset.mem_union.mp hy with hy | hy
    · exact h₁.active y hy
    · exact (hactive y hy).1
  · rcases Finset.mem_union.mp hy with hy | hy
    · have hys : y ≠ s := fun heq ↦ hs.not_active (heq ▸ h₁.active y hy)
      rw [h₂.frame y (fun hmem ↦ (hactive y hmem).2 hy) hys, h₁.freed y hy]
    · exact h₂.freed y hy
  · rcases Finset.mem_union.mp hy with hy | hy
    · exact (h₁.closed y hy z hz).imp_left (Finset.mem_union_left _)
    · exact (h₂.closed y hy z hz).imp (Finset.mem_union_right _) fun hb ↦ (hbusy z hb).1
  · obtain ⟨hy₁, hy₂⟩ := not_or.mp fun hor ↦ hy (Finset.mem_union.mpr hor)
    rw [h₂.frame y hy₂ hys, h₁.frame y hy₁ hys]
  · have hhead : ns.sdb ∈ F₁ ∪ F₂ ∨ ns.sdb ∈ list ∨ p.Busy ns.sdb :=
      hns.imp_left (Finset.mem_union_left _)
    rcases List.mem_cons.mp hns' with rfl | hns'
    · exact hhead
    · rcases h₂.children ns' hns' with hmem | hmem | hb
      · exact .inl (Finset.mem_union_right _ hmem)
      · rcases hsub _ hmem with hmem | heq
        · exact .inr (.inl hmem)
        · rwa [heq]
      · exact .inr (.inr (hbusy _ hb).1)
  · rcases Finset.mem_union.mp hy with hy | hy
    · obtain ⟨ns', hns', hpath⟩ := h₁.path y hy
      rw [List.mem_singleton.mp hns'] at hpath
      exact ⟨ns, List.mem_cons_self .., hpath⟩
    · obtain ⟨ns', hns', hpath⟩ := h₂.path y hy
      exact ⟨ns', List.mem_cons_of_mem _ hns', hpath⟩
  · rcases Finset.mem_union.mp hz with hz | hz
    · -- what was freed in this round is not seen in the rest of the loop
      have hz₂ : z ∉ F₂ := fun hmem ↦ (hactive z hmem).2 hz
      have hzb : ¬ p₁.Busy z := fun hb ↦ (hbusy z hb).2 hz
      obtain ⟨u, hu, hus⟩ := h₁.tree z hz
      refine ⟨u, fun y hy hzy ↦ ?_, ?_⟩
      · rcases Finset.mem_union.mp hy with hy | hy
        · exact hu y hy hzy
        · exact ((h₂.closed y hy z hzy).elim hz₂ hzb).elim
      · rintro ⟨ns', hns', rfl⟩
        rcases List.mem_cons.mp hns' with rfl | hns'
        · exact hus ⟨ns', List.mem_singleton_self _, rfl⟩
        · rcases h₂.children ns' hns' with hmem | hmem | hb
          · exact absurd hmem hz₂
          · rcases hsub _ hmem with hmem | heq
            · exact absurd (h₁.active _ hz) (hlist _ hmem)
            · exact hus ⟨ns, List.mem_singleton_self _, heq.symm⟩
          · exact absurd hb hzb
    · -- and what is freed later was not seen in it
      obtain ⟨hzp, hz₁⟩ := hactive z hz
      have hzb : ¬ p.Busy z := fun hb ↦ hb.not_active hzp
      obtain ⟨u, hu, hus⟩ := h₂.tree z hz
      refine ⟨u, fun y hy hzy ↦ ?_, ?_⟩
      · rcases Finset.mem_union.mp hy with hy | hy
        · exact ((h₁.closed y hy z hzy).elim hz₁ hzb).elim
        · exact hu y hy hzy
      · rintro ⟨ns', hns', rfl⟩
        rcases List.mem_cons.mp hns' with rfl | hns'
        · rcases hns with hmem | hmem | hb
          · exact absurd hmem hz₁
          · exact absurd hzp (hlist _ hmem)
          · exact absurd hb hzb
        · exact hus ⟨ns', hns', rfl⟩

/-- Nothing is freed. -/
theorem LoopFrees.empty {c : SdbCell} (hs : p.cell s = some c) (hrefs : c.refs = 0)
    (hns : ns.sdb ∈ list ∨ p.Busy ns.sdb) :
    LoopFrees out p s list [ns] (p.put s (some (pop c))) ∅ := by
  refine ⟨⟨nofun, nofun, nofun⟩, fun y _ hys ↦ cell_put_ne _ hys _,
    ⟨_, cell_put_self (lt_of_cell hs) _, hrefs⟩, fun ns' hns' ↦ ?_, nofun, nofun⟩
  rw [List.mem_singleton.mp hns']
  exact .inr hns

/-- What `sdb_free` does in a round of the loop. -/
theorem Frees.loopFrees {q : Pool} (hs : p.Busy s) (hq : SameStatus p q)
    (hcell : ∀ y, y ≠ s → y ≠ ns.sdb → q.cell y = p.cell y) (h : Frees out q ns.sdb p' F) :
    LoopFrees out p s list [ns] p' F := by
  have hactive : ∀ y ∈ F, p.Active y := fun y hy ↦ (hq.active y).mp (h.active y hy)
  have hsF : s ∉ F := fun hmem ↦ hs.not_active (hactive s hmem)
  refine ⟨⟨hactive, h.freed, fun y hy z hz ↦ ?_⟩, fun y hy hys ↦ ?_, ?_, fun ns' hns' ↦ ?_,
    fun y hy ↦ ⟨ns, List.mem_singleton_self ns, h.path y hy⟩, fun z hz ↦ ?_⟩
  · exact (h.closed y hy z hz).imp_right (hq.busy z).mp
  · rw [h.frame y hy, hcell y hys fun heq ↦ hy (heq ▸ h.root)]
  · rw [Busy, h.frame s hsF]
    exact (hq.busy s).mpr hs
  · rw [List.mem_singleton.mp hns']
    exact .inl h.root
  · by_cases hz' : z = ns.sdb
    · subst hz'
      exact ⟨s, fun y hy _ ↦ .inr (h.path y hy), fun _ ↦ rfl⟩
    · obtain ⟨u, hu⟩ := h.tree z hz
      refine ⟨u, hu, ?_⟩
      rintro ⟨ns', hns', rfl⟩
      exact absurd (congrArg SdbNs.sdb (List.mem_singleton.mp hns')) hz'

theorem LoopFrees.keeps {p₀ : Pool} (hk : Keeps p₀ p) (h : LoopFrees out p s list l p' F) :
    Keeps p₀ p' := by
  intro y c hc hpos
  have hne : y ≠ s := fun heq ↦ h.self.not_active (heq ▸ ⟨c, hc, hpos⟩)
  rw [h.frame y (h.active_of ⟨c, hc, hpos⟩).2 hne] at hc
  exact hk y c hc hpos

end Loop

/-- `sdb_free` of a last reference that goes well. -/
def FreesSpec (p₀ : Pool) (fuel : Nat) : Prop :=
  ∀ {p p' : Pool} {x : Ref} {c : SdbCell}, Keeps p₀ p → p.cell x = some c → c.refs = 1 →
    sdbFree (nsFree fuel) p x = some p' → ∃ F, Frees p₀.out p x p' F

section Spec

variable {p₀ : Pool} {fuel : Nat}

/-- One namespace. -/
theorem FreesSpec.child (h : FreesSpec p₀ fuel) {p : Pool} {s : Ref} {list : List Ref} {ns : SdbNs}
    {st : Pool × List Ref} (hk : Keeps p₀ p) (hs : p.Busy s)
    (hrun : nsFreeChild (nsFree fuel) s (p, list) ns = some st) :
    (∀ w ∈ st.2, w ∈ list ∨ w = ns.sdb) ∧ ∃ F, LoopFrees p₀.out p s list [ns] st.1 F := by
  obtain ⟨c, hc, hrefs⟩ := hs
  have hlt := lt_of_cell hc
  have hstat : SameStatus p (p.put s (some (pop c))) := .put hc Iff.rfl
  by_cases hmem : ns.sdb ∈ list
  · rw [nsFreeChild_of_mem hc _ hmem] at hrun
    obtain rfl := Option.some.inj hrun
    exact ⟨fun w hw ↦ .inl hw, ∅, .empty hc hrefs (.inl hmem)⟩
  · cases fuel with
    | zero => exact absurd (nsFreeChild_zero hrun) hmem
    | succ fuel =>
        rw [nsFreeChild_of_notMem hc fuel hmem] at hrun
        obtain ⟨child, hchild, hrun⟩ := Option.bind_eq_some_iff.mp hrun
        obtain ⟨p₁, hfree, heq⟩ := Option.bind_eq_some_iff.mp hrun
        obtain rfl := Option.some.inj heq
        refine ⟨fun w hw ↦ ?_, ?_⟩
        · rw [List.mem_append, List.mem_singleton] at hw
          exact hw
        · by_cases hzero : child.refs = 0
          · rw [if_neg (by omega), sdbFree_zero _ hchild hzero] at hfree
            obtain rfl := Option.some.inj hfree
            exact ⟨∅, .empty hc hrefs (.inr ((hstat.busy _).mp ⟨child, hchild, hzero⟩))⟩
          · have hpos := Nat.pos_of_ne_zero hzero
            have hns : ns.sdb ≠ s := by
              intro heq
              rw [heq, cell_put_self hlt] at hchild
              obtain rfl := Option.some.inj hchild
              exact hzero hrefs
            rw [ite_put hchild hpos] at hfree
            rw [cell_put_ne _ hns] at hchild
            have hs : p.Busy s := ⟨c, hc, hrefs⟩
            obtain ⟨F, hF⟩ := h (hk.forced hc hns hchild hpos hs) (cell_forced hchild) rfl hfree
            exact ⟨F, hF.loopFrees hs (sameStatus_forced hc hns hchild hpos)
              fun y hys hyx ↦ cell_forced_ne hys hyx⟩

/-- The loop. -/
theorem FreesSpec.loop (h : FreesSpec p₀ fuel) {p : Pool} {s : Ref} {list : List Ref}
    {l : List SdbNs} {st : Pool × List Ref} (hk : Keeps p₀ p) (hs : p.Busy s)
    (hlist : ∀ w ∈ list, ¬ p.Active w)
    (hrun : l.foldlM (nsFreeChild (nsFree fuel) s) (p, list) = some st) :
    ∃ F, LoopFrees p₀.out p s list l st.1 F := by
  induction l generalizing p list with
  | nil =>
      obtain rfl := Option.some.inj hrun
      exact ⟨∅, ⟨nofun, nofun, nofun⟩, fun _ _ _ ↦ rfl, hs, nofun, nofun, nofun⟩
  | cons ns l ih =>
      rw [List.foldlM_cons] at hrun
      obtain ⟨⟨p₁, list₁⟩, hchild, hrun⟩ := Option.bind_eq_some_iff.mp hrun
      obtain ⟨hsub, F₁, h₁⟩ := h.child hk hs hchild
      have hlist₁ : ∀ w ∈ list₁, ¬ p₁.Active w := by
        intro w hw hact
        obtain ⟨hact, hF⟩ := h₁.active_of hact
        rcases hsub w hw with hw | rfl
        · exact hlist w hw hact
        · rcases h₁.children ns (List.mem_singleton_self ns) with hmem | hmem | hb
          · exact hF hmem
          · exact hlist _ hmem hact
          · exact hb.not_active hact
      obtain ⟨F₂, h₂⟩ := ih (h₁.keeps hk) h₁.self hlist₁ hrun
      exact ⟨F₁ ∪ F₂, h₁.cons hs hlist h₂ hsub⟩

end Spec

section Frees

variable {p p' : Pool} {x : Ref} {c : SdbCell} {F : Finset Ref} (hc : p.cell x = some c)
  (hrefs : c.refs = 1)

include hc in
theorem busy_zero : (p.put x (some { c with refs := 0 })).Busy x :=
  ⟨_, cell_put_self (lt_of_cell hc) _, rfl⟩

include hc in
theorem Keeps.zero {p₀ : Pool} (hk : Keeps p₀ p) :
    Keeps p₀ (p.put x (some { c with refs := 0 })) := by
  intro y cy hcy hpos
  have hyx : y ≠ x := by
    rintro rfl
    exact (busy_zero hc).not_active ⟨cy, hcy, hpos⟩
  rw [cell_put_ne _ hyx] at hcy
  exact hk y cy hcy hpos

include hc hrefs

/-- The loop over its namespaces, and the database itself. -/
theorem LoopFrees.frees {out : Ref → Multiset Ref}
    (hout : ∀ z, z ∈ out x ↔ ∃ ns ∈ c.node.nss, ns.sdb = z)
    (hF : LoopFrees out (p.put x (some { c with refs := 0 })) x [x] c.node.nss p' F) :
    Frees out p x (p'.put x none) (insert x F) := by
  have hcell : ∀ y, y ≠ x → (p.put x (some { c with refs := 0 })).cell y = p.cell y :=
    fun y hy ↦ cell_put_ne _ hy _
  have hxF : ∀ y ∈ F, y ≠ x := fun y hy heq ↦ (busy_zero hc).not_active (heq ▸ hF.active y hy)
  have hlt : x < p'.length := by
    obtain ⟨_, hself, -⟩ := hF.self
    exact lt_of_cell hself
  have hor : ∀ {z}, (z ∈ F ∨ (p.put x (some { c with refs := 0 })).Busy z) →
      z ∈ insert x F ∨ p.Busy z := by
    rintro z (hz | hz)
    · exact .inl (Finset.mem_insert_of_mem hz)
    · by_cases hzx : z = x
      · exact .inl (Finset.mem_insert.mpr (.inl hzx))
      · rw [Busy, hcell z hzx] at hz
        exact .inr hz
  have hpath : ∀ y ∈ insert x F, ReflTransGen (Edge out) x y := by
    intro y hy
    rcases Finset.mem_insert.mp hy with rfl | hy
    · exact .refl
    · obtain ⟨ns, hns, hpath⟩ := hF.path y hy
      exact .head ((hout ns.sdb).mpr ⟨ns, hns, rfl⟩) hpath
  refine ⟨⟨fun y hy ↦ ?_, fun y hy ↦ ?_, fun y hy z hz ↦ ?_⟩, Finset.mem_insert_self ..,
    fun y hy ↦ ?_, hpath, fun z hz ↦ ?_⟩
  · rcases Finset.mem_insert.mp hy with rfl | hy
    · exact ⟨c, hc, by omega⟩
    · have hact := hF.active y hy
      rwa [Active, hcell y (hxF y hy)] at hact
  · rcases Finset.mem_insert.mp hy with rfl | hy
    · exact cell_put_self hlt none
    · rw [cell_put_ne _ (hxF y hy), hF.freed y hy]
  · rcases Finset.mem_insert.mp hy with rfl | hy
    · obtain ⟨ns, hns, rfl⟩ := (hout z).mp hz
      rcases hF.children ns hns with hmem | hmem | hb
      · exact hor (.inl hmem)
      · rw [List.mem_singleton.mp hmem]
        exact .inl (Finset.mem_insert_self ..)
      · exact hor (.inr hb)
    · exact hor (hF.closed y hy z hz)
  · obtain ⟨hyx, hyF⟩ := not_or.mp fun h ↦ hy (Finset.mem_insert.mpr h)
    rw [cell_put_ne _ hyx, hF.frame y hyF hyx, hcell y hyx]
  · rcases Finset.mem_insert.mp hz with rfl | hz
    · exact ⟨z, fun y hy _ ↦ .inr (hpath y hy)⟩
    · obtain ⟨u, hu, hus⟩ := hF.tree z hz
      refine ⟨u, fun y hy hzy ↦ ?_⟩
      rcases Finset.mem_insert.mp hy with rfl | hy
      · exact .inl (hus ((hout z).mp hzy))
      · exact hu y hy hzy

end Frees

/-- **`sdb_free`** of a last reference frees everything that is below, if it goes well. -/
theorem freesSpec (p₀ : Pool) (fuel : Nat) : FreesSpec p₀ fuel := by
  induction fuel with
  | zero =>
      intro p p' x c _ hc hrefs hrun
      rw [sdbFree, hc] at hrun
      simp [hrefs, sdbFini, sdbNsFree, nsFree] at hrun
  | succ fuel ih =>
      intro p p' x c hk hc hrefs hrun
      obtain ⟨c₀, hc₀, hnode⟩ := hk x c hc (by omega)
      have hout : ∀ z, z ∈ p₀.out x ↔ ∃ ns ∈ c.node.nss, ns.sdb = z := by
        intro z
        rw [out_eq hc₀, ← hnode, Multiset.mem_coe, List.mem_map]
      rw [sdbFree_one fuel hc hrefs] at hrun
      obtain ⟨st, hloop, hput⟩ := Option.bind_eq_some_iff.mp hrun
      obtain ⟨c', -, rfl⟩ := Option.map_eq_some_iff.mp hput
      have hbusy := busy_zero hc
      obtain ⟨F, hF⟩ := ih.loop (hk.zero hc) hbusy
        (fun w hw ↦ List.mem_singleton.mp hw ▸ hbusy.not_active) hloop
      exact ⟨insert x F, hF.frees hc hrefs hout⟩

/-! ## When it is right -/

/-- The references to a database are dropped but for the last one. -/
theorem Sweeps.force {p₀ p : Pool} {out : Ref → Multiset Ref} {ext : Ref → ℕ}
    {busy live : Finset Ref} {pend pend' : Multiset Ref} {x : Ref} {c : SdbCell}
    (hs : Sweeps p₀ out ext busy ⟨live, pend⟩ p)
    (hc : p.cell x = some c) (hx : x ∈ live) (hcount : ∀ y, y ≠ x → pend'.count y = pend.count y)
    (hone : RefCount.owners out ext ⟨live, pend'⟩ x = 1) :
    Sweeps p₀ out ext busy ⟨live, pend'⟩ (p.put x (some { c with refs := 1 })) := by
  refine ⟨fun y hy ↦ ?_, hs.gone, fun y hy hb ↦ ?_⟩
  · obtain ⟨c₀, hc₀, hcell⟩ := hs.cell y hy
    refine ⟨c₀, hc₀, ?_⟩
    by_cases hyx : y = x
    · subst hyx
      obtain rfl := Option.some.inj (hc.symm.trans hcell)
      rw [cell_put_self (lt_of_cell hc), hone]
    · rw [cell_put_ne _ hyx, hcell, RefCount.owners_mk, RefCount.owners_mk, hcount y hyx]
  · have hyx : y ≠ x := fun heq ↦ hy (heq ▸ hx)
    rw [cell_put_ne _ hyx]
    exact hs.freed y hy hb

/-- The references in a list but those to databases that have been seen. -/
def unseen (list : List Ref) (l : List SdbNs) : Multiset Ref :=
  (↑(l.map SdbNs.sdb) : Multiset Ref).filter (· ∉ list)

theorem mem_unseen {list : List Ref} {l : List SdbNs} {x : Ref} :
    x ∈ unseen list l ↔ (∃ ns ∈ l, ns.sdb = x) ∧ x ∉ list := by
  rw [unseen, Multiset.mem_filter, Multiset.mem_coe, List.mem_map]

theorem unseen_cons_of_mem {list : List Ref} {ns : SdbNs} (l : List SdbNs) (h : ns.sdb ∈ list) :
    unseen list (ns :: l) = unseen list l := by
  rw [unseen, List.map_cons, ← Multiset.cons_coe,
    Multiset.filter_cons_of_neg (p := fun x ↦ x ∉ list) _ (not_not.mpr h)]
  rfl

/-- All references to a database are dropped when it is found first. -/
theorem unseen_cons_of_notMem {list : List Ref} {ns : SdbNs} (l : List SdbNs) (h : ns.sdb ∉ list) :
    ∃ n, unseen list (ns :: l) =
      Multiset.replicate n ns.sdb + (ns.sdb ::ₘ unseen (list ++ [ns.sdb]) l) := by
  refine ⟨(unseen list l).count ns.sdb, ?_⟩
  have hne : unseen (list ++ [ns.sdb]) l = (unseen list l).filter (· ≠ ns.sdb) := by
    rw [unseen, unseen, Multiset.filter_filter]
    refine Multiset.filter_congr fun x _ ↦ ?_
    rw [List.mem_append, List.mem_singleton, not_or, and_comm]
  have hcons : unseen list (ns :: l) = ns.sdb ::ₘ unseen list l := by
    rw [unseen, List.map_cons, ← Multiset.cons_coe,
      Multiset.filter_cons_of_pos (p := fun x ↦ x ∉ list) _ h]
    rfl
  rw [hcons, hne, Multiset.add_cons, ← Multiset.filter_eq', Multiset.filter_add_not]

/-- `sdb_free` of a last reference keeps to the sweep, below `c`. -/
def SweepsSpec (p₀ : Pool) (out : Ref → Multiset Ref) (ext : Ref → ℕ) (c : Ref) (fuel : Nat) :
    Prop :=
  ∀ {busy live : Finset Ref} {pend : Multiset Ref} {x : Ref} {p : Pool}, live.card ≤ fuel →
    Valid out ext ⟨live, x ::ₘ pend⟩ → live ⊆ p₀.live →
    Sweeps p₀ out ext busy ⟨live, x ::ₘ pend⟩ p →
    RefCount.owners out ext ⟨live, x ::ₘ pend⟩ x = 1 → ReflTransGen (Edge out) c x →
    (∀ z ∈ pend, ¬ TransGen (Edge out) x z) →
    ∃ p' live', sdbFree (nsFree fuel) p x = some p' ∧
      SweptTo p₀ out ext busy ⟨live, x ::ₘ pend⟩ p ⟨live', pend⟩ p'

section Sweep

variable {p₀ : Pool} {out : Ref → Multiset Ref} {ext : Ref → ℕ} {c : Ref}
  (hv₀ : Valid out ext ⟨p₀.live, {c}⟩) (hone₀ : RefCount.owners out ext ⟨p₀.live, {c}⟩ c = 1)
  (hsole : Sole out ext p₀.live c)
include hv₀ hone₀ hsole

section Child

variable {live : Finset Ref} {pend : Multiset Ref} {s : Ref} {list : List Ref} {ns : SdbNs}
  {l : List SdbNs} (hpath : ReflTransGen (Edge out) c s) (hl : ∀ ns' ∈ ns :: l, ns'.sdb ∈ out s)
  (hpend : ∀ z ∈ pend, ¬ TransGen (Edge out) s z)
include hpath hl hpend

/-- What has still to be dropped is not below the first namespace. -/
theorem not_below_child {z : Ref} (hz : z ∈ unseen (list ++ [ns.sdb]) l + pend) :
    ¬ TransGen (Edge out) ns.sdb z ∧ z ≠ ns.sdb := by
  have hedge : Edge out s ns.sdb := hl ns (List.mem_cons_self ..)
  have hs₀ : s ∈ p₀.live := hv₀.mem_of_path (hv₀.pend c (Multiset.mem_singleton_self c)) hpath
  rcases Multiset.mem_add.mp hz with hz | hz
  · obtain ⟨⟨ns', hns', rfl⟩, hz⟩ := mem_unseen.mp hz
    have hzs : ns'.sdb ∈ out s := hl ns' (List.mem_cons_of_mem _ hns')
    refine ⟨fun hgen ↦ ?_, fun heq ↦ hz ?_⟩
    · -- the database would be in `s` and in something below the first namespace
      obtain ⟨y, hxy, hyz⟩ := TransGen.tail'_iff.mp hgen
      obtain rfl : y = s := (hsole ns'.sdb (.tail' hpath hzs)).2 y
        (hv₀.mem_of_path (hv₀.closed s hs₀ _ hedge) hxy) s hs₀ hyz hzs
      exact Sole.irrefl hv₀ hone₀ hsole hpath (.head' hedge hxy)
    · rw [heq]
      exact List.mem_append_right _ (List.mem_singleton_self _)
  · refine ⟨fun hgen ↦ hpend z hz (.head hedge hgen), ?_⟩
    rintro rfl
    exact hpend _ hz (.single hedge)

/-- One reference to the first namespace is left when the others in the list have been dropped. -/
theorem owners_child (hsub : live ⊆ p₀.live) (hs : s ∉ live) :
    RefCount.owners out ext ⟨live, ns.sdb ::ₘ (unseen (list ++ [ns.sdb]) l + pend)⟩ ns.sdb = 1 := by
  have hedge : Edge out s ns.sdb := hl ns (List.mem_cons_self ..)
  have hs₀ : s ∈ p₀.live := hv₀.mem_of_path (hv₀.pend c (Multiset.mem_singleton_self c)) hpath
  obtain ⟨hext, hunique⟩ := hsole ns.sdb (.tail' hpath hedge)
  have hcount : (unseen (list ++ [ns.sdb]) l + pend).count ns.sdb = 0 :=
    Multiset.count_eq_zero.mpr fun hz ↦
      (not_below_child hv₀ hone₀ hsole hpath hl hpend hz).2 rfl
  have hsum : ∑ y ∈ live, (out y).count ns.sdb = 0 := by
    refine Finset.sum_eq_zero fun y hy ↦ Multiset.count_eq_zero.mpr fun hxy ↦ ?_
    obtain rfl := hunique y (hsub hy) s hs₀ hxy hedge
    exact hs hy
  rw [RefCount.owners_mk, hext, Multiset.count_cons_self, hcount, hsum]

end Child

/-- One namespace that has not been seen. -/
theorem SweepsSpec.child {fuel : Nat} (h : SweepsSpec p₀ out ext c fuel) {busy live : Finset Ref}
    {pend : Multiset Ref} {p : Pool} {s : Ref} {cs : SdbCell} {list : List Ref} {ns : SdbNs}
    {l : List SdbNs} (hfuel : live.card ≤ fuel)
    (hv : Valid out ext ⟨live, unseen list (ns :: l) + pend⟩) (hsub : live ⊆ p₀.live)
    (hs : Sweeps p₀ out ext (insert s busy) ⟨live, unseen list (ns :: l) + pend⟩ p)
    (hcs : p.cell s = some cs) (hpath : ReflTransGen (Edge out) c s)
    (hl : ∀ ns' ∈ ns :: l, ns'.sdb ∈ out s) (hpend : ∀ z ∈ pend, ¬ TransGen (Edge out) s z)
    (hmem : ns.sdb ∉ list) :
    ∃ p' live', nsFreeChild (nsFree fuel) s (p, list) ns = some (p', list ++ [ns.sdb]) ∧
      ReflTransGen (Step out ext) ⟨live, unseen list (ns :: l) + pend⟩
        ⟨live', unseen (list ++ [ns.sdb]) l + pend⟩ ∧
      Sweeps p₀ out ext (insert s busy) ⟨live', unseen (list ++ [ns.sdb]) l + pend⟩ p' ∧
      (∀ y ∈ busy, y ≠ s → p'.cell y = p.cell y) ∧ p'.cell s = some (pop cs) := by
  have hsb : s ∈ insert s busy := Finset.mem_insert_self ..
  have hx : ns.sdb ∈ live := hv.pend _
    (Multiset.mem_add.mpr (.inl (mem_unseen.mpr ⟨⟨ns, List.mem_cons_self .., rfl⟩, hmem⟩)))
  have hxs : ns.sdb ≠ s := fun heq ↦ hs.gone s hsb (heq ▸ hx)
  have hone : RefCount.owners out ext
      ⟨live, ns.sdb ::ₘ (unseen (list ++ [ns.sdb]) l + pend)⟩ ns.sdb = 1 :=
    owners_child hv₀ hone₀ hsole hpath hl hpend hsub (hs.gone s hsb)
  obtain ⟨n, hn⟩ := unseen_cons_of_notMem l hmem
  rw [hn, Multiset.add_assoc, Multiset.cons_add] at hv hs ⊢
  have hdrop : ReflTransGen (Step out ext)
      ⟨live, Multiset.replicate n ns.sdb + ns.sdb ::ₘ (unseen (list ++ [ns.sdb]) l + pend)⟩
      ⟨live, ns.sdb ::ₘ (unseen (list ++ [ns.sdb]) l + pend)⟩ := steps_drop n
  have hcount : ∀ y, y ≠ ns.sdb →
      (ns.sdb ::ₘ (unseen (list ++ [ns.sdb]) l + pend)).count y =
      (Multiset.replicate n ns.sdb + ns.sdb ::ₘ (unseen (list ++ [ns.sdb]) l + pend)).count y := by
    intro y hy
    rw [Multiset.count_add, Multiset.count_replicate, if_neg hy.symm, Nat.zero_add]
  obtain ⟨c₀, -, hcell⟩ := hs.cell _ hx
  obtain ⟨child, hchild, hpos⟩ : ∃ child, p.cell ns.sdb = some child ∧ 0 < child.refs :=
    ⟨_, hcell, hv.owned _ hx⟩
  have hchild' : (p.put s (some (pop cs))).cell ns.sdb = some child := by
    rwa [cell_put_ne _ hxs]
  have hforce := (hs.put_busy hsb (some (pop cs))).force hchild' hx hcount hone
  obtain ⟨p', live', hrun, hswept⟩ := h hfuel (hv.steps hdrop) hsub hforce hone
    (hpath.tail (hl ns (List.mem_cons_self ..)))
    fun z hz ↦ (not_below_child hv₀ hone₀ hsole hpath hl hpend hz).1
  obtain ⟨fuel, rfl⟩ := Nat.exists_eq_succ_of_ne_zero
    ((Finset.card_pos.mpr ⟨_, hx⟩).trans_le hfuel).ne'
  refine ⟨p', live', ?_, hdrop.trans hswept.steps, hswept.sweeps, fun y hy hys ↦ ?_, ?_⟩
  · rw [nsFreeChild_of_notMem hcs fuel hmem, hchild', Option.bind_some, ite_put hchild' hpos, hrun]
    rfl
  · have hyx : y ≠ ns.sdb := fun heq ↦ hs.gone y (Finset.mem_insert_of_mem hy) (heq ▸ hx)
    rw [hswept.frame y (Finset.mem_insert_of_mem hy), cell_put_ne _ hyx, cell_put_ne _ hys]
  · rw [hswept.frame s hsb, cell_put_ne _ hxs.symm, cell_put_self (lt_of_cell hcs)]

/-- The loop. -/
theorem SweepsSpec.loop {fuel : Nat} (h : SweepsSpec p₀ out ext c fuel) {busy live : Finset Ref}
    {pend : Multiset Ref} {p : Pool} {s : Ref} {cs : SdbCell} {list : List Ref} {l : List SdbNs}
    (hfuel : live.card ≤ fuel) (hv : Valid out ext ⟨live, unseen list l + pend⟩)
    (hsub : live ⊆ p₀.live)
    (hs : Sweeps p₀ out ext (insert s busy) ⟨live, unseen list l + pend⟩ p)
    (hcs : p.cell s = some cs) (hpath : ReflTransGen (Edge out) c s)
    (hl : ∀ ns ∈ l, ns.sdb ∈ out s) (hpend : ∀ z ∈ pend, ¬ TransGen (Edge out) s z) :
    ∃ p' list' live' cs', l.foldlM (nsFreeChild (nsFree fuel) s) (p, list) = some (p', list') ∧
      ReflTransGen (Step out ext) ⟨live, unseen list l + pend⟩ ⟨live', pend⟩ ∧
      Sweeps p₀ out ext (insert s busy) ⟨live', pend⟩ p' ∧
      (∀ y ∈ busy, y ≠ s → p'.cell y = p.cell y) ∧ p'.cell s = some cs' := by
  induction l generalizing live p cs list with
  | nil =>
      have hnil : unseen list [] + pend = pend := Multiset.zero_add pend
      rw [hnil] at hs ⊢
      exact ⟨p, list, live, cs, rfl, .refl, hs, fun _ _ _ ↦ rfl, hcs⟩
  | cons ns l ih =>
      have hsb : s ∈ insert s busy := Finset.mem_insert_self ..
      have hl' : ∀ ns ∈ l, ns.sdb ∈ out s := fun ns hns ↦ hl ns (List.mem_cons_of_mem _ hns)
      by_cases hmem : ns.sdb ∈ list
      · rw [unseen_cons_of_mem l hmem] at hv hs ⊢
        obtain ⟨p', list', live', cs', hrun, hsteps, hs', hframe, hcs'⟩ := ih hfuel hv hsub
          (hs.put_busy hsb (some (pop cs))) (cell_put_self (lt_of_cell hcs) _) hl'
        refine ⟨p', list', live', cs', ?_, hsteps, hs', fun y hy hys ↦ ?_, hcs'⟩
        · rw [List.foldlM_cons, nsFreeChild_of_mem hcs _ hmem]
          exact hrun
        · rw [hframe y hy hys, cell_put_ne _ hys]
      · obtain ⟨p₁, live₁, hchild, hsteps₁, hs₁, hframe₁, hcs₁⟩ :=
          h.child hv₀ hone₀ hsole hfuel hv hsub hs hcs hpath hl hpend hmem
        have hle := (freed_steps hsteps₁).subset
        obtain ⟨p', list', live', cs', hrun, hsteps, hs', hframe, hcs'⟩ :=
          ih ((Finset.card_le_card hle).trans hfuel) (hv.steps hsteps₁) (hle.trans hsub) hs₁ hcs₁
            hl'
        refine ⟨p', list', live', cs', ?_, hsteps₁.trans hsteps, hs', fun y hy hys ↦ ?_, hcs'⟩
        · rw [List.foldlM_cons, hchild]
          exact hrun
        · rw [hframe y hy hys, hframe₁ y hy hys]

/-- **`sdb_free`** of a last reference drops one reference for every namespace, where nobody else
owns what is below. -/
theorem sweepsSpec (hout : ∀ x, ReflTransGen (Edge out) c x → p₀.out x = out x) (fuel : Nat) :
    SweepsSpec p₀ out ext c fuel := by
  induction fuel with
  | zero =>
      intro busy live pend x p hfuel hv _ _ _ _ _
      have hx : x ∈ live := hv.pend x (Multiset.mem_cons_self ..)
      rw [Finset.card_eq_zero.mp (Nat.le_zero.mp hfuel)] at hx
      exact absurd hx (Finset.notMem_empty x)
  | succ fuel ih =>
      intro busy live pend x p hfuel hv hsub hs hone hpath hpend
      have hx : x ∈ live := hv.pend x (Multiset.mem_cons_self ..)
      have hbusy : ∀ y ∈ busy, y ≠ x := fun y hy heq ↦ hs.gone y hy (heq ▸ hx)
      obtain ⟨c₀, hc₀, hcell⟩ := hs.cell x hx
      rw [hone] at hcell
      have hlt := lt_of_cell hcell
      have houtx : out x = ↑(c₀.node.nss.map SdbNs.sdb) := by
        rw [← hout x hpath, out_eq hc₀]
      obtain ⟨-, -, hself⟩ := eq_zero_of_owners hone
      have hunseen : unseen [x] c₀.node.nss = out x := by
        rw [unseen, houtx]
        refine Multiset.filter_eq_self.mpr fun z hz hzx ↦ ?_
        rw [List.mem_singleton] at hzx
        rw [hzx, ← houtx] at hz
        exact hself x hx hz
      have hfree : Step out ext ⟨live, x ::ₘ pend⟩ ⟨live.erase x, out x + pend⟩ := .free hone
      have hcard : (live.erase x).card ≤ fuel := by
        rw [Finset.card_erase_of_mem hx]
        omega
      have hv' := hv.step hfree
      have hs' := (hs.begin hx).put_busy (Finset.mem_insert_self ..) (some ⟨c₀.node, 0⟩)
      rw [← hunseen] at hv' hs'
      obtain ⟨p', list', live', cs', hrun, hsteps, hs'', hframe, hcs'⟩ :=
        ih.loop hv₀ hone₀ hsole hcard hv' ((Finset.erase_subset _ _).trans hsub) hs'
          (cell_put_self hlt _) hpath
          (fun ns hns ↦ houtx ▸ Multiset.mem_coe.mpr (List.mem_map_of_mem hns)) hpend
      rw [hunseen] at hsteps
      refine ⟨p'.put x none, live', ?_, .head hfree hsteps, hs''.finish (lt_of_cell hcs'),
        fun y hy ↦ ?_⟩
      · rw [sdbFree_one fuel hcell rfl, hrun]
        simp [hcs']
      · have hyx := hbusy y hy
        rw [cell_put_ne _ hyx, hframe y hy hyx, cell_put_ne _ hyx]

end Sweep

/-! ## Whether one reference is dropped -/

/-- `sdb_free` drops one reference, and frees what is left without an owner then. -/
def FreeSettles (p : Pool) (ext : Ref → ℕ) (s : Ref) : Prop :=
  ∃ n, ∀ fuel, n ≤ fuel → ∃ p', sdbFree (nsFree fuel) p s = some p' ∧ Settled p ext p'

/-- There is another reference, or what is below has no other owner and is in one place only. -/
def DropsSafe (p : Pool) (ext : Ref → ℕ) (c : Ref) : Prop :=
  (∃ cell, p.cell c = some cell ∧ 1 < cell.refs) ∨ Sole p.out ext p.live c

/-- If all that is freed is left without an owner, it is in one place only. -/
theorem Frees.sole {p p' : Pool} {out : Ref → Multiset Ref} {ext : Ref → ℕ} {c : Ref}
    {F : Finset Ref} (hF : Frees p.out p c p' F) (hv : Valid out ext ⟨p.live, {c}⟩)
    (hidle : ∀ x, ¬ p.Busy x)
    (hdead : ∀ y ∈ F, Dead out ext p.live y) (hout : ∀ y ∈ F, out y = p.out y)
    (hrest : ∀ y ∈ p.live, ∀ x ∈ p.out y, x ∈ out y ∨ x = c) : Sole p.out ext p.live c := by
  have hclosed : ∀ {y z}, y ∈ F → z ∈ p.out y → z ∈ F :=
    fun {y z} hy hz ↦ (hF.closed y hy z hz).resolve_right (hidle z)
  -- below what is freed, both have the same references
  have hpath : ∀ {a b}, a ∈ F → ReflTransGen (Edge p.out) a b →
      ReflTransGen (Edge out) a b ∧ b ∈ F := by
    intro a b ha hab
    induction hab with
    | refl => exact ⟨.refl, ha⟩
    | @tail b d _ hedge ih =>
        refine ⟨ih.1.tail ?_, hclosed ih.2 hedge⟩
        rw [Edge, hout b ih.2]
        exact hedge
  have hpath' : ∀ {b}, ReflTransGen (Edge out) c b → b ∈ F := by
    intro b hb
    induction hb with
    | refl => exact hF.root
    | @tail a d _ hedge ih =>
        rw [Edge, hout a ih] at hedge
        exact hclosed ih hedge
  have hcycle : ∀ {x y}, x ∈ F → ReflTransGen (Edge p.out) x y → x ∉ p.out y := by
    intro x y hx hxy hyx
    obtain ⟨hxy, hy⟩ := hpath hx hxy
    rw [← hout y hy] at hyx
    exact (hdead x hx).irrefl hv (.tail' hxy hyx)
  intro x hx
  obtain ⟨a, hca, hax⟩ := TransGen.tail'_iff.mp hx
  have hxF : x ∈ F := (hpath hF.root hx.to_reflTransGen).2
  have hxc : x ≠ c := by
    rintro rfl
    exact hcycle hxF hca hax
  obtain ⟨-, hext, hown⟩ := hdead x hxF
  obtain ⟨u, hu⟩ := hF.tree x hxF
  have hparent : ∀ y ∈ p.live, x ∈ p.out y → y = u := by
    intro y hy hxy
    have hy' := hown y hy ((hrest y hy x hxy).resolve_right hxc)
    exact (hu y (hpath' (hy'.path hv)) hxy).resolve_right fun hxy' ↦ hcycle hxF hxy' hxy
  refine ⟨hext, fun y hy y' hy' hxy hxy' ↦ ?_⟩
  rw [hparent y hy hxy, hparent y' hy' hxy']

theorem Counted.not_busy {p : Pool} {ext : Ref → ℕ} (hp : Counted p ext) (x : Ref) :
    ¬ p.Busy x := by
  rintro ⟨c, hc, hzero⟩
  rw [hp.refs x c hc] at hzero
  exact (hp.valid.owned x (mem_live.mpr ⟨c, hc⟩)).ne' hzero

section Free

variable {p : Pool} {ext : Ref → ℕ} {s : Ref} (hp : Counted p (hold ext s))
include hp

/-- The beginning of a sweep, when a handle is given up. -/
theorem Counted.sweeps_free :
    Valid p.out ext ⟨p.live, {s}⟩ ∧ Sweeps p p.out ext ∅ ⟨p.live, {s}⟩ p := by
  have hs : s ∈ p.live := hp.held s (by rw [hold, if_pos rfl]; exact Nat.succ_pos _)
  refine ⟨hp.valid.release hs, sweeps_self fun y c hc ↦ ?_⟩
  rw [hp.refs y c hc, owners, RefCount.owners_hold]
  rfl

/-- `sdb_free` drops one reference when and only when nobody else owns what is below. -/
theorem freeSettles_iff : FreeSettles p ext s ↔ DropsSafe p ext s := by
  obtain ⟨hv, hsw⟩ := hp.sweeps_free
  have hs : s ∈ p.live := hv.pend s (Multiset.mem_singleton_self s)
  have held : ∀ x, 0 < ext x → x ∈ p.live := fun x hx ↦ hp.held x (Nat.add_pos_left hx _)
  obtain ⟨c, -, hcell⟩ := hsw.cell s hs
  have hpos := hv.owned s hs
  by_cases hlt : 1 < RefCount.owners p.out ext ⟨p.live, {s}⟩ s
  · refine iff_of_true ⟨0, fun fuel _ ↦ ⟨_, sdbFree_of_lt _ hcell hlt, ?_⟩⟩ (.inl ⟨_, hcell, hlt⟩)
    have hswept : SweptTo p p.out ext ∅ ⟨p.live, {s}⟩ p ⟨p.live, 0⟩ _ :=
      ⟨.single (.drop hlt), hsw.drop hs hcell, nofun⟩
    exact hswept.settled hv held
  · have hone : RefCount.owners p.out ext ⟨p.live, {s}⟩ s = 1 := by omega
    constructor
    · rintro ⟨n, hn⟩
      obtain ⟨p', hrun, hset⟩ := hn n (Nat.le_refl n)
      obtain ⟨F, hF⟩ := freesSpec p n (fun x c hc _ ↦ ⟨c, hc, rfl⟩) hcell hone hrun
      refine .inr (hF.sole hv hp.not_busy (fun y hy ↦ ?_) (fun _ _ ↦ rfl) fun _ _ _ hx ↦ .inl hx)
      obtain ⟨cy, hcy, -⟩ := hF.active y hy
      by_contra hnd
      obtain ⟨c', hc'⟩ := mem_live.mp ((hset.live y).mpr ⟨mem_live.mpr ⟨cy, hcy⟩, hnd⟩)
      exact nomatch (hF.freed y hy).symm.trans hc'
    · rintro (⟨c', hc', hlt'⟩ | hsole)
      · obtain rfl := Option.some.inj (hcell.symm.trans hc')
        exact absurd hlt' hlt
      · refine ⟨p.live.card, fun fuel hfuel ↦ ?_⟩
        obtain ⟨p', live', hrun, hswept⟩ := sweepsSpec hv hone hsole (fun _ _ ↦ rfl) fuel hfuel hv
          (Finset.Subset.refl _) hsw hone .refl nofun
        exact ⟨p', hrun, hswept.settled hv held⟩

end Free

/-! ## Replacing a namespace -/

/-- The counter of a database that is there. -/
def refsOf (p : Pool) (x : Ref) : Option Nat := (p.cell x).map SdbCell.refs

/-- At the end of a sweep, the counters are the owners. -/
theorem Sweeps.refsOf {p₀ p : Pool} {out : Ref → Multiset Ref} {ext : Ref → ℕ} {live : Finset Ref}
    (h : Sweeps p₀ out ext ∅ ⟨live, 0⟩ p) (x : Ref) :
    p.refsOf x = if x ∈ live then some (RefCount.owners out ext ⟨live, 0⟩ x) else none := by
  split
  · next hx =>
      obtain ⟨c₀, -, hc⟩ := h.cell x hx
      rw [Pool.refsOf, hc]
      rfl
  · next hx =>
      rw [Pool.refsOf, h.freed x hx (Finset.notMem_empty x)]
      rfl

theorem exists_cell_put {p : Pool} {s : Ref} {c : SdbCell} (hc : p.cell s = some c) (r : Ref)
    (d : SdbCell) : ∃ e, (p.put r (some d)).cell s = some e := by
  by_cases hsr : s = r
  · subst hsr
    exact ⟨d, cell_put_self (lt_of_cell hc) _⟩
  · exact ⟨c, (cell_put_ne _ hsr _).trans hc⟩

/-- One reference to `r` more, and another list for `s`. -/
theorem refsOf_put {p : Pool} {r s : Ref} {d e e' : SdbCell} (hd : p.cell r = some d)
    (he : (p.put r (some { d with refs := d.refs + 1 })).cell s = some e) (hrefs : e'.refs = e.refs)
    (x : Ref) :
    ((p.put r (some { d with refs := d.refs + 1 })).put s (some e')).refsOf x =
      (p.refsOf x).map (· + if x = r then 1 else 0) := by
  have hmid : (p.put r (some { d with refs := d.refs + 1 })).refsOf x =
      (p.refsOf x).map (· + if x = r then 1 else 0) := by
    by_cases hxr : x = r
    · subst hxr
      rw [refsOf, refsOf, cell_put_self (lt_of_cell hd), hd, if_pos rfl]
      rfl
    · rw [refsOf, refsOf, cell_put_ne _ hxr, if_neg hxr]
      cases p.cell x with
      | none => rfl
      | some c => rfl
  rw [← hmid]
  by_cases hxs : x = s
  · subst hxs
    rw [refsOf, refsOf, cell_put_self (lt_of_cell he), he, Option.map_some, Option.map_some, hrefs]
  · rw [refsOf, refsOf, cell_put_ne _ hxs]

section Set

variable {p : Pool} {s : Ref} {c : SdbCell} (hc : p.cell s = some c) {name : CStr} {r : Ref}
include hc

/-- `sdb_ns_set` with a new name. -/
theorem sdbNsSet_new (fuel : Nat) (hf : c.node.nss.find? (·.hash = sdbHash name) = none)
    (hlock : c.node.nsLock = false) {d : SdbCell} (hd : p.cell r = some d) :
    ∃ p', sdbNsSet fuel p s name r = some (true, p') ∧
      ∀ x, p'.refsOf x = (p.refsOf x).map (· + if x = r then 1 else 0) := by
  obtain ⟨e, he⟩ := exists_cell_put hc r { d with refs := d.refs + 1 }
  refine ⟨_, ?_, fun x ↦ @refsOf_put _ _ _ _ _ { e with node :=
    { e.node with ns := e.node.ns.map (· ++ [⟨name, sdbHash name, r⟩]) } } hd he rfl x⟩
  rw [sdbNsSet, hc]
  simp only [Option.bind_eq_bind, Option.bind_some, hf, hlock, hd, lsAppendNs, he]
  rfl

/-- `sdb_ns_set` in place of another database. -/
theorem sdbNsSet_replace (fuel : Nat) {ns : SdbNs}
    (hf : c.node.nss.find? (·.hash = sdbHash name) = some ns) (hne : ns.sdb ≠ r) (p' : Pool) :
    sdbNsSet fuel p s name r = some (true, p') ↔ ∃ p₁ d e,
      sdbFree (nsFree fuel) p ns.sdb = some p₁ ∧ p₁.cell r = some d ∧
      (p₁.put r (some { d with refs := d.refs + 1 })).cell s = some e ∧
      p' = (p₁.put r (some { d with refs := d.refs + 1 })).put s (some { e with node :=
        { e.node with ns := e.node.ns.map (nsReplace name r) } }) := by
  rw [sdbNsSet, hc]
  simp only [Option.bind_eq_bind, Option.bind_some, hf, if_neg hne]
  constructor
  · intro hrun
    obtain ⟨p₁, hfree, hrun⟩ := Option.bind_eq_some_iff.mp hrun
    obtain ⟨d, hd, hrun⟩ := Option.bind_eq_some_iff.mp hrun
    obtain ⟨e, he, hrun⟩ := Option.bind_eq_some_iff.mp hrun
    exact ⟨p₁, d, e, hfree, hd, he, (Prod.mk.inj (Option.some.inj hrun)).2.symm⟩
  · rintro ⟨p₁, d, e, hfree, hd, he, rfl⟩
    rw [hfree, Option.bind_some, hd, Option.bind_some, he]
    rfl

end Set

/-- What is passed to `sdb_ns_set` when the namespace `ns` is given another database.  Both
databases have an owner without this namespace. -/
structure Replaces (p : Pool) (ext : Ref → ℕ) (s : Ref) (name : CStr) (r : Ref) (ns : SdbNs) :
    Prop where
  counted : Counted p ext
  listed : Listed p
  found : (p.nss s).find? (·.hash = sdbHash name) = some ns
  other : ns.sdb ≠ r
  live : r ∈ p.live
  owned : ∀ x, x = s ∨ x = r → ¬ Dead (p.unlink s (some ns.name) none).out ext p.live x

/-- `sdb_ns_set` has the same effect as `sdb_ns_unset` and `sdb_ns_set`, on all counters and on what
is freed. -/
def ReplaceSettles (p : Pool) (s : Ref) (name : CStr) (r : Ref) (ns : SdbNs) : Prop :=
  ∃ n, ∀ fuel, n ≤ fuel → ∃ p' q q', sdbNsSet fuel p s name r = some (true, p') ∧
    sdbNsUnset fuel p s (some ns.name) none = some (true, q) ∧
    sdbNsSet fuel q s name r = some (true, q') ∧ ∀ x, p'.refsOf x = q'.refsOf x

/-- A namespace has one name, and its hash. -/
theorem find?_nsMatches {l : List SdbNs} (hl : NsList l) {name : CStr} {ns : SdbNs}
    (hf : l.find? (·.hash = sdbHash name) = some ns) :
    l.find? (nsMatches (some ns.name) none) = some ns ∧
      (l.eraseP (nsMatches (some ns.name) none)).find? (·.hash = sdbHash name) = none := by
  obtain ⟨hns, l₁, l₂, rfl, hl₁⟩ := List.find?_eq_some_iff_append.mp hf
  have hhash : ns.hash = sdbHash name := of_decide_eq_true hns
  have hne₁ : ∀ a ∈ l₁, a.hash ≠ sdbHash name := fun a ha ↦ by simpa using hl₁ a ha
  have hself : nsMatches (some ns.name) none ns = true := by simp [nsMatches]
  have hnot : ∀ a ∈ l₁, ¬ nsMatches (some ns.name) none a = true := by
    intro a ha hmatch
    have hname : ns.name = a.name := by simpa [nsMatches] using hmatch
    refine hne₁ a ha ?_
    rw [hl.hash a (List.mem_append_left _ ha), ← hname, ← hhash]
    exact (hl.hash ns (List.mem_append_right _ (List.mem_cons_self ..))).symm
  have hne₂ : ∀ a ∈ l₂, a.hash ≠ sdbHash name := by
    intro a ha heq
    have hnd := hl.distinct
    rw [Keyed.Distinct, List.map_append, List.map_cons] at hnd
    refine (List.nodup_cons.mp (List.nodup_append.mp hnd).2.1).1 ?_
    rw [hhash, ← heq]
    exact List.mem_map_of_mem ha
  refine ⟨List.find?_eq_some_iff_append.mpr
    ⟨hself, l₁, l₂, rfl, fun a ha ↦ by simpa using hnot a ha⟩, ?_⟩
  rw [List.eraseP_append_right _ hnot, List.eraseP_cons_of_pos hself, List.find?_eq_none]
  intro a ha
  rcases List.mem_append.mp ha with ha | ha
  · simpa using hne₁ a ha
  · simpa using hne₂ a ha

section Replace

variable {p : Pool} {ext : Ref → ℕ} {s r : Ref} {name : CStr} {ns : SdbNs}
  (hr : Replaces p ext s name r ns)
include hr

/-- The pool without the namespace that is replaced. -/
theorem Replaces.node : ∃ c, p.cell s = some c ∧ c.node.nsLock = false ∧
    c.node.nss.find? (·.hash = sdbHash name) = some ns ∧
    c.node.nss.find? (nsMatches (some ns.name) none) = some ns ∧
    ∀ c', (p.unlink s (some ns.name) none).cell s = some c' →
      c'.node.nss.find? (·.hash = sdbHash name) = none ∧ c'.node.nsLock = false := by
  have hf := hr.found
  cases hc : p.cell s with
  | none =>
      rw [nss, hc] at hf
      cases hf
  | some c =>
      obtain ⟨l, hl, hlist, hlock⟩ := hr.listed s c hc
      have hnss : c.node.nss = l := by rw [SdbNode.nss, hl]; rfl
      rw [nss_eq hc] at hf
      obtain ⟨hmatch, hnone⟩ := find?_nsMatches (hnss ▸ hlist) hf
      refine ⟨c, rfl, hlock, hf, hmatch, fun c' hc' ↦ ?_⟩
      rw [unlink_eq hc, cell_put_self (lt_of_cell hc)] at hc'
      rw [← Option.some.inj hc', SdbNode.nss, hl]
      rw [hnss] at hnone
      exact ⟨hnone, hlock⟩

/-- `sdb_ns_unset` and `sdb_ns_set`, one after the other. -/
theorem Replaces.unset_set {fuel : Nat} (hfuel : p.live.card ≤ fuel) :
    ∃ q q' live', sdbNsUnset fuel p s (some ns.name) none = some (true, q) ∧
      sdbNsSet fuel q s name r = some (true, q') ∧
      (∀ x, q'.refsOf x = (q.refsOf x).map (· + if x = r then 1 else 0)) ∧
      Valid (p.unlink s (some ns.name) none).out ext ⟨p.live, {ns.sdb}⟩ ∧
      ReflTransGen (Step (p.unlink s (some ns.name) none).out ext)
        ⟨p.live, {ns.sdb}⟩ ⟨live', 0⟩ ∧
      Sweeps (p.unlink s (some ns.name) none) (p.unlink s (some ns.name) none).out ext ∅
        ⟨live', 0⟩ q := by
  obtain ⟨c, hc, -, -, hmatch, hnew⟩ := hr.node
  obtain ⟨hv, q, live', hunset, hswept⟩ := hr.counted.exists_swept hc hmatch hfuel
  rw [live_unlink hc] at hv hswept
  have hlive := RefCount.mem_live_iff hv hswept.steps
  obtain ⟨cs, hcs, hcs'⟩ := hswept.sweeps.cell s
    ((hlive s).mpr ⟨mem_live.mpr ⟨c, hc⟩, hr.owned s (.inl rfl)⟩)
  obtain ⟨cr, -, hcr⟩ := hswept.sweeps.cell r ((hlive r).mpr ⟨hr.live, hr.owned r (.inr rfl)⟩)
  obtain ⟨hnone, hlock⟩ := hnew cs hcs
  obtain ⟨q', hset, hrefs⟩ := sdbNsSet_new hcs' fuel hnone hlock hcr
  exact ⟨q, q', live', hunset, hset, hrefs, hv, hswept.steps, hswept.sweeps⟩

/-- The references without the namespace, and the beginning of the sweep. -/
theorem Replaces.sweeps :
    p.out s = ns.sdb ::ₘ (p.unlink s (some ns.name) none).out s ∧
    (∀ y, y ≠ s → p.out y = (p.unlink s (some ns.name) none).out y) ∧
    Sweeps p (p.unlink s (some ns.name) none).out ext ∅ ⟨p.live, {ns.sdb}⟩ p := by
  obtain ⟨c, hc, -, -, hmatch, -⟩ := hr.node
  have hout := out_unlink hc hmatch
  have hne : ∀ y, y ≠ s → p.out y = (p.unlink s (some ns.name) none).out y :=
    fun y hy ↦ out_unlink_ne hc _ _ hy
  refine ⟨hout, hne, sweeps_self fun y cy hcy ↦ ?_⟩
  rw [hr.counted.refs y cy hcy, owners]
  exact (RefCount.owners_take (mem_live.mpr ⟨c, hc⟩) hout hne y).symm

/-- If `sdb_free` keeps to the sweep, the effect is the same. -/
theorem Replaces.settles {n : Nat} (hfree : ∀ fuel, n ≤ fuel → ∃ p₁ live₁,
      sdbFree (nsFree fuel) p ns.sdb = some p₁ ∧
      ReflTransGen (Step (p.unlink s (some ns.name) none).out ext)
        ⟨p.live, {ns.sdb}⟩ ⟨live₁, 0⟩ ∧
      Sweeps p (p.unlink s (some ns.name) none).out ext ∅ ⟨live₁, 0⟩ p₁) :
    ReplaceSettles p s name r ns := by
  refine ⟨n + p.live.card, fun fuel hfuel ↦ ?_⟩
  obtain ⟨c, hc, -, hf, -, -⟩ := hr.node
  obtain ⟨p₁, live₁, hrun, hsteps, hsw⟩ := hfree fuel (by omega)
  obtain ⟨q, q', live', hunset, hset, hrefs, hv, hsteps', hsw'⟩ :=
    hr.unset_set (show p.live.card ≤ fuel by omega)
  have hlive : live₁ = live' := by
    ext x
    rw [RefCount.mem_live_iff hv hsteps, RefCount.mem_live_iff hv hsteps']
  subst hlive
  have hmem := RefCount.mem_live_iff hv hsteps
  obtain ⟨cs, -, hcs⟩ := hsw.cell s
    ((hmem s).mpr ⟨mem_live.mpr ⟨c, hc⟩, hr.owned s (.inl rfl)⟩)
  obtain ⟨d, -, hd⟩ := hsw.cell r ((hmem r).mpr ⟨hr.live, hr.owned r (.inr rfl)⟩)
  obtain ⟨e, he⟩ := exists_cell_put hcs r _
  refine ⟨_, q, q', (sdbNsSet_replace hc fuel hf hr.other _).mpr ⟨p₁, _, e, hrun, hd, he, rfl⟩,
    hunset, hset, fun x ↦ ?_⟩
  refine (refsOf_put hd he ?_ x).trans ?_
  · rfl
  · rw [hrefs, hsw.refsOf, hsw'.refsOf]

/-- If the effect is the same, nobody else owns what is below. -/
theorem Replaces.sole (hset : ReplaceSettles p s name r ns) {c : SdbCell}
    (hcell : p.cell ns.sdb = some c) (hone : c.refs = 1) : Sole p.out ext p.live ns.sdb := by
  obtain ⟨n, hn⟩ := hset
  obtain ⟨cs, hcs, -, hf, -, -⟩ := hr.node
  obtain ⟨hout, hne, -⟩ := hr.sweeps
  obtain ⟨p', q, q', hset, hunset, hset', hsame⟩ := hn (n + p.live.card) (Nat.le_add_right ..)
  obtain ⟨q₁, q₁', live', hunset₁, hset₁, hrefs, hv, hsteps, hsw'⟩ :=
    hr.unset_set (Nat.le_add_left p.live.card n)
  obtain rfl := (Prod.mk.inj (Option.some.inj (hunset.symm.trans hunset₁))).2
  obtain rfl := (Prod.mk.inj (Option.some.inj (hset'.symm.trans hset₁))).2
  obtain ⟨p₁, d, e, hrun, hd, he, rfl⟩ := (sdbNsSet_replace hcs _ hf hr.other p').mp hset
  obtain ⟨F, hF⟩ := freesSpec p _ (fun x c hc _ ↦ ⟨c, hc, rfl⟩) hcell hone hrun
  have hmem := RefCount.mem_live_iff hv hsteps
  refine hF.sole hv hr.counted.not_busy (fun y hy ↦ ?_) (fun y hy ↦ ?_) fun y hy x hxy ↦ ?_
  · -- what is freed is not there after `sdb_ns_unset` either
    obtain ⟨cy, hcy, -⟩ := hF.active y hy
    by_contra hnd
    have hyl := (hmem y).mpr ⟨mem_live.mpr ⟨cy, hcy⟩, hnd⟩
    have heq := (refsOf_put hd he (by rfl) y).symm.trans (hsame y)
    rw [hrefs, hsw'.refsOf, if_pos hyl, refsOf, hF.freed y hy] at heq
    cases heq
  · refine (hne y ?_).symm
    rintro rfl
    by_cases hyr : y = r
    · subst hyr
      exact nomatch (hF.freed y hy).symm.trans hd
    · rw [cell_put_ne _ hyr, hF.freed y hy] at he
      cases he
  · by_cases hys : y = s
    · subst hys
      rw [hout] at hxy
      exact (Multiset.mem_cons.mp hxy).symm
    · rw [← hne y hys]
      exact .inl hxy

/-- Replacing a namespace is the same as taking it away and setting it again when and only when
nobody else owns what is below the database that was there. -/
theorem replaceSettles_iff : ReplaceSettles p s name r ns ↔ DropsSafe p ext ns.sdb := by
  obtain ⟨hout, hne, hsw⟩ := hr.sweeps
  obtain ⟨-, -, -, -, -, -, hv, -, -⟩ := hr.unset_set (Nat.le_refl _)
  have hx : ns.sdb ∈ p.live := hv.pend _ (Multiset.mem_singleton_self _)
  obtain ⟨c₀, -, hcell⟩ := hsw.cell _ hx
  have hpos := hv.owned _ hx
  by_cases hlt : 1 <
      RefCount.owners (p.unlink s (some ns.name) none).out ext ⟨p.live, {ns.sdb}⟩ ns.sdb
  · refine iff_of_true (hr.settles (n := 0) fun fuel _ ↦ ?_) (.inl ⟨_, hcell, hlt⟩)
    exact ⟨_, p.live, sdbFree_of_lt _ hcell hlt, .single (.drop hlt), hsw.drop hx hcell⟩
  · have hone : RefCount.owners (p.unlink s (some ns.name) none).out ext
        ⟨p.live, {ns.sdb}⟩ ns.sdb = 1 := by omega
    refine ⟨fun hset ↦ .inr (hr.sole hset hcell hone), ?_⟩
    rintro (⟨c', hc', hlt'⟩ | hsole)
    · obtain rfl := Option.some.inj (hcell.symm.trans hc')
      exact absurd hlt' hlt
    · have hsole' : Sole (p.unlink s (some ns.name) none).out ext p.live ns.sdb := by
        refine hsole.mono fun y x hxy ↦ ?_
        by_cases hys : y = s
        · subst hys
          rw [hout]
          exact Multiset.mem_cons_of_mem hxy
        · rwa [hne y hys]
      have hnot : ∀ x, ReflTransGen (Edge (p.unlink s (some ns.name) none).out) ns.sdb x →
          x ≠ s := by
        rintro x hpath rfl
        exact hr.owned x (.inl rfl) (Sole.dead hv hone hsole' hpath)
      refine hr.settles (n := p.live.card) fun fuel hfuel ↦ ?_
      obtain ⟨p₁, live₁, hrun, hswept⟩ := sweepsSpec hv hone hsole'
        (fun x hx ↦ hne x (hnot x hx)) fuel hfuel hv (Finset.Subset.refl _) hsw hone .refl nofun
      exact ⟨p₁, live₁, hrun, hswept.steps, hswept.sweeps⟩

end Replace

/-- **Dropping a parent** drops one reference for every namespace when and only when it is not the
last reference to it, or what is below has no other owner and is in one place only: for `sdb_free`,
and for `sdb_ns_set` in place of another database. -/
theorem dropsReferences_iff (p : Pool) (ext : Ref → ℕ) (s : Ref) :
    (Counted p (hold ext s) → (FreeSettles p ext s ↔ DropsSafe p ext s)) ∧
    ∀ (name : CStr) (r : Ref) (ns : SdbNs), Replaces p ext s name r ns →
      (ReplaceSettles p s name r ns ↔ DropsSafe p ext ns.sdb) :=
  ⟨fun hp ↦ freeSettles_iff hp, fun _ _ _ hr ↦ replaceSettles_iff hr⟩

/-- A namespace with a name of one letter. -/
def letterNs (b : UInt8) (r : Ref) : SdbNs := ⟨CStr.ofBytes [b], sdbHash (CStr.ofBytes [b]), r⟩

/-- A database that was made for a namespace with a name of one letter. -/
def letterCell (b : UInt8) (l : List SdbNs) : SdbCell :=
  ⟨{ sdbNode0 with sdb := { sdbNode0.sdb with name := some (CStr.ofBytes [b]) }, ns := some l }, 1⟩

/-- A database, and another one with the namespaces `a` and `a/b`. -/
def poolChain : Pool :=
  [some ⟨sdbNode0, 1⟩, some ⟨{ sdbNode0 with ns := some [letterNs 97 2] }, 1⟩,
   some (letterCell 97 [letterNs 98 3]), some (letterCell 98 [])]

theorem made_poolChain : Made poolChain (hold (hold (fun _ ↦ 0) 0) 1) := by
  have h₁ : Made _ _ := @Made.ns _ _ _ 1 (CStr.ofBytes [97]) _ (.new0 (.new0 .empty)) rfl
  exact @Made.ns _ _ _ 2 (CStr.ofBytes [98]) _ h₁ rfl

theorem edge_poolChain {y x : Ref} (h : x ∈ poolChain.out y) : y = 1 ∧ x = 2 ∨ y = 2 ∧ x = 3 := by
  match y, h with
  | 0, h => cases h
  | 1, h => exact .inl ⟨rfl, Multiset.mem_singleton.mp h⟩
  | 2, h => exact .inr ⟨rfl, Multiset.mem_singleton.mp h⟩
  | 3, h => cases h
  | _ + 4, h => cases h

theorem sole_poolChain {ext : Ref → ℕ} (hext : ext 2 = 0 ∧ ext 3 = 0) (c : Ref) :
    Sole poolChain.out ext poolChain.live c := by
  intro x hx
  refine ⟨?_, fun y _ y' _ hxy hxy' ↦ ?_⟩
  · obtain ⟨y, -, hedge⟩ := TransGen.tail'_iff.mp hx
    rcases edge_poolChain hedge with ⟨-, rfl⟩ | ⟨-, rfl⟩
    · exact hext.1
    · exact hext.2
  · rcases edge_poolChain hxy with ⟨rfl, rfl⟩ | ⟨rfl, rfl⟩
    · exact ((edge_poolChain hxy').resolve_right fun h ↦ absurd h.2 (by decide)).1.symm
    · exact ((edge_poolChain hxy').resolve_left fun h ↦ absurd h.2 (by decide)).1.symm

theorem replaces_poolChain :
    Replaces poolChain (hold (hold (fun _ ↦ 0) 0) 1) 1 (CStr.ofBytes [97]) 0 (letterNs 97 2) := by
  have hp := made_poolChain.counted
  refine ⟨hp.1, hp.2, rfl, by decide, mem_live.mpr ⟨_, rfl⟩, ?_⟩
  rintro x (rfl | rfl) ⟨-, hext, -⟩
  · exact absurd hext (by decide)
  · exact absurd hext (by decide)

theorem dropsReferences_poolChain : FreeSettles poolChain (hold (fun _ ↦ 0) 0) 1 ∧
    ReplaceSettles poolChain 1 (CStr.ofBytes [97]) 0 (letterNs 97 2) :=
  ⟨((dropsReferences_iff _ _ _).1 made_poolChain.counted.1).mpr
      (.inr (sole_poolChain (by decide) 1)),
    ((dropsReferences_iff _ _ _).2 _ _ _ replaces_poolChain).mpr
      (.inr (sole_poolChain (by decide) 2))⟩

/-- As `poolChain`, but `a/b` is a database that has a handle. -/
def poolHeld : Pool :=
  [some ⟨sdbNode0, 1⟩, some ⟨sdbNode0, 2⟩, some ⟨{ sdbNode0 with ns := some [letterNs 97 3] }, 1⟩,
   some (letterCell 97 [letterNs 98 1])]

theorem made_poolHeld : Made poolHeld (hold (hold (hold (fun _ ↦ 0) 0) 1) 2) := by
  have h₁ : Made _ _ := @Made.ns _ _ _ 2 (CStr.ofBytes [97]) _ (.new0 (.new0 (.new0 .empty))) rfl
  exact @Made.set _ _ _ 0 3 1 (CStr.ofBytes [98]) _ h₁ rfl rfl

/-- The database with a handle is freed with its parent, and when its parent is replaced. -/
theorem not_dropsReferences_poolHeld :
    Made poolHeld (hold (hold (hold (fun _ ↦ 0) 0) 1) 2) ∧
    ¬ FreeSettles poolHeld (hold (hold (fun _ ↦ 0) 0) 1) 2 ∧
    Replaces poolHeld (hold (hold (hold (fun _ ↦ 0) 0) 1) 2) 2 (CStr.ofBytes [97]) 0
      (letterNs 97 3) ∧
    ¬ ReplaceSettles poolHeld 2 (CStr.ofBytes [97]) 0 (letterNs 97 3) := by
  have hp := made_poolHeld.counted
  have hr : Replaces poolHeld (hold (hold (hold (fun _ ↦ 0) 0) 1) 2) 2 (CStr.ofBytes [97]) 0
      (letterNs 97 3) := by
    refine ⟨hp.1, hp.2, rfl, by decide, mem_live.mpr ⟨_, rfl⟩, ?_⟩
    rintro x (rfl | rfl) ⟨-, hext, -⟩
    · exact absurd hext (by decide)
    · exact absurd hext (by decide)
  have hedge : Edge poolHeld.out 3 1 := Multiset.mem_singleton_self 1
  refine ⟨made_poolHeld, fun hfree ↦ ?_, hr, fun hset ↦ ?_⟩
  · rcases (freeSettles_iff hp.1).mp hfree with ⟨c, hc, hlt⟩ | hsole
    · rw [← Option.some.inj hc] at hlt
      exact absurd hlt (by decide)
    · have hpath : TransGen (Edge poolHeld.out) 2 1 :=
        .head (Multiset.mem_singleton_self 3) (.single hedge)
      exact absurd (hsole 1 hpath).1 (by decide)
  · rcases (replaceSettles_iff hr).mp hset with ⟨c, hc, hlt⟩ | hsole
    · rw [← Option.some.inj hc] at hlt
      exact absurd hlt (by decide)
    · exact absurd (hsole 1 (.single hedge)).1 (by decide)

end SdbStore.Pool
