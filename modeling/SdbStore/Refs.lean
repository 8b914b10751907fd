import SdbStore.Lib.RefCount
import SdbStore.NsTree

/-!
# Ownership

Every database counts its owners: who made it with `sdb_new` has one reference, and every
namespace that it is in has one.  It is freed with the last of them.  Here a database that has been
freed is gone, and nothing goes on once it is used.

There are two ways down the namespaces of a database that is freed.  `sdb_ns_reset` drops one
reference for every namespace; `ns_free` frees what it finds, with a list of what it has seen.
-/

namespace SdbStore

open Lib Lib.RefCount

/-- A database with its counter. -/
structure SdbCell where
  node : SdbNode
  refs : Nat

/-- The databases, in the order in which they were made, without those that have been freed. -/
abbrev Pool := List (Option SdbCell)

namespace Pool

/-- What a pointer leads to. -/
def cell (p : Pool) (s : Ref) : Option SdbCell := p[s]?.join

/-- The pool with another database in the place of `s`. -/
def put (p : Pool) (s : Ref) (c : Option SdbCell) : Pool := p.set s c

/-- The namespaces of a database. -/
def nss (p : Pool) (s : Ref) : List SdbNs := ((p.cell s).map fun c ↦ c.node.nss).getD []

/-- `sdb_ns_free`, with what is done for the namespaces. -/
def sdbNsFree (nsFree : Pool → Ref → List Ref → Option (Pool × List Ref)) (p : Pool) (s : Ref) :
    Option Pool := do
  let r ← nsFree p s []
  let c ← r.1.cell s
  return r.1.put s (some { c with node := { c.node with ns := none } })

/-- `sdb_fini`, as far as namespaces and references go. -/
def sdbFini (nsFree : Pool → Ref → List Ref → Option (Pool × List Ref)) (p : Pool) (s : Ref) :
    Option Pool := do
  let p ← sdbNsFree nsFree p s
  let c ← p.cell s
  return p.put s (some { c with refs := 0 })

/-- `sdb_free`.  The table is there as long as the database is. -/
def sdbFree (nsFree : Pool → Ref → List Ref → Option (Pool × List Ref)) (p : Pool) (s : Ref) :
    Option Pool := do
  let c ← p.cell s
  if c.refs ≠ 0 then
    let p := p.put s (some { c with refs := c.refs - 1 })
    if c.refs - 1 < 1 then
      let p ← sdbFini nsFree p s
      return p.put s none
    else return p
  else return p

/-- A round of the loop of `ns_free`.  A namespace is in one list only, and is taken out of it here,
so that it has not been seen before. -/
def nsFreeChild (nsFree : Pool → Ref → List Ref → Option (Pool × List Ref)) (s : Ref)
    (st : Pool × List Ref) (ns : SdbNs) : Option (Pool × List Ref) := do
  let c ← st.1.cell s
  let p := st.1.put s (some { c with node := { c.node with ns := c.node.ns.map List.tail } })
  if ns.sdb ∈ st.2 then return (p, st.2)
  else
    let r ← nsFree p ns.sdb (st.2 ++ [ns.sdb])
    let child ← r.1.cell ns.sdb
    let p := if child.refs > 1 then r.1.put ns.sdb (some { child with refs := 1 }) else r.1
    let p ← sdbFree nsFree p ns.sdb
    return (p, r.2)

/-- `ns_free`. -/
def nsFree : Nat → Pool → Ref → List Ref → Option (Pool × List Ref)
  | 0, _, _, _ => none
  | fuel + 1, p, s, list =>
      if s ∈ list then some (p, list)
      else do
        let c ← p.cell s
        let st ← c.node.nss.foldlM (nsFreeChild (nsFree fuel) s) (p, list ++ [s])
        let c ← st.1.cell s
        return (st.1.put s (some { c with node := { c.node with ns := none } }), st.2)

/-- A round of the loop of `sdb_ns_reset`. -/
def sdbNsResetChild (reset : Pool → Ref → Option Pool) (free : Pool → Ref → Option Pool) (p : Pool)
    (ns : SdbNs) : Option Pool := do
  let c ← p.cell ns.sdb
  if c.refs > 1 then return p.put ns.sdb (some { c with refs := c.refs - 1 })
  else if c.refs = 1 then
    let p ← reset p ns.sdb
    free p ns.sdb
  else return p

/-- `sdb_ns_reset`. -/
def sdbNsReset : Nat → Pool → Ref → Option Pool
  | 0, _, _ => none
  | fuel + 1, p, s => do
      let c ← p.cell s
      if c.node.ns.isNone then return p
      else
        let p ← c.node.nss.foldlM
          (sdbNsResetChild (sdbNsReset fuel) (sdbFree (nsFree fuel))) p
        let c ← p.cell s
        return p.put s (some { c with node := { c.node with ns := none } })

/-- Whether `sdb_ns_unset` is asked for this namespace. -/
def nsMatches (name : Option CStr) (r : Option Ref) (ns : SdbNs) : Bool :=
  name = some ns.name || r = some ns.sdb

/-- `sdb_ns_unset`. -/
def sdbNsUnset (fuel : Nat) (p : Pool) (s : Ref) (name : Option CStr) (r : Option Ref) :
    Option (Bool × Pool) := do
  let c ← p.cell s
  match c.node.nss.find? (nsMatches name r) with
  | none => return (false, p)
  | some ns =>
      let p := p.put s (some { c with node :=
        { c.node with ns := c.node.ns.map fun l ↦ l.eraseP (nsMatches name r) } })
      let child ← p.cell ns.sdb
      let p ← if child.refs = 1 then sdbNsReset fuel p ns.sdb else some p
      let p ← sdbFree (nsFree fuel) p ns.sdb
      return (true, p)

/-- `sdb_new0`. -/
def sdbNew0 (p : Pool) : Ref × Pool := (p.length, p ++ [some ⟨sdbNode0, 1⟩])

/-- A database with one namespace more, if it has a list. -/
def addNs (c : SdbCell) (ns : SdbNs) : SdbCell :=
  { c with node := { c.node with ns := c.node.ns.map (· ++ [ns]) } }

/-- `ls_append` on the list of namespaces. -/
def lsAppendNs (p : Pool) (s : Ref) (ns : SdbNs) : Option Pool := do
  let c ← p.cell s
  return p.put s (some (addNs c ns))

/-- `sdb_ns`. -/
def sdbNs (p : Pool) (s : Ref) (name : CStr) (create : Bool) : Option (Option Ref × Pool) := do
  let c ← p.cell s
  if name = CStr.empty then return (none, p)
  else
    match c.node.nss.find? (·.hash = sdbHash name) with
    | some ns => return (some ns.sdb, p)
    | none =>
        if !create then return (none, p)
        else if c.node.nsLock then return (none, p)
        else
          match sdbNsNew c.node.sdb name with
          | none => return (none, p)
          | some new =>
              let p' ← lsAppendNs (p ++ [some ⟨new, 1⟩]) s ⟨name, sdbHash name, p.length⟩
              return (some p.length, p')

/-- `ns->sdb = r`, in the namespace that is found for a name. -/
def nsReplace (name : CStr) (r : Ref) (l : List SdbNs) : List SdbNs :=
  l.modify (l.findIdx fun ns ↦ ns.hash = sdbHash name) fun ns ↦ { ns with sdb := r }

/-- `sdb_ns_set`. -/
def sdbNsSet (fuel : Nat) (p : Pool) (s : Ref) (name : CStr) (r : Ref) : Option (Bool × Pool) := do
  let c ← p.cell s
  match c.node.nss.find? (·.hash = sdbHash name) with
  | some ns =>
      if ns.sdb = r then return (false, p)
      else
        let p ← sdbFree (nsFree fuel) p ns.sdb
        let d ← p.cell r
        let p := p.put r (some { d with refs := d.refs + 1 })
        let c ← p.cell s
        return (true, p.put s (some { c with node :=
          { c.node with ns := c.node.ns.map (nsReplace name r) } }))
  | none =>
      if c.node.nsLock then return (false, p)
      else
        let d ← p.cell r
        let p ← lsAppendNs (p.put r (some { d with refs := d.refs + 1 })) s ⟨name, sdbHash name, r⟩
        return (true, p)

/-! ## The pool -/

theorem lt_of_cell {p : Pool} {s : Ref} {c : SdbCell} (h : p.cell s = some c) : s < p.length := by
  obtain ⟨o, ho, -⟩ := Option.bind_eq_some_iff.mp h
  exact (List.getElem?_eq_some_iff.mp ho).1

@[simp] theorem length_put (p : Pool) (s : Ref) (c : Option SdbCell) :
    (p.put s c).length = p.length := List.length_set ..

theorem cell_put_ne (p : Pool) {s x : Ref} (hne : x ≠ s) (c : Option SdbCell) :
    (p.put s c).cell x = p.cell x := by
  rw [cell, put, List.getElem?_set_ne hne.symm, cell]

theorem cell_put_self {p : Pool} {s : Ref} (hs : s < p.length) (c : Option SdbCell) :
    (p.put s c).cell s = c := by
  rw [cell, put, List.getElem?_set_self hs]
  rfl

theorem put_put (p : Pool) (s : Ref) (c c' : Option SdbCell) : (p.put s c).put s c' = p.put s c' :=
  List.set_set ..

/-- The databases that have not been freed. -/
def live (p : Pool) : Finset Ref := (Finset.range p.length).filter fun x ↦ (p.cell x).isSome

theorem mem_live {p : Pool} {x : Ref} : x ∈ p.live ↔ ∃ c, p.cell x = some c := by
  rw [live, Finset.mem_filter, Finset.mem_range, Option.isSome_iff_exists]
  refine ⟨And.right, ?_⟩
  rintro ⟨c, hc⟩
  exact ⟨lt_of_cell hc, c, hc⟩

/-- The databases that are in the namespaces of a database. -/
def out (p : Pool) (s : Ref) : Multiset Ref := ↑((p.nss s).map SdbNs.sdb)

theorem nss_eq {p : Pool} {s : Ref} {c : SdbCell} (h : p.cell s = some c) :
    p.nss s = c.node.nss := by
  rw [nss, h]
  rfl

theorem out_eq {p : Pool} {s : Ref} {c : SdbCell} (h : p.cell s = some c) :
    p.out s = ↑(c.node.nss.map SdbNs.sdb) := by
  rw [out, nss_eq h]

/-! ## Counting -/

/-- The owners of a database: handles, of which there are `ext`, and namespaces. -/
def owners (p : Pool) (ext : Ref → ℕ) (x : Ref) : ℕ := RefCount.owners p.out ext ⟨p.live, 0⟩ x

/-- The counters count the owners, and there are no other references than to what lives. -/
structure Counted (p : Pool) (ext : Ref → ℕ) : Prop where
  refs : ∀ x c, p.cell x = some c → c.refs = p.owners ext x
  valid : Valid p.out ext ⟨p.live, 0⟩
  held : ∀ x, 0 < ext x → x ∈ p.live

/-- `p'` is what is left of `p` when the databases have been freed that have no owner there. -/
structure Settled (p : Pool) (ext : Ref → ℕ) (p' : Pool) : Prop where
  live : ∀ x, x ∈ p'.live ↔ x ∈ p.live ∧ ¬ Dead p.out ext p.live x
  node : ∀ x c', p'.cell x = some c' → ∃ c, p.cell x = some c ∧ c'.node = c.node
  counted : Counted p' ext

/-- On the way from `p₀`, where the references are `out`, the state of the sweep is `st`.  The
databases in `busy` are being freed: they do not count any more, but are still there. -/
structure Sweeps (p₀ : Pool) (out : Ref → Multiset Ref) (ext : Ref → ℕ) (busy : Finset Ref)
    (st : Sweep Ref) (p : Pool) : Prop where
  cell : ∀ x ∈ st.live, ∃ c₀, p₀.cell x = some c₀ ∧
    p.cell x = some { c₀ with refs := RefCount.owners out ext st x }
  gone : ∀ x ∈ busy, x ∉ st.live
  freed : ∀ x ∉ st.live, x ∉ busy → p.cell x = none

section Sweeps

variable {p₀ p : Pool} {out : Ref → Multiset Ref} {ext : Ref → ℕ} {busy live : Finset Ref}
  {pend : Multiset Ref} {x : Ref}

/-- One reference of several is dropped. -/
theorem Sweeps.drop (hs : Sweeps p₀ out ext busy ⟨live, x ::ₘ pend⟩ p) (hx : x ∈ live) {c : SdbCell}
    (hc : p.cell x = some c) :
    Sweeps p₀ out ext busy ⟨live, pend⟩ (p.put x (some { c with refs := c.refs - 1 })) := by
  have hlt := lt_of_cell hc
  refine ⟨fun y hy ↦ ?_, hs.gone, fun y hy hb ↦ ?_⟩
  · obtain ⟨c₀, hc₀, hcell⟩ := hs.cell y hy
    refine ⟨c₀, hc₀, ?_⟩
    rw [RefCount.owners_cons] at hcell
    by_cases hyx : y = x
    · subst hyx
      obtain rfl := Option.some.inj (hc.symm.trans hcell)
      rw [cell_put_self hlt, if_pos rfl]
      rfl
    · rw [cell_put_ne _ hyx, hcell, if_neg hyx]
      rfl
  · have hyx : y ≠ x := fun heq ↦ hy (heq ▸ hx)
    rw [cell_put_ne _ hyx]
    exact hs.freed y hy hb

/-- A database begins to be freed. -/
theorem Sweeps.begin (hs : Sweeps p₀ out ext busy ⟨live, x ::ₘ pend⟩ p) (hx : x ∈ live) :
    Sweeps p₀ out ext (insert x busy) ⟨live.erase x, out x + pend⟩ p := by
  refine ⟨fun y hy ↦ ?_, fun y hy ↦ ?_, fun y hy hb ↦ ?_⟩
  · obtain ⟨hyx, hy⟩ := Finset.mem_erase.mp hy
    rw [RefCount.owners_erase hx]
    obtain ⟨c₀, hc₀, hcell⟩ := hs.cell y hy
    rw [RefCount.owners_cons, if_neg hyx] at hcell
    exact ⟨c₀, hc₀, hcell⟩
  · rcases Finset.mem_insert.mp hy with rfl | hy
    · exact Finset.notMem_erase _ _
    · exact fun hmem ↦ hs.gone y hy (Finset.mem_of_mem_erase hmem)
  · obtain ⟨hyx, hb⟩ := not_or.mp fun hor ↦ hb (Finset.mem_insert.mpr hor)
    exact hs.freed y (fun hyl ↦ hy (Finset.mem_erase.mpr ⟨hyx, hyl⟩)) hb

/-- Its memory is given back. -/
theorem Sweeps.finish {st : Sweep Ref} (hs : Sweeps p₀ out ext (insert x busy) st p)
    (hlt : x < p.length) : Sweeps p₀ out ext busy st (p.put x none) := by
  have hx : x ∉ st.live := hs.gone x (Finset.mem_insert_self ..)
  refine ⟨fun y hy ↦ ?_, fun y hy ↦ hs.gone y (Finset.mem_insert_of_mem hy), fun y hy hb ↦ ?_⟩
  · have hyx : y ≠ x := fun heq ↦ hx (heq ▸ hy)
    rw [cell_put_ne _ hyx]
    exact hs.cell y hy
  · by_cases hyx : y = x
    · subst hyx
      exact cell_put_self hlt none
    · rw [cell_put_ne _ hyx]
      refine hs.freed y hy fun hmem ↦ ?_
      exact (Finset.mem_insert.mp hmem).elim hyx hb

/-- The beginning: the counters count the owners. -/
theorem sweeps_self (hrefs : ∀ y c, p.cell y = some c →
      c.refs = RefCount.owners out ext ⟨p.live, pend⟩ y) :
    Sweeps p out ext ∅ ⟨p.live, pend⟩ p := by
  refine ⟨fun y hy ↦ ?_, nofun, fun y hy _ ↦ ?_⟩
  · obtain ⟨c, hc⟩ := mem_live.mp hy
    exact ⟨c, hc, hrefs y c hc ▸ hc⟩
  · cases hc : p.cell y with
    | none => rfl
    | some c => exact absurd (mem_live.mpr ⟨c, hc⟩) hy

/-- What is being freed may be changed. -/
theorem Sweeps.put_busy {st : Sweep Ref} (hs : Sweeps p₀ out ext busy st p) (hx : x ∈ busy)
    (c : Option SdbCell) : Sweeps p₀ out ext busy st (p.put x c) := by
  refine ⟨fun y hy ↦ ?_, hs.gone, fun y hy hb ↦ ?_⟩
  · have hyx : y ≠ x := fun heq ↦ hs.gone x hx (heq ▸ hy)
    rw [cell_put_ne _ hyx]
    exact hs.cell y hy
  · have hyx : y ≠ x := fun heq ↦ hb (heq ▸ hx)
    rw [cell_put_ne _ hyx]
    exact hs.freed y hy hb

end Sweeps

/-! ## `sdb_free` -/

/-- There is another owner. -/
theorem sdbFree_of_lt (nsFree : Pool → Ref → List Ref → Option (Pool × List Ref)) {p : Pool}
    {s : Ref} {c : SdbCell} (hc : p.cell s = some c) (hlt : 1 < c.refs) :
    sdbFree nsFree p s = some (p.put s (some { c with refs := c.refs - 1 })) := by
  have hne : c.refs ≠ 0 := by omega
  have hge : ¬ c.refs - 1 < 1 := by omega
  rw [sdbFree, hc]
  simp only [Option.bind_eq_bind, Option.bind_some, if_pos hne, if_neg hge]
  rfl

/-- The last owner lets go of a database whose namespaces are gone. -/
theorem sdbFree_of_reset {fuel : Nat} (hfuel : 0 < fuel) {p : Pool} {s : Ref} {c : SdbCell}
    (hc : p.cell s = some c) (hrefs : c.refs = 1) (hns : c.node.nss = []) :
    sdbFree (nsFree fuel) p s = some (p.put s none) := by
  obtain ⟨fuel, rfl⟩ := Nat.exists_eq_succ_of_ne_zero hfuel.ne'
  have hlt := lt_of_cell hc
  have hlt' (c' : Option SdbCell) : s < (p.put s c').length := by rwa [length_put]
  have hne : c.refs ≠ 0 := by omega
  have hge : c.refs - 1 < 1 := by omega
  rw [sdbFree, hc]
  simp only [Option.bind_eq_bind, Option.bind_some, if_pos hne, if_pos hge, sdbFini, sdbNsFree,
    nsFree, List.not_mem_nil, if_false, cell_put_self hlt, hns, List.foldlM_nil, Option.pure_def,
    put_put]

/-! ## `sdb_ns_reset` -/

section Reset

variable {p₀ : Pool} {out : Ref → Multiset Ref} {ext : Ref → ℕ}

/-- What is done about references keeps to the sweep, and does not touch what is being freed. -/
structure SweptTo (p₀ : Pool) (out : Ref → Multiset Ref) (ext : Ref → ℕ) (busy : Finset Ref)
    (st : Sweep Ref) (p : Pool) (st' : Sweep Ref) (p' : Pool) : Prop where
  steps : Relation.ReflTransGen (Step out ext) st st'
  sweeps : Sweeps p₀ out ext busy st' p'
  frame : ∀ x ∈ busy, p'.cell x = p.cell x

theorem SweptTo.trans {busy : Finset Ref} {st st' st'' : Sweep Ref} {p p' p'' : Pool}
    (h : SweptTo p₀ out ext busy st p st' p') (h' : SweptTo p₀ out ext busy st' p' st'' p'') :
    SweptTo p₀ out ext busy st p st'' p'' :=
  ⟨h.steps.trans h'.steps, h'.sweeps, fun x hx ↦ (h'.frame x hx).trans (h.frame x hx)⟩

theorem SweptTo.valid {busy : Finset Ref} {st st' : Sweep Ref} {p p' : Pool}
    (h : SweptTo p₀ out ext busy st p st' p') (hv : Valid out ext st) : Valid out ext st' :=
  hv.steps h.steps

theorem SweptTo.card_le {busy : Finset Ref} {st st' : Sweep Ref} {p p' : Pool}
    (h : SweptTo p₀ out ext busy st p st' p') : st'.live.card ≤ st.live.card :=
  Finset.card_le_card (freed_steps h.steps).subset

/-- `sdb_ns_reset` of a database that has one owner, who lets go of it. -/
def Resets (p₀ : Pool) (ext : Ref → ℕ) (fuel : Nat) : Prop :=
  ∀ {busy live : Finset Ref} {pend : Multiset Ref} {x : Ref} {p : Pool}, live.card ≤ fuel →
    Valid p₀.out ext ⟨live, x ::ₘ pend⟩ → Sweeps p₀ p₀.out ext busy ⟨live, x ::ₘ pend⟩ p →
    RefCount.owners p₀.out ext ⟨live, x ::ₘ pend⟩ x = 1 →
    ∃ p' live' c, sdbNsReset fuel p x = some p' ∧
      Relation.ReflTransGen (Step p₀.out ext) ⟨live, x ::ₘ pend⟩ ⟨live', pend⟩ ∧
      Sweeps p₀ p₀.out ext (insert x busy) ⟨live', pend⟩ p' ∧ (∀ y ∈ busy, p'.cell y = p.cell y) ∧
      p'.cell x = some c ∧ c.refs = 1 ∧ c.node.nss = []

/-- One namespace. -/
theorem Resets.child {fuel : Nat} (hreset : Resets p₀ ext fuel) {busy live : Finset Ref}
    {pend : Multiset Ref} {ns : SdbNs} {p : Pool} (hfuel : live.card ≤ fuel)
    (hv : Valid p₀.out ext ⟨live, ns.sdb ::ₘ pend⟩)
    (hs : Sweeps p₀ p₀.out ext busy ⟨live, ns.sdb ::ₘ pend⟩ p) :
    ∃ p' live', sdbNsResetChild (sdbNsReset fuel) (sdbFree (nsFree fuel)) p ns = some p' ∧
      SweptTo p₀ p₀.out ext busy ⟨live, ns.sdb ::ₘ pend⟩ p ⟨live', pend⟩ p' := by
  have hx : ns.sdb ∈ live := hv.pend _ (Multiset.mem_cons_self ..)
  have hbusy : ∀ y ∈ busy, y ≠ ns.sdb := fun y hy heq ↦ hs.gone y hy (heq ▸ hx)
  obtain ⟨c₀, hc₀, hcell⟩ := hs.cell _ hx
  have hpos := hv.owned _ hx
  rw [sdbNsResetChild, hcell]
  simp only [Option.bind_eq_bind, Option.bind_some]
  by_cases hlt : 1 < RefCount.owners p₀.out ext ⟨live, ns.sdb ::ₘ pend⟩ ns.sdb
  · refine ⟨_, live, if_pos hlt, .single (.drop hlt), hs.drop hx hcell, fun y hy ↦ ?_⟩
    exact cell_put_ne _ (hbusy y hy) _
  · have hone : RefCount.owners p₀.out ext ⟨live, ns.sdb ::ₘ pend⟩ ns.sdb = 1 := by omega
    obtain ⟨p₁, live', c, hrun, hsteps, hs₁, hframe, hc, hrefs, hnss⟩ := hreset hfuel hv hs hone
    have hfuel' : 0 < fuel := (Finset.card_pos.mpr ⟨_, hx⟩).trans_le hfuel
    refine ⟨p₁.put ns.sdb none, live', ?_, hsteps, hs₁.finish (lt_of_cell hc), fun y hy ↦ ?_⟩
    · rw [if_neg hlt, if_pos hone, hrun]
      exact sdbFree_of_reset hfuel' hc hrefs hnss
    · rw [cell_put_ne _ (hbusy y hy), hframe y hy]

/-- The loop. -/
theorem Resets.foldlM {fuel : Nat} (hreset : Resets p₀ ext fuel) {busy live : Finset Ref}
    {pend : Multiset Ref} {l : List SdbNs} {p : Pool} (hfuel : live.card ≤ fuel)
    (hv : Valid p₀.out ext ⟨live, ↑(l.map SdbNs.sdb) + pend⟩)
    (hs : Sweeps p₀ p₀.out ext busy ⟨live, ↑(l.map SdbNs.sdb) + pend⟩ p) :
    ∃ p' live', l.foldlM (sdbNsResetChild (sdbNsReset fuel) (sdbFree (nsFree fuel))) p = some p' ∧
      SweptTo p₀ p₀.out ext busy ⟨live, ↑(l.map SdbNs.sdb) + pend⟩ p ⟨live', pend⟩ p' := by
  induction l generalizing live p with
  | nil =>
      rw [List.map_nil, Multiset.coe_nil, Multiset.zero_add] at hs ⊢
      exact ⟨p, live, rfl, .refl, hs, fun _ _ ↦ rfl⟩
  | cons ns l ih =>
      rw [List.map_cons, ← Multiset.cons_coe, Multiset.cons_add] at hv hs ⊢
      obtain ⟨p₁, live₁, hchild, hswept⟩ := hreset.child hfuel hv hs
      obtain ⟨p', live', hloop, hswept'⟩ := ih (hswept.card_le.trans hfuel) (hswept.valid hv)
        hswept.sweeps
      refine ⟨p', live', ?_, hswept.trans hswept'⟩
      rw [List.foldlM_cons, hchild]
      exact hloop

/-- **`sdb_ns_reset`** drops the references of a database that is going to be freed. -/
theorem resets (p₀ : Pool) (ext : Ref → ℕ) (fuel : Nat) : Resets p₀ ext fuel := by
  induction fuel with
  | zero =>
      intro busy live pend x p hfuel hv _ _
      have hx : x ∈ live := hv.pend x (Multiset.mem_cons_self ..)
      rw [Finset.card_eq_zero.mp (Nat.le_zero.mp hfuel)] at hx
      exact absurd hx (Finset.notMem_empty x)
  | succ fuel ih =>
      intro busy live pend x p hfuel hv hs hone
      have hx : x ∈ live := hv.pend x (Multiset.mem_cons_self ..)
      obtain ⟨c₀, hc₀, hcell⟩ := hs.cell x hx
      have hfree : Step p₀.out ext ⟨live, x ::ₘ pend⟩ ⟨live.erase x, p₀.out x + pend⟩ := .free hone
      have hcard : (live.erase x).card ≤ fuel := by
        rw [Finset.card_erase_of_mem hx]
        omega
      have hv' := hv.step hfree
      have hs' := hs.begin hx
      rw [out_eq hc₀] at hv' hs'
      obtain ⟨p₁, live', hloop, hswept⟩ := ih.foldlM hcard hv' hs'
      have hxb : x ∈ insert x busy := Finset.mem_insert_self ..
      have hcell₁ := (hswept.frame x hxb).trans hcell
      have hsteps : Relation.ReflTransGen (Step p₀.out ext) ⟨live, x ::ₘ pend⟩ ⟨live', pend⟩ := by
        refine .head hfree ?_
        rw [out_eq hc₀]
        exact hswept.steps
      rw [sdbNsReset, hcell]
      simp only [Option.bind_eq_bind, Option.bind_some]
      by_cases hns : c₀.node.ns.isNone
      · rw [if_pos hns]
        have hnil : c₀.node.nss = [] := by rw [SdbNode.nss, Option.isNone_iff_eq_none.mp hns]; rfl
        rw [hnil] at hloop
        obtain rfl : p = p₁ := Option.some.inj hloop
        exact ⟨p, live', _, rfl, hsteps, hswept.sweeps, fun _ _ ↦ rfl, hcell₁, hone, hnil⟩
      · rw [if_neg hns, hloop]
        simp only [Option.bind_some, hcell₁]
        refine ⟨_, live', _, rfl, hsteps, hswept.sweeps.put_busy hxb _, fun y hy ↦ ?_,
          cell_put_self (lt_of_cell hcell₁) _, hone, rfl⟩
        have hyx : y ≠ x := fun heq ↦ hs.gone y hy (heq ▸ hx)
        rw [cell_put_ne _ hyx]
        exact hswept.frame y (Finset.mem_insert_of_mem hy)

end Reset

/-! ## `sdb_ns_unset` -/

/-- The pool with the namespace taken out of the list that `sdb_ns_unset` is asked for. -/
def unlink (p : Pool) (s : Ref) (name : Option CStr) (r : Option Ref) : Pool :=
  match p.cell s with
  | none => p
  | some c => p.put s (some { c with node :=
      { c.node with ns := c.node.ns.map fun l ↦ l.eraseP (nsMatches name r) } })

/-- `sdb_ns_unset` takes one namespace away, and frees the databases that are left without an owner,
if there is such a namespace. -/
def UnsetSettles (p : Pool) (ext : Ref → ℕ) (s : Ref) (name : Option CStr) (r : Option Ref) :
    Prop :=
  ∃ n, ∀ fuel, n ≤ fuel → ∃ p',
    ((p.nss s).find? (nsMatches name r) = none ∧ sdbNsUnset fuel p s name r = some (false, p') ∧
      p' = p) ∨
    ((p.nss s).find? (nsMatches name r) ≠ none ∧ sdbNsUnset fuel p s name r = some (true, p') ∧
      Settled (p.unlink s name r) ext p')

theorem live_congr {p p' : Pool} (h : ∀ x, (p'.cell x).isSome = (p.cell x).isSome) :
    p'.live = p.live := by
  ext x
  rw [mem_live, mem_live, ← Option.isSome_iff_exists, ← Option.isSome_iff_exists, h]

theorem live_put {p : Pool} {s : Ref} (hs : s ∈ p.live) (c : SdbCell) :
    (p.put s (some c)).live = p.live := by
  obtain ⟨c₀, hc₀⟩ := mem_live.mp hs
  refine live_congr fun x ↦ ?_
  by_cases hx : x = s
  · subst hx
    rw [cell_put_self (lt_of_cell hc₀), hc₀]
    rfl
  · rw [cell_put_ne _ hx]

theorem out_put_ne (p : Pool) {s x : Ref} (hne : x ≠ s) (c : Option SdbCell) :
    (p.put s c).out x = p.out x := by
  rw [out, nss, cell_put_ne _ hne]
  rfl

theorem out_put_self {p : Pool} {s : Ref} (hs : s < p.length) (c : SdbCell) :
    (p.put s (some c)).out s = ↑(c.node.nss.map SdbNs.sdb) :=
  out_eq (cell_put_self hs _)

/-- A sweep that has come to its end. -/
theorem SweptTo.settled {p p' : Pool} {ext : Ref → ℕ} {x : Ref} {live' : Finset Ref}
    (h : SweptTo p p.out ext ∅ ⟨p.live, {x}⟩ p ⟨live', 0⟩ p') (hv : Valid p.out ext ⟨p.live, {x}⟩)
    (held : ∀ x, 0 < ext x → x ∈ p.live) : Settled p ext p' := by
  have hlive : p'.live = live' := by
    ext y
    rw [mem_live]
    constructor
    · rintro ⟨c, hc⟩
      by_contra hy
      rw [h.sweeps.freed y hy (Finset.notMem_empty y)] at hc
      cases hc
    · intro hy
      obtain ⟨c₀, -, hc⟩ := h.sweeps.cell y hy
      exact ⟨_, hc⟩
  have hout : ∀ y ∈ live', p.out y = p'.out y := by
    intro y hy
    obtain ⟨c₀, hc₀, hc⟩ := h.sweeps.cell y hy
    rw [out_eq hc₀, out_eq hc]
  have hmem := RefCount.mem_live_iff hv h.steps
  have hcell : ∀ y c, p'.cell y = some c → ∃ c₀, p.cell y = some c₀ ∧
      c = { c₀ with refs := RefCount.owners p.out ext ⟨live', 0⟩ y } := by
    intro y c hc
    have hy : y ∈ live' := hlive ▸ mem_live.mpr ⟨c, hc⟩
    obtain ⟨c₀, hc₀, hc'⟩ := h.sweeps.cell y hy
    exact ⟨c₀, hc₀, Option.some.inj (hc.symm.trans hc')⟩
  refine ⟨fun y ↦ hlive ▸ hmem y, fun y c hc ↦ ?_, fun y c hc ↦ ?_, ?_, fun y hy ↦ ?_⟩
  · obtain ⟨c₀, hc₀, rfl⟩ := hcell y c hc
    exact ⟨c₀, hc₀, rfl⟩
  · obtain ⟨c₀, hc₀, rfl⟩ := hcell y c hc
    rw [owners, hlive]
    exact RefCount.owners_congr hout y
  · rw [hlive]
    exact (h.valid hv).congr hout
  · rw [hlive]
    refine (hmem y).mpr ⟨held y hy, ?_⟩
    rintro ⟨-, hext, -⟩
    exact absurd hext hy.ne'

/-- The beginning of a sweep, when a reference has been taken away. -/
theorem Counted.sweeps {p p₁ : Pool} {ext : Ref → ℕ} (hp : Counted p ext) {s a : Ref}
    (hs : s ∈ p.live) (hlive : p₁.live = p.live) (ha : p.out s = a ::ₘ p₁.out s)
    (hne : ∀ y, y ≠ s → p.out y = p₁.out y)
    (hrefs : ∀ y c₁, p₁.cell y = some c₁ → ∃ c, p.cell y = some c ∧ c₁.refs = c.refs) :
    Valid p₁.out ext ⟨p₁.live, {a}⟩ ∧ Sweeps p₁ p₁.out ext ∅ ⟨p₁.live, {a}⟩ p₁ := by
  refine ⟨hlive ▸ hp.valid.take hs ha hne, sweeps_self fun y c₁ hc₁ ↦ ?_⟩
  obtain ⟨c, hc, heq⟩ := hrefs y c₁ hc₁
  rw [heq, hp.refs y c hc, owners, hlive]
  exact (RefCount.owners_take hs ha hne y).symm

/-- The list without the namespace. -/
theorem eraseP_of_find? {l : List SdbNs} {f : SdbNs → Bool} {ns : SdbNs} (h : l.find? f = some ns) :
    (↑(l.map SdbNs.sdb) : Multiset Ref) = ns.sdb ::ₘ ↑((l.eraseP f).map SdbNs.sdb) := by
  obtain ⟨hns, l₁, l₂, rfl, hl₁⟩ := List.find?_eq_some_iff_append.mp h
  have hnone : ∀ b ∈ l₁, ¬ f b = true := fun b hb ↦ by simpa using hl₁ b hb
  rw [List.eraseP_append_right _ hnone, List.eraseP_cons_of_pos hns, Multiset.cons_coe,
    Multiset.coe_eq_coe]
  simp

/-- Dropping the reference of a namespace, in `sdb_ns_unset` and in `sdb_ns_reset`. -/
theorem sdbNsResetChild_eq {fuel : Nat} {p : Pool} {ns : SdbNs} {c : SdbCell}
    (hc : p.cell ns.sdb = some c) (hpos : 0 < c.refs) :
    sdbNsResetChild (sdbNsReset fuel) (sdbFree (nsFree fuel)) p ns =
      (if c.refs = 1 then sdbNsReset fuel p ns.sdb else some p).bind fun p' ↦
        sdbFree (nsFree fuel) p' ns.sdb := by
  rw [sdbNsResetChild, hc]
  simp only [Option.bind_eq_bind, Option.bind_some]
  by_cases hlt : 1 < c.refs
  · rw [if_pos hlt, if_neg hlt.ne', Option.bind_some, sdbFree_of_lt _ hc hlt]
    rfl
  · have hone : c.refs = 1 := by omega
    rw [if_neg hlt, if_pos hone, if_pos hone]

section Unset

variable {p : Pool} {s : Ref} {c : SdbCell} (hc : p.cell s = some c) (name : Option CStr)
  (r : Option Ref)
include hc

theorem unlink_eq : p.unlink s name r = p.put s (some { c with node :=
    { c.node with ns := c.node.ns.map fun l ↦ l.eraseP (nsMatches name r) } }) := by
  rw [unlink, hc]

theorem live_unlink : (p.unlink s name r).live = p.live := by
  rw [unlink_eq hc]
  exact live_put (mem_live.mpr ⟨c, hc⟩) _

variable {name r} in
/-- The namespace is taken out of the list. -/
theorem out_unlink {ns : SdbNs} (hf : c.node.nss.find? (nsMatches name r) = some ns) :
    p.out s = ns.sdb ::ₘ (p.unlink s name r).out s := by
  rw [unlink_eq hc, out_put_self (lt_of_cell hc), out_eq hc, eraseP_of_find? hf]
  cases hns : c.node.ns with
  | none => rw [SdbNode.nss, hns] at hf; cases hf
  | some l => rw [SdbNode.nss, SdbNode.nss, hns]; rfl

theorem out_unlink_ne {y : Ref} (hy : y ≠ s) : p.out y = (p.unlink s name r).out y := by
  rw [unlink_eq hc, out_put_ne _ hy]

theorem refs_unlink {y : Ref} {c₁ : SdbCell} (hc₁ : (p.unlink s name r).cell y = some c₁) :
    ∃ c', p.cell y = some c' ∧ c₁.refs = c'.refs := by
  rw [unlink_eq hc] at hc₁
  by_cases hys : y = s
  · subst hys
    rw [cell_put_self (lt_of_cell hc)] at hc₁
    obtain rfl := Option.some.inj hc₁
    exact ⟨c, hc, rfl⟩
  · rw [cell_put_ne _ hys] at hc₁
    exact ⟨c₁, hc₁, rfl⟩

variable {name r} in
/-- `sdb_ns_unset` drops the reference of the namespace. -/
theorem sdbNsUnset_eq {fuel : Nat} {ns : SdbNs} {child : SdbCell}
    (hf : c.node.nss.find? (nsMatches name r) = some ns)
    (hchild : (p.unlink s name r).cell ns.sdb = some child) (hpos : 0 < child.refs) :
    sdbNsUnset fuel p s name r = (sdbNsResetChild (sdbNsReset fuel) (sdbFree (nsFree fuel))
      (p.unlink s name r) ns).map fun p' ↦ (true, p') := by
  rw [sdbNsResetChild_eq hchild hpos, sdbNsUnset, hc]
  simp only [Option.bind_eq_bind, Option.bind_some, hf, ← unlink_eq hc, hchild]
  by_cases hone : child.refs = 1
  · simp only [if_pos hone, Option.map_eq_bind, Option.bind_assoc]
    rfl
  · simp only [if_neg hone, Option.map_eq_bind, Option.bind_some]
    rfl

end Unset

theorem sdbNsUnset_none {p : Pool} {s : Ref} {c : SdbCell} (hc : p.cell s = some c)
    {name : Option CStr} {r : Option Ref} (hf : c.node.nss.find? (nsMatches name r) = none)
    (fuel : Nat) : sdbNsUnset fuel p s name r = some (false, p) := by
  rw [sdbNsUnset, hc]
  simp only [Option.bind_eq_bind, Option.bind_some, hf]
  rfl

/-- A namespace is taken away, and the references below are swept. -/
theorem Counted.exists_swept {p : Pool} {ext : Ref → ℕ} (hp : Counted p ext) {s : Ref} {c : SdbCell}
    (hc : p.cell s = some c) {name : Option CStr} {r : Option Ref} {ns : SdbNs}
    (hf : c.node.nss.find? (nsMatches name r) = some ns) {fuel : Nat} (hfuel : p.live.card ≤ fuel) :
    Valid (p.unlink s name r).out ext ⟨(p.unlink s name r).live, {ns.sdb}⟩ ∧
    ∃ p' live', sdbNsUnset fuel p s name r = some (true, p') ∧
      SweptTo (p.unlink s name r) (p.unlink s name r).out ext ∅
        ⟨(p.unlink s name r).live, {ns.sdb}⟩ (p.unlink s name r) ⟨live', 0⟩ p' := by
  obtain ⟨hv, hsw⟩ := hp.sweeps (mem_live.mpr ⟨c, hc⟩) (live_unlink hc name r) (out_unlink hc hf)
    (fun y hy ↦ out_unlink_ne hc name r hy) fun y c₁ hc₁ ↦ refs_unlink hc name r hc₁
  rw [← live_unlink hc name r] at hfuel
  obtain ⟨p', live', hrun, hswept⟩ := Resets.child (resets _ ext fuel) hfuel hv hsw
  refine ⟨hv, p', live', ?_, hswept⟩
  have hlive : ns.sdb ∈ (p.unlink s name r).live := hv.pend _ (Multiset.mem_singleton_self _)
  obtain ⟨c₀, -, hchild⟩ := hsw.cell _ hlive
  rw [sdbNsUnset_eq hc hf hchild (hv.owned _ hlive), hrun]
  rfl

theorem Counted.exists_settled {p : Pool} {ext : Ref → ℕ} (hp : Counted p ext) {s : Ref}
    {c : SdbCell} (hc : p.cell s = some c) {name : Option CStr} {r : Option Ref} {ns : SdbNs}
    (hf : c.node.nss.find? (nsMatches name r) = some ns) {fuel : Nat} (hfuel : p.live.card ≤ fuel) :
    ∃ p', sdbNsUnset fuel p s name r = some (true, p') ∧ Settled (p.unlink s name r) ext p' := by
  obtain ⟨hv, p', live', hrun, hswept⟩ := hp.exists_swept hc hf hfuel
  refine ⟨p', hrun, hswept.settled hv fun x hx ↦ ?_⟩
  rw [live_unlink hc]
  exact hp.held x hx

/-! ## How pools are made -/

/-- The lists of namespaces are there, with distinct names, and not locked. -/
def Listed (p : Pool) : Prop :=
  ∀ x c, p.cell x = some c → ∃ l, c.node.ns = some l ∧ NsList l ∧ c.node.nsLock = false

/-- What is made with `sdb_new0`, `sdb_ns` and `sdb_ns_set`, where nothing is replaced, and taken
away with `sdb_ns_unset`, with the handles that `sdb_new0` gave out. -/
inductive Made : Pool → (Ref → ℕ) → Prop
  | empty : Made [] fun _ ↦ 0
  | new0 {p : Pool} {ext : Ref → ℕ} (h : Made p ext) : Made p.sdbNew0.2 (hold ext p.sdbNew0.1)
  | ns {p p' : Pool} {ext : Ref → ℕ} {s : Ref} {name : CStr} {r : Option Ref} (h : Made p ext)
      (hrun : p.sdbNs s name true = some (r, p')) : Made p' ext
  | set {p p' : Pool} {ext : Ref → ℕ} {fuel : Nat} {s r : Ref} {name : CStr} {b : Bool}
      (h : Made p ext) (hfresh : (p.nss s).find? (·.hash = sdbHash name) = none)
      (hrun : sdbNsSet fuel p s name r = some (b, p')) : Made p' ext
  | unset {p p' : Pool} {ext : Ref → ℕ} {n : Nat} {s : Ref} {name : Option CStr} {r : Option Ref}
      {b : Bool} (h : Made p ext)
      (hrun : ∀ fuel, n ≤ fuel → sdbNsUnset fuel p s name r = some (b, p')) : Made p' ext

theorem cell_append (p : Pool) (c : Option SdbCell) (x : Ref) :
    cell (p ++ [c]) x = if x = p.length then c else p.cell x := by
  rw [cell, cell, List.getElem?_append]
  split
  · next hlt => rw [if_neg hlt.ne]
  · next hge =>
      split
      · next heq => rw [heq, Nat.sub_self]; rfl
      · next hne =>
          have hle := Nat.le_of_not_lt hge
          have hpos : 0 < x - p.length := Nat.sub_pos_of_lt (Nat.lt_of_le_of_ne hle (Ne.symm hne))
          rw [List.getElem?_eq_none hle, List.getElem?_eq_none hpos]

section Made

variable {p : Pool} {ext : Ref → ℕ}

/-- One more handle. -/
theorem Counted.retain (hp : Counted p ext) {r : Ref} {c : SdbCell} (hc : p.cell r = some c) :
    Counted (p.put r (some { c with refs := c.refs + 1 })) (hold ext r) := by
  have hr : r ∈ p.live := mem_live.mpr ⟨c, hc⟩
  have hlive := live_put hr { c with refs := c.refs + 1 }
  have hout : ∀ y ∈ p.live, p.out y = (p.put r (some { c with refs := c.refs + 1 })).out y := by
    intro y _
    by_cases hy : y = r
    · subst hy
      rw [out_put_self (lt_of_cell hc), out_eq hc]
    · rw [out_put_ne _ hy]
  refine ⟨fun y c' hc' ↦ ?_, ?_, fun y hy ↦ ?_⟩
  · rw [owners, hlive, ← RefCount.owners_congr hout, RefCount.owners_hold, RefCount.owners_cons,
      ← Pool.owners]
    by_cases hy : y = r
    · subst hy
      rw [cell_put_self (lt_of_cell hc)] at hc'
      rw [if_pos rfl, ← hp.refs y c hc, ← Option.some.inj hc']
    · rw [cell_put_ne _ hy] at hc'
      rw [if_neg hy, hp.refs y c' hc']
      rfl
  · rw [hlive]
    exact (hp.valid.retain r).congr hout
  · rw [hlive]
    by_cases hyr : y = r
    · rwa [hyr]
    · rw [hold, if_neg hyr] at hy
      exact hp.held y hy

section Alloc

variable (p) in
theorem cell_alloc (new : SdbNode) : cell (p ++ [some ⟨new, 1⟩]) p.length = some ⟨new, 1⟩ := by
  rw [cell_append, if_pos rfl]

theorem ne_length_of_mem_live {x : Ref} (hx : x ∈ p.live) : x ≠ p.length := by
  obtain ⟨c, hc⟩ := mem_live.mp hx
  exact (lt_of_cell hc).ne

variable (p) in
theorem live_alloc (new : SdbNode) : live (p ++ [some ⟨new, 1⟩]) = insert p.length p.live := by
  ext x
  rw [Finset.mem_insert, mem_live, mem_live, cell_append]
  by_cases hx : x = p.length
  · simp [hx]
  · simp [hx]

theorem out_alloc_self {new : SdbNode} (hnew : new.nss = []) :
    out (p ++ [some ⟨new, 1⟩]) p.length = 0 := by
  rw [out_eq (cell_alloc p new), hnew]
  rfl

theorem out_alloc_of_mem (new : SdbNode) {y : Ref} (hy : y ∈ p.live) :
    out (p ++ [some ⟨new, 1⟩]) y = p.out y := by
  rw [out, nss, cell_append, if_neg (ne_length_of_mem_live hy)]
  rfl

/-- The new database has its handle, and the others have the owners that they had. -/
theorem owners_alloc {new : SdbNode} (hnew : new.nss = []) (y : Ref) :
    owners (p ++ [some ⟨new, 1⟩]) (hold ext p.length) y =
      p.owners ext y + if y = p.length then 1 else 0 := by
  have hlen : p.length ∉ p.live := fun h ↦ ne_length_of_mem_live h rfl
  rw [owners, live_alloc, RefCount.owners_hold, RefCount.owners_cons,
    RefCount.owners_insert hlen (out_alloc_self hnew),
    RefCount.owners_congr fun z hz ↦ out_alloc_of_mem new hz, Pool.owners]

/-- Nobody owns what is not there. -/
theorem Counted.owners_length (hp : Counted p ext) : p.owners ext p.length = 0 := by
  have hlen : p.length ∉ p.live := fun h ↦ ne_length_of_mem_live h rfl
  have hext : ext p.length = 0 := by
    by_contra hpos
    exact hlen (hp.held _ (Nat.pos_of_ne_zero hpos))
  have hsum : ∑ y ∈ p.live, (p.out y).count p.length = 0 := Finset.sum_eq_zero fun y hy ↦
    Multiset.count_eq_zero.mpr fun hmem ↦ hlen (hp.valid.closed y hy _ hmem)
  rw [Pool.owners, RefCount.owners_mk, hext, Multiset.count_zero, hsum]

/-- A new database. -/
theorem Counted.alloc (hp : Counted p ext) {new : SdbNode} (hnew : new.nss = []) :
    Counted (p ++ [some ⟨new, 1⟩]) (hold ext p.length) := by
  refine ⟨fun y c hc ↦ ?_, ⟨fun y hy x hx ↦ ?_, nofun, fun y hy ↦ ?_⟩, fun y hy ↦ ?_⟩
  · rw [cell_append] at hc
    rw [owners_alloc hnew]
    split at hc
    · next heq => rw [heq, hp.owners_length, if_pos rfl, ← Option.some.inj hc]
    · next hy => rw [if_neg hy, hp.refs y c hc]; rfl
  · rw [live_alloc] at hy ⊢
    rcases Finset.mem_insert.mp hy with rfl | hy
    · rw [out_alloc_self hnew] at hx
      exact absurd hx (Multiset.notMem_zero x)
    · rw [out_alloc_of_mem new hy] at hx
      exact Finset.mem_insert_of_mem (hp.valid.closed y hy x hx)
  · rw [← owners, owners_alloc hnew]
    rw [live_alloc] at hy
    rcases Finset.mem_insert.mp hy with rfl | hy
    · rw [if_pos rfl]
      exact Nat.succ_pos _
    · exact Nat.add_pos_left (hp.valid.owned y hy) _
  · rw [live_alloc]
    by_cases hyr : y = p.length
    · rw [hyr]
      exact Finset.mem_insert_self ..
    · rw [hold, if_neg hyr] at hy
      exact Finset.mem_insert_of_mem (hp.held y hy)

end Alloc

section Append

variable {s : Ref} {c : SdbCell} {l : List SdbNs} (hc : p.cell s = some c)
  (hns : c.node.ns = some l) (ns : SdbNs)
include hc hns

theorem out_addNs : (p.put s (some (addNs c ns))).out s = ns.sdb ::ₘ p.out s := by
  have hnss : (addNs c ns).node.nss = c.node.nss ++ [ns] := by
    rw [addNs, SdbNode.nss, SdbNode.nss, hns]
    rfl
  rw [out_put_self (lt_of_cell hc), out_eq hc, Multiset.cons_coe, Multiset.coe_eq_coe, hnss,
    List.map_append]
  exact List.perm_append_singleton ..

/-- A handle is given to a namespace. -/
theorem Counted.append (hp : Counted p (hold ext ns.sdb)) (hr : ns.sdb ∈ p.live) :
    Counted (p.put s (some (addNs c ns))) ext := by
  have hs : s ∈ p.live := mem_live.mpr ⟨c, hc⟩
  have hlive : (p.put s (some (addNs c ns))).live = p.live := live_put hs _
  have hout := out_addNs hc hns ns
  have hne : ∀ y, y ≠ s → (p.put s (some (addNs c ns))).out y = p.out y :=
    fun y hy ↦ out_put_ne p hy _
  have howners : ∀ y, RefCount.owners (p.put s (some (addNs c ns))).out ext ⟨p.live, 0⟩ y =
      p.owners (hold ext ns.sdb) y := by
    intro y
    rw [← RefCount.owners_take hs hout hne, owners, RefCount.owners_hold]
  refine ⟨fun y c' hc' ↦ ?_, ⟨fun y hy x hx ↦ ?_, nofun, fun y hy ↦ ?_⟩, fun y hy ↦ ?_⟩
  · rw [owners, hlive, howners]
    by_cases hys : y = s
    · subst hys
      rw [cell_put_self (lt_of_cell hc)] at hc'
      rw [← Option.some.inj hc']
      exact hp.refs y c hc
    · rw [cell_put_ne _ hys] at hc'
      exact hp.refs y c' hc'
  · rw [hlive] at hy ⊢
    by_cases hys : y = s
    · subst hys
      rw [hout] at hx
      rcases Multiset.mem_cons.mp hx with rfl | hx
      · exact hr
      · exact hp.valid.closed y hy x hx
    · rw [hne y hys] at hx
      exact hp.valid.closed y hy x hx
  · rw [hlive] at hy ⊢
    rw [howners]
    exact hp.valid.owned y hy
  · rw [hlive]
    exact hp.held y (Nat.add_pos_left hy _)

end Append

/-- A namespace with a new name. -/
theorem Listed.append (hl : Listed p) {s : Ref} {c : SdbCell} (hc : p.cell s = some c) {ns : SdbNs}
    (hhash : ns.hash = sdbHash ns.name)
    (hfresh : c.node.nss.find? (·.hash = sdbHash ns.name) = none) :
    Listed (p.put s (some (addNs c ns))) := by
  intro y c' hc'
  by_cases hys : y = s
  · subst hys
    obtain ⟨l, hns, hlist, hlock⟩ := hl y c hc
    have hnone := List.find?_eq_none.mp hfresh
    rw [SdbNode.nss, hns] at hnone
    rw [cell_put_self (lt_of_cell hc)] at hc'
    obtain rfl := Option.some.inj hc'
    refine ⟨l ++ [ns], ?_, hlist.append hhash fun ns' hns' heq ↦ ?_, hlock⟩
    · rw [addNs, hns]
      rfl
    · exact hnone ns' hns' (decide_eq_true (heq.trans hhash))
  · rw [cell_put_ne _ hys] at hc'
    exact hl y c' hc'

/-- `ls_append` of a namespace with a new name, which gets a handle. -/
theorem Counted.lsAppendNs {p' : Pool} {s : Ref} {ns : SdbNs} (hp : Counted p (hold ext ns.sdb))
    (hl : Listed p) (hr : ns.sdb ∈ p.live) (hhash : ns.hash = sdbHash ns.name)
    (hfresh : ∀ c, p.cell s = some c → c.node.nss.find? (·.hash = sdbHash ns.name) = none)
    (hrun : p.lsAppendNs s ns = some p') : Counted p' ext ∧ Listed p' := by
  obtain ⟨c, hc, hput⟩ := Option.bind_eq_some_iff.mp hrun
  obtain rfl := Option.some.inj hput
  obtain ⟨l, hns, -⟩ := hl s c hc
  exact ⟨hp.append hc hns ns hr, hl.append hc hhash (hfresh c hc)⟩

theorem Listed.put (hl : Listed p) {r : Ref} {c : SdbCell} (hc : p.cell r = some c) (refs : Nat) :
    Listed (p.put r (some { c with refs := refs })) := by
  intro y c' hc'
  by_cases hyr : y = r
  · subst hyr
    rw [cell_put_self (lt_of_cell hc)] at hc'
    rw [← Option.some.inj hc']
    exact hl y c hc
  · rw [cell_put_ne _ hyr] at hc'
    exact hl y c' hc'

theorem Listed.alloc (hl : Listed p) {new : SdbNode} (hnew : new.ns = some [])
    (hlock : new.nsLock = false) : Listed (p ++ [some ⟨new, 1⟩]) := by
  intro y c hc
  rw [cell_append] at hc
  split at hc
  · rw [← Option.some.inj hc]
    exact ⟨[], hnew, nsList_nil, hlock⟩
  · exact hl y c hc

theorem sdbNsNew_ns {s : Sdb} {name : CStr} {new : SdbNode} (h : sdbNsNew s name = some new) :
    new.ns = some [] ∧ new.nsLock = false := by
  rw [sdbNsNew] at h
  split at h
  · rw [← Option.some.inj h]
    exact ⟨rfl, rfl⟩
  · cases h

/-- `sdb_ns`. -/
theorem Counted.ns {p' : Pool} {s : Ref} {name : CStr} {create : Bool} {r : Option Ref}
    (hp : Counted p ext) (hl : Listed p) (hrun : p.sdbNs s name create = some (r, p')) :
    Counted p' ext ∧ Listed p' := by
  obtain ⟨c, hc, hrun⟩ := Option.bind_eq_some_iff.mp hrun
  have hsame : ∀ {o : Option Ref}, (some (o, p) : Option (Option Ref × Pool)) = some (r, p') →
      Counted p' ext ∧ Listed p' := by
    intro o heq
    obtain ⟨-, rfl⟩ := Prod.mk.inj (Option.some.inj heq)
    exact ⟨hp, hl⟩
  split at hrun
  · exact hsame hrun
  · split at hrun
    · exact hsame hrun
    · next hf =>
        split at hrun
        · exact hsame hrun
        · split at hrun
          · exact hsame hrun
          · split at hrun
            · exact hsame hrun
            · next new hnew =>
                obtain ⟨p₁, happend, heq⟩ := Option.bind_eq_some_iff.mp hrun
                obtain ⟨-, rfl⟩ := Prod.mk.inj (Option.some.inj heq)
                obtain ⟨hns, hlock⟩ := sdbNsNew_ns hnew
                refine Counted.lsAppendNs (hp.alloc ?_) (hl.alloc hns hlock) ?_ rfl
                  (fun c' hc' ↦ ?_) happend
                · rw [SdbNode.nss, hns]
                  rfl
                · exact mem_live.mpr ⟨_, cell_alloc p new⟩
                · rw [cell_append, if_neg (lt_of_cell hc).ne, hc] at hc'
                  rw [← Option.some.inj hc']
                  exact hf

/-- `sdb_ns_set` with a new name. -/
theorem Counted.set {p' : Pool} {fuel : Nat} {s r : Ref} {name : CStr} {b : Bool}
    (hp : Counted p ext) (hl : Listed p)
    (hfresh : (p.nss s).find? (·.hash = sdbHash name) = none)
    (hrun : sdbNsSet fuel p s name r = some (b, p')) : Counted p' ext ∧ Listed p' := by
  obtain ⟨c, hc, hrun⟩ := Option.bind_eq_some_iff.mp hrun
  rw [nss_eq hc] at hfresh
  simp only [hfresh] at hrun
  split at hrun
  · obtain ⟨-, rfl⟩ := Prod.mk.inj (Option.some.inj hrun)
    exact ⟨hp, hl⟩
  · obtain ⟨d, hd, hrun⟩ := Option.bind_eq_some_iff.mp hrun
    obtain ⟨p₁, happend, heq⟩ := Option.bind_eq_some_iff.mp hrun
    obtain ⟨-, rfl⟩ := Prod.mk.inj (Option.some.inj heq)
    refine @Counted.lsAppendNs _ ext _ s ⟨name, sdbHash name, r⟩ (hp.retain hd) (hl.put hd _) ?_ rfl
      (fun c' hc' ↦ ?_) happend
    · exact mem_live.mpr ⟨_, cell_put_self (lt_of_cell hd) _⟩
    · by_cases hsr : s = r
      · subst hsr
        rw [cell_put_self (lt_of_cell hc)] at hc'
        obtain rfl := Option.some.inj (hc.symm.trans hd)
        rw [← Option.some.inj hc']
        exact hfresh
      · rw [cell_put_ne _ hsr, hc] at hc'
        rw [← Option.some.inj hc']
        exact hfresh

theorem Listed.unlink (hl : Listed p) {s : Ref} {c : SdbCell} (hc : p.cell s = some c)
    (name : Option CStr) (r : Option Ref) : Listed (p.unlink s name r) := by
  intro y c' hc'
  rw [unlink_eq hc] at hc'
  by_cases hys : y = s
  · subst hys
    obtain ⟨l, hns, hlist, hlock⟩ := hl y c hc
    rw [cell_put_self (lt_of_cell hc)] at hc'
    obtain rfl := Option.some.inj hc'
    refine ⟨l.eraseP (nsMatches name r), ?_, hlist.sublist List.eraseP_sublist, hlock⟩
    rw [hns]
    rfl
  · rw [cell_put_ne _ hys] at hc'
    exact hl y c' hc'

/-- `sdb_ns_unset`. -/
theorem Counted.unset {p' : Pool} {n : Nat} {s : Ref} {name : Option CStr} {r : Option Ref}
    {b : Bool} (hp : Counted p ext) (hl : Listed p)
    (hrun : ∀ fuel, n ≤ fuel → sdbNsUnset fuel p s name r = some (b, p')) :
    Counted p' ext ∧ Listed p' := by
  obtain ⟨c, hc, -⟩ := Option.bind_eq_some_iff.mp (hrun n (Nat.le_refl n))
  have hrun' := hrun (n + p.live.card) (Nat.le_add_right ..)
  cases hf : c.node.nss.find? (nsMatches name r) with
  | none =>
      rw [sdbNsUnset_none hc hf] at hrun'
      obtain ⟨-, rfl⟩ := Prod.mk.inj (Option.some.inj hrun')
      exact ⟨hp, hl⟩
  | some ns =>
      obtain ⟨p₁, hrun₁, hsettled⟩ := hp.exists_settled hc hf (Nat.le_add_left ..)
      rw [hrun₁] at hrun'
      obtain ⟨-, rfl⟩ := Prod.mk.inj (Option.some.inj hrun')
      refine ⟨hsettled.counted, fun x c₁ hc₁ ↦ ?_⟩
      obtain ⟨c₂, hc₂, hnode⟩ := hsettled.node x c₁ hc₁
      rw [hnode]
      exact hl.unlink hc name r x c₂ hc₂

/-- **The counters are right** in everything that is made. -/
theorem Made.counted (h : Made p ext) : Counted p ext ∧ Listed p := by
  induction h with
  | empty =>
      have hno {x : Ref} {c : SdbCell} : Pool.cell [] x ≠ some c := by simp [Pool.cell]
      exact ⟨⟨fun _ _ hc ↦ absurd hc hno, ⟨nofun, nofun, nofun⟩, nofun⟩, fun _ _ hc ↦ absurd hc hno⟩
  | new0 _ ih => exact ⟨ih.1.alloc rfl, ih.2.alloc rfl rfl⟩
  | ns _ hrun ih => exact ih.1.ns ih.2 hrun
  | set _ hfresh hrun ih => exact ih.1.set ih.2 hfresh hrun
  | unset _ hrun ih => exact ih.1.unset ih.2 hrun

end Made

/-- **`sdb_ns_unset`** respects ownership. -/
theorem unsetSettles {p : Pool} {ext : Ref → ℕ} (hp : Counted p ext) {s : Ref} (hs : s ∈ p.live)
    (name : Option CStr) (r : Option Ref) : UnsetSettles p ext s name r := by
  obtain ⟨c, hc⟩ := mem_live.mp hs
  refine ⟨p.live.card, fun fuel hfuel ↦ ?_⟩
  rw [nss_eq hc]
  cases hf : c.node.nss.find? (nsMatches name r) with
  | none => exact ⟨p, .inl ⟨rfl, sdbNsUnset_none hc hf fuel, rfl⟩⟩
  | some ns =>
      obtain ⟨p', hrun, hsettled⟩ := hp.exists_settled hc hf hfuel
      exact ⟨p', .inr ⟨nofun, hrun, hsettled⟩⟩

/-- A database with two namespaces `b` and `k`, where `k` is also the namespace `s` of `b`, and has
a handle. -/
def poolShared : Pool :=
  [some ⟨{ sdbNode0 with ns := some [⟨CStr.ofBytes [98], sdbHash (CStr.ofBytes [98]), 1⟩,
      ⟨CStr.ofBytes [107], sdbHash (CStr.ofBytes [107]), 2⟩] }, 1⟩,
   some ⟨{ sdbNode0 with
      sdb := { SdbStore.sdbNew0 with name := some (CStr.ofBytes [98]) },
      ns := some [⟨CStr.ofBytes [115], sdbHash (CStr.ofBytes [115]), 2⟩] }, 1⟩,
   some ⟨sdbNode0, 3⟩]

theorem made_poolShared : Made poolShared (hold (hold (fun _ ↦ 0) 0) 2) := by
  have h₁ : Made _ _ := @Made.ns _ _ _ 0 (CStr.ofBytes [98]) _ (.new0 .empty) rfl
  have h₂ : Made _ _ := @Made.set _ _ _ 0 1 2 (CStr.ofBytes [115]) _ (.new0 h₁) rfl rfl
  exact @Made.set _ _ _ 0 0 2 (CStr.ofBytes [107]) _ h₂ rfl rfl

/-- The namespace `b` is taken away; what it shares is kept. -/
theorem unsetSettles_poolShared : 2 ∈ poolShared.live ∧
    UnsetSettles poolShared (hold (hold (fun _ ↦ 0) 0) 2) 0 (some (CStr.ofBytes [98])) none :=
  ⟨mem_live.mpr ⟨_, rfl⟩, unsetSettles made_poolShared.counted.1 (mem_live.mpr ⟨_, rfl⟩) _ _⟩

end Pool

end SdbStore
