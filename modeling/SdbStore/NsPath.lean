import SdbStore.Lib.Runs
import SdbStore.NsLock
import SdbStore.NsTree

/-!
# Paths of namespaces

`sdb_ns_path` of `ns.c` goes from one namespace to the next, along a path with slashes.  Nothing is
asked of the namespaces here: names may have the same hash, a database may be in several places, and
there may be cycles.

What a path leads to it leads to from then on (`path_stable`), unless a namespace is replaced or
removed.  What is locked gets no new namespaces (`nsLock_seals`).
-/

namespace SdbStore

open Lib

/-- The names of a path. -/
def nsPathNames (path : CStr) : List CStr := (path.val.splitOn 47).map CStr.ofBytes

/-- The loop of `sdb_ns_path`. -/
def sdbNsPathLoop (create : Bool) : Heap → Ref → List CStr → Option Ref × Heap
  | h, s, [] => (some s, h)
  | h, s, name :: names =>
      match sdbNs h s name create with
      | (none, h) => (none, h)
      | (some r, h) => sdbNsPathLoop create h r names

/-- `sdb_ns_path`. -/
def sdbNsPath (h : Heap) (s : Ref) (path : CStr) (create : Bool) : Option Ref × Heap :=
  if path = CStr.empty then (some s, h) else sdbNsPathLoop create h s (nsPathNames path)

/-! ## Lookups -/

/-- The namespace that `sdb_ns` finds. -/
def Heap.found (h : Heap) (s : Ref) (name : CStr) : Option Ref :=
  if name = CStr.empty then none else ((h.nss s).find? (·.hash = sdbHash name)).map SdbNs.sdb

/-- The database that `sdb_ns_path` finds. -/
def Heap.route (h : Heap) : Ref → List CStr → Option Ref
  | s, [] => some s
  | s, name :: names => (h.found s name).bind fun r ↦ h.route r names

/-- A namespace that has been made. -/
structure NsMade (h : Heap) (s : Ref) (name : CStr) (h' : Heap) : Prop where
  free : h.found s name = none
  name_ne : name ≠ CStr.empty
  unlocked : ∃ node, h[s]? = some node ∧ node.nsLock = false
  heap : ∃ new : SdbNode, new.ns = some [] ∧
    h' = lsAppendNs (h ++ [new]) s ⟨name, sdbHash name, h.length⟩

/-- **What `sdb_ns` does.** -/
theorem sdbNs_made_or_found (h : Heap) (s : Ref) (name : CStr) (create : Bool) :
    sdbNs h s name create = (h.found s name, h) ∨
      ∃ h', create = true ∧ sdbNs h s name create = (some h.length, h') ∧ NsMade h s name h' := by
  by_cases hne : name = CStr.empty
  · refine .inl ?_
    rw [Heap.found, if_pos hne]
    unfold sdbNs
    split
    · rfl
    · rw [if_pos hne]
  cases hnode : h[s]? with
  | none =>
      refine .inl ?_
      rw [Heap.found, if_neg hne, Heap.nss]
      unfold sdbNs
      rw [hnode]
      rfl
  | some node =>
      have hfound : h.found s name = (node.nss.find? (·.hash = sdbHash name)).map SdbNs.sdb := by
        rw [Heap.found, if_neg hne, Heap.nss, hnode]
      rw [hfound]
      unfold sdbNs
      rw [hnode]
      dsimp only
      rw [if_neg hne]
      cases hfind : node.nss.find? (·.hash = sdbHash name) with
      | some ns => exact .inl rfl
      | none =>
          have hfree : h.found s name = none := by
            rw [hfound, hfind]
            rfl
          cases create with
          | false => exact .inl rfl
          | true =>
              cases hlock : node.nsLock with
              | true => exact .inl rfl
              | false =>
                  cases hnew : sdbNsNew node.sdb name with
                  | none => exact .inl rfl
                  | some new =>
                      have hns : new.ns = some [] := by
                        rw [sdbNsNew] at hnew
                        split at hnew
                        · cases hnew
                          rfl
                        · cases hnew
                      exact .inr ⟨_, rfl, rfl, hfree, hne, ⟨node, hnode, hlock⟩, new, hns, rfl⟩

theorem sdbNs_of_found {h : Heap} {s r : Ref} {name : CStr} (hf : h.found s name = some r)
    (create : Bool) :
    sdbNs h s name create = (some r, h) := by
  rcases sdbNs_made_or_found h s name create with heq | ⟨_, -, -, hm⟩
  · rw [heq, hf]
  · rw [hm.free] at hf
    cases hf

theorem sdbNsPathLoop_of_route {h : Heap} {s r : Ref} {names : List CStr}
    (hr : h.route s names = some r) (create : Bool) :
    sdbNsPathLoop create h s names = (some r, h) := by
  induction names generalizing s with
  | nil =>
      cases hr
      rfl
  | cons name names ih =>
      obtain ⟨t, ht, hr⟩ := Option.bind_eq_some_iff.mp hr
      rw [sdbNsPathLoop, sdbNs_of_found ht]
      exact ih hr

theorem sdbNsPathLoop_append (create : Bool) (h : Heap) (s : Ref) (names names' : List CStr) :
    sdbNsPathLoop create h s (names ++ names') =
      match sdbNsPathLoop create h s names with
      | (none, h) => (none, h)
      | (some r, h) => sdbNsPathLoop create h r names' := by
  induction names generalizing h s with
  | nil => rfl
  | cons name names ih =>
      rw [List.cons_append, sdbNsPathLoop, sdbNsPathLoop]
      rcases sdbNs h s name create with ⟨_ | r, h⟩
      · rfl
      · exact ih h r

/-- One path behind another. -/
def CStr.slash (p q : CStr) : CStr := p ++ CStr.ofBytes [47] ++ q

theorem nsPathNames_slash (p q : CStr) :
    nsPathNames (p.slash q) = nsPathNames p ++ nsPathNames q := by
  have hval : (p.slash q).val = p.val ++ 47 :: q.val := by
    change p.val ++ [47] ++ q.val = _
    rw [List.append_assoc]
    rfl
  rw [nsPathNames, hval, List.splitOn_append_cons_self, List.map_append]
  rfl

/-! ## The heap grows -/

/-- The databases and their namespaces are still there, with others behind them. -/
structure Extends (h h' : Heap) : Prop where
  length : h.length ≤ h'.length
  nss : ∀ s, h.nss s <+: h'.nss s
  listed : (∀ node ∈ h, node.ns ≠ none) → ∀ node ∈ h', node.ns ≠ none

theorem Extends.refl (h : Heap) : Extends h h := ⟨Nat.le_refl _, fun _ ↦ List.prefix_refl _, id⟩

theorem Extends.trans {h h' h'' : Heap} (h₁ : Extends h h') (h₂ : Extends h' h'') : Extends h h'' :=
  ⟨h₁.length.trans h₂.length, fun s ↦ (h₁.nss s).trans (h₂.nss s), h₂.listed ∘ h₁.listed⟩

theorem Extends.found {h h' : Heap} (he : Extends h h') {s r : Ref} {name : CStr}
    (hf : h.found s name = some r) : h'.found s name = some r := by
  rw [Heap.found] at hf ⊢
  split at hf
  · cases hf
  · next hne =>
      rw [if_neg hne]
      obtain ⟨ns, hns, rfl⟩ := Option.map_eq_some_iff.mp hf
      obtain ⟨l, hl⟩ := he.nss s
      rw [← hl, List.find?_append, hns]
      rfl

theorem Extends.route {h h' : Heap} (he : Extends h h') {s r : Ref} {names : List CStr}
    (hr : h.route s names = some r) : h'.route s names = some r := by
  induction names generalizing s with
  | nil => exact hr
  | cons name names ih =>
      obtain ⟨t, ht, hr⟩ := Option.bind_eq_some_iff.mp hr
      exact Option.bind_eq_some_iff.mpr ⟨t, he.found ht, ih hr⟩

section NsMade

variable {h h' : Heap} {s : Ref} {name : CStr} (hm : NsMade h s name h')
include hm

theorem NsMade.lt : s < h.length := by
  obtain ⟨node, hnode, -⟩ := hm.unlocked
  exact (List.getElem?_eq_some_iff.mp hnode).1

/-- The other databases are as they were. -/
theorem NsMade.other {t : Ref} (ht : t ≠ s) (hlt : t < h.length) : h'[t]? = h[t]? := by
  obtain ⟨new, -, rfl⟩ := hm.heap
  rw [getElem?_lsAppendNs hm.lt, if_neg ht, if_neg (Nat.ne_of_lt hlt)]

theorem NsMade.listed (hl : ∀ node ∈ h, node.ns ≠ none) : ∀ node ∈ h', node.ns ≠ none := by
  obtain ⟨new, hnew, rfl⟩ := hm.heap
  intro node hnode
  obtain ⟨i, hi⟩ := List.mem_iff_getElem?.mp hnode
  rw [getElem?_lsAppendNs hm.lt] at hi
  split at hi
  · obtain ⟨old, hold, rfl⟩ := Option.map_eq_some_iff.mp hi
    obtain ⟨l, hns⟩ := Option.ne_none_iff_exists'.mp (hl old (List.mem_of_getElem? hold))
    dsimp only
    rw [hns]
    exact nofun
  · split at hi
    · cases hi
      rw [hnew]
      exact nofun
    · exact hl node (List.mem_of_getElem? hi)

/-- The new namespace is behind the others, if there is a list for it. -/
theorem NsMade.nss (t : Ref) : Heap.nss h' t = h.nss t ∨
    t = s ∧ Heap.nss h' t = h.nss t ++ [⟨name, sdbHash name, h.length⟩] := by
  obtain ⟨new, hnew, rfl⟩ := hm.heap
  obtain ⟨node, hnode, -⟩ := hm.unlocked
  rw [Heap.nss, getElem?_lsAppendNs hm.lt]
  by_cases ht : t = s
  · subst ht
    rw [if_pos rfl, hnode, Heap.nss, hnode]
    dsimp only [Option.map_some]
    rw [SdbNode.nss, SdbNode.nss]
    cases node.ns with
    | none => exact .inl rfl
    | some l => exact .inr ⟨rfl, rfl⟩
  · rw [if_neg ht]
    by_cases hlen : t = h.length
    · rw [if_pos hlen, hlen, Heap.nss, List.getElem?_eq_none (Nat.le_refl _)]
      refine .inl ?_
      dsimp only
      rw [SdbNode.nss, hnew]
      rfl
    · rw [if_neg hlen]
      exact .inl rfl

theorem NsMade.extends : Extends h h' where
  length := by
    obtain ⟨new, -, rfl⟩ := hm.heap
    rw [length_lsAppendNs]
    exact Nat.le_succ _
  nss t := by
    rcases hm.nss t with heq | ⟨-, heq⟩
    · rw [heq]
    · rw [heq]
      exact List.prefix_append _ _
  listed := hm.listed

theorem NsMade.found (hl : ∀ node ∈ h, node.ns ≠ none) : Heap.found h' s name = some h.length := by
  have hfree := hm.free
  rw [Heap.found, if_neg hm.name_ne] at hfree ⊢
  have hnss : Heap.nss h' s = h.nss s ++ [⟨name, sdbHash name, h.length⟩] := by
    obtain ⟨new, -, rfl⟩ := hm.heap
    obtain ⟨node, hnode, -⟩ := hm.unlocked
    obtain ⟨l, hns⟩ := Option.ne_none_iff_exists'.mp (hl node (List.mem_of_getElem? hnode))
    rw [Heap.nss, getElem?_lsAppendNs hm.lt, if_pos rfl, hnode, Heap.nss, hnode]
    dsimp only [Option.map_some]
    rw [SdbNode.nss, SdbNode.nss, hns]
    rfl
  rw [hnss, List.find?_append, Option.map_eq_none_iff.mp hfree, Option.none_or,
    List.find?_singleton, if_pos (decide_eq_true rfl)]
  rfl

end NsMade

theorem sdbNs_extends (h : Heap) (s : Ref) (name : CStr) (create : Bool) :
    Extends h (sdbNs h s name create).2 := by
  rcases sdbNs_made_or_found h s name create with heq | ⟨h', -, heq, hm⟩
  · rw [heq]
    exact .refl h
  · rw [heq]
    exact hm.extends

/-- What `sdb_ns` keeps `sdb_ns_path` keeps. -/
theorem sdbNsPath_keeps {P : Heap → Prop} {create : Bool}
    (hP : ∀ h s name, P h → P (sdbNs h s name create).2) {h : Heap} (hh : P h) (s : Ref)
    (path : CStr) :
    P (sdbNsPath h s path create).2 := by
  have hloop (names : List CStr) : P (sdbNsPathLoop create h s names).2 := by
    induction names generalizing h s with
    | nil => exact hh
    | cons name names ih =>
        have hns := hP h s name hh
        rw [sdbNsPathLoop]
        rcases hres : sdbNs h s name create with ⟨_ | r, h₁⟩
        · rw [hres] at hns
          exact hns
        · rw [hres] at hns
          exact ih hns r
  rw [sdbNsPath]
  split
  · exact hh
  · exact hloop _

theorem sdbNsPath_extends (h : Heap) (s : Ref) (path : CStr) (create : Bool) :
    Extends h (sdbNsPath h s path create).2 :=
  sdbNsPath_keeps (P := Extends h) (fun _ _ _ he ↦ he.trans (sdbNs_extends _ _ _ _))
    (.refl h) s path

/-- What `sdb_ns` has found or made is found from then on. -/
theorem found_of_sdbNs {h h' : Heap} {s r : Ref} {name : CStr} {create : Bool}
    (hl : create → ∀ node ∈ h, node.ns ≠ none) (h₁ : sdbNs h s name create = (some r, h')) :
    h'.found s name = some r := by
  rcases sdbNs_made_or_found h s name create with heq | ⟨h₂, hcreate, heq, hm⟩
  · obtain ⟨hf, rfl⟩ := Prod.mk.inj (heq.symm.trans h₁)
    exact hf
  · obtain ⟨hr, rfl⟩ := Prod.mk.inj (heq.symm.trans h₁)
    rw [← hr]
    exact hm.found (hl hcreate)

theorem route_of_sdbNsPathLoop {h h' : Heap} {s r : Ref} {names : List CStr} {create : Bool}
    (hl : create → ∀ node ∈ h, node.ns ≠ none)
    (h₁ : sdbNsPathLoop create h s names = (some r, h')) :
    h'.route s names = some r ∧ Extends h h' := by
  induction names generalizing h s with
  | nil =>
      obtain ⟨hr, rfl⟩ := Prod.mk.inj h₁
      exact ⟨hr, .refl h⟩
  | cons name names ih =>
      rw [sdbNsPathLoop] at h₁
      rcases hres : sdbNs h s name create with ⟨_ | t, h₂⟩
      · rw [hres] at h₁
        cases h₁
      · rw [hres] at h₁
        have hext := sdbNs_extends h s name create
        rw [hres] at hext
        obtain ⟨hroute, hext'⟩ := ih (fun hc ↦ hext.listed (hl hc)) h₁
        exact ⟨Option.bind_eq_some_iff.mpr ⟨t, hext'.found (found_of_sdbNs hl hres), hroute⟩,
          hext.trans hext'⟩

/-! ## Runs -/

/-- A call on the databases of a heap.  `data` stands for whatever else is done to a database;
`fuel` is how deep the calls of `sdb_ns_lock` go. -/
inductive NsEvent where
  | ns (s : Ref) (name : CStr) (create : Bool)
  | path (s : Ref) (path : CStr) (create : Bool)
  | set (s : Ref) (name : CStr) (r : Ref)
  | unset (s : Ref) (name : CStr)
  | reset (s : Ref)
  | lock (fuel : Nat) (s : Ref) (lock : Bool) (depth : Int)
  | data (s : Ref) (sdb : Sdb)

/-- The heap after a call. -/
def NsEvent.step (h : Heap) : NsEvent → Option Heap
  | .ns s name create => some (sdbNs h s name create).2
  | .path s p create => some (sdbNsPath h s p create).2
  | .set s name r => some (sdbNsSet h s name r).2
  | .unset s name => some (sdbNsUnset h s name).2
  | .reset s => some (sdbNsReset h s)
  | .lock fuel s on depth => sdbNsLock fuel h s on depth
  | .data s sdb => some (h.modify s fun node ↦ { node with sdb := sdb })

/-- No namespace is replaced or removed. -/
def NsEvent.Adds : NsEvent → Prop
  | .set .. | .unset .. | .reset .. => False
  | _ => True

instance : DecidablePred NsEvent.Adds
  | .ns _ _ _ => .isTrue trivial
  | .path _ _ _ => .isTrue trivial
  | .set _ _ _ => .isFalse id
  | .unset _ _ => .isFalse id
  | .reset _ => .isFalse id
  | .lock _ _ _ _ => .isTrue trivial
  | .data _ _ => .isTrue trivial

theorem SameNss.extends {h h' : Heap} (hs : SameNss h h')
    (hl : (∀ node ∈ h, node.ns ≠ none) → ∀ node ∈ h', node.ns ≠ none) : Extends h h' :=
  ⟨Nat.le_of_eq hs.length.symm, fun s ↦ by rw [hs.nss], hl⟩

/-- A change of a database that leaves its namespaces as they are. -/
theorem sameNss_modify (h : Heap) (s : Ref) {f : SdbNode → SdbNode}
    (hf : ∀ node, (f node).ns = node.ns) :
    SameNss h (h.modify s f) := by
  refine ⟨List.length_modify _ _ _, fun t ↦ ?_⟩
  rw [Heap.nss, Heap.nss, List.getElem?_modify]
  cases h[t]? with
  | none => rfl
  | some node =>
      dsimp only [Option.map_eq_map, Option.map_some]
      split
      · rw [SdbNode.nss, hf, SdbNode.nss]
      · rfl

theorem listed_modify {h : Heap} (s : Ref) {f : SdbNode → SdbNode}
    (hf : ∀ node, (f node).ns = node.ns) (hl : ∀ node ∈ h, node.ns ≠ none) :
    ∀ node ∈ h.modify s f, node.ns ≠ none := by
  intro node hnode
  obtain ⟨i, hi⟩ := List.mem_iff_getElem?.mp hnode
  rw [List.getElem?_modify] at hi
  obtain ⟨old, hold, rfl⟩ := Option.map_eq_some_iff.mp hi
  have hne := hl old (List.mem_of_getElem? hold)
  split
  · rwa [hf]
  · exact hne

theorem Relocked.extends {lock : Bool} {L : Ref → Prop} {h h' : Heap} (hr : Relocked lock L h h') :
    Extends h h' := by
  refine hr.nss.extends fun hl node hnode ↦ ?_
  obtain ⟨i, hi⟩ := List.mem_iff_getElem?.mp hnode
  by_cases hL : L i
  · rw [hr.inside i hL] at hi
    obtain ⟨old, hold, rfl⟩ := Option.map_eq_some_iff.mp hi
    exact hl old (List.mem_of_getElem? hold)
  · rw [hr.outside i hL] at hi
    exact hl node (List.mem_of_getElem? hi)

theorem NsEvent.step_extends {h h' : Heap} {e : NsEvent} (hadds : e.Adds)
    (hstep : e.step h = some h') :
    Extends h h' := by
  cases e with
  | ns s name create =>
      cases hstep
      exact sdbNs_extends h s name create
  | path s path create =>
      cases hstep
      exact sdbNsPath_extends h s path create
  | lock fuel s lock depth =>
      have hlock : sdbNsLock fuel h s lock depth = some h' := hstep
      exact (sdbNsLock_relocked hlock).extends
  | data s sdb =>
      cases hstep
      have hf : ∀ node : SdbNode, ({ node with sdb := sdb } : SdbNode).ns = node.ns := fun _ ↦ rfl
      exact (sameNss_modify h s hf).extends (listed_modify s hf)
  | set s name r => exact hadds.elim
  | unset s name => exact hadds.elim
  | reset s => exact hadds.elim

theorem extends_of_runs {h h' : Heap} (hruns : Runs NsEvent.step (fun _ e ↦ e.Adds) h h') :
    Extends h h' :=
  hruns.keeps (P := Extends h) (fun _ _ _ he hok hstep ↦ he.trans (NsEvent.step_extends hok hstep))
    (.refl h)

theorem sdbNsPath_ne {h : Heap} {s : Ref} {path : CStr} {create : Bool} (hne : path ≠ CStr.empty) :
    sdbNsPath h s path create = sdbNsPathLoop create h s (nsPathNames path) := if_neg hne

theorem CStr.slash_ne (p q : CStr) : p.slash q ≠ CStr.empty := by
  intro h
  have hval : p.val ++ [47] ++ q.val = [] := congrArg Subtype.val h
  exact absurd (List.append_eq_nil_iff.mp (List.append_eq_nil_iff.mp hval).1).2
    (List.cons_ne_nil _ _)

/-- **What a path leads to it leads to from then on**: what `sdb_ns_path` has found or made it finds
again after any run of calls that remove and replace no namespace, without making anything; and a
path that goes on from there is the same from the database that it has come to. -/
theorem path_stable {h h₁ h' : Heap} {s r : Ref} {path : CStr} {create : Bool}
    (hl : create → ∀ node ∈ h, node.ns ≠ none) (hpath : sdbNsPath h s path create = (some r, h₁))
    (hruns : Runs NsEvent.step (fun _ e ↦ e.Adds) h₁ h') (create' : Bool) :
    sdbNsPath h' s path create' = (some r, h') ∧
      ∀ q : CStr, path ≠ CStr.empty → q ≠ CStr.empty →
        sdbNsPath h' s (path.slash q) create' = sdbNsPath h' r q create' := by
  have hext := extends_of_runs hruns
  by_cases hne : path = CStr.empty
  · rw [sdbNsPath, if_pos hne] at hpath ⊢
    obtain ⟨hr, -⟩ := Prod.mk.inj hpath
    rw [hr]
    exact ⟨rfl, fun q hno ↦ absurd hne hno⟩
  · rw [sdbNsPath_ne hne] at hpath ⊢
    have hroute := hext.route (route_of_sdbNsPathLoop hl hpath).1
    refine ⟨sdbNsPathLoop_of_route hroute create', fun q _ hq ↦ ?_⟩
    rw [sdbNsPath_ne (path.slash_ne q), sdbNsPath_ne hq, nsPathNames_slash, sdbNsPathLoop_append,
      sdbNsPathLoop_of_route hroute create']

/-- The path `a/b` is made, the root is locked, and `a/c` is looked for. -/
theorem path_stable_ab :
    sdbNsPath [sdbNode0] 0 (CStr.ofBytes [97, 47, 98]) true =
        (some 2, (sdbNsPath [sdbNode0] 0 (CStr.ofBytes [97, 47, 98]) true).2) ∧
      ∃ h', Runs NsEvent.step (fun _ e ↦ e.Adds)
        (sdbNsPath [sdbNode0] 0 (CStr.ofBytes [97, 47, 98]) true).2 h' ∧
          sdbNsPath h' 0 (CStr.ofBytes [97, 47, 98]) true = (some 2, h') := by
  have hpath : sdbNsPath [sdbNode0] 0 (CStr.ofBytes [97, 47, 98]) true = (some 2, _) := rfl
  have hruns : Runs NsEvent.step (fun _ e ↦ e.Adds)
      (sdbNsPath [sdbNode0] 0 (CStr.ofBytes [97, 47, 98]) true).2 _ :=
    runs_of_exec (show exec _ _ [.lock 1 0 true 0, .path 0 (CStr.ofBytes [97, 47, 99]) true] _ =
      some _ from rfl)
  refine ⟨hpath, _, hruns, (path_stable (fun _ ↦ ?_) hpath hruns true).1⟩
  rintro node hnode
  rw [List.mem_singleton.mp hnode]
  exact Option.some_ne_none _

/-! ## Sealed databases -/

/-- The names of the namespaces of a database. -/
def Heap.names (h : Heap) (s : Ref) : List CStr := (h.nss s).map SdbNs.name

/-- The databases `L` are locked, have only one another as namespaces, and no names but those of the
heap `h₀`. -/
structure Sealed (L : Ref → Prop) (h₀ h : Heap) : Prop where
  locked : ∀ t, L t → ∃ node, h[t]? = some node ∧ node.nsLock = true
  closed : ∀ t, L t → ∀ ns ∈ h.nss t, L ns.sdb
  names : ∀ t, L t → (h.names t).Sublist (h₀.names t)

/-- A call that unlocks nothing, and that puts no other database in a namespace of `L`. -/
def NsEvent.KeepsSeal (L : Ref → Prop) : NsEvent → Prop
  | .set s _ r => L s → L r
  | .lock _ _ on _ => on = true
  | _ => True

namespace Sealed

variable {L : Ref → Prop} {h₀ h : Heap} (hs : Sealed L h₀ h)
include hs

/-- The databases `L` are locked, and have no namespaces but those that they have had. -/
theorem of_nss {h' : Heap} (hlock : ∀ t, L t → ∃ node, h'[t]? = some node ∧ node.nsLock = true)
    (hsdb : ∀ t, L t → ∀ ns ∈ h'.nss t, L ns.sdb)
    (hnames : ∀ t, L t → (h'.names t).Sublist (h.names t)) :
    Sealed L h₀ h' :=
  ⟨hlock, hsdb, fun t ht ↦ (hnames t ht).trans (hs.names t ht)⟩

theorem sdbNs (s : Ref) (name : CStr) (create : Bool) : Sealed L h₀ (sdbNs h s name create).2 := by
  rcases sdbNs_made_or_found h s name create with heq | ⟨h', -, heq, hm⟩
  · rw [heq]
    exact hs
  · rw [heq]
    have hsame {t : Ref} (ht : L t) : h'[t]? = h[t]? := by
      obtain ⟨node, hnode, hlock⟩ := hs.locked t ht
      refine hm.other ?_ (List.getElem?_eq_some_iff.mp hnode).1
      rintro rfl
      obtain ⟨node', hnode', hno⟩ := hm.unlocked
      rw [hnode] at hnode'
      obtain rfl := Option.some.inj hnode'
      rw [hlock] at hno
      cases hno
    have hnss {t : Ref} (ht : L t) : Heap.nss h' t = h.nss t := by rw [Heap.nss, hsame ht, Heap.nss]
    refine hs.of_nss (fun t ht ↦ ?_) (fun t ht ns hns ↦ ?_) fun t ht ↦ ?_
    · rw [hsame ht]
      exact hs.locked t ht
    · rw [hnss ht] at hns
      exact hs.closed t ht ns hns
    · rw [Heap.names, hnss ht]
      exact List.Sublist.refl _

/-- One database is changed. -/
theorem set {s : Ref} {node node' : SdbNode} (hnode : h[s]? = some node)
    (hlock : node'.nsLock = node.nsLock) (hsdb : L s → ∀ ns ∈ node'.nss, L ns.sdb)
    (hnames : (node'.nss.map SdbNs.name).Sublist (node.nss.map SdbNs.name)) :
    Sealed L h₀ (List.set h s node') := by
  have hlt := (List.getElem?_eq_some_iff.mp hnode).1
  have hnss (t : Ref) : Heap.nss (List.set h s node') t = if s = t then node'.nss else h.nss t := by
    rw [Heap.nss, List.getElem?_set]
    by_cases heq : s = t
    · subst heq
      rw [if_pos rfl, if_pos rfl, if_pos hlt]
    · rw [if_neg heq, if_neg heq, Heap.nss]
  have hold : h.nss s = node.nss := by rw [Heap.nss, hnode]
  refine hs.of_nss (fun t ht ↦ ?_) (fun t ht ns hns ↦ ?_) fun t ht ↦ ?_
  · obtain ⟨node₁, hnode₁, hlock₁⟩ := hs.locked t ht
    rw [List.getElem?_set]
    split
    · next heq =>
        subst heq
        rw [hnode] at hnode₁
        obtain rfl := Option.some.inj hnode₁
        exact ⟨node', rfl, hlock.trans hlock₁⟩
    · exact ⟨node₁, hnode₁, hlock₁⟩
  · rw [hnss] at hns
    split at hns
    · next heq =>
        subst heq
        exact hsdb ht ns hns
    · exact hs.closed t ht ns hns
  · rw [Heap.names, hnss]
    split
    · next heq =>
        subst heq
        rw [Heap.names, hold]
        exact hnames
    · exact List.Sublist.refl _

theorem nsSet (s : Ref) (name : CStr) {r : Ref} (hr : L s → L r) :
    Sealed L h₀ (sdbNsSet h s name r).2 := by
  unfold sdbNsSet
  cases hnode : h[s]? with
  | none => exact hs
  | some node =>
      have hnss : h.nss s = node.nss := by rw [Heap.nss, hnode]
      dsimp only
      split
      · next i hi =>
          split
          · exact hs
          · have hmodify : ({ node with
                ns := node.ns.map fun l ↦
                  l.modify i fun ns ↦ { ns with sdb := r } } : SdbNode).nss =
                  node.nss.modify i fun ns ↦ { ns with sdb := r } := by
              rw [SdbNode.nss, SdbNode.nss]
              cases node.ns with
              | none => exact (List.modify_nil _ i).symm
              | some l => rfl
            refine hs.set hnode rfl (fun ht ns hns ↦ ?_) ?_
            · rw [hmodify] at hns
              obtain ⟨j, hj⟩ := List.mem_iff_getElem?.mp hns
              rw [List.getElem?_modify] at hj
              obtain ⟨old, hold, rfl⟩ := Option.map_eq_some_iff.mp hj
              split
              · exact hr ht
              · refine hs.closed s ht old ?_
                rw [hnss]
                exact List.mem_of_getElem? hold
            · rw [hmodify]
              have hnames : (node.nss.modify i fun ns ↦ { ns with sdb := r }).map SdbNs.name =
                  node.nss.map SdbNs.name := by
                refine List.ext_getElem? fun j ↦ ?_
                rw [List.getElem?_map, List.getElem?_map, List.getElem?_modify]
                cases node.nss[j]? with
                | none => rfl
                | some ns =>
                    dsimp only [Option.map_eq_map, Option.map_some]
                    split
                    · rfl
                    · rfl
              rw [hnames]
      · split
        · exact hs
        · next hlock =>
            have hno {t : Ref} (ht : L t) : s ≠ t := by
              rintro rfl
              obtain ⟨node', hnode', hlock'⟩ := hs.locked s ht
              rw [hnode] at hnode'
              obtain rfl := Option.some.inj hnode'
              exact hlock hlock'
            have hsame {t : Ref} (ht : L t) (ns : SdbNs) : (lsAppendNs h s ns)[t]? = h[t]? :=
              List.getElem?_modify_ne _ _ (hno ht)
            have hnss {t : Ref} (ht : L t) (ns : SdbNs) : (lsAppendNs h s ns).nss t = h.nss t := by
              rw [Heap.nss, hsame ht, Heap.nss]
            refine hs.of_nss (fun t ht ↦ ?_) (fun t ht ns hns ↦ ?_) fun t ht ↦ ?_
            · rw [hsame ht]
              exact hs.locked t ht
            · rw [hnss ht] at hns
              exact hs.closed t ht ns hns
            · rw [Heap.names, hnss ht]
              exact List.Sublist.refl _

theorem nsUnset (s : Ref) (name : CStr) : Sealed L h₀ (sdbNsUnset h s name).2 := by
  unfold sdbNsUnset
  cases hnode : h[s]? with
  | none => exact hs
  | some node =>
      have hnss : h.nss s = node.nss := by rw [Heap.nss, hnode]
      dsimp only
      split
      · exact hs
      · next i hi =>
          have herase : ({ node with ns := node.ns.map fun l ↦ l.eraseIdx i } : SdbNode).nss =
              node.nss.eraseIdx i := by
            rw [SdbNode.nss, SdbNode.nss]
            cases node.ns with
            | none => rfl
            | some l => rfl
          have hsub := List.eraseIdx_sublist node.nss i
          refine hs.set hnode rfl (fun ht ns hns ↦ ?_) ?_
          · rw [herase] at hns
            refine hs.closed s ht ns ?_
            rw [hnss]
            exact hsub.mem hns
          · rw [herase]
            exact hsub.map SdbNs.name

/-- A change that touches neither the locks nor the namespaces, or empties these. -/
theorem modify (s : Ref) {f : SdbNode → SdbNode}
    (hlock : ∀ node, node.nsLock = true → (f node).nsLock = true)
    (hns : ∀ node, (f node).nss = node.nss ∨ (f node).nss = []) :
    Sealed L h₀ (List.modify h s f) := by
  have hnss (t : Ref) : Heap.nss (List.modify h s f) t = h.nss t ∨
      Heap.nss (List.modify h s f) t = [] := by
    rw [Heap.nss, Heap.nss, List.getElem?_modify]
    cases h[t]? with
    | none => exact .inl rfl
    | some node =>
        dsimp only [Option.map_eq_map, Option.map_some]
        split
        · exact hns node
        · exact .inl rfl
  refine hs.of_nss (fun t ht ↦ ?_) (fun t ht ns hmem ↦ ?_) fun t ht ↦ ?_
  · obtain ⟨node, hnode, hon⟩ := hs.locked t ht
    rw [List.getElem?_modify, hnode]
    refine ⟨_, rfl, ?_⟩
    split
    · exact hlock node hon
    · exact hon
  · rcases hnss t with heq | heq
    · rw [heq] at hmem
      exact hs.closed t ht ns hmem
    · rw [heq] at hmem
      exact absurd hmem List.not_mem_nil
  · rw [Heap.names, Heap.names]
    rcases hnss t with heq | heq
    · rw [heq]
    · rw [heq]
      exact List.nil_sublist _

theorem relocked {M : Ref → Prop} {h' : Heap} (hr : Relocked true M h h') : Sealed L h₀ h' := by
  refine hs.of_nss (fun t ht ↦ ?_) (fun t ht ns hns ↦ ?_) fun t _ ↦ ?_
  · obtain ⟨node, hnode, hon⟩ := hs.locked t ht
    by_cases hM : M t
    · rw [hr.inside t hM, hnode]
      exact ⟨_, rfl, rfl⟩
    · rw [hr.outside t hM, hnode]
      exact ⟨_, rfl, hon⟩
  · rw [hr.nss.nss] at hns
    exact hs.closed t ht ns hns
  · rw [Heap.names, hr.nss.nss]
    exact List.Sublist.refl _

theorem step {e : NsEvent} (hok : e.KeepsSeal L) {h' : Heap} (hstep : e.step h = some h') :
    Sealed L h₀ h' := by
  cases e with
  | ns s name create =>
      cases hstep
      exact hs.sdbNs s name create
  | path s path create =>
      cases hstep
      exact sdbNsPath_keeps (fun _ _ _ h ↦ h.sdbNs _ _ _) hs s path
  | set s name r =>
      cases hstep
      exact hs.nsSet s name hok
  | unset s name =>
      cases hstep
      exact hs.nsUnset s name
  | reset s =>
      cases hstep
      exact hs.modify s (fun _ hon ↦ hon) fun _ ↦ .inr rfl
  | lock fuel s on depth =>
      obtain rfl : on = true := hok
      have hlock : sdbNsLock fuel h s true depth = some h' := hstep
      exact hs.relocked (sdbNsLock_relocked hlock)
  | data s sdb =>
      cases hstep
      exact hs.modify s (fun _ hon ↦ hon) fun _ ↦ .inl rfl

/-- In a sealed database nothing is made. -/
theorem sdbNs_eq {s : Ref} (hL : L s) (name : CStr) (create : Bool) :
    SdbStore.sdbNs h s name create = (h.found s name, h) := by
  rcases sdbNs_made_or_found h s name create with heq | ⟨h', -, -, hm⟩
  · exact heq
  · obtain ⟨node, hnode, hon⟩ := hs.locked s hL
    obtain ⟨node', hnode', hno⟩ := hm.unlocked
    rw [hnode] at hnode'
    obtain rfl := Option.some.inj hnode'
    rw [hon] at hno
    cases hno

theorem found {s r : Ref} (hL : L s) {name : CStr} (hf : h.found s name = some r) : L r := by
  rw [Heap.found] at hf
  split at hf
  · cases hf
  · obtain ⟨ns, hns, rfl⟩ := Option.map_eq_some_iff.mp hf
    exact hs.closed s hL ns (List.mem_of_find?_eq_some hns)

theorem path_eq {s : Ref} (hL : L s) (path : CStr) (create : Bool) :
    sdbNsPath h s path create = sdbNsPath h s path false := by
  have hloop (names : List CStr) : sdbNsPathLoop create h s names =
      sdbNsPathLoop false h s names := by
    induction names generalizing s with
    | nil => rfl
    | cons name names ih =>
        rw [sdbNsPathLoop, sdbNsPathLoop, hs.sdbNs_eq hL, hs.sdbNs_eq hL]
        cases hf : h.found s name with
        | none => rfl
        | some r => exact ih (hs.found hL hf)
  rw [sdbNsPath, sdbNsPath, hloop]

end Sealed

/-- A negative depth is not used up. -/
theorem Heap.Reaches.within {h : Heap} {s t : Ref} (ht : h.Reaches s t) {depth : Int}
    (hd : depth < 0) :
    h.Within depth s t := by
  induction ht using Relation.ReflTransGen.head_induction_on generalizing depth with
  | refl => exact .here depth t
  | head hchild _ ih => exact .child (Int.ne_of_lt hd) hchild (ih (by omega))

/-- **What is locked gets no new namespaces**: after `sdb_ns_lock` on a database and all that are
below it, in every run of calls that unlock nothing and put none of them out of reach of the lock,
their names are among those that they have had, and no path makes anything there. -/
theorem nsLock_seals {fuel : Nat} {h₀ h h' : Heap} {s : Ref} {depth : Int} (hd : depth < 0)
    (hc : h₀.Closed) (hs : s < h₀.length) (hlock : sdbNsLock fuel h₀ s true depth = some h)
    (hruns : Runs NsEvent.step (fun _ e ↦ e.KeepsSeal (h₀.Reaches s)) h h') {t : Ref}
    (ht : h₀.Reaches s t) : (h'.names t).Sublist (h₀.names t) ∧
      ∀ path create, sdbNsPath h' t path create = sdbNsPath h' t path false := by
  have hr := sdbNsLock_relocked hlock
  have hwithin {t : Ref} (ht : h₀.Reaches s t) : h₀.Within depth s t := ht.within hd
  have hlt {t : Ref} (ht : h₀.Reaches s t) : t < h₀.length := by
    induction ht with
    | refl => exact hs
    | tail _ hchild _ =>
        obtain ⟨ns, hns, rfl⟩ := hchild
        rw [Heap.nss] at hns
        split at hns
        · exact absurd hns List.not_mem_nil
        · next node hnode => exact hc node (List.mem_of_getElem? hnode) ns hns
  have hseal : Sealed (h₀.Reaches s) h₀ h := by
    refine ⟨fun t ht ↦ ?_, fun t ht ns hns ↦ ?_, fun t ht ↦ ?_⟩
    · rw [hr.inside t (hwithin ht), List.getElem?_eq_getElem (hlt ht)]
      exact ⟨_, rfl, rfl⟩
    · rw [hr.nss.nss] at hns
      exact ht.tail ⟨ns, hns, rfl⟩
    · rw [Heap.names, hr.nss.nss]
      exact List.Sublist.refl _
  have hend : Sealed (h₀.Reaches s) h₀ h' :=
    hruns.keeps (P := Sealed (h₀.Reaches s) h₀) (fun _ _ _ hs hok hstep ↦ hs.step hok hstep) hseal
  exact ⟨hend.names t ht, hend.path_eq ht⟩

/-- A database with one namespace, which is called `a`. -/
def heapA : Heap :=
  [{ sdbNode0 with ns := some [⟨CStr.ofBytes [97], sdbHash (CStr.ofBytes [97]), 1⟩] }, sdbNode0]

/-- The namespace `b` is not made in the database `a`. -/
theorem nsLock_seals_ab : ∃ h h', sdbNsLock 2 heapA 0 true (-1) = some h ∧
    NsEvent.step h (.path 0 (CStr.ofBytes [97, 47, 98]) true) = some h' ∧
    (Heap.names h' 1).Sublist (Heap.names heapA 1) := by
  have hlock : sdbNsLock 2 heapA 0 true (-1) = some _ := rfl
  refine ⟨_, _, hlock, rfl, ?_⟩
  have hreach : heapA.Reaches 0 1 := .single ⟨_, List.mem_singleton_self _, rfl⟩
  refine (nsLock_seals (by decide) (by decide) (by decide) hlock ?_ hreach).1
  exact .single ⟨.path 0 (CStr.ofBytes [97, 47, 98]) true, trivial, rfl⟩

end SdbStore
