import SdbStore.Diff

/-!
# Copying trees

`sdb_copy` sets every pair of one database in another one, and does the same in its namespaces,
which are made where they do not exist.  The other database is in memory as well, and no part of
it stands in two places, so that what is set in one place changes nothing anywhere else.

There are two ways in which a part of the tree gets lost.  A namespace without a name cannot be
looked up, and nothing can be appended to a list of namespaces that is `NULL`: a new namespace is
made and filled then, but nothing leads to it.

The recursion has a bound on its depth, `fuel`; it is `none` when that does not suffice.
-/

namespace SdbStore

open Lib

/-- `copy_foreach_cb`. -/
def copyForeachCb (dst : Ref) : SdbForeachCallback (Heap × World) := fun st k v ↦
  (true, heapSet st.1 st.2 dst k (v.getD CStr.empty) 0)

/-- A namespace is copied with `copy` to the namespace of the same name; nothing is copied to
`NULL`. -/
def sdbCopyNs (copy : Heap → World → Ref → Ref → Option (Heap × World)) (dst : Ref)
    (st : Heap × World) (ns : SdbNs) : Option (Heap × World) :=
  let r := sdbNs st.1 dst ns.name true
  match r.1 with
  | none => some (r.2, st.2)
  | some sub => copy r.2 st.2 ns.sdb sub

/-- `sdb_copy`. -/
def sdbCopy : Nat → Heap → World → Ref → Ref → Option (Heap × World)
  | 0, _, _, _, _ => none
  | fuel + 1, h, w, src, dst =>
      let st := (heapForeach h src (copyForeachCb dst) (h, w)).2
      (st.1.nss src).foldlM (sdbCopyNs (sdbCopy fuel) dst) st

/-! ## Writes in memory -/

theorem Sdb.Frame.dir {s s' : Sdb} (h : s.Frame s') : s'.dir = s.dir := by rw [h]

section Write

variable {node : SdbNode} (hm : node.InMemory) (w : World) (key val : CStr)
include hm

theorem SdbNode.InMemory.frame_set (cas : Nat) :
    node.sdb.Frame (sdbSet node.sdb w key val cas).2.1 :=
  (sdbSetInternal_spec hm.sound.wf w key val false cas).frame

theorem SdbNode.InMemory.set (cas : Nat) :
    SdbNode.InMemory { node with sdb := (sdbSet node.sdb w key val cas).2.1 } := by
  have hframe := hm.frame_set w key val cas
  refine ⟨hm.sound.setInternal w key val false cas, ⟨?_, ?_⟩, ?_⟩
  · exact hframe.fd.trans hm.bare.fd
  · exact (congrArg Cdb.fd hframe.db).trans hm.bare.dbFd
  · exact (congrArg Cdb.map hframe.db).trans hm.unmapped

/-- The values after a write. -/
theorem SdbNode.InMemory.value_set (hlen : ¬ (key.length ≥ 0xff ∨ val.length ≥ 0xffffff))
    (k : CStr) :
    SdbNode.value { node with sdb := (sdbSet node.sdb w key val 0).2.1 } k =
      if k = key then readAs val else node.value k := by
  have hfind := (sdbSetInternal_spec hm.sound.wf w key val false 0).find k
  by_cases hk : k = key
  · subst hk
    rw [if_pos rfl] at hfind
    have hread : (entryGet (sdbHtFindKvp (sdbSet node.sdb w k val 0).2.1 k)
        (sdbGetDisk (sdbSet node.sdb w k val 0).2.1 k)).value = readAs val := by
      rw [show sdbHtFindKvp (sdbSet node.sdb w k val 0).2.1 k = _ from hfind,
        cdbLookup_bare hm.bare]
      exact entryGet_setEntry hlen (fun _ _ _ _ ↦ by decide) _
    have hset := hm.set w k val 0
    rw [if_pos rfl, ← hset.sdbGet w k, sdbGet_eq hset.sound.noExpire, hread]
  · rw [if_neg hk] at hfind
    rw [if_neg hk, SdbNode.value, SdbNode.value,
      show sdbHtFindKvp (sdbSet node.sdb w key val 0).2.1 k = _ from hfind]

end Write

/-- The pairs of a database are such as `sdb_set` stores. -/
def SdbNode.Sized (node : SdbNode) : Prop :=
  ∀ k v, node.value k = some v → k.length < 0xff ∧ v.length < 0xffffff

theorem sized_new (ns : Option (List SdbNs)) : SdbNode.Sized { sdbNode0 with ns := ns } := by
  intro k v hv
  rw [SdbNode.value, sdbHtFindKvp_of_htNew rfl] at hv
  cases hv

/-- A write that is too long is refused. -/
theorem SdbNode.Sized.set {node : SdbNode} (hs : node.Sized) (hm : node.InMemory) (w : World)
    (key val : CStr) : SdbNode.Sized { node with sdb := (sdbSet node.sdb w key val 0).2.1 } := by
  by_cases hlen : key.length ≥ 0xff ∨ val.length ≥ 0xffffff
  · rw [show (sdbSet node.sdb w key val 0).2.1 =
      node.sdb by rw [sdbSet, sdbSetInternal, if_pos hlen]]
    exact hs
  · intro k v hv
    rw [hm.value_set w key val hlen] at hv
    split at hv
    · next hk =>
        rw [readAs] at hv
        split at hv
        · cases hv
        · rw [hk, ← Option.some.inj hv]
          omega
    · exact hs k v hv

/-- What pairs leave in a database in which they are set. -/
structure SetsAll (l : List (CStr × CStr)) (node node' : SdbNode) : Prop where
  inMemory : node'.InMemory
  ns : node'.ns = node.ns
  nsLock : node'.nsLock = node.nsLock
  dir : node'.sdb.dir = node.sdb.dir
  new : ∀ k v, (k, v) ∈ l → node'.value k = some v
  old : ∀ k, (∀ v, (k, v) ∉ l) → node'.value k = node.value k

/-- The loop of `sdb_copy` over the pairs. -/
theorem foreachLoop_copy {t : Ref} {l : List (CStr × CStr)} (hl : (l.map Prod.fst).Nodup)
    (hst : ∀ p ∈ l, p.1.length < 0xff ∧ p.2.length < 0xffffff ∧ p.2 ≠ CStr.empty) {h : Heap}
    {node : SdbNode} (hnode : h[t]? = some node) (hm : node.InMemory) (w : World) :
    ∃ node' w', (foreachLoop (fun st p ↦ copyForeachCb t st p.1 (some p.2)) l (h, w)).2 =
      (h.set t node', w') ∧ SetsAll l node node' := by
  induction l generalizing h node w with
  | nil =>
      refine ⟨node, w, ?_, hm, rfl, rfl, rfl, nofun, fun _ _ ↦ rfl⟩
      obtain ⟨hlt, rfl⟩ := List.getElem?_eq_some_iff.mp hnode
      rw [List.set_getElem_self]
      rfl
  | cons p l ih =>
      obtain ⟨k, v⟩ := p
      obtain ⟨hkey, hval, hne⟩ := hst (k, v) (List.mem_cons_self ..)
      rw [List.map_cons, List.nodup_cons] at hl
      have hlt : t < h.length := (List.getElem?_eq_some_iff.mp hnode).1
      have hset : copyForeachCb t (h, w) k (some v) = (true, h.set t
          { node with sdb := (sdbSet node.sdb w k v 0).2.1 }, (sdbSet node.sdb w k v 0).2.2) := by
        rw [copyForeachCb, heapSet, hnode]
        rfl
      obtain ⟨node', w', heq, hall⟩ := ih hl.2 (fun p hp ↦ hst p (List.mem_cons_of_mem _ hp))
        (List.getElem?_set_self hlt) (hm.set w k v 0) (sdbSet node.sdb w k v 0).2.2
      have hvalue := hm.value_set w k v (by dsimp only at hkey hval; omega)
      rw [readAs, if_neg hne] at hvalue
      refine ⟨node', w', ?_, hall.inMemory, hall.ns, hall.nsLock,
        hall.dir.trans (hm.frame_set w k v 0).dir, fun k' v' hmem ↦ ?_, fun k' hmem ↦ ?_⟩
      · rw [foreachLoop, hset]
        dsimp only
        rw [if_pos rfl, heq, List.set_set]
      · rcases List.mem_cons.mp hmem with heq | hmem
        · obtain ⟨rfl, rfl⟩ := Prod.mk.inj heq
          rw [hall.old k' fun v₀ hv ↦ hl.1 (List.mem_map.mpr ⟨_, hv, rfl⟩),
            hvalue, if_pos rfl]
        · exact hall.new k' v' hmem
      · have hk : k' ≠ k := by
          rintro rfl
          exact hmem v (List.mem_cons_self ..)
        rw [hall.old k' fun v hv ↦ hmem v (List.mem_cons_of_mem _ hv), hvalue,
          if_neg hk]

/-! ## Trees in which things can be put -/

/-- Walks depend on the lists of namespaces that they go through. -/
theorem Heap.walk_congr {h h' : Heap} {s : Ref}
    (hsame : ∀ p x, h.walk s p = some x → h'.nss x = h.nss x) (p : List CStr) :
    h'.walk s p = h.walk s p := by
  induction p generalizing s with
  | nil => rfl
  | cons m p ih =>
      rw [Heap.walk, Heap.walk, Heap.child, hsame [] s rfl]
      change (h.child s m).bind _ = _
      cases hc : h.child s m with
      | none => rfl
      | some r =>
          rw [Option.bind_some, Option.bind_some]
          refine ih fun p x hx ↦ hsame (m :: p) x ?_
          rw [Heap.walk, hc]
          exact hx

/-- Two heaps have the same databases below `s`. -/
def Heap.SameBelow (h h' : Heap) (s : Ref) : Prop := ∀ p x, h.walk s p = some x → h'[x]? = h[x]?

theorem Heap.nss_congr {h h' : Heap} {x : Ref} (heq : h'[x]? = h[x]?) : h'.nss x = h.nss x := by
  rw [Heap.nss, heq, Heap.nss]

theorem Heap.SameBelow.walk {h h' : Heap} {s : Ref} (hs : h.SameBelow h' s) (p : List CStr) :
    h'.walk s p = h.walk s p :=
  Heap.walk_congr (fun p x hx ↦ Heap.nss_congr (hs p x hx)) p

theorem Heap.walk_cons {h : Heap} {s r : Ref} {m : CStr} (hc : h.child s m = some r)
    (p : List CStr) : h.walk s (m :: p) = h.walk r p := by
  rw [Heap.walk, hc]
  rfl

theorem Heap.SameBelow.child {h h' : Heap} {s r : Ref} {m : CStr} (hs : h.SameBelow h' s)
    (hc : h.child s m = some r) : h.SameBelow h' r := by
  intro p x hx
  exact hs (m :: p) x ((Heap.walk_cons hc p).trans hx)

/-- A database in memory to which namespaces can be added, as far as it has a list of them. -/
structure SdbNode.Roomy (node : SdbNode) : Prop where
  inMemory : node.InMemory
  list : NsList node.nss
  unlocked : node.nsLock = false
  dir : node.sdb.dir = none

/-- A tree of such databases, none of which stands in two places. -/
structure Heap.Tree (h : Heap) (t : Ref) : Prop where
  node : ∀ p x, h.walk t p = some x → ∃ node, h[x]? = some node ∧ node.Roomy
  inj : ∀ p q x, h.walk t p = some x → h.walk t q = some x → p = q

/-- What a tree has at a path: the values of the database there. -/
def Heap.view (h : Heap) (t : Ref) (p : List CStr) : Option (CStr → Option CStr) :=
  (h.walk t p).map h.value

theorem Heap.value_congr {h h' : Heap} {x : Ref} (heq : h'[x]? = h[x]?) :
    h'.value x = h.value x := by
  funext k
  rw [Heap.value, heq, Heap.value]

theorem Heap.SameBelow.view {h h' : Heap} {s : Ref} (hs : h.SameBelow h' s) (p : List CStr) :
    h'.view s p = h.view s p := by
  rw [Heap.view, hs.walk, Heap.view]
  cases hw : h.walk s p with
  | none => rfl
  | some x =>
      rw [Option.map_some, Option.map_some, Heap.value_congr (hs p x hw)]

theorem Heap.view_cons {h : Heap} {s r : Ref} {m : CStr} (hc : h.child s m = some r)
    (p : List CStr) : h.view s (m :: p) = h.view r p := by
  rw [Heap.view, Heap.walk_cons hc, Heap.view]

theorem Heap.view_cons_none {h : Heap} {s : Ref} {m : CStr} (hc : h.child s m = none)
    (p : List CStr) : h.view s (m :: p) = none := by
  rw [Heap.view, Heap.walk, hc]
  rfl

section Tree

variable {h : Heap} {t : Ref} (ht : h.Tree t)
include ht

theorem Heap.Tree.lt {p : List CStr} {x : Ref} (hx : h.walk t p = some x) : x < h.length := by
  obtain ⟨node, hnode, -⟩ := ht.node p x hx
  exact (List.getElem?_eq_some_iff.mp hnode).1

theorem Heap.Tree.nsList : NsList (h.nss t) := by
  obtain ⟨node, hnode, hr⟩ := ht.node [] t rfl
  rw [Heap.nss, hnode]
  exact hr.list

theorem Heap.Tree.child {m : CStr} {r : Ref} (hc : h.child t m = some r) : h.Tree r := by
  constructor
  · intro p x hx
    exact ht.node (m :: p) x ((Heap.walk_cons hc p).trans hx)
  · intro p q x hp hq
    have heq := ht.inj (m :: p) (m :: q) x ((Heap.walk_cons hc p).trans hp)
      ((Heap.walk_cons hc q).trans hq)
    exact (List.cons.inj heq).2

/-- Nothing leads back to the root. -/
theorem Heap.Tree.walk_ne {m : CStr} {p : List CStr} : h.walk t (m :: p) ≠ some t :=
  fun hw ↦ nomatch ht.inj (m :: p) [] t hw rfl

/-- Below different namespaces there are different databases. -/
theorem Heap.Tree.apart {m n : CStr} {p q : List CStr} {x : Ref} (hmn : m ≠ n)
    (hp : h.walk t (m :: p) = some x) : h.walk t (n :: q) ≠ some x :=
  fun hq ↦ hmn (List.cons.inj (ht.inj _ _ x hp hq)).1

end Tree

/-! ## Growing trees -/

/-- The tree below `t` may have got pairs and namespaces; every other database is the same. -/
structure Grows (h h' : Heap) (t : Ref) : Prop where
  length : h.length ≤ h'.length
  frame : ∀ x, x < h.length → (∀ p, h.walk t p ≠ some x) → h'[x]? = h[x]?
  keep : ∀ p x, h.walk t p = some x → h'.walk t p = some x
  fresh : ∀ p x, h'.walk t p = some x → h.walk t p = some x ∨ h.length ≤ x
  tree : h'.Tree t

theorem Grows.refl {h : Heap} {t : Ref} (ht : h.Tree t) : Grows h h t :=
  ⟨Nat.le_refl _, fun _ _ _ ↦ rfl, fun _ _ hx ↦ hx, fun _ _ hx ↦ .inl hx, ht⟩

theorem Grows.trans {h h' h'' : Heap} {t : Ref} (h₁ : Grows h h' t) (h₂ : Grows h' h'' t) :
    Grows h h'' t where
  length := h₁.length.trans h₂.length
  frame x hx hnot := by
    rw [h₂.frame x (hx.trans_le h₁.length), h₁.frame x hx hnot]
    intro p hp
    rcases h₁.fresh p x hp with hp | hle
    · exact hnot p hp
    · exact absurd hx (Nat.not_lt.mpr hle)
  keep p x hx := h₂.keep p x (h₁.keep p x hx)
  fresh p x hx := by
    rcases h₂.fresh p x hx with hx | hle
    · exact h₁.fresh p x hx
    · exact .inr (h₁.length.trans hle)
  tree := h₂.tree

/-- What grows outside of the tree below `s` does not change it. -/
theorem Grows.sameBelow {h h' : Heap} {s t : Ref} (hg : Grows h h' t)
    (hlt : ∀ p x, h.walk s p = some x → x < h.length)
    (hap : ∀ p q x, h.walk s p = some x → h.walk t q ≠ some x) : h.SameBelow h' s :=
  fun p x hx ↦ hg.frame x (hlt p x hx) fun q ↦ hap p q x hx

section Child

variable {h h' : Heap} {t c : Ref} {n : CStr} (ht : h.Tree t) (hc : h.child t n = some c)
  (hg : Grows h h' c)
include ht hc hg

theorem Grows.getElem?_root : h'[t]? = h[t]? := by
  refine hg.frame t (ht.lt (p := []) rfl) fun p hp ↦ ?_
  exact ht.walk_ne ((Heap.walk_cons hc p).trans hp)

theorem Grows.child_root (m : CStr) : h'.child t m = h.child t m := by
  rw [Heap.child, Heap.nss_congr (hg.getElem?_root ht hc), Heap.child]

theorem Grows.sameBelow_other {m : CStr} (hm : m ≠ n) {r : Ref} (hr : h.child t m = some r) :
    h.SameBelow h' r := by
  intro p x hx
  have hw := (Heap.walk_cons hr p).trans hx
  refine hg.frame x (ht.lt hw) fun q hq ↦ ?_
  exact ht.apart hm hw ((Heap.walk_cons hc q).trans hq)

/-- The walks when the tree below a namespace has grown. -/
theorem Grows.walk_root (m : CStr) (p : List CStr) :
    h'.walk t (m :: p) = if m = n then h'.walk c p else h.walk t (m :: p) := by
  rw [Heap.walk, hg.child_root ht hc, Heap.walk]
  by_cases hm : m = n
  · subst hm
    rw [if_pos rfl, hc]
    rfl
  · rw [if_neg hm]
    cases hr : h.child t m with
    | none => rfl
    | some r => exact (hg.sameBelow_other ht hc hm hr).walk p

theorem Grows.view_root (m : CStr) (p : List CStr) :
    h'.view t (m :: p) = if m = n then h'.view c p else h.view t (m :: p) := by
  by_cases hm : m = n
  · rw [Heap.view, hg.walk_root ht hc, if_pos hm, if_pos hm, Heap.view]
  · rw [if_neg hm]
    cases hr : h.child t m with
    | none =>
        rw [Heap.view_cons_none hr, Heap.view_cons_none ((hg.child_root ht hc m).trans hr)]
    | some r =>
        rw [Heap.view_cons hr, Heap.view_cons ((hg.child_root ht hc m).trans hr),
          (hg.sameBelow_other ht hc hm hr).view]

theorem Grows.view_nil : h'.view t [] = h.view t [] := by
  rw [Heap.view, Heap.view]
  exact congrArg some (Heap.value_congr (hg.getElem?_root ht hc))

/-- A database of the grown tree is one of the old tree at the same place, or it is new and
below the namespace. -/
theorem Grows.walk_cases {p : List CStr} {x : Ref} (hx : h'.walk t p = some x) :
    h.walk t p = some x ∨ h.length ≤ x ∧ ∃ q, p = n :: q ∧ h'.walk c q = some x := by
  cases p with
  | nil => exact .inl hx
  | cons m p =>
      rw [hg.walk_root ht hc] at hx
      split at hx
      · next hm =>
          subst hm
          rcases hg.fresh p x hx with hold | hnew
          · exact .inl ((Heap.walk_cons hc p).trans hold)
          · exact .inr ⟨hnew, p, rfl, hx⟩
      · exact .inl hx

/-- A tree grows with one of its branches. -/
theorem Grows.of_child : Grows h h' t where
  length := hg.length
  frame x hx hnot := hg.frame x hx fun p hp ↦ hnot (n :: p) ((Heap.walk_cons hc p).trans hp)
  keep p x hx := by
    cases p with
    | nil => exact hx
    | cons m p =>
        rw [hg.walk_root ht hc]
        split
        · next hm =>
            subst hm
            exact hg.keep p x ((Heap.walk_cons hc p).symm.trans hx)
        · exact hx
  fresh p x hx := by
    rcases hg.walk_cases ht hc hx with hold | ⟨hnew, -⟩
    · exact .inl hold
    · exact .inr hnew
  tree := by
    constructor
    · intro p x hx
      cases p with
      | nil =>
          obtain rfl := Option.some.inj hx
          rw [hg.getElem?_root ht hc]
          exact ht.node [] t rfl
      | cons m p =>
          by_cases hm : m = n
          · rw [hg.walk_root ht hc, if_pos hm] at hx
            exact hg.tree.node p x hx
          · have hr := hg.walk_root ht hc m p
            rw [if_neg hm, hx] at hr
            cases hcm : h.child t m with
            | none =>
                rw [Heap.walk, hcm] at hr
                cases hr
            | some r =>
                have hw : h.walk r p = some x := (Heap.walk_cons hcm p).symm.trans hr.symm
                rw [hg.sameBelow_other ht hc hm hcm p x hw]
                exact ht.node (m :: p) x hr.symm
    · intro p q x hp hq
      rcases hg.walk_cases ht hc hp with hp' | ⟨hnew, p', rfl, hp'⟩
      · rcases hg.walk_cases ht hc hq with hq' | ⟨hnew, -⟩
        · exact ht.inj p q x hp' hq'
        · exact absurd (ht.lt hp') (Nat.not_lt.mpr hnew)
      · rcases hg.walk_cases ht hc hq with hq' | ⟨-, q', rfl, hq'⟩
        · exact absurd (ht.lt hq') (Nat.not_lt.mpr hnew)
        · rw [hg.tree.inj p' q' x hp' hq']

end Child

/-! ## New namespaces -/

/-- The database that `sdb_ns` makes for a new namespace. -/
def nsNode (name : CStr) : SdbNode := { sdbNode0 with sdb := { sdbNew0 with name := some name } }

theorem roomy_nsNode (name : CStr) : (nsNode name).Roomy := by
  have hp := plain_sdbNode0 (some name)
  exact ⟨⟨hp.sound, hp.bare, hp.unmapped⟩, nsList_nil, rfl, rfl⟩

theorem value_nsNode (name k : CStr) : (nsNode name).value k = none := by
  rw [SdbNode.value, sdbHtFindKvp_of_htNew rfl]
  rfl

/-- The list of namespaces is not `NULL`. -/
def Heap.Listed (h : Heap) (t : Ref) : Prop := ∃ node, h[t]? = some node ∧ node.ns ≠ none

/-- What `sdb_ns` does with a name that collides with no other. -/
theorem sdbNs_cases {h : Heap} {t : Ref} (ht : h.Tree t) {name : CStr}
    (hcol : NoCollision h t name) :
    name = CStr.empty ∧ sdbNs h t name true = (none, h) ∨
    name ≠ CStr.empty ∧ (∃ c, h.child t name = some c ∧ sdbNs h t name true = (some c, h)) ∨
    name ≠ CStr.empty ∧ h.child t name = none ∧ sdbNs h t name true =
      (some h.length, lsAppendNs (h ++ [nsNode name]) t ⟨name, sdbHash name, h.length⟩) := by
  obtain ⟨node, hnode, hr⟩ := ht.node [] t rfl
  have hnss : h.nss t = node.nss := by rw [Heap.nss, hnode]
  by_cases hne : name = CStr.empty
  · refine .inl ⟨hne, ?_⟩
    rw [sdbNs, hnode]
    exact if_pos hne
  · right
    rw [sdbNs, hnode]
    dsimp only
    rw [if_neg hne, hr.list.find?_hash (hnss ▸ hcol), Heap.child_eq, hnss]
    cases Keyed.lookup SdbNs.name node.nss name with
    | some ns => exact .inl ⟨hne, ns.sdb, rfl, rfl⟩
    | none =>
        refine .inr ⟨hne, rfl, ?_⟩
        dsimp only
        rw [if_neg (by decide), hr.unlocked, if_neg (by decide), sdbNsNew,
          if_pos (by rw [nsFits, hr.dir])]
        rfl

section Attach

variable {h : Heap} {t : Ref} (ht : h.Tree t) (name : CStr)
include ht

/-- The heap with a new database for a namespace. -/
theorem getElem?_attach (i : Ref) :
    (lsAppendNs (h ++ [nsNode name]) t ⟨name, sdbHash name, h.length⟩)[i]? =
      if i = t then h[t]?.map fun node ↦
        { node with ns := node.ns.map (· ++ [⟨name, sdbHash name, h.length⟩]) }
      else if i = h.length then some (nsNode name) else h[i]? :=
  getElem?_lsAppendNs (ht.lt (p := []) rfl) _ _ _

/-- The new database has nothing in it. -/
theorem getElem?_attach_new :
    (lsAppendNs (h ++ [nsNode name]) t ⟨name, sdbHash name, h.length⟩)[h.length]? =
      some (nsNode name) := by
  rw [getElem?_attach ht, if_neg (ht.lt (p := []) rfl).ne', if_pos rfl]

theorem nss_attach_new :
    Heap.nss (lsAppendNs (h ++ [nsNode name]) t ⟨name, sdbHash name, h.length⟩) h.length = [] := by
  rw [Heap.nss, getElem?_attach_new ht]
  rfl

theorem tree_attach_new :
    Heap.Tree (lsAppendNs (h ++ [nsNode name]) t ⟨name, sdbHash name, h.length⟩) h.length := by
  have hnss := nss_attach_new ht name
  constructor
  · intro p x hx
    obtain ⟨rfl, rfl⟩ := Heap.walk_leaf hnss hx
    exact ⟨_, getElem?_attach_new ht name, roomy_nsNode name⟩
  · intro p q x hp hq
    rw [(Heap.walk_leaf hnss hp).1, (Heap.walk_leaf hnss hq).1]

theorem view_attach_new (p : List CStr) :
    Heap.view (lsAppendNs (h ++ [nsNode name]) t ⟨name, sdbHash name, h.length⟩) h.length p =
      if p = [] then some fun _ ↦ none else none := by
  by_cases hp : p = []
  · subst hp
    rw [if_pos rfl, Heap.view]
    refine congrArg some ?_
    funext k
    rw [Heap.value, getElem?_attach_new ht]
    exact value_nsNode name k
  · rw [if_neg hp, Heap.view, Option.map_eq_none_iff, Option.eq_none_iff_forall_ne_some]
    exact fun x hx ↦ hp (Heap.walk_leaf (nss_attach_new ht name) hx).1

/-- Nothing is appended to `NULL`. -/
theorem getElem?_attach_null (hnull : ¬ h.Listed t) {i : Ref} (hi : i < h.length) :
    (lsAppendNs (h ++ [nsNode name]) t ⟨name, sdbHash name, h.length⟩)[i]? = h[i]? := by
  rw [getElem?_attach ht]
  split
  · next hit =>
      obtain ⟨node, hnode, -⟩ := ht.node [] t rfl
      have hns : node.ns = none := by
        by_contra hns
        exact hnull ⟨node, hnode, hns⟩
      rw [hit, hnode, Option.map_some]
      refine congrArg some ?_
      rw [hns, Option.map_none, ← hns]
  · rw [if_neg hi.ne]

section Listed

variable (hl : h.Listed t)
include hl

theorem nss_attach :
    Heap.nss (lsAppendNs (h ++ [nsNode name]) t ⟨name, sdbHash name, h.length⟩) t =
      h.nss t ++ [⟨name, sdbHash name, h.length⟩] := by
  obtain ⟨node, hnode, hns⟩ := hl
  obtain ⟨l, hns⟩ := Option.ne_none_iff_exists'.mp hns
  rw [Heap.nss, getElem?_attach ht, if_pos rfl, hnode, Heap.nss, hnode]
  simp [SdbNode.nss, hns]

variable (hnone : h.child t name = none)
include hnone

theorem child_attach (m : CStr) :
    Heap.child (lsAppendNs (h ++ [nsNode name]) t ⟨name, sdbHash name, h.length⟩) t m =
      if m = name then some h.length else h.child t m := by
  rw [Heap.child_eq, nss_attach ht name hl, Keyed.lookup_append, Keyed.lookup_cons]
  by_cases hm : m = name
  · rw [Heap.child_eq, Option.map_eq_none_iff] at hnone
    rw [if_pos hm, hm, hnone, if_pos rfl]
    rfl
  · rw [if_neg hm, if_neg (Ne.symm hm), Heap.child_eq]
    congr 1
    exact Option.or_none

omit hl hnone in
theorem sameBelow_attach {m : CStr} {r : Ref} (hr : h.child t m = some r) :
    h.SameBelow (lsAppendNs (h ++ [nsNode name]) t ⟨name, sdbHash name, h.length⟩) r := by
  intro p x hx
  have hw := (Heap.walk_cons hr p).trans hx
  have hxt : x ≠ t := by
    rintro rfl
    exact ht.walk_ne hw
  rw [getElem?_attach ht, if_neg hxt, if_neg (ht.lt hw).ne]

theorem walk_attach (m : CStr) (p : List CStr) :
    Heap.walk (lsAppendNs (h ++ [nsNode name]) t ⟨name, sdbHash name, h.length⟩) t (m :: p) =
      if m = name then Heap.walk (lsAppendNs (h ++ [nsNode name]) t
        ⟨name, sdbHash name, h.length⟩) h.length p
      else h.walk t (m :: p) := by
  rw [Heap.walk, child_attach ht name hl hnone]
  by_cases hm : m = name
  · rw [if_pos hm, if_pos hm]
    rfl
  · rw [if_neg hm, if_neg hm, Heap.walk]
    cases hr : h.child t m with
    | none => rfl
    | some r => exact (sameBelow_attach ht name hr).walk p

/-- A database of the tree with a new namespace is one of the old tree at the same place, or
the new one. -/
theorem walk_attach_cases {p : List CStr} {x : Ref}
    (hx : Heap.walk (lsAppendNs (h ++ [nsNode name]) t ⟨name, sdbHash name, h.length⟩) t p =
      some x) :
    h.walk t p = some x ∧ x < h.length ∨ p = [name] ∧ x = h.length := by
  cases p with
  | nil =>
      obtain rfl := Option.some.inj hx
      exact .inl ⟨rfl, ht.lt (p := []) rfl⟩
  | cons m p =>
      rw [walk_attach ht name hl hnone] at hx
      split at hx
      · next hm =>
          obtain ⟨rfl, rfl⟩ := Heap.walk_leaf (nss_attach_new ht name) hx
          exact .inr ⟨by rw [hm], rfl⟩
      · exact .inl ⟨hx, ht.lt hx⟩

theorem roomy_attach (hcol : NoCollision h t name) {node : SdbNode} (hnode : h[t]? = some node)
    (hr : node.Roomy) :
    SdbNode.Roomy { node with ns := node.ns.map (· ++ [⟨name, sdbHash name, h.length⟩]) } := by
  refine ⟨⟨hr.inMemory.sound, hr.inMemory.bare, hr.inMemory.unmapped⟩, ?_, hr.unlocked, hr.dir⟩
  have hlist : NsList (Heap.nss (lsAppendNs (h ++ [nsNode name]) t
      ⟨name, sdbHash name, h.length⟩) t) := by
    rw [nss_attach ht name hl]
    refine ht.nsList.append rfl fun ns hns heq ↦ ?_
    have hlookup := (ht.nsList.names.lookup_eq_some_iff (e := ns)).mpr ⟨hns, hcol ns hns heq⟩
    rw [Heap.child_eq, hlookup] at hnone
    cases hnone
  rw [Heap.nss, getElem?_attach ht, if_pos rfl, hnode] at hlist
  exact hlist

/-- The tree with a new namespace. -/
theorem grows_attach (hcol : NoCollision h t name) :
    Grows h (lsAppendNs (h ++ [nsNode name]) t ⟨name, sdbHash name, h.length⟩) t where
  length := by
    rw [length_lsAppendNs]
    exact Nat.le_succ _
  frame x hx hnot := by
    rw [getElem?_attach ht, if_neg fun hxt ↦ hnot [] (congrArg some hxt.symm), if_neg hx.ne]
  keep p x hx := by
    cases p with
    | nil => exact hx
    | cons m p =>
        rw [walk_attach ht name hl hnone, if_neg, hx]
        rintro rfl
        rw [Heap.walk, hnone] at hx
        cases hx
  fresh p x hx := by
    rcases walk_attach_cases ht name hl hnone hx with ⟨hold, -⟩ | ⟨-, rfl⟩
    · exact .inl hold
    · exact .inr (Nat.le_refl _)
  tree := by
    constructor
    · intro p x hx
      rcases walk_attach_cases ht name hl hnone hx with ⟨hold, hlt⟩ | ⟨-, rfl⟩
      · obtain ⟨node, hnode, hr⟩ := ht.node p x hold
        rw [getElem?_attach ht, if_neg hlt.ne]
        split
        · next hxt =>
            subst hxt
            rw [hnode]
            exact ⟨_, rfl, roomy_attach ht name hl hnone hcol hnode hr⟩
        · exact ⟨node, hnode, hr⟩
      · exact ⟨_, getElem?_attach_new ht name, roomy_nsNode name⟩
    · intro p q x hp hq
      rcases walk_attach_cases ht name hl hnone hp with ⟨hp', hlt⟩ | ⟨rfl, rfl⟩
      · rcases walk_attach_cases ht name hl hnone hq with ⟨hq', -⟩ | ⟨-, rfl⟩
        · exact ht.inj p q x hp' hq'
        · exact absurd hlt (Nat.lt_irrefl _)
      · rcases walk_attach_cases ht name hl hnone hq with ⟨-, hlt⟩ | ⟨rfl, -⟩
        · exact absurd hlt (Nat.lt_irrefl _)
        · rfl

end Listed

end Attach

/-! ## What is copied -/

/-- A path along which namespaces can be found or made: every one has a name, and where it has to
be made there is a list to put it in. -/
def Heap.Open (h : Heap) : Option Ref → List CStr → Prop
  | _, [] => True
  | none, name :: p => name ≠ CStr.empty ∧ h.Open none p
  | some t, name :: p => name ≠ CStr.empty ∧ h.Listed t ∧ h.Open (h.child t name) p

theorem Heap.listed_congr {h h' : Heap} {x : Ref} (heq : h'[x]? = h[x]?) :
    h'.Listed x ↔ h.Listed x := by
  rw [Heap.Listed, heq, Heap.Listed]

theorem Heap.open_none_congr (h h' : Heap) (p : List CStr) : h'.Open none p ↔ h.Open none p := by
  induction p with
  | nil => exact Iff.rfl
  | cons name p ih => exact and_congr_right fun _ ↦ ih

/-- Whether a path is open depends on the lists of namespaces that it goes through. -/
theorem Heap.open_congr {h h' : Heap} {t : Ref} (hsame : ∀ p x, h.walk t p = some x →
    h'.nss x = h.nss x ∧ (h'.Listed x ↔ h.Listed x)) (p : List CStr) :
    h'.Open (some t) p ↔ h.Open (some t) p := by
  induction p generalizing t with
  | nil => exact Iff.rfl
  | cons name p ih =>
      obtain ⟨hnss, hlisted⟩ := hsame [] t rfl
      rw [Heap.Open, Heap.Open, hlisted, Heap.child, hnss]
      refine and_congr_right fun _ ↦ and_congr_right fun _ ↦ ?_
      change h'.Open (h.child t name) p ↔ _
      cases hc : h.child t name with
      | none => exact Heap.open_none_congr h h' p
      | some r => exact ih fun q x hx ↦ hsame (name :: q) x ((Heap.walk_cons hc q).trans hx)

theorem Heap.SameBelow.isOpen {h h' : Heap} {t : Ref} (hs : h.SameBelow h' t) (p : List CStr) :
    h'.Open (some t) p ↔ h.Open (some t) p :=
  Heap.open_congr (fun q x hx ↦ ⟨Heap.nss_congr (hs q x hx), Heap.listed_congr (hs q x hx)⟩) p

/-- A database without namespaces is as open as none at all. -/
theorem Heap.open_leaf {h : Heap} {c : Ref} (hl : h.Listed c) (hc : h.nss c = []) (h' : Heap)
    (p : List CStr) : h.Open (some c) p ↔ h'.Open none p := by
  cases p with
  | nil => exact Iff.rfl
  | cons name p =>
      have hchild : h.child c name = none := by
        rw [Heap.child, hc]
        rfl
      rw [Heap.Open, Heap.Open, hchild, h'.open_none_congr h p]
      exact and_congr_right fun _ ↦ and_iff_right hl

/-- The values of one database over those of another. -/
def mergeView (f g : Option (CStr → Option CStr)) : Option (CStr → Option CStr) :=
  match f with
  | none => g
  | some f => some fun k ↦ (f k).or (g.bind (· k))

/-- A place after it has been copied to, if it is open. -/
def Merged (isOpen : Prop) (f g g' : Option (CStr → Option CStr)) : Prop :=
  (isOpen → g' = mergeView f g) ∧ (¬ isOpen → g' = g)

/-- `s` has been copied to `t`. -/
structure Copied (h h' : Heap) (s t : Ref) : Prop where
  grows : Grows h h' t
  view : ∀ p, Merged (h.Open (some t) p) (h.view s p) (h.view t p) (h'.view t p)

/-- `s` has been copied to the namespace `name` of `t`. -/
structure ChildCopied (h h' : Heap) (s t : Ref) (name : CStr) : Prop where
  grows : Grows h h' t
  root : h'.view t [] = h.view t []
  here : ∀ p, Merged (h.Open (some t) (name :: p)) (h.view s p) (h.view t (name :: p))
    (h'.view t (name :: p))
  child : ∀ m, m ≠ name → h'.child t m = h.child t m
  same : ∀ m r, m ≠ name → h.child t m = some r → h.SameBelow h' r
  listed : h'.Listed t ↔ h.Listed t
  names : ∀ ns ∈ h'.nss t, ns ∈ h.nss t ∨ ns.name = name

/-- A tree that is to be copied, and a place to copy it to. -/
structure CopyInput (h : Heap) (d : Nat) (s t : Ref) : Prop where
  src : h.Branch d s
  sized : ∀ p x node, h.walk s p = some x → h[x]? = some node → node.Sized
  dst : h.Tree t
  apart : ∀ p q x, h.walk s p = some x → h.walk t q ≠ some x
  names : h.NamesApart s t

/-- The same for a namespace of `t`, which may have to be made. -/
structure ChildInput (h : Heap) (d : Nat) (s t : Ref) (name : CStr) : Prop where
  src : h.Branch d s
  sized : ∀ p x node, h.walk s p = some x → h[x]? = some node → node.Sized
  dst : h.Tree t
  apart : ∀ p q x, h.walk s p = some x → h.walk t q ≠ some x
  collision : NoCollision h t name
  names : ∀ c, h.child t name = some c → h.NamesApart s c

theorem Heap.Branch.lt {h : Heap} {d : Nat} {s x : Ref} (hs : h.Branch d s) {p : List CStr}
    (hx : h.walk s p = some x) : x < h.length := by
  obtain ⟨d', node, hnode, -⟩ := hs.walk hx
  exact (List.getElem?_eq_some_iff.mp hnode).1

theorem Heap.Branch.congr {h h' : Heap} {d : Nat} {s : Ref} (hs : h.Branch d s)
    (hsame : h.SameBelow h' s) : h'.Branch d s := by
  induction d generalizing s with
  | zero => exact hs
  | succ d ih =>
      have hchild : ∀ ns ∈ h.nss s, h.child s ns.name = some ns.sdb :=
        fun _ hns ↦ hs.child_eq_some hns
      obtain ⟨node, hnode, hm, hlist, hsub⟩ := hs
      rw [Heap.nss, hnode] at hchild
      refine ⟨node, (hsame [] s rfl).trans hnode, hm, hlist, fun ns hns ↦ ?_⟩
      exact ih (hsub ns hns) (hsame.child (hchild ns hns))

theorem Heap.NamesApart.congr {h h' : Heap} {s t : Ref} (hn : h.NamesApart s t)
    (hs : h.SameBelow h' s) (ht : h.SameBelow h' t) : h'.NamesApart s t := by
  intro p x y hx hy
  rw [hs.walk] at hx
  rw [ht.walk] at hy
  rw [Heap.nss_congr (hs p x hx), Heap.nss_congr (ht p y hy)]
  exact hn p x y hx hy

theorem Heap.Tree.congr {h h' : Heap} {t : Ref} (ht : h.Tree t) (hs : h.SameBelow h' t) :
    h'.Tree t := by
  constructor
  · intro p x hx
    rw [hs.walk] at hx
    rw [hs p x hx]
    exact ht.node p x hx
  · intro p q x hp hq
    rw [hs.walk] at hp hq
    exact ht.inj p q x hp hq

theorem Heap.SameBelow.trans {h h' h'' : Heap} {s : Ref} (h₁ : h.SameBelow h' s)
    (h₂ : h'.SameBelow h'' s) : h.SameBelow h'' s := by
  intro p x hx
  rw [h₂ p x ((h₁.walk p).trans hx), h₁ p x hx]

/-- Nothing has been copied, since the way is not open. -/
theorem childCopied_of_same {h h' : Heap} {s t : Ref} {name : CStr} (ht : h.Tree t)
    (hlen : h.length ≤ h'.length) (hsame : ∀ x, x < h.length → h'[x]? = h[x]?)
    (hno : ∀ p, ¬ h.Open (some t) (name :: p)) : ChildCopied h h' s t name := by
  have hbelow : h.SameBelow h' t := fun p x hx ↦ hsame x (ht.lt hx)
  have hnss : h'.nss t = h.nss t := Heap.nss_congr (hbelow [] t rfl)
  refine ⟨⟨hlen, fun x hx _ ↦ hsame x hx, fun p x hx ↦ (hbelow.walk p).trans hx,
    fun p x hx ↦ .inl ((hbelow.walk p).symm.trans hx), ht.congr hbelow⟩, hbelow.view [],
    fun p ↦ ⟨fun ho ↦ absurd ho (hno p), fun _ ↦ hbelow.view _⟩, fun m _ ↦ ?_,
    fun m r _ hr ↦ hbelow.child hr, Heap.listed_congr (hbelow [] t rfl),
    fun ns hns ↦ .inl (hnss ▸ hns)⟩
  rw [Heap.child, hnss, Heap.child]

theorem Heap.listed_of_child {h : Heap} {t c : Ref} {name : CStr} (hc : h.child t name = some c) :
    h.Listed t := by
  obtain ⟨ns, hns, -⟩ := Heap.mem_of_child hc
  rw [Heap.nss] at hns
  cases hnode : h[t]? with
  | none =>
      rw [hnode] at hns
      cases hns
  | some node =>
      refine ⟨node, hnode, fun hnone ↦ ?_⟩
      rw [hnode] at hns
      simp only [SdbNode.nss, hnone] at hns
      cases hns

section Step

variable {d : Nat} {copy : Nat → Heap → World → Ref → Ref → Option (Heap × World)}
  (hcopy : ∀ {h : Heap} {s t : Ref}, CopyInput h d s t → ∀ w, ∃ h' w',
    (∀ fuel, d ≤ fuel → copy fuel h w s t = some (h', w')) ∧ Copied h h' s t)
  {h : Heap} {s t : Ref} {name : CStr} (hi : ChildInput h d s t name)
include hi

/-- The namespace is there. -/
theorem childCopied_old {h' : Heap} {c : Ref} (hne : name ≠ CStr.empty)
    (hc : h.child t name = some c) (hsub : Copied h h' s c) : ChildCopied h h' s t name := by
  have hg := hsub.grows
  have hroot := hg.getElem?_root hi.dst hc
  refine ⟨hg.of_child hi.dst hc, hg.view_nil hi.dst hc, fun p ↦ ?_,
    fun m _ ↦ hg.child_root hi.dst hc m, fun m r hm hr ↦ hg.sameBelow_other hi.dst hc hm hr, ?_,
    fun ns hns ↦ .inl ?_⟩
  · rw [hg.view_root hi.dst hc, if_pos rfl, Heap.view_cons hc, Heap.Open, hc]
    have hopen : name ≠ CStr.empty ∧ h.Listed t ∧ h.Open (some c) p ↔ h.Open (some c) p := by
      rw [and_iff_right hne, and_iff_right (Heap.listed_of_child hc)]
    rw [hopen]
    exact hsub.view p
  · exact Heap.listed_congr hroot
  · rwa [Heap.nss_congr hroot] at hns

/-- The input for a database that has just been made. -/
theorem ChildInput.attach :
    CopyInput (lsAppendNs (h ++ [nsNode name]) t ⟨name, sdbHash name, h.length⟩) d s h.length := by
  have ht := hi.dst
  have hsame : h.SameBelow
      (lsAppendNs (h ++ [nsNode name]) t ⟨name, sdbHash name, h.length⟩) s := by
    intro p x hx
    rw [getElem?_attach ht, if_neg fun hxt ↦ hi.apart p [] x hx (congrArg some hxt.symm),
      if_neg (hi.src.lt hx).ne]
  have hleaf := nss_attach_new ht name
  refine ⟨hi.src.congr hsame, fun p x node hx hnode ↦ ?_, tree_attach_new ht name,
    fun p q x hx hq ↦ ?_, fun p x y _ hy ns _ ns' hns' ↦ ?_⟩
  · rw [hsame.walk] at hx
    rw [hsame p x hx] at hnode
    exact hi.sized p x node hx hnode
  · rw [hsame.walk] at hx
    exact (hi.src.lt hx).ne (Heap.walk_leaf hleaf hq).2
  · rw [(Heap.walk_leaf hleaf hy).2, hleaf] at hns'
    cases hns'

/-- The namespace has been made and can be found. -/
theorem childCopied_new {h' : Heap} (hne : name ≠ CStr.empty) (hnone : h.child t name = none)
    (hl : h.Listed t)
    (hsub : Copied (lsAppendNs (h ++ [nsNode name]) t ⟨name, sdbHash name, h.length⟩) h' s
      h.length) :
    ChildCopied h h' s t name := by
  have ht := hi.dst
  have hg := hsub.grows
  have hin := hi.attach
  have hatt := grows_attach ht name hl hnone hi.collision
  have hchild := child_attach ht name hl hnone
  have hnss := nss_attach ht name hl
  have hleaf := nss_attach_new ht name
  have hnew := getElem?_attach_new ht name
  have hview := view_attach_new ht name
  have hbelow : ∀ m r, h.child t m = some r → h.SameBelow _ r :=
    fun m r hr ↦ sameBelow_attach ht name hr
  have hat := getElem?_attach ht name t
  rw [if_pos rfl] at hat
  have hs := hatt.sameBelow (fun p x hx ↦ hi.src.lt hx) hi.apart
  revert hsub hg hin hatt hchild hnss hleaf hnew hview hbelow hat hs
  generalize lsAppendNs (h ++ [nsNode name]) t ⟨name, sdbHash name, h.length⟩ = h₁
  intro hsub hg hin hatt hchild hnss hleaf hnew hview hbelow hat hs
  have hc : h₁.child t name = some h.length := (hchild name).trans (if_pos rfl)
  have hroot := hg.getElem?_root hatt.tree hc
  obtain ⟨node, hnode, hns⟩ := hl
  rw [hnode, Option.map_some] at hat
  refine ⟨hatt.trans (hg.of_child hatt.tree hc), (hg.view_nil hatt.tree hc).trans ?_, fun p ↦ ?_,
    fun m hm ↦ ?_, fun m r hm hr ↦ ?_, ?_, fun ns hns ↦ ?_⟩
  · refine congrArg some ?_
    funext k
    rw [Heap.value, hat, Heap.value, hnode]
    rfl
  · have hopen : h.Open (some t) (name :: p) ↔ h₁.Open (some h.length) p := by
      rw [Heap.Open, hnone, Heap.open_leaf ⟨_, hnew, Option.some_ne_none _⟩ hleaf h,
        and_iff_right hne, and_iff_right ⟨node, hnode, hns⟩]
    rw [hg.view_root hatt.tree hc, if_pos rfl, Heap.view_cons_none hnone, hopen, ← hs.view p]
    have hmerged := hsub.view p
    rw [hview] at hmerged
    cases p with
    | nil =>
        refine ⟨fun ho ↦ (hmerged.1 ho).trans ?_, fun ho ↦ absurd trivial ho⟩
        rw [if_pos rfl]
        rfl
    | cons m p =>
        rw [if_neg (List.cons_ne_nil m p)] at hmerged
        exact hmerged
  · rw [hg.child_root hatt.tree hc, hchild, if_neg hm]
  · refine (hbelow m r hr).trans (hg.sameBelow_other hatt.tree hc hm ?_)
    rw [hchild, if_neg hm, hr]
  · rw [Heap.Listed, hroot, hat]
    refine iff_of_true ⟨_, rfl, ?_⟩ ⟨node, hnode, hns⟩
    simpa using hns
  · rw [Heap.nss_congr hroot, hnss] at hns
    rcases List.mem_append.mp hns with hns | hns
    · exact .inl hns
    · rw [List.mem_singleton.mp hns]
      exact .inr rfl

/-- The namespace has been made, but there is no list to put it in. -/
theorem childCopied_lost {h' : Heap} (hl : ¬ h.Listed t)
    (hsub : Copied (lsAppendNs (h ++ [nsNode name]) t ⟨name, sdbHash name, h.length⟩) h' s
      h.length) :
    ChildCopied h h' s t name := by
  have ht := hi.dst
  have hlen := length_lsAppendNs (h := h) (s := t) (nsNode name) ⟨name, sdbHash name, h.length⟩
  refine childCopied_of_same ht ?_ (fun x hx ↦ ?_) fun p ho ↦ hl ho.2.1
  · exact (Nat.le_succ _).trans (hlen.symm.le.trans hsub.grows.length)
  · rw [hsub.grows.frame x (hlen ▸ Nat.lt_succ_of_lt hx), getElem?_attach_null ht name hl hx]
    intro p hp
    exact hx.ne (Heap.walk_leaf (nss_attach_new ht name) hp).2

include hcopy

/-- One round of the loop of `sdb_copy` over the namespaces. -/
theorem sdbCopyNs_copied (w : World) (hash : Nat) : ∃ h' w',
    (∀ fuel, d ≤ fuel → sdbCopyNs (copy fuel) t (h, w) ⟨name, hash, s⟩ = some (h', w')) ∧
      ChildCopied h h' s t name := by
  rcases sdbNs_cases hi.dst hi.collision with ⟨hne, hns⟩ | ⟨hne, c, hc, hns⟩ | ⟨hne, hnone, hns⟩
  · refine ⟨h, w, fun fuel _ ↦ ?_, childCopied_of_same hi.dst (Nat.le_refl _) (fun _ _ ↦ rfl) ?_⟩
    · rw [sdbCopyNs, hns]
    · exact fun p ho ↦ ho.1 hne
  · have hin : CopyInput h d s c := by
      refine ⟨hi.src, hi.sized, hi.dst.child hc, fun p q x hx hq ↦ ?_, hi.names c hc⟩
      exact hi.apart p (name :: q) x hx ((Heap.walk_cons hc q).trans hq)
    obtain ⟨h', w', hrun, hsub⟩ := hcopy hin w
    refine ⟨h', w', fun fuel hd ↦ ?_, childCopied_old hi hne hc hsub⟩
    rw [sdbCopyNs, hns]
    exact hrun fuel hd
  · obtain ⟨h', w', hrun, hsub⟩ := hcopy hi.attach w
    refine ⟨h', w', fun fuel hd ↦ ?_, ?_⟩
    · rw [sdbCopyNs, hns]
      exact hrun fuel hd
    · by_cases hl : h.Listed t
      · exact childCopied_new hi hne hnone hl hsub
      · exact childCopied_lost hi hl hsub

end Step

/-- Another namespace can be copied afterwards. -/
theorem ChildCopied.input {h h' : Heap} {d : Nat} {s s' t : Ref} {name name' : CStr}
    (hcc : ChildCopied h h' s t name) (hi : ChildInput h d s' t name')
    (hne : sdbHash name' ≠ sdbHash name) : ChildInput h' d s' t name' ∧ h.SameBelow h' s' := by
  have hg := hcc.grows
  have hs := hg.sameBelow (fun p x hx ↦ hi.src.lt hx) hi.apart
  have hname : name' ≠ name := by
    rintro rfl
    exact hne rfl
  refine ⟨⟨hi.src.congr hs, fun p x node hx hnode ↦ ?_, hg.tree, fun p q x hx hq ↦ ?_,
    fun ns hns heq ↦ ?_, fun c hc ↦ ?_⟩, hs⟩
  · rw [hs.walk] at hx
    rw [hs p x hx] at hnode
    exact hi.sized p x node hx hnode
  · rw [hs.walk] at hx
    rcases hg.fresh q x hq with hq | hle
    · exact hi.apart p q x hx hq
    · exact absurd (hi.src.lt hx) (Nat.not_lt.mpr hle)
  · rcases hcc.names ns hns with hold | hnew
    · exact hi.collision ns hold heq
    · rw [hg.tree.nsList.hash ns hns, hnew] at heq
      exact absurd heq.symm hne
  · rw [hcc.child name' hname] at hc
    exact (hi.names c hc).congr hs (hcc.same name' c hname hc)

/-- What is open at another namespace stays so. -/
theorem ChildCopied.isOpen {h h' : Heap} {s t : Ref} {name name' : CStr}
    (hcc : ChildCopied h h' s t name) (hne : name' ≠ name) (p : List CStr) :
    h'.Open (some t) (name' :: p) ↔ h.Open (some t) (name' :: p) := by
  rw [Heap.Open, Heap.Open, hcc.listed, hcc.child name' hne]
  refine and_congr_right fun _ ↦ and_congr_right fun _ ↦ ?_
  cases hc : h.child t name' with
  | none => exact Heap.open_none_congr h h' p
  | some r => exact (hcc.same name' r hne hc).isOpen p

theorem ChildCopied.view {h h' : Heap} {s t : Ref} {name name' : CStr}
    (hcc : ChildCopied h h' s t name) (hne : name' ≠ name) (p : List CStr) :
    h'.view t (name' :: p) = h.view t (name' :: p) := by
  cases hc : h.child t name' with
  | none => rw [Heap.view_cons_none hc, Heap.view_cons_none ((hcc.child name' hne).trans hc)]
  | some r =>
      rw [Heap.view_cons hc, Heap.view_cons ((hcc.child name' hne).trans hc),
        (hcc.same name' r hne hc).view]

/-- Namespaces have been copied to `t`. -/
structure ListCopied (h h' : Heap) (l : List SdbNs) (t : Ref) : Prop where
  grows : Grows h h' t
  root : h'.view t [] = h.view t []
  here : ∀ ns ∈ l, ∀ p, Merged (h.Open (some t) (ns.name :: p)) (h.view ns.sdb p)
    (h.view t (ns.name :: p)) (h'.view t (ns.name :: p))
  other : ∀ m p, (∀ ns ∈ l, ns.name ≠ m) → h'.view t (m :: p) = h.view t (m :: p)

/-- The loop of `sdb_copy` over the namespaces. -/
theorem foldlM_sdbCopyNs {d : Nat} {copy : Nat → Heap → World → Ref → Ref → Option (Heap × World)}
    (hcopy : ∀ {h : Heap} {s t : Ref}, CopyInput h d s t → ∀ w, ∃ h' w',
      (∀ fuel, d ≤ fuel → copy fuel h w s t = some (h', w')) ∧ Copied h h' s t) {t : Ref}
    {l : List SdbNs} (hl : NsList l) {h : Heap} (ht : h.Tree t)
    (hi : ∀ ns ∈ l, ChildInput h d ns.sdb t ns.name) (w : World) : ∃ h' w',
    (∀ fuel, d ≤ fuel → l.foldlM (sdbCopyNs (copy fuel) t) (h, w) = some (h', w')) ∧
      ListCopied h h' l t := by
  induction l generalizing h w with
  | nil => exact ⟨h, w, fun _ _ ↦ rfl, .refl ht, rfl, nofun, fun _ _ _ ↦ rfl⟩
  | cons ns l ih =>
      have hdist := hl.distinct
      rw [Keyed.Distinct, List.map_cons, List.nodup_cons] at hdist
      have hhash : ∀ ns' ∈ l, sdbHash ns'.name ≠ sdbHash ns.name := by
        intro ns' hns' heq
        rw [← hl.hash ns (List.mem_cons_self ..), ← hl.hash ns' (List.mem_cons_of_mem _ hns')]
          at heq
        exact hdist.1 (heq ▸ List.mem_map_of_mem (f := SdbNs.hash) hns')
      have hne : ∀ ns' ∈ l, ns'.name ≠ ns.name := fun ns' hns' heq ↦ hhash ns' hns' (congrArg _ heq)
      obtain ⟨h₁, w₁, hrun, hcc⟩ := sdbCopyNs_copied hcopy (hi ns (List.mem_cons_self ..)) w ns.hash
      have hnext : ∀ ns' ∈ l, ChildInput h₁ d ns'.sdb t ns'.name ∧ h.SameBelow h₁ ns'.sdb :=
        fun ns' hns' ↦ hcc.input (hi ns' (List.mem_cons_of_mem _ hns')) (hhash ns' hns')
      obtain ⟨h', w', hloop, hlc⟩ := ih
        ⟨fun ns' hns' ↦ hl.hash ns' (List.mem_cons_of_mem _ hns'), hdist.2⟩ hcc.grows.tree
        (fun ns' hns' ↦ (hnext ns' hns').1) w₁
      refine ⟨h', w', fun fuel hd ↦ ?_, hcc.grows.trans hlc.grows, hlc.root.trans hcc.root,
        fun ns' hns' p ↦ ?_, fun m p hm ↦ ?_⟩
      · rw [List.foldlM_cons, hrun fuel hd]
        exact hloop fuel hd
      · rcases List.mem_cons.mp hns' with rfl | hns'
        · rw [hlc.other ns'.name p hne]
          exact hcc.here p
        · have hmerged := hlc.here ns' hns' p
          rw [hcc.isOpen (hne ns' hns'), hcc.view (hne ns' hns'), (hnext ns' hns').2.view]
            at hmerged
          exact hmerged
      · rw [hlc.other m p fun ns' hns' ↦ hm ns' (List.mem_cons_of_mem _ hns')]
        exact hcc.view (Ne.symm (hm ns (List.mem_cons_self ..))) p

/-! ## The whole copy -/

section Pairs

variable {h : Heap} {d : Nat} {s t : Ref} (hi : CopyInput h (d + 1) s t)
include hi

theorem CopyInput.storable (p : CStr × CStr) (hp : p ∈ h.pairs s) :
    p.1.length < 0xff ∧ p.2.length < 0xffffff ∧ p.2 ≠ CStr.empty := by
  have hv := hi.src.mem_pairs.mp hp
  obtain ⟨node, hnode, hval⟩ := Option.bind_eq_some_iff.mp hv
  obtain ⟨hk, hlen⟩ := hi.sized [] s node rfl hnode p.1 p.2 hval
  exact ⟨hk, hlen, value_ne_empty hv⟩

/-- The pairs of the database itself. -/
theorem CopyInput.pairs (w : World) : ∃ node node' w', h[t]? = some node ∧
    (heapForeach h s (copyForeachCb t) (h, w)).2 = (h.set t node', w') ∧
      SetsAll (h.pairs s) node node' := by
  obtain ⟨node, hnode, hr⟩ := hi.dst.node [] t rfl
  obtain ⟨node', w', hrun, hall⟩ :=
    foreachLoop_copy hi.src.nodup_pairs hi.storable hnode hr.inMemory w
  refine ⟨node, node', w', hnode, ?_, hall⟩
  rw [heapForeach_eq hi.src]
  exact hrun

variable {node node' : SdbNode} (hnode : h[t]? = some node) (hall : SetsAll (h.pairs s) node node')
include hnode hall

omit hi in
theorem SetsAll.nss_set (x : Ref) : Heap.nss (h.set t node') x = h.nss x := by
  by_cases hx : t = x
  · subst hx
    rw [Heap.nss, List.getElem?_set_self (List.getElem?_eq_some_iff.mp hnode).1, Heap.nss, hnode]
    exact congrArg (·.getD []) hall.ns
  · exact Heap.nss_congr (List.getElem?_set_ne hx)

omit hi in
theorem SetsAll.walk_set (p : List CStr) (x : Ref) : Heap.walk (h.set t node') x p = h.walk x p :=
  Heap.walk_congr (fun _ y _ ↦ hall.nss_set hnode y) p

omit hi in
theorem SetsAll.listed_set (x : Ref) : Heap.Listed (h.set t node') x ↔ h.Listed x := by
  rw [Heap.Listed, List.getElem?_set, Heap.Listed]
  split
  · next hx =>
      subst hx
      rw [if_pos (List.getElem?_eq_some_iff.mp hnode).1, hnode]
      simp [hall.ns]
  · rfl

theorem SetsAll.grows : Grows h (h.set t node') t where
  length := by rw [List.length_set]
  frame x _ hnot := List.getElem?_set_ne fun hx ↦ hnot [] (congrArg some hx)
  keep p x hx := (hall.walk_set hnode p t).trans hx
  fresh p x hx := .inl ((hall.walk_set hnode p t).symm.trans hx)
  tree := by
    constructor
    · intro p x hx
      rw [hall.walk_set hnode] at hx
      obtain ⟨nodex, hnodex, hr⟩ := hi.dst.node p x hx
      rw [List.getElem?_set]
      split
      · next htx =>
          subst htx
          obtain rfl := Option.some.inj (hnode.symm.trans hnodex)
          rw [if_pos (hi.dst.lt hx)]
          refine ⟨node', rfl, hall.inMemory, ?_, hall.nsLock.trans hr.unlocked,
            hall.dir.trans hr.dir⟩
          rw [SdbNode.nss, hall.ns]
          exact hr.list
      · exact ⟨nodex, hnodex, hr⟩
    · intro p q x hp hq
      rw [hall.walk_set hnode] at hp hq
      exact hi.dst.inj p q x hp hq

theorem SetsAll.view_root :
    Heap.view (h.set t node') t [] = mergeView (h.view s []) (h.view t []) := by
  change some _ = some _
  refine congrArg some ?_
  funext k
  have hvalue : Heap.value (h.set t node') t k = node'.value k := by
    rw [Heap.value, List.getElem?_set_self (List.getElem?_eq_some_iff.mp hnode).1]
    rfl
  have hold : h.value t k = node.value k := by
    rw [Heap.value, hnode]
    rfl
  change Heap.value (h.set t node') t k = (h.value s k).or (h.value t k)
  rw [hvalue, hold]
  cases hv : h.value s k with
  | some v => exact hall.new k v (hi.src.mem_pairs.mpr hv)
  | none =>
      refine hall.old k fun v hmem ↦ ?_
      rw [hi.src.mem_pairs.mp hmem] at hv
      cases hv

theorem SetsAll.view_cons (m : CStr) (p : List CStr) :
    Heap.view (h.set t node') t (m :: p) = h.view t (m :: p) := by
  rw [Heap.view, hall.walk_set hnode, Heap.view]
  cases hw : h.walk t (m :: p) with
  | none => rfl
  | some x =>
      refine congrArg some (Heap.value_congr (List.getElem?_set_ne ?_))
      rintro rfl
      exact hi.dst.walk_ne hw

/-- After the pairs every namespace can be copied. -/
theorem SetsAll.childInput {ns : SdbNs} (hns : ns ∈ h.nss s) :
    ChildInput (h.set t node') d ns.sdb t ns.name := by
  have hchild := hi.src.child_eq_some hns
  have hsame : h.SameBelow (h.set t node') s := by
    intro p x hx
    refine List.getElem?_set_ne ?_
    rintro rfl
    exact hi.apart p [] t hx rfl
  have hwalk : ∀ p x, Heap.walk (h.set t node') ns.sdb p = some x →
      h.walk s (ns.name :: p) = some x := by
    intro p x hx
    rw [hall.walk_set hnode] at hx
    exact (Heap.walk_cons hchild p).trans hx
  refine ⟨(hi.src.nss.2 ns hns).congr (hsame.child hchild), fun p x node hx hn ↦ ?_,
    (hall.grows hi hnode).tree, fun p q x hx hq ↦ ?_, fun ns' hns' heq ↦ ?_, fun c hc ↦ ?_⟩
  · rw [hsame _ x (hwalk p x hx)] at hn
    exact hi.sized _ x node (hwalk p x hx) hn
  · rw [hall.walk_set hnode] at hq
    exact hi.apart _ q x (hwalk p x hx) hq
  · rw [hall.nss_set hnode] at hns'
    rw [← hi.src.nss.1.hash ns hns] at heq
    exact (hi.names [] s t rfl rfl ns hns ns' hns' heq.symm).symm
  · rw [Heap.child, hall.nss_set hnode] at hc
    intro p x y hx hy
    rw [hall.walk_set hnode] at hy
    rw [hall.nss_set hnode, hall.nss_set hnode]
    exact hi.names (ns.name :: p) x y (hwalk p x hx) ((Heap.walk_cons hc p).trans hy)

/-- The pairs and then the namespaces. -/
theorem ListCopied.copied {h' : Heap} (hlc : ListCopied (h.set t node') h' (h.nss s) t) :
    Copied h h' s t := by
  have hopen : ∀ p, Heap.Open (h.set t node') (some t) p ↔ h.Open (some t) p :=
    Heap.open_congr fun _ x _ ↦ ⟨hall.nss_set hnode x, hall.listed_set hnode x⟩
  refine ⟨(hall.grows hi hnode).trans hlc.grows, fun p ↦ ?_⟩
  cases p with
  | nil =>
      rw [hlc.root, hall.view_root hi hnode]
      exact ⟨fun _ ↦ rfl, fun ho ↦ absurd trivial ho⟩
  | cons m p =>
      cases hc : h.child s m with
      | some r =>
          obtain ⟨ns, hns, rfl, rfl⟩ := Heap.mem_of_child hc
          have hmerged := hlc.here ns hns p
          have hsame : h.SameBelow (h.set t node') ns.sdb := by
            intro q x hx
            refine List.getElem?_set_ne ?_
            rintro rfl
            exact hi.apart (ns.name :: q) [] t ((Heap.walk_cons hc q).trans hx) rfl
          rw [hopen, hsame.view, hall.view_cons hi hnode, ← Heap.view_cons hc] at hmerged
          exact hmerged
      | none =>
          have hno : ∀ ns ∈ h.nss s, ns.name ≠ m := by
            rintro ns hns rfl
            rw [hi.src.child_eq_some hns] at hc
            cases hc
          rw [hlc.other m p hno, hall.view_cons hi hnode, Heap.view_cons_none hc]
          exact ⟨fun _ ↦ rfl, fun _ ↦ rfl⟩

end Pairs

/-- **`sdb_copy`** copies what it can get at. -/
theorem sdbCopy_copied {d : Nat} {h : Heap} {s t : Ref} (hi : CopyInput h d s t) (w : World) :
    ∃ h' w', (∀ fuel, d ≤ fuel → sdbCopy fuel h w s t = some (h', w')) ∧ Copied h h' s t := by
  induction d generalizing h s t w with
  | zero => exact hi.src.elim
  | succ d ih =>
      obtain ⟨node, node', w₁, hnode, hpairs, hall⟩ := hi.pairs w
      obtain ⟨h', w', hrun, hlc⟩ := @foldlM_sdbCopyNs d sdbCopy (fun hi w ↦ ih hi w) t _
        hi.src.nss.1 _ (hall.grows hi hnode).tree (fun ns hns ↦ hall.childInput hi hnode hns) w₁
      refine ⟨h', w', fun fuel hd ↦ ?_, hlc.copied hi hnode hall⟩
      obtain ⟨fuel, rfl⟩ := Nat.exists_eq_succ_of_ne_zero (Nat.ne_zero_of_lt hd)
      rw [sdbCopy, hpairs]
      dsimp only
      rw [hall.nss_set hnode]
      exact hrun fuel (Nat.le_of_succ_le_succ hd)

/-! ## Whether the copy is right -/

/-- The value of a key at a path. -/
def Heap.valueAt (h : Heap) (s : Ref) (p : List CStr) (k : CStr) : Option CStr :=
  (h.walk s p).bind fun x ↦ h.value x k

/-- The path of an item, which is a namespace or a pair. -/
def NsItem.place (i : NsItem) : List CStr :=
  match i.v with
  | none => i.path ++ [i.k]
  | some _ => i.path

/-- The heap `h'` is `h` with a copy of the tree `s` in `t`: what `s` holds is in `t`, the other
keys and namespaces of `t` are as they were and no others have come, the tree `s` is the same, and
`sdb_diff` finds no difference when `t` held nothing before. -/
structure IsCopy (h h' : Heap) (w' : World) (s t : Ref) : Prop where
  copied : ∀ i, h.Holds s i → h'.Holds t i
  values : ∀ p k, h.valueAt s p k = none → h'.valueAt t p k = h.valueAt t p k
  spaces : ∀ p x, h.walk t p = some x → h'.walk t p = some x
  noOther : ∀ p, (h'.walk t p).isSome → (h.walk t p).isSome ∨ (h.walk s p).isSome
  source : ∀ p, h'.walk s p = h.walk s p ∧ ∀ x, h.walk s p = some x → h'[x]? = h[x]?
  equal : (∀ i, ¬ h.Holds t i) →
    ∃ n, ∀ fuel, n ≤ fuel → ∀ cb, (sdbDiff h' w' fuel s t cb).map Prod.fst = some true

/-- `sdb_copy` copies the tree `s` to `t`. -/
def CopiesTree (h : Heap) (w : World) (s t : Ref) : Prop :=
  ∃ h' w', (∃ n, ∀ fuel, n ≤ fuel → sdbCopy fuel h w s t = some (h', w')) ∧ IsCopy h h' w' s t

/-- There is an open way to everything that `s` holds and `t` does not. -/
def Heap.Reachable (h : Heap) (s t : Ref) : Prop :=
  ∀ i, h.Holds s i → h.Open (some t) i.place ∨ h.Holds t i

theorem Heap.valueAt_eq (h : Heap) (s : Ref) (p : List CStr) (k : CStr) :
    h.valueAt s p k = (h.view s p).bind (· k) := by
  rw [Heap.valueAt, Heap.view]
  cases h.walk s p with
  | none => rfl
  | some x => rfl

theorem Heap.isSome_view (h : Heap) (s : Ref) (p : List CStr) :
    (h.view s p).isSome = (h.walk s p).isSome := by
  rw [Heap.view, Option.isSome_map]

/-- What a tree holds at a place depends on what is seen there. -/
theorem Heap.holds_iff (h : Heap) (s : Ref) (i : NsItem) :
    h.Holds s i ↔ match i.v with
      | none => (h.view s i.place).isSome
      | some v => (h.view s i.place).bind (· i.k) = some v := by
  obtain ⟨p, k, _ | v⟩ := i
  · change (h.walk s (p ++ [k])).isSome ↔ (h.view s (p ++ [k])).isSome
    rw [h.isSome_view]
  · change h.valueAt s p k = some v ↔ (h.view s p).bind (· k) = some v
    rw [h.valueAt_eq]

theorem holds_of_view {h h' : Heap} {s t : Ref} {i : NsItem}
    (hv : h'.view t i.place = h.view s i.place) : h'.Holds t i ↔ h.Holds s i := by
  rw [h'.holds_iff, h.holds_iff, hv]

section Copied

variable {h h' : Heap} {d : Nat} {s t : Ref} (hi : CopyInput h d s t) (hc : Copied h h' s t)
include hc

/-- An item of the tree is in the copy if the way to it is open. -/
theorem Copied.holds_of_open {i : NsItem} (ho : h.Open (some t) i.place) (hh : h.Holds s i) :
    h'.Holds t i := by
  have hview := (hc.view i.place).1 ho
  rw [h.holds_iff] at hh
  rw [h'.holds_iff, hview]
  obtain ⟨p, k, _ | v⟩ := i
  · dsimp only at hh ⊢
    obtain ⟨f, hf⟩ := Option.isSome_iff_exists.mp hh
    rw [hf]
    rfl
  · dsimp only at hh ⊢
    obtain ⟨f, hf, hv⟩ := Option.bind_eq_some_iff.mp hh
    rw [hf, mergeView, Option.bind_some]
    dsimp only
    rw [hv]
    rfl

theorem Copied.holds_of_not_open {i : NsItem} (ho : ¬ h.Open (some t) i.place) :
    h'.Holds t i ↔ h.Holds t i :=
  holds_of_view ((hc.view i.place).2 ho)

theorem Copied.valueAt {p : List CStr} {k : CStr} (hs : h.valueAt s p k = none) :
    h'.valueAt t p k = h.valueAt t p k := by
  rw [h.valueAt_eq] at hs
  rw [h'.valueAt_eq, h.valueAt_eq]
  by_cases ho : h.Open (some t) p
  · rw [(hc.view p).1 ho]
    cases hf : h.view s p with
    | none => rfl
    | some f =>
        rw [hf, Option.bind_some] at hs
        rw [mergeView, Option.bind_some]
        dsimp only
        rw [hs]
        rfl
  · rw [(hc.view p).2 ho]

theorem Copied.noOther {p : List CStr} (hp : (h'.walk t p).isSome) :
    (h.walk t p).isSome ∨ (h.walk s p).isSome := by
  rw [← h'.isSome_view] at hp
  rw [← h.isSome_view, ← h.isSome_view]
  by_cases ho : h.Open (some t) p
  · rw [(hc.view p).1 ho] at hp
    cases hf : h.view s p with
    | none =>
        rw [hf] at hp
        exact .inl hp
    | some f => exact .inr rfl
  · rw [(hc.view p).2 ho] at hp
    exact .inl hp

include hi

theorem Copied.sameBelow : h.SameBelow h' s :=
  hc.grows.sameBelow (fun _ _ hx ↦ hi.src.lt hx) hi.apart

theorem Copied.holds_source (i : NsItem) : h'.Holds s i ↔ h.Holds s i :=
  holds_of_view ((hc.sameBelow hi).view i.place)

omit hi in
/-- A copy that has everything, in a place where there was nothing. -/
theorem Copied.holds_iff (hall : ∀ i, h.Holds s i → h'.Holds t i) (hempty : ∀ i, ¬ h.Holds t i)
    (i : NsItem) : h'.Holds t i ↔ h.Holds s i := by
  refine ⟨fun hh ↦ ?_, hall i⟩
  obtain ⟨p, k, _ | v⟩ := i
  · rcases hc.noOther (p := p ++ [k]) hh with hold | hnew
    · exact absurd hold (hempty ⟨p, k, none⟩)
    · exact hnew
  · change h'.valueAt t p k = some v at hh
    change h.valueAt s p k = some v
    cases hs : h.valueAt s p k with
    | none =>
        rw [hc.valueAt hs] at hh
        exact absurd hh (hempty ⟨p, k, some v⟩)
    | some v' =>
        have hh' : h'.valueAt t p k = some v' := hall ⟨p, k, some v'⟩ hs
        rw [← hh, hh']

end Copied

theorem Heap.Branch.length_lt {h : Heap} {d : Nat} {s x : Ref} (hs : h.Branch d s) {p : List CStr}
    (hx : h.walk s p = some x) : p.length < d := by
  induction d generalizing s p with
  | zero => exact hs.elim
  | succ d ih =>
      cases p with
      | nil => exact Nat.succ_pos d
      | cons m p =>
          obtain ⟨r, hr, hx⟩ := Option.bind_eq_some_iff.mp hx
          obtain ⟨ns, hns, -, rfl⟩ := Heap.mem_of_child hr
          exact Nat.succ_lt_succ (ih (hs.nss.2 ns hns) hx)

theorem Heap.Tree.branch {h : Heap} {d : Nat} {t : Ref} (ht : h.Tree t)
    (hd : ∀ p, (h.walk t p).isSome → p.length < d) : h.Branch d t := by
  induction d generalizing t with
  | zero => exact absurd (hd [] rfl) (Nat.not_lt_zero _)
  | succ d ih =>
      obtain ⟨node, hnode, hr⟩ := ht.node [] t rfl
      have hlist := ht.nsList
      have hnss : h.nss t = node.nss := by rw [Heap.nss, hnode]
      refine ⟨node, hnode, hr.inMemory, hr.list, fun ns hns ↦ ?_⟩
      rw [← hnss] at hns
      have hc : h.child t ns.name = some ns.sdb := by
        rw [Heap.child_eq, hlist.names.lookup_eq_some_iff.mpr ⟨hns, rfl⟩]
        rfl
      refine ih (ht.child hc) fun p hp ↦ ?_
      rw [← Heap.walk_cons hc] at hp
      exact Nat.lt_of_succ_lt_succ (hd (ns.name :: p) hp)

theorem Heap.Open.named {h : Heap} {o : Option Ref} {p : List CStr} (ho : h.Open o p) :
    ∀ name ∈ p, name ≠ CStr.empty := by
  induction p generalizing o with
  | nil => exact nofun
  | cons m p ih =>
      intro name hname
      cases o with
      | none =>
          rcases List.mem_cons.mp hname with rfl | hname
          · exact ho.1
          · exact ih ho.2 name hname
      | some t =>
          rcases List.mem_cons.mp hname with rfl | hname
          · exact ho.1
          · exact ih ho.2.2 name hname

theorem NsItem.named_of_place {i : NsItem} (hp : ∀ name ∈ i.place, name ≠ CStr.empty) :
    i.Named := by
  obtain ⟨p, k, _ | v⟩ := i
  · exact ⟨fun name hname ↦ hp name (List.mem_append_left _ hname),
      fun _ ↦ hp k (List.mem_append_right _ (List.mem_singleton_self k))⟩
  · exact ⟨hp, nofun⟩

theorem Heap.SameTree.walk_isSome {h : Heap} {s t : Ref} (hsame : h.SameTree s t) (p : List CStr) :
    (h.walk s p).isSome ↔ (h.walk t p).isSome := by
  rcases List.eq_nil_or_concat' p with rfl | ⟨p, k, rfl⟩
  · exact Iff.rfl
  · exact hsame ⟨p, k, none⟩

section Equal

variable {h : Heap} {d : Nat} {s t : Ref} (hs : h.Branch d s) (ht : h.Tree t)
  (hsame : h.SameTree s t)
include hs ht hsame

theorem Heap.SameTree.branch : h.Branch d t := by
  refine ht.branch fun p hp ↦ ?_
  obtain ⟨x, hx⟩ := Option.isSome_iff_exists.mp ((hsame.walk_isSome p).mpr hp)
  exact hs.length_lt hx

/-- The same names collide with none of each other. -/
theorem Heap.SameTree.namesApart : h.NamesApart s t := by
  intro p x y hx hy ns hns ns' hns' heq
  obtain ⟨d', hx'⟩ := hs.walk hx
  obtain ⟨d'', hy'⟩ := (hsame.branch hs ht).walk hy
  have hw : (h.walk t (p ++ [ns'.name])).isSome := by
    rw [Heap.walk_concat, hy, Option.bind_some, hy'.child_eq_some hns']
    rfl
  rw [← hsame.walk_isSome, Heap.walk_concat, hx, Option.bind_some] at hw
  obtain ⟨r, hr⟩ := Option.isSome_iff_exists.mp hw
  obtain ⟨ns'', hns'', hname, -⟩ := Heap.mem_of_child hr
  have hhash : ns.hash = ns''.hash := by
    rw [heq, hy'.nss.1.hash ns' hns', hx'.nss.1.hash ns'' hns'', hname]
  rw [hx'.nss.1.distinct.eq_of_key_eq hns hns'' hhash, hname]

/-- `sdb_diff` of trees that are the same. -/
theorem sdbDiff_of_same (hnamed : ∀ i, h.Holds s i → i.Named) (w : World) {fuel : Nat}
    (hd : d ≤ fuel) (cb : Bool) : (sdbDiff h w fuel s t cb).map Prod.fst = some true := by
  have hb := hsame.branch hs ht
  rw [sdbDiff_eq w hd hs hb (hsame.namesApart hs ht), Option.map_some, Option.some.injEq,
    List.isEmpty_iff, List.eq_nil_iff_forall_not_mem]
  rintro ⟨i, add⟩ hx
  rw [mem_diffItems hs hb, Heap.Differs] at hx
  split at hx
  · exact hx.2 ⟨(hsame i).mpr hx.1, hnamed i ((hsame i).mpr hx.1)⟩
  · exact hx.2 ⟨(hsame i).mp hx.1, hnamed i hx.1⟩

end Equal

/-- What is copied is at the end of an open way, or has been there before. -/
theorem CopiesTree.reachable {h : Heap} {d : Nat} {s t : Ref} {w : World}
    (hcopies : CopiesTree h w s t) (hi : CopyInput h d s t) : h.Reachable s t := by
  obtain ⟨h', w', hrun, hc⟩ := sdbCopy_copied hi w
  obtain ⟨h'', w'', ⟨n, hrun'⟩, hcopy⟩ := hcopies
  have heq := (hrun (max n d) (Nat.le_max_right _ _)).symm.trans (hrun' _ (Nat.le_max_left _ _))
  obtain ⟨rfl, rfl⟩ := Prod.mk.inj (Option.some.inj heq)
  intro i hh
  by_cases ho : h.Open (some t) i.place
  · exact .inl ho
  · exact .inr ((hc.holds_of_not_open ho).mp (hcopy.copied i hh))

/-- A database with one namespace, which is empty, and `dst` beside it. -/
def heapCopy (name : CStr) (dst : SdbNode) : Heap :=
  (sdbNsSet [sdbNode0, sdbNode0, dst] 0 name 1).2

theorem walk_heapCopy {name : CStr} {dst : SdbNode} {p : List CStr} {x : Ref}
    (hx : (heapCopy name dst).walk 0 p = some x) : p = [] ∧ x = 0 ∨ p = [name] ∧ x = 1 := by
  cases p with
  | nil => exact .inl ⟨rfl, (Option.some.inj hx).symm⟩
  | cons m p =>
      obtain ⟨r, hr, hx⟩ := Option.bind_eq_some_iff.mp hx
      obtain ⟨ns, hns, rfl, rfl⟩ := Heap.mem_of_child hr
      obtain rfl := List.mem_singleton.mp hns
      obtain ⟨rfl, rfl⟩ := Heap.walk_leaf (h := heapCopy name dst) rfl hx
      exact .inr ⟨rfl, rfl⟩

theorem copyInput_heapCopy (name : CStr) (ns : Option (List SdbNs)) (hns : ns.getD [] = []) :
    CopyInput (heapCopy name { sdbNode0 with ns := ns }) 2 0 2 := by
  have hleaf : (heapCopy name { sdbNode0 with ns := ns }).nss 2 = [] := hns
  refine ⟨⟨_, rfl, inMemory_new _, ⟨?_, List.nodup_singleton _⟩, ?_⟩, ?_, ⟨?_, ?_⟩, ?_, ?_⟩
  · intro ns hns
    rw [List.mem_singleton.mp hns]
  · intro ns hns
    rw [List.mem_singleton.mp hns]
    exact ⟨sdbNode0, rfl, inMemory_new _, nsList_nil, nofun⟩
  · intro p x node hx hnode
    rcases walk_heapCopy hx with ⟨-, rfl⟩ | ⟨-, rfl⟩
    · obtain rfl := Option.some.inj hnode
      exact sized_new _
    · obtain rfl := Option.some.inj hnode
      exact sized_new _
  · intro p x hx
    obtain ⟨-, rfl⟩ := Heap.walk_leaf hleaf hx
    refine ⟨_, rfl, inMemory_new _, ?_, rfl, rfl⟩
    rw [SdbNode.nss, hns]
    exact nsList_nil
  · intro p q x hp hq
    rw [(Heap.walk_leaf hleaf hp).1, (Heap.walk_leaf hleaf hq).1]
  · intro p q x hp hq
    obtain ⟨-, rfl⟩ := Heap.walk_leaf hleaf hq
    rcases walk_heapCopy hp with ⟨-, hx⟩ | ⟨-, hx⟩
    · cases hx
    · cases hx
  · intro p x y _ hy ns _ ns' hns'
    rw [(Heap.walk_leaf hleaf hy).2, hleaf] at hns'
    cases hns'

end SdbStore
