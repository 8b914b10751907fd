import SdbStore.Lib.Visit
import SdbStore.Ns
import SdbStore.Sync

/-!
# Writing a database with its namespaces

`sdb_ns_sync` writes a database, its namespaces, their namespaces and so on.  The references may
run in a circle and several names may lead to one database: what it remembers are the entries of
the lists of namespaces that it has been to, `SdbNs *`, not the databases.

It is a search along the edges of the graph of the databases (`Lib.Visit`), which calls `sdb_sync`
wherever it comes to.  `sdb_sync` itself leaves the lists of namespaces alone; what it would put
into them when it takes the file that it wrote for a text file is left out, as in `sdb_open`.
-/

namespace SdbStore

open Lib

/-- An `SdbNs *`: the database in whose list it stands, and its place there. -/
abbrev NsPtr := Ref × Nat

/-- The entries of the list of a database. -/
def Heap.nsPtrs (h : Heap) (s : Ref) : List NsPtr := (List.range (h.nss s).length).map (Prod.mk s)

/-- What an `SdbNs *` points to. -/
def Heap.nsAt (h : Heap) (ns : NsPtr) : Option SdbNs := (h.nss ns.1)[ns.2]?

/-- The state of `ns_sync`: the databases, the files, the entries that it has been to, and, which
the code does not keep, the calls of `sdb_sync` and what they returned. -/
structure NsSync where
  heap : Heap
  world : World
  list : List NsPtr
  calls : List (Ref × Bool)

/-- `sdb_sync`, on a pointer. -/
def syncNode (st : NsSync) (s : Ref) : Option (Bool × NsSync) :=
  match st.heap[s]? with
  | none => none
  | some node =>
      let r := sdbSync node.sdb st.world
      some (r.1, {
        heap := st.heap.set s { node with sdb := r.2.1 }
        world := r.2.2
        list := st.list
        calls := st.calls ++ [(s, r.1)] })

/-- One round of the loop of `ns_sync`; `in_list` compares pointers. -/
def nsSyncNs (nsSync : NsSync → Ref → Option (Bool × NsSync)) (r : Bool × NsSync) (ns : NsPtr) :
    Option (Bool × NsSync) :=
  if ns ∈ r.2.list then some r
  else do
    let child ← r.2.heap.nsAt ns
    let a ← nsSync { r.2 with list := r.2.list ++ [ns] } child.sdb
    let b ← syncNode a.2 child.sdb
    some (r.1 && a.1 && b.1, b.2)

/-- `ns_sync`. -/
def nsSync : Nat → NsSync → Ref → Option (Bool × NsSync)
  | 0, _, _ => none
  | fuel + 1, st, s => do
      let r ← (st.heap.nsPtrs s).foldlM (nsSyncNs (nsSync fuel)) (true, st)
      let b ← syncNode r.2 s
      some (r.1 && b.1, b.2)

/-- `sdb_ns_sync`. -/
def sdbNsSync (fuel : Nat) (h : Heap) (w : World) (s : Option Ref) : Option (Bool × NsSync) :=
  match s with
  | none => some (false, ⟨h, w, [], []⟩)
  | some s => nsSync fuel ⟨h, w, [], []⟩ s

/-! ## The graph of the databases -/

/-- The references lead to databases. -/
def Heap.Closed (h : Heap) : Prop := ∀ node ∈ h, ∀ ns ∈ node.nss, ns.sdb < h.length

instance (h : Heap) : Decidable h.Closed := inferInstanceAs (Decidable (∀ node ∈ h, _))

/-- The database that an entry leads to. -/
def Heap.target (h : Heap) (ns : NsPtr) : Ref := ((h.nsAt ns).map SdbNs.sdb).getD ns.1

/-- A database is in the list of namespaces of another one. -/
def Heap.Child (h : Heap) (s r : Ref) : Prop := ∃ ns ∈ h.nss s, ns.sdb = r

/-- A database can be reached from another one. -/
def Heap.Reaches (h : Heap) : Ref → Ref → Prop := Relation.ReflTransGen h.Child

theorem Heap.mem_nsPtrs {h : Heap} {s : Ref} {p : NsPtr} :
    p ∈ h.nsPtrs s ↔ p.1 = s ∧ ∃ ns, h.nsAt p = some ns := by
  obtain ⟨s', i⟩ := p
  simp only [Heap.nsPtrs, List.mem_map, List.mem_range, Prod.mk.injEq, Heap.nsAt]
  constructor
  · rintro ⟨j, hj, rfl, rfl⟩
    exact ⟨rfl, _, List.getElem?_eq_getElem hj⟩
  · rintro ⟨rfl, ns, hns⟩
    exact ⟨i, (List.getElem?_eq_some_iff.mp hns).1, rfl, rfl⟩

theorem Heap.target_eq {h : Heap} {p : NsPtr} {ns : SdbNs} (hns : h.nsAt p = some ns) :
    h.target p = ns.sdb := by
  rw [Heap.target, hns]
  rfl

/-- The edges of the search are the entries of the lists. -/
theorem Heap.edge_iff (h : Heap) (s r : Ref) :
    Visit.Edge h.nsPtrs h.target s r ↔ h.Child s r := by
  constructor
  · rintro ⟨p, hp, rfl⟩
    obtain ⟨rfl, ns, hns⟩ := Heap.mem_nsPtrs.mp hp
    exact ⟨ns, List.mem_of_getElem? hns, (Heap.target_eq hns).symm⟩
  · rintro ⟨ns, hmem, rfl⟩
    obtain ⟨i, hi⟩ := List.mem_iff_getElem?.mp hmem
    have hns : h.nsAt (s, i) = some ns := hi
    exact ⟨(s, i), Heap.mem_nsPtrs.mpr ⟨rfl, ns, hns⟩, Heap.target_eq hns⟩

theorem Heap.Closed.lt {h : Heap} (hc : h.Closed) {p : NsPtr} {ns : SdbNs}
    (hns : h.nsAt p = some ns) : ns.sdb < h.length := by
  have hmem : ns ∈ h.nss p.1 := List.mem_of_getElem? hns
  rw [Heap.nss] at hmem
  cases hnode : h[p.1]? with
  | none =>
      rw [hnode] at hmem
      exact absurd hmem List.not_mem_nil
  | some node =>
      rw [hnode] at hmem
      exact hc node (List.mem_of_getElem? hnode) ns hmem

/-- All the entries. -/
def Heap.allPtrs (h : Heap) : Finset NsPtr :=
  (Finset.range h.length).biUnion fun s ↦ (h.nsPtrs s).toFinset

theorem Heap.mem_allPtrs (h : Heap) (s : Ref) (p : NsPtr) (hp : p ∈ h.nsPtrs s) :
    p ∈ h.allPtrs := by
  rw [Heap.allPtrs, Finset.mem_biUnion]
  refine ⟨s, ?_, List.mem_toFinset.mpr hp⟩
  obtain ⟨hs, ns, hns⟩ := Heap.mem_nsPtrs.mp hp
  rw [Finset.mem_range, ← hs]
  by_contra hlong
  rw [Heap.nsAt, Heap.nss, List.getElem?_eq_none (Nat.not_lt.mp hlong)] at hns
  simp at hns

/-! ## The search -/

/-- The databases have the same namespaces. -/
structure SameNss (h h' : Heap) : Prop where
  length : h'.length = h.length
  nss : ∀ s, h'.nss s = h.nss s

theorem SameNss.nsAt {h h' : Heap} (hs : SameNss h h') (p : NsPtr) : h'.nsAt p = h.nsAt p := by
  rw [Heap.nsAt, hs.nss, Heap.nsAt]

theorem SameNss.nsPtrs {h h' : Heap} (hs : SameNss h h') (s : Ref) : h'.nsPtrs s = h.nsPtrs s := by
  rw [Heap.nsPtrs, hs.nss, Heap.nsPtrs]

/-- The calls of `sdb_sync`, one after the other: every one is for a database of the heap that the
ones before it have left, over their files, and returns what stands beside the database. -/
inductive SyncCalls : Heap → World → List (Ref × Bool) → Heap → World → Prop
  | nil (h : Heap) (w : World) : SyncCalls h w [] h w
  | cons {h h' : Heap} {w w₁ w' : World} {s : Ref} {node : SdbNode} {ret : Bool} {sdb : Sdb}
      {calls : List (Ref × Bool)} (hnode : h[s]? = some node)
      (hsync : sdbSync node.sdb w = (ret, sdb, w₁))
      (hrest : SyncCalls (h.set s { node with sdb := sdb }) w₁ calls h' w') :
      SyncCalls h w ((s, ret) :: calls) h' w'

theorem SyncCalls.append {h h' h'' : Heap} {w w' w'' : World} {l l' : List (Ref × Bool)}
    (h₁ : SyncCalls h w l h' w') (h₂ : SyncCalls h' w' l' h'' w'') :
    SyncCalls h w (l ++ l') h'' w'' := by
  induction h₁ with
  | nil => exact h₂
  | cons hnode hsync _ ih => exact .cons hnode hsync (ih h₂)

/-- From one state to another `sdb_sync` has been called for the databases `visits`, and `ret`
says whether all these calls were successful. -/
structure NsSynced (h : Heap) (st : NsSync) (list : List NsPtr) (visits : List Ref) (ret : Bool)
    (st' : NsSync) : Prop where
  same : SameNss h st'.heap
  list : st'.list = list
  calls : ∃ l, st'.calls = st.calls ++ l ∧ l.map Prod.fst = visits ∧ ret = l.all Prod.snd ∧
    SyncCalls st.heap st.world l st'.heap st'.world

section Calls

variable {h : Heap} {st st' st'' : NsSync} {list list' : List NsPtr} {visits visits' : List Ref}
  {ret ret' : Bool}

theorem NsSynced.refl (hsame : SameNss h st.heap) : NsSynced h st st.list [] true st :=
  ⟨hsame, rfl, [], (List.append_nil _).symm, rfl, rfl, .nil _ _⟩

theorem NsSynced.trans (h₁ : NsSynced h st list visits ret st')
    (h₂ : NsSynced h st' list' visits' ret' st'') :
    NsSynced h st list' (visits ++ visits') (ret && ret') st'' := by
  obtain ⟨l, hl, hv, hr, hs⟩ := h₁.calls
  obtain ⟨l', hl', hv', hr', hs'⟩ := h₂.calls
  refine ⟨h₂.same, h₂.list, l ++ l', ?_, ?_, ?_, hs.append hs'⟩
  · rw [hl', hl, List.append_assoc]
  · rw [List.map_append, hv, hv']
  · rw [List.all_append, hr, hr']

/-- One call of `sdb_sync`. -/
theorem syncNode_synced (hsame : SameNss h st.heap) {s : Ref} (hs : s < h.length) :
    ∃ ret st', syncNode st s = some (ret, st') ∧ NsSynced h st st.list [s] ret st' := by
  have hs' : s < st.heap.length := hsame.length ▸ hs
  have hnode := List.getElem?_eq_getElem hs'
  rw [syncNode, hnode]
  refine ⟨_, _, rfl, ⟨?_, fun r ↦ ?_⟩, rfl, _, rfl, rfl, (Bool.and_true _).symm,
    .cons hnode rfl (.nil _ _)⟩
  · rw [List.length_set, hsame.length]
  · rw [← hsame.nss, Heap.nss, Heap.nss]
    by_cases hr : s = r
    · subst hr
      rw [List.getElem?_set_self hs', List.getElem?_eq_getElem hs']
      rfl
    · rw [List.getElem?_set_ne hr]

end Calls

section Search

variable {h : Heap} (hc : h.Closed)
include hc

/-- The loop of `ns_sync` goes along the edges, when the calls in it do. -/
theorem foldlM_nsSyncNs {fuel : Nat}
    (ih : ∀ (st : NsSync) (s : Ref), SameNss h st.heap → s < h.length →
      ∀ r, Visit.visit h.nsPtrs h.target fuel st.list s = some r →
      ∃ ret st', nsSync fuel st s = some (ret, st') ∧ NsSynced h st r.1 r.2 ret st')
    {st₀ : NsSync} {s : Ref} (l : List NsPtr) (hl : l ⊆ h.nsPtrs s) {marks : List NsPtr × List Ref}
    {r : List NsPtr × List Ref}
    (hr : l.foldlM (Visit.visitEdge h.target (Visit.visit h.nsPtrs h.target fuel)) marks = some r)
    {ret : Bool} {st : NsSync} (hst : NsSynced h st₀ marks.1 marks.2 ret st) :
    ∃ ret' st', l.foldlM (nsSyncNs (nsSync fuel)) (ret, st) = some (ret', st') ∧
      NsSynced h st₀ r.1 r.2 ret' st' := by
  induction l generalizing marks ret st with
  | nil =>
      cases hr
      exact ⟨ret, st, rfl, hst⟩
  | cons p l loop =>
      have hl' : l ⊆ h.nsPtrs s := fun x hx ↦ hl (List.mem_cons_of_mem p hx)
      obtain ⟨-, ns, hns⟩ := Heap.mem_nsPtrs.mp (hl List.mem_cons_self)
      rw [List.foldlM_cons, Visit.visitEdge] at hr
      rw [List.foldlM_cons]
      by_cases hp : p ∈ marks.1
      · have hround : nsSyncNs (nsSync fuel) (ret, st) p = some (ret, st) := by
          rw [nsSyncNs, if_pos (hst.list ▸ hp)]
        rw [if_pos hp] at hr
        rw [hround]
        exact loop hl' hr hst
      · rw [if_neg hp] at hr
        obtain ⟨mid, hmid, hr⟩ := Option.bind_eq_some_iff.mp hr
        obtain ⟨a, ha, hmid⟩ := Option.bind_eq_some_iff.mp hmid
        cases hmid
        rw [Heap.target_eq hns] at ha hr
        have hlt := hc.lt hns
        obtain ⟨ret₁, st₁, hcode₁, h₁⟩ :=
          ih { st with list := marks.1 ++ [p] } ns.sdb hst.same hlt a ha
        obtain ⟨ret₂, st₂, hcode₂, h₂⟩ := syncNode_synced h₁.same hlt
        -- the mark is not a call
        have hmark : NsSynced h st a.1 a.2 ret₁ st₁ := ⟨h₁.same, h₁.list, h₁.calls⟩
        have hstep := (hst.trans hmark).trans h₂
        have hround : nsSyncNs (nsSync fuel) (ret, st) p = some (ret && ret₁ && ret₂, st₂) := by
          rw [nsSyncNs, if_neg (hst.list ▸ hp)]
          dsimp only
          rw [hst.same.nsAt, hns, hst.list]
          simp only [Option.bind_eq_bind, Option.bind_some, hcode₁, hcode₂]
        rw [hround]
        refine loop hl' hr ?_
        rw [h₁.list, List.append_assoc] at hstep
        exact hstep

/-- **`ns_sync`** is the search along the entries of the lists. -/
theorem nsSync_synced (fuel : Nat) (st : NsSync) (s : Ref) (hsame : SameNss h st.heap)
    (hs : s < h.length) (r : List NsPtr × List Ref)
    (hr : Visit.visit h.nsPtrs h.target fuel st.list s = some r) :
    ∃ ret st', nsSync fuel st s = some (ret, st') ∧ NsSynced h st r.1 r.2 ret st' := by
  induction fuel generalizing st s r with
  | zero => cases hr
  | succ fuel ih =>
      obtain ⟨marks, hmarks, hr⟩ := Option.bind_eq_some_iff.mp hr
      cases hr
      obtain ⟨ret₁, st₁, hcode₁, h₁⟩ := foldlM_nsSyncNs hc ih (h.nsPtrs s) (List.Subset.refl _)
        hmarks (NsSynced.refl hsame)
      obtain ⟨ret₂, st₂, hcode₂, h₂⟩ := syncNode_synced h₁.same hs
      refine ⟨ret₁ && ret₂, st₂, ?_, ?_⟩
      · rw [nsSync, hsame.nsPtrs, hcode₁, Option.bind_eq_bind, Option.bind_some, hcode₂]
        rfl
      · have hall := h₁.trans h₂
        rw [h₁.list] at hall
        exact hall

end Search

/-! ## More fuel -/

theorem foldlM_mono {α β : Type} {f g : β → α → Option β}
    (hfg : ∀ b a c, f b a = some c → g b a = some c) (l : List α) {b c : β}
    (h : l.foldlM f b = some c) : l.foldlM g b = some c := by
  induction l generalizing b with
  | nil => exact h
  | cons a l ih =>
      rw [List.foldlM_cons] at h ⊢
      obtain ⟨b', hb', h⟩ := Option.bind_eq_some_iff.mp h
      rw [hfg b a b' hb']
      exact ih h

/-- More fuel makes no difference to a search that ends. -/
theorem nsSync_mono {fuel fuel' : Nat} (hle : fuel ≤ fuel') {st : NsSync} {s : Ref}
    {r : Bool × NsSync} (h : nsSync fuel st s = some r) : nsSync fuel' st s = some r := by
  induction fuel generalizing fuel' st s r with
  | zero => cases h
  | succ fuel ih =>
      obtain ⟨fuel', rfl⟩ : ∃ n, fuel' = n + 1 := ⟨fuel' - 1, by omega⟩
      obtain ⟨r₁, hr₁, h⟩ := Option.bind_eq_some_iff.mp h
      rw [nsSync, foldlM_mono ?_ _ hr₁]
      · exact h
      · intro r₀ p r₂ hround
        rw [nsSyncNs] at hround ⊢
        split at hround
        · next hp => rw [if_pos hp, hround]
        · next hp =>
            obtain ⟨ns, hns, hround⟩ := Option.bind_eq_some_iff.mp hround
            obtain ⟨a, ha, hround⟩ := Option.bind_eq_some_iff.mp hround
            rw [if_neg hp, hns, Option.bind_eq_bind, Option.bind_some,
              ih (Nat.le_of_succ_le_succ hle) ha]
            exact hround

/-- **`sdb_ns_sync`** ends, calls `sdb_sync` for the databases that can be reached and for no
others, does nothing besides these calls, and returns whether all of them were successful. -/
theorem sdbNsSync_covers {h : Heap} (hc : h.Closed) {s : Ref} (hs : s < h.length) (w : World) :
    ∃ ret st, (∀ fuel, h.allPtrs.card < fuel → sdbNsSync fuel h w (some s) = some (ret, st)) ∧
      SyncCalls h w st.calls st.heap st.world ∧
      (∀ r, h.Reaches s r ↔ ∃ b, (r, b) ∈ st.calls) ∧
      (ret = true ↔ ∀ c ∈ st.calls, c.2 = true) := by
  obtain ⟨r, hr, hvisited⟩ := Visit.visit_total h.mem_allPtrs (h.allPtrs.card + 1) [] s (by simp)
  obtain ⟨ret, st, hcode, hsynced⟩ :=
    nsSync_synced hc _ ⟨h, w, [], []⟩ s ⟨rfl, fun _ ↦ rfl⟩ hs r hr
  obtain ⟨l, hcalls, hvisits, hret, hsync⟩ := hsynced.calls
  have hl : st.calls = l := hcalls
  have hedge : Visit.Edge h.nsPtrs h.target = h.Child := funext₂ fun a b ↦ propext (h.edge_iff a b)
  refine ⟨ret, st, fun fuel hfuel ↦ nsSync_mono hfuel hcode, hl ▸ hsync, fun x ↦ ?_, ?_⟩
  · rw [Heap.Reaches, ← hedge, ← hvisited.mem_iff, ← hvisits, hl, List.mem_map]
    simp
  · rw [hret, hl, List.all_eq_true]

/-- Two databases that are each other's namespaces; one of them is there twice. -/
def heapCycle : Heap :=
  [{ sdbNode0 with ns := some [⟨CStr.ofBytes [97], sdbHash (CStr.ofBytes [97]), 1⟩,
      ⟨CStr.ofBytes [98], sdbHash (CStr.ofBytes [98]), 1⟩] },
    { sdbNode0 with ns := some [⟨CStr.ofBytes [99], sdbHash (CStr.ofBytes [99]), 0⟩] }]

theorem sdbNsSync_covers_cycle : ∃ ret st,
    (∀ fuel, heapCycle.allPtrs.card < fuel →
      sdbNsSync fuel heapCycle .empty (some 0) = some (ret, st)) ∧
    SyncCalls heapCycle .empty st.calls st.heap st.world ∧
    (∀ r, heapCycle.Reaches 0 r ↔ ∃ b, (r, b) ∈ st.calls) ∧
    (ret = true ↔ ∀ c ∈ st.calls, c.2 = true) :=
  sdbNsSync_covers (h := heapCycle) (by decide) (by decide) .empty

end SdbStore
