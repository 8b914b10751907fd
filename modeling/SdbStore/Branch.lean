import SdbStore.NsTree

/-!
# What a tree of databases holds

A database with its namespaces, their namespaces and so on is a finite tree when the
references do not run in a circle.  Nothing here says how it was made: lists of namespaces
may be `NULL`, keys may have been unset, a namespace may have the empty name, and one database
may stand in several places.  `Heap.Holds` says what can be found in such a tree, namespaces
and pairs alike, each at the path that leads to it.
-/

namespace SdbStore

open Lib

/-! ## Databases in memory -/

/-- A database in memory, none of whose keys expires. -/
structure SdbNode.InMemory (node : SdbNode) : Prop where
  sound : node.sdb.Sound
  bare : node.sdb.Bare
  unmapped : node.sdb.db.map = none

/-- The value of a key; an empty value is none. -/
def SdbNode.value (node : SdbNode) (k : CStr) : Option CStr :=
  ((sdbHtFindKvp node.sdb k).bind SdbKv.value).filter (· ≠ CStr.empty)

/-- The pair that an entry stands for. -/
def pairOf (kv : SdbKv) : Option (CStr × CStr) :=
  (kv.value.filter (· ≠ CStr.empty)).map fun v ↦ (kv.key, v)

/-- The pairs of a database, in the order of its table. -/
def SdbNode.pairs (node : SdbNode) : List (CStr × CStr) := node.sdb.ht.toList.filterMap pairOf

theorem pairOf_eq_some {kv : SdbKv} {k v : CStr} :
    pairOf kv = some (k, v) ↔ kv.key = k ∧ kv.value = some v ∧ v ≠ CStr.empty := by
  simp only [pairOf, Option.map_eq_some_iff, Option.filter_eq_some_iff, Prod.mk.injEq, ne_eq,
    decide_eq_true_eq]
  constructor
  · rintro ⟨v', ⟨hv, hne⟩, rfl, rfl⟩
    exact ⟨rfl, hv, hne⟩
  · rintro ⟨rfl, hv, hne⟩
    exact ⟨v, ⟨hv, hne⟩, rfl, rfl⟩

/-- A loop that has something to do at some of the elements only. -/
theorem foreachLoop_filterMap {σ α β : Type} {step : σ → α → Bool × σ} {step' : σ → β → Bool × σ}
    {g : α → Option β} (hstep : ∀ user a, step user a = match g a with
      | none => (true, user)
      | some b => step' user b) (l : List α) (user : σ) :
    foreachLoop step l user = foreachLoop step' (l.filterMap g) user := by
  induction l generalizing user with
  | nil => rfl
  | cons a l ih =>
      rw [foreachLoop, hstep, List.filterMap_cons]
      cases g a with
      | none => exact ih user
      | some b =>
          rw [foreachLoop]
          dsimp only
          split
          · exact ih _
          · rfl

section InMemory

variable {node : SdbNode} (hm : node.InMemory)
include hm

theorem SdbNode.InMemory.sdbGet (w : World) (k : CStr) : sdbGet node.sdb w k = node.value k := by
  rw [sdbGet_eq hm.sound.noExpire, sdbGetDisk_bare hm.bare, SdbNode.value]
  unfold entryGet
  cases sdbHtFindKvp node.sdb k with
  | none => rfl
  | some kv =>
      rw [Option.bind_some]
      dsimp only
      cases kv.value with
      | none => rfl
      | some v =>
          dsimp only
          by_cases hv : v = CStr.empty
          · rw [if_pos hv, Option.filter_some, if_neg (by simpa using hv)]
            rfl
          · rw [if_neg hv, Option.filter_some, if_pos (by simpa using hv)]

theorem SdbNode.InMemory.mem_pairs {k v : CStr} :
    (k, v) ∈ node.pairs ↔ node.value k = some v := by
  simp only [SdbNode.pairs, List.mem_filterMap, pairOf_eq_some, SdbNode.value,
    Option.filter_eq_some_iff, Option.bind_eq_some_iff, ne_eq, decide_eq_true_eq]
  constructor
  · rintro ⟨kv, hkv, rfl, hv, hne⟩
    exact ⟨⟨kv, sdbHtFindKvp_of_mem hm.sound.wf hkv, hv⟩, hne⟩
  · rintro ⟨⟨kv, hkv, hv⟩, hne⟩
    obtain ⟨hmem, hkey⟩ := key_of_sdbHtFindKvp hm.sound.wf hkv
    exact ⟨kv, hmem, hkey, hv, hne⟩

theorem SdbNode.InMemory.nodup_pairs : (node.pairs.map Prod.fst).Nodup := by
  have hsub : (node.pairs.map Prod.fst).Sublist (node.sdb.ht.toList.map SdbKv.key) := by
    rw [SdbNode.pairs]
    generalize node.sdb.ht.toList = l
    induction l with
    | nil => exact .slnil
    | cons kv l ih =>
        rw [List.filterMap_cons, List.map_cons]
        cases hp : pairOf kv with
        | none => exact ih.cons _
        | some p =>
            rw [List.map_cons, (pairOf_eq_some.mp hp).1]
            exact ih.cons_cons _
  exact hm.sound.wf.distinctKeys.sublist hsub

/-- `sdb_foreach` goes through the pairs. -/
theorem SdbNode.InMemory.sdbForeach {σ : Type} (cb : SdbForeachCallback σ) (user : σ) :
    sdbForeach node.sdb cb user =
      foreachLoop (fun user p ↦ cb user p.1 (some p.2)) node.pairs user := by
  have hcdb : sdbForeachCdb node.sdb cb user = (true, user) := by
    rw [sdbForeachCdb, scan_bare hm.bare hm.unmapped]
    rfl
  rw [SdbStore.sdbForeach, hcdb, SdbNode.pairs]
  refine foreachLoop_filterMap (fun user kv ↦ ?_) _ user
  cases hv : kv.value with
  | none => rw [show pairOf kv = none by rw [pairOf, hv]; rfl]
  | some v =>
      by_cases hne : v = CStr.empty
      · rw [show pairOf kv = none by
          rw [pairOf, hv, Option.filter_some, if_neg (by simpa using hne)]
          rfl]
        exact if_pos hne
      · rw [show pairOf kv = some (kv.key, v) from pairOf_eq_some.mpr ⟨rfl, hv, hne⟩]
        exact if_neg hne

end InMemory

/-! ## Trees -/

/-- The value of a key in a database of the heap. -/
def Heap.value (h : Heap) (s : Ref) (k : CStr) : Option CStr := h[s]?.bind fun node ↦ node.value k

/-- The pairs of a database of the heap. -/
def Heap.pairs (h : Heap) (s : Ref) : List (CStr × CStr) :=
  match h[s]? with
  | none => []
  | some node => node.pairs

/-- A tree of databases in memory that is at most `d` deep. -/
def Heap.Branch (h : Heap) : Nat → Ref → Prop
  | 0, _ => False
  | d + 1, s => ∃ node, h[s]? = some node ∧ node.InMemory ∧ NsList node.nss ∧
      ∀ ns ∈ node.nss, h.Branch d ns.sdb

/-- A namespace (with no value) or a pair, at the path that leads to it. -/
structure NsItem where
  path : List CStr
  k : CStr
  v : Option CStr
deriving DecidableEq

/-- The same one level higher. -/
def NsItem.push (name : CStr) (i : NsItem) : NsItem := { i with path := name :: i.path }

/-- What can be found in a tree. -/
def Heap.Holds (h : Heap) (s : Ref) (i : NsItem) : Prop :=
  match i.v with
  | none => (h.walk s (i.path ++ [i.k])).isSome
  | some v => ((h.walk s i.path).bind fun r ↦ h.value r i.k) = some v

theorem NsItem.push_injective (name : CStr) : Function.Injective (NsItem.push name) := by
  rintro ⟨p, k, v⟩ ⟨p', k', v'⟩ heq
  simpa [NsItem.push] using heq

/-- A database without namespaces. -/
theorem Heap.walk_leaf {h : Heap} {c : Ref} (hc : h.nss c = []) {p : List CStr} {x : Ref}
    (hx : h.walk c p = some x) : p = [] ∧ x = c := by
  cases p with
  | nil => exact ⟨rfl, (Option.some.inj hx).symm⟩
  | cons m p =>
      rw [Heap.walk, Heap.child, hc] at hx
      cases hx

theorem Heap.holds_ns (h : Heap) (s : Ref) (name : CStr) :
    h.Holds s ⟨[], name, none⟩ ↔ (h.child s name).isSome := by
  change (h.walk s [name]).isSome ↔ _
  rw [h.walk_singleton]

theorem Heap.holds_pair (h : Heap) (s : Ref) (k v : CStr) :
    h.Holds s ⟨[], k, some v⟩ ↔ h.value s k = some v := Iff.rfl

theorem Heap.holds_push (h : Heap) (s : Ref) (name : CStr) (i : NsItem) :
    h.Holds s (i.push name) ↔ ∃ r, h.child s name = some r ∧ h.Holds r i := by
  obtain ⟨p, k, _ | v⟩ := i
  · change (h.walk s (name :: (p ++ [k]))).isSome ↔ ∃ r, _ ∧ (h.walk r (p ++ [k])).isSome
    rw [Heap.walk]
    cases h.child s name with
    | none => simp
    | some r => simp
  · change ((h.walk s (name :: p)).bind fun r ↦ h.value r k) = some v ↔
      ∃ r, _ ∧ ((h.walk r p).bind fun r ↦ h.value r k) = some v
    rw [Heap.walk]
    cases h.child s name with
    | none => simp
    | some r => simp

section Branch

variable {h : Heap} {d : Nat} {s : Ref}

theorem Heap.Branch.nss (hs : h.Branch (d + 1) s) :
    NsList (h.nss s) ∧ ∀ ns ∈ h.nss s, h.Branch d ns.sdb := by
  obtain ⟨node, hnode, -, hlist, hsub⟩ := hs
  rw [Heap.nss, hnode]
  exact ⟨hlist, hsub⟩

theorem Heap.Branch.child_eq_some (hs : h.Branch (d + 1) s) {ns : SdbNs} (hns : ns ∈ h.nss s) :
    h.child s ns.name = some ns.sdb := by
  rw [Heap.child_eq, hs.nss.1.names.lookup_eq_some_iff.mpr ⟨hns, rfl⟩]
  rfl

theorem Heap.Branch.mem_pairs (hs : h.Branch (d + 1) s) {k v : CStr} :
    (k, v) ∈ h.pairs s ↔ h.value s k = some v := by
  obtain ⟨node, hnode, hm, -⟩ := hs
  rw [Heap.pairs, hnode, Heap.value, hnode]
  exact hm.mem_pairs

theorem Heap.Branch.nodup_pairs (hs : h.Branch (d + 1) s) : ((h.pairs s).map Prod.fst).Nodup := by
  obtain ⟨node, hnode, hm, -⟩ := hs
  rw [Heap.pairs, hnode]
  exact hm.nodup_pairs

/-- A deeper bound is a bound. -/
theorem Heap.Branch.succ (hs : h.Branch d s) : h.Branch (d + 1) s := by
  induction d generalizing s with
  | zero => exact hs.elim
  | succ d ih =>
      obtain ⟨node, hnode, hm, hlist, hsub⟩ := hs
      exact ⟨node, hnode, hm, hlist, fun ns hns ↦ ih (hsub ns hns)⟩

theorem Heap.Branch.le (hs : h.Branch d s) {d' : Nat} (hle : d ≤ d') : h.Branch d' s := by
  induction hle with
  | refl => exact hs
  | step _ ih => exact ih.succ

/-- What a walk ends at is a tree again. -/
theorem Heap.Branch.walk (hs : h.Branch d s) {p : List CStr} {r : Ref} (hr : h.walk s p = some r) :
    ∃ d', h.Branch (d' + 1) r := by
  induction p generalizing d s with
  | nil =>
      obtain rfl := Option.some.inj hr
      exact ⟨d, hs.succ⟩
  | cons name p ih =>
      obtain ⟨r', hr', hw⟩ := Option.bind_eq_some_iff.mp hr
      obtain ⟨ns, hns, -, rfl⟩ := Heap.mem_of_child hr'
      exact ih (hs.succ.nss.2 ns hns) hw

end Branch

/-! ## The contents of a tree in order -/

/-- Namespaces with what is below them, and then the pairs, as `diff.c` goes through a tree. -/
def Heap.contents (h : Heap) : Nat → Ref → List NsItem
  | 0, _ => []
  | d + 1, s =>
      ((h.nss s).flatMap fun ns ↦
        ⟨[], ns.name, none⟩ :: (h.contents d ns.sdb).map (NsItem.push ns.name)) ++
      (h.pairs s).map fun p ↦ ⟨[], p.1, some p.2⟩

/-- A namespace with what is below it. -/
def Heap.nsContents (h : Heap) (d : Nat) (ns : SdbNs) : List NsItem :=
  ⟨[], ns.name, none⟩ :: (h.contents d ns.sdb).map (NsItem.push ns.name)

theorem Heap.contents_succ (h : Heap) (d : Nat) (s : Ref) :
    h.contents (d + 1) s = (h.nss s).flatMap (h.nsContents d) ++
      (h.pairs s).map fun p ↦ ⟨[], p.1, some p.2⟩ := rfl

/-- Where an item of a tree stands: it is a namespace of the root, below one, or a pair. -/
theorem NsItem.cases (i : NsItem) :
    (∃ name, i = ⟨[], name, none⟩) ∨ (∃ name i', i = NsItem.push name i') ∨
      ∃ k v, i = ⟨[], k, some v⟩ := by
  obtain ⟨_ | ⟨name, p⟩, k, _ | v⟩ := i
  · exact .inl ⟨k, rfl⟩
  · exact .inr (.inr ⟨k, v, rfl⟩)
  · exact .inr (.inl ⟨name, ⟨p, k, none⟩, rfl⟩)
  · exact .inr (.inl ⟨name, ⟨p, k, some v⟩, rfl⟩)

/-- The name of the namespace that an item is, or is below. -/
def NsItem.head (i : NsItem) : Option CStr :=
  match i.path, i.v with
  | [], none => some i.k
  | [], some _ => none
  | name :: _, _ => some name

theorem head_of_mem_nsContents {h : Heap} {d : Nat} {ns : SdbNs} {i : NsItem}
    (hi : i ∈ h.nsContents d ns) : i.head = some ns.name := by
  rcases List.mem_cons.mp hi with rfl | hi
  · rfl
  · obtain ⟨i', -, rfl⟩ := List.mem_map.mp hi
    rfl

theorem mem_nsContents {h : Heap} {d : Nat} {ns : SdbNs}
    (hmem : ∀ i, i ∈ h.contents d ns.sdb ↔ h.Holds ns.sdb i) {s : Ref}
    (hc : h.child s ns.name = some ns.sdb) (i : NsItem) :
    i ∈ h.nsContents d ns ↔ i.head = some ns.name ∧ h.Holds s i := by
  rw [Heap.nsContents, List.mem_cons, List.mem_map]
  rcases i.cases with ⟨name, rfl⟩ | ⟨name, i', rfl⟩ | ⟨k, v, rfl⟩
  · rw [h.holds_ns]
    constructor
    · rintro (heq | ⟨i', -, heq⟩)
      · obtain rfl : name = ns.name := congrArg NsItem.k heq
        rw [hc]
        exact ⟨rfl, rfl⟩
      · exact absurd (congrArg NsItem.path heq) (List.cons_ne_nil _ _)
    · rintro ⟨hname, -⟩
      obtain rfl := Option.some.inj hname
      exact .inl rfl
  · rw [h.holds_push]
    constructor
    · rintro (heq | ⟨i'', hi, heq⟩)
      · exact absurd (congrArg NsItem.path heq) (List.cons_ne_nil _ _)
      · obtain rfl : ns.name = name := (List.cons.inj (congrArg NsItem.path heq)).1
        obtain rfl := NsItem.push_injective _ heq
        exact ⟨rfl, ns.sdb, hc, (hmem _).mp hi⟩
    · rintro ⟨hname, r, hr, hi⟩
      obtain rfl := Option.some.inj hname
      obtain rfl := Option.some.inj (hc.symm.trans hr)
      exact .inr ⟨i', (hmem _).mpr hi, rfl⟩
  · constructor
    · rintro (heq | ⟨i', -, heq⟩)
      · exact nomatch congrArg NsItem.v heq
      · exact absurd (congrArg NsItem.path heq) (List.cons_ne_nil _ _)
    · rintro ⟨hname, -⟩
      cases hname

/-- An item of a tree that has a head is found among the namespaces. -/
theorem Heap.Branch.exists_ns {h : Heap} {s : Ref} {i : NsItem} {name : CStr}
    (hi : i.head = some name) (hh : h.Holds s i) : ∃ ns ∈ h.nss s, ns.name = name := by
  have hchild : (h.child s name).isSome := by
    rcases i.cases with ⟨name', rfl⟩ | ⟨name', i', rfl⟩ | ⟨k, v, rfl⟩
    · obtain rfl := Option.some.inj hi
      exact (h.holds_ns s name').mp hh
    · obtain rfl := Option.some.inj hi
      obtain ⟨r, hr, -⟩ := (h.holds_push s name' i').mp hh
      rw [hr]
      rfl
    · cases hi
  obtain ⟨r, hr⟩ := Option.isSome_iff_exists.mp hchild
  obtain ⟨ns, hns, hname, -⟩ := Heap.mem_of_child hr
  exact ⟨ns, hns, hname⟩

theorem Heap.Branch.mem_contents {h : Heap} {d : Nat} {s : Ref} (hs : h.Branch d s) (i : NsItem) :
    i ∈ h.contents d s ↔ h.Holds s i := by
  induction d generalizing s i with
  | zero => exact hs.elim
  | succ d ih =>
      have hns : ∀ ns ∈ h.nss s, ∀ i, i ∈ h.nsContents d ns ↔ i.head = some ns.name ∧ h.Holds s i :=
        fun ns hns ↦ mem_nsContents (fun i ↦ ih (hs.nss.2 ns hns) i) (hs.child_eq_some hns)
      rw [h.contents_succ, List.mem_append, List.mem_flatMap, List.mem_map]
      constructor
      · rintro (⟨ns, hmem, hi⟩ | ⟨⟨k, v⟩, hp, rfl⟩)
        · exact ((hns ns hmem i).mp hi).2
        · exact hs.mem_pairs.mp hp
      · intro hh
        cases hhead : i.head with
        | some name =>
            obtain ⟨ns, hmem, rfl⟩ := Heap.Branch.exists_ns hhead hh
            exact .inl ⟨ns, hmem, (hns ns hmem i).mpr ⟨hhead, hh⟩⟩
        | none =>
            rcases i.cases with ⟨name, rfl⟩ | ⟨name, i', rfl⟩ | ⟨k, v, rfl⟩
            · cases hhead
            · cases hhead
            · exact .inr ⟨(k, v), hs.mem_pairs.mpr hh, rfl⟩

theorem nodup_nsContents {h : Heap} {d : Nat} {ns : SdbNs} (hn : (h.contents d ns.sdb).Nodup) :
    (h.nsContents d ns).Nodup := by
  rw [Heap.nsContents, List.nodup_cons]
  refine ⟨fun hmem ↦ ?_, hn.map (NsItem.push_injective _)⟩
  obtain ⟨i, -, heq⟩ := List.mem_map.mp hmem
  exact absurd (congrArg NsItem.path heq) (List.cons_ne_nil _ _)

theorem NsList.nodup_heads {l : List SdbNs} (hl : NsList l) :
    (l.map fun ns ↦ some ns.name).Nodup := by
  have hmap : (l.map fun ns ↦ some ns.name) = (l.map SdbNs.name).map some := by
    rw [List.map_map]
    rfl
  rw [hmap]
  exact List.Nodup.map (Option.some_injective _) hl.names

theorem Heap.Branch.nodup_contents {h : Heap} {d : Nat} {s : Ref} (hs : h.Branch d s) :
    (h.contents d s).Nodup := by
  induction d generalizing s with
  | zero => exact hs.elim
  | succ d ih =>
      rw [h.contents_succ]
      refine List.Nodup.append ?_ ?_ ?_
      · exact Keyed.nodup_flatMap_of_key hs.nss.1.nodup_heads
          (fun ns hns ↦ nodup_nsContents (ih (hs.nss.2 ns hns))) NsItem.head
          fun ns _ i hi ↦ head_of_mem_nsContents hi
      · refine (List.Nodup.of_map Prod.fst hs.nodup_pairs).map ?_
        rintro ⟨k, v⟩ ⟨k', v'⟩ heq
        simpa using heq
      · intro i hi hi'
        obtain ⟨ns, -, hi⟩ := List.mem_flatMap.mp hi
        obtain ⟨p, -, rfl⟩ := List.mem_map.mp hi'
        exact nomatch head_of_mem_nsContents hi

end SdbStore
