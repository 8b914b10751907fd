import SdbStore.Lib.Simulation
import SdbStore.NsTree

/-!
# Namespaces as a map from names to databases

The four operations on the namespaces of one database, compared with the operations on a map
from names to databases.  `sdb_ns` and `sdb_ns_set` take a namespace for the one with a name
when the hashes of the two names are the same, and after `sdb_ns_reset` there is no list that
a new namespace could be appended to; apart from that the namespaces are the map.
-/

namespace SdbStore

open Lib

/-! ## The operations -/

/-- A name that is not empty. -/
abbrev NsName := { name : CStr // name ≠ CStr.empty }

/-- The operations on the namespaces of a database. -/
inductive NsOp where
  | ns (name : NsName) (create : Bool)
  | set (name : NsName) (r : Ref)
  | unset (name : NsName)
  | reset

/-- What an operation returns. -/
inductive NsResult where
  | sdb (r : Option Ref)
  | ret (ok : Bool)
  | void
deriving DecidableEq

/-- An operation on the namespaces of `s`. -/
def nsCall (s : Ref) (h : Heap) : NsOp → NsResult × Heap
  | .ns name create => let r := sdbNs h s name create; (.sdb r.1, r.2)
  | .set name r => let r := sdbNsSet h s name r; (.ret r.1, r.2)
  | .unset name => let r := sdbNsUnset h s name; (.ret r.1, r.2)
  | .reset => (.void, sdbNsReset h s)

/-! ## The map -/

/-- How a name got its database: it was made for the name by `sdb_ns`, or given to
`sdb_ns_set`. -/
inductive Binding where
  | made (r : Ref)
  | given (r : Ref)

/-- The database. -/
def Binding.sdb : Binding → Ref
  | .made r => r
  | .given r => r

/-- What namespaces are for: a map from names to databases.  The databases that will be made
are numbered from `next` on. -/
structure NsMap where
  next : Ref
  bound : CStr → Option Binding

/-- A name is bound, or set free. -/
def NsMap.bind (m : NsMap) (name : CStr) (b : Option Binding) : NsMap :=
  { m with bound := Function.update m.bound name b }

theorem NsMap.bound_bind (m : NsMap) (name : CStr) (b : Option Binding) :
    (m.bind name b).bound = Function.update m.bound name b := rfl

/-- An operation on the map; `fits` says for which names a database can be made. -/
def nsMapCall (fits : CStr → Bool) (m : NsMap) : NsOp → NsResult × NsMap
  | .ns name create =>
      match m.bound name with
      | some b => (.sdb (some b.sdb), m)
      | none =>
          if create && fits name then
            (.sdb (some m.next), { m.bind name (some (.made m.next)) with next := m.next + 1 })
          else (.sdb none, m)
  | .set name r =>
      if (m.bound name).map Binding.sdb = some r then (.ret false, m)
      else (.ret true, m.bind name (some (.given r)))
  | .unset name => (.ret (m.bound name).isSome, m.bind name none)
  | .reset => (.void, { m with bound := fun _ ↦ none })

/-! ## The relation between the two -/

/-- No two names have the same database among those that were made. -/
structure NsMap.Own (m : NsMap) : Prop where
  lt : ∀ name r, m.bound name = some (.made r) → r < m.next
  eq : ∀ name name' r, m.bound name = some (.made r) → m.bound name' = some (.made r) → name = name'

/-- The names of a database are bound as in the map. -/
structure NodeRep (fits : CStr → Bool) (node : SdbNode) (bound : CStr → Option Binding) : Prop where
  unlocked : node.nsLock = false
  fits : nsFits node.sdb = fits
  list : NsList node.nss
  lookup : ∀ name, (bound name).map Binding.sdb =
    (Keyed.lookup SdbNs.name node.nss name).map SdbNs.sdb

/-- The namespaces of `s` are those of the map. -/
structure NsRep (fits : CStr → Bool) (s : Ref) (h : Heap) (m : NsMap) : Prop where
  node : ∃ node, h[s]? = some node ∧ NodeRep fits node m.bound
  next : m.next = h.length
  own : m.Own

/-- A database without namespaces. -/
theorem nsRep_new {h : Heap} {s : Ref} {node : SdbNode} (hnode : h[s]? = some node)
    (hns : node.ns = some []) (hlock : node.nsLock = false) :
    NsRep (nsFits node.sdb) s h ⟨h.length, fun _ ↦ none⟩ := by
  have hnss : node.nss = [] := by
    rw [SdbNode.nss, hns]
    rfl
  refine ⟨⟨node, hnode, hlock, rfl, ?_, fun name ↦ ?_⟩, rfl, ?_, ?_⟩
  · rw [hnss]
    exact nsList_nil
  · rw [hnss]
    rfl
  · rintro k r ⟨⟩
  · rintro k l r hk ⟨⟩

section Own

variable {m : NsMap} (hm : m.Own)
include hm

/-- A name is bound to a database that was not made for it, or to none. -/
theorem NsMap.Own.bind (name : CStr) {b : Option Binding} (hb : ∀ r, b ≠ some (.made r)) :
    (m.bind name b).Own := by
  have hold : ∀ n r, (m.bind name b).bound n = some (.made r) → m.bound n = some (.made r) := by
    intro n r hn
    rw [NsMap.bound_bind] at hn
    by_cases h : n = name
    · rw [h, Function.update_self] at hn
      exact absurd hn (hb r)
    · rwa [Function.update_of_ne h] at hn
  exact ⟨fun n r hn ↦ hm.lt n r (hold n r hn),
    fun n n' r hn hn' ↦ hm.eq n n' r (hold n r hn) (hold n' r hn')⟩

/-- A name is bound to a new database. -/
theorem NsMap.Own.make (name : CStr) :
    NsMap.Own { m.bind name (some (.made m.next)) with next := m.next + 1 } := by
  have hcases : ∀ n r, (m.bind name (some (.made m.next))).bound n = some (.made r) →
      n = name ∧ r = m.next ∨ n ≠ name ∧ m.bound n = some (.made r) := by
    intro n r hn
    rw [NsMap.bound_bind] at hn
    by_cases h : n = name
    · rw [h, Function.update_self] at hn
      exact .inl ⟨h, (Binding.made.inj (Option.some.inj hn)).symm⟩
    · rw [Function.update_of_ne h] at hn
      exact .inr ⟨h, hn⟩
  constructor
  · intro n r hn
    rcases hcases n r hn with ⟨-, rfl⟩ | ⟨-, hn⟩
    · exact Nat.lt_succ_self _
    · exact Nat.lt_succ_of_lt (hm.lt n r hn)
  · intro n n' r hn hn'
    rcases hcases n r hn with ⟨rfl, rfl⟩ | ⟨-, hn⟩
    · rcases hcases n' _ hn' with ⟨rfl, -⟩ | ⟨-, hn'⟩
      · rfl
      · exact absurd (hm.lt n' _ hn') (Nat.lt_irrefl _)
    · rcases hcases n' r hn' with ⟨-, rfl⟩ | ⟨-, hn'⟩
      · exact absurd (hm.lt n _ hn) (Nat.lt_irrefl _)
      · exact hm.eq n n' r hn hn'

end Own

section Node

variable {fits : CStr → Bool} {node : SdbNode} {bound : CStr → Option Binding}
  (hr : NodeRep fits node bound) {name : CStr}
include hr

/-- What is looked up after the list has changed under one name. -/
theorem NodeRep.update {node' : SdbNode} (hlock : node'.nsLock = node.nsLock)
    (hsdb : node'.sdb = node.sdb) (hlist : NsList node'.nss) (b : Option Binding) (o : Option SdbNs)
    (hb : b.map Binding.sdb = o.map SdbNs.sdb)
    (hlookup : ∀ n, Keyed.lookup SdbNs.name node'.nss n =
      if n = name then o else Keyed.lookup SdbNs.name node.nss n) :
    NodeRep fits node' (Function.update bound name b) := by
  refine ⟨hlock.trans hr.unlocked, hsdb ▸ hr.fits, hlist, fun n ↦ ?_⟩
  rw [hlookup]
  by_cases hn : n = name
  · rw [hn, Function.update_self, if_pos rfl]
    exact hb
  · rw [Function.update_of_ne hn, if_neg hn]
    exact hr.lookup n

/-- A namespace is appended. -/
theorem NodeRep.append (hns : node.ns ≠ none)
    (hnew : ∀ ns ∈ node.nss, ns.hash ≠ sdbHash name) {b : Binding} {r : Ref} (hb : b.sdb = r) :
    NodeRep fits { node with ns := node.ns.map (· ++ [⟨name, sdbHash name, r⟩]) }
      (Function.update bound name (some b)) := by
  obtain ⟨l, hl⟩ := Option.ne_none_iff_exists'.mp hns
  have hnss : node.nss = l := by
    rw [SdbNode.nss, hl]
    rfl
  have hnss' : SdbNode.nss { node with ns := node.ns.map (· ++ [⟨name, sdbHash name, r⟩]) } =
      node.nss ++ [⟨name, sdbHash name, r⟩] := by
    rw [hnss, SdbNode.nss, hl]
    rfl
  have hnone := hr.list.lookup_of_hash_ne hnew
  refine hr.update (by rfl) (by rfl) ?_ (some b) (some ⟨name, sdbHash name, r⟩)
    (congrArg some hb) fun n ↦ ?_
  · rw [hnss']
    exact hr.list.append rfl hnew
  · rw [hnss', Keyed.lookup_append, Keyed.lookup_cons]
    by_cases hn : n = name
    · rw [hn, hnone, if_pos rfl, if_pos rfl]
      rfl
    · rw [if_neg (Ne.symm hn), if_neg hn]
      exact Option.or_none

omit hr in
/-- A list of namespaces is there if one of them is found. -/
theorem nss_map_of_getElem? {i : Nat} {ns : SdbNs} (hi : node.nss[i]? = some ns)
    (f : List SdbNs → List SdbNs) : SdbNode.nss { node with ns := node.ns.map f } = f node.nss := by
  rw [SdbNode.nss] at hi
  rw [SdbNode.nss, SdbNode.nss]
  cases hns : node.ns with
  | none =>
      rw [hns] at hi
      cases hi
  | some l => rfl

/-- A namespace gets another database. -/
theorem NodeRep.modify {i : Nat} {ns : SdbNs} (hi : node.nss[i]? = some ns) (hname : ns.name = name)
    (r : Ref) :
    NodeRep fits { node with ns := node.ns.map fun l ↦ l.modify i fun ns ↦ { ns with sdb := r } }
      (Function.update bound name (some (.given r))) := by
  have hnss := nss_map_of_getElem? hi fun l ↦ l.modify i fun ns ↦ { ns with sdb := r }
  refine hr.update (by rfl) (by rfl) ?_ (some (.given r)) (some { ns with sdb := r }) rfl fun n ↦ ?_
  · rw [hnss]
    exact hr.list.modify i r
  · rw [hnss, hr.list.names.lookup_modify hi rfl, hname]

/-- A namespace is removed. -/
theorem NodeRep.eraseIdx {i : Nat} {ns : SdbNs} (hi : node.nss[i]? = some ns)
    (hname : ns.name = name) :
    NodeRep fits { node with ns := node.ns.map fun l ↦ l.eraseIdx i }
      (Function.update bound name none) := by
  have hnss := nss_map_of_getElem? hi fun l ↦ l.eraseIdx i
  refine hr.update (by rfl) (by rfl) ?_ none none rfl fun n ↦ ?_
  · rw [hnss]
    exact hr.list.eraseIdx i
  · rw [hnss, hr.list.names.lookup_eraseIdx hi, hname]

/-- All namespaces are removed. -/
theorem NodeRep.reset : NodeRep fits { node with ns := none } fun _ ↦ none :=
  ⟨hr.unlocked, hr.fits, nsList_nil, fun _ ↦ rfl⟩

/-- A name is bound if and only if a namespace has it. -/
theorem NodeRep.bound_eq_none : bound name = none ↔ ∀ ns ∈ node.nss, ns.name ≠ name := by
  rw [← Keyed.lookup_eq_none_iff, ← Option.map_eq_none_iff, hr.lookup, Option.map_eq_none_iff]

end Node

/-! ## The operations agree -/

/-- The condition under which an operation does what it is for: its name has the hash of no
other name, and there is a list for a new namespace. -/
def NsSafe (fits : CStr → Bool) (s : Ref) (h : Heap) : NsOp → Prop
  | .ns name create =>
      NoCollision h s name ∧ (create = true → fits name = true → h[s]?.bind SdbNode.ns ≠ none)
  | .set name _ => NoCollision h s name ∧ h[s]?.bind SdbNode.ns ≠ none
  | .unset _ => True
  | .reset => True

instance (fits : CStr → Bool) (s : Ref) (h : Heap) : DecidablePred (NsSafe fits s h)
  | .ns name create => inferInstanceAs (Decidable (NoCollision h s name ∧
      (create = true → fits name = true → h[s]?.bind SdbNode.ns ≠ none)))
  | .set name _ => inferInstanceAs (Decidable (NoCollision h s name ∧ h[s]?.bind SdbNode.ns ≠ none))
  | .unset _ => inferInstanceAs (Decidable True)
  | .reset => inferInstanceAs (Decidable True)

section Calls

variable {fits : CStr → Bool} {s : Ref} {h : Heap} {m : NsMap} (hr : NsRep fits s h m)
include hr

/-- `sdb_ns`. -/
theorem NsRep.ns (name : NsName) (create : Bool) (hsafe : NsSafe fits s h (.ns name create)) :
    (nsCall s h (.ns name create)).1 = (nsMapCall fits m (.ns name create)).1 ∧
      NsRep fits s (nsCall s h (.ns name create)).2 (nsMapCall fits m (.ns name create)).2 := by
  obtain ⟨node, hnode, hrep⟩ := hr.node
  obtain ⟨hcol, hlist⟩ := hsafe
  have hnss : h.nss s = node.nss := by rw [Heap.nss, hnode]
  rw [NoCollision, hnss] at hcol
  rw [hnode, Option.bind_some] at hlist
  have hlookup := hrep.lookup name
  have hfind := hrep.list.find?_hash hcol
  rw [nsCall, nsMapCall]
  unfold sdbNs
  rw [hnode]
  dsimp only
  rw [if_neg name.2, hfind]
  cases hns : Keyed.lookup SdbNs.name node.nss name with
  | some ns =>
      rw [hns] at hlookup
      obtain ⟨b, hb, hbs⟩ := Option.map_eq_some_iff.mp hlookup
      rw [hb]
      dsimp only
      exact ⟨by rw [hbs], hr⟩
  | none =>
      rw [hns] at hlookup
      have hfree : m.bound name = none := Option.map_eq_none_iff.mp hlookup
      have hnew : ∀ ns ∈ node.nss, ns.hash ≠ sdbHash name := by
        intro ns hmem hhash
        exact hrep.bound_eq_none.mp hfree ns hmem (hcol ns hmem hhash)
      rw [hfree]
      dsimp only
      cases create with
      | false => exact ⟨rfl, hr⟩
      | true =>
          rw [if_neg (by decide), if_neg (by rw [hrep.unlocked]; decide), sdbNsNew, hrep.fits,
            Bool.true_and]
          cases hfits : fits name with
          | false => exact ⟨rfl, hr⟩
          | true =>
              have hs : s < h.length := (List.getElem?_eq_some_iff.mp hnode).1
              rw [if_pos rfl, if_pos rfl]
              dsimp only
              refine ⟨by rw [hr.next], ⟨⟨_, ?_, hrep.append (hlist rfl hfits) hnew hr.next⟩, ?_,
                hr.own.make name⟩⟩
              · rw [getElem?_lsAppendNs hs, if_pos rfl, hnode]
                rfl
              · rw [lsAppendNs, List.length_modify, List.length_append, hr.next]
                rfl

/-- `sdb_ns_set`. -/
theorem NsRep.set (name : NsName) (r : Ref) (hsafe : NsSafe fits s h (.set name r)) :
    (nsCall s h (.set name r)).1 = (nsMapCall fits m (.set name r)).1 ∧
      NsRep fits s (nsCall s h (.set name r)).2 (nsMapCall fits m (.set name r)).2 := by
  obtain ⟨node, hnode, hrep⟩ := hr.node
  obtain ⟨hcol, hlist⟩ := hsafe
  have hs : s < h.length := (List.getElem?_eq_some_iff.mp hnode).1
  have hnss : h.nss s = node.nss := by rw [Heap.nss, hnode]
  rw [NoCollision, hnss] at hcol
  rw [hnode, Option.bind_some] at hlist
  have hlookup := hrep.lookup name
  rw [nsCall, nsMapCall]
  unfold sdbNsSet
  rw [hnode]
  dsimp only
  cases hidx : node.nss.findIdx? (·.hash = sdbHash name) with
  | some i =>
      obtain ⟨ns, hi, hname⟩ := hrep.list.findIdx?_hash hcol hidx
      have hns : Keyed.lookup SdbNs.name node.nss name = some ns :=
        hrep.list.names.lookup_eq_some_iff.mpr ⟨List.mem_of_getElem? hi, hname⟩
      rw [hns] at hlookup
      dsimp only
      rw [List.getElem?_map, hi, hlookup]
      split
      · exact ⟨rfl, hr⟩
      · refine ⟨rfl, ⟨⟨_, List.getElem?_set_self hs, hrep.modify hi hname r⟩, ?_, ?_⟩⟩
        · rw [List.length_set]
          exact hr.next
        · exact hr.own.bind name (by simp)
  | none =>
      have hnew : ∀ ns ∈ node.nss, ns.hash ≠ sdbHash name := by
        intro ns hmem
        simpa using List.findIdx?_eq_none_iff.mp hidx ns hmem
      have hfree : m.bound name = none := by
        rw [hrep.bound_eq_none]
        intro ns hmem hname
        exact hnew ns hmem (hname ▸ hrep.list.hash ns hmem)
      dsimp only
      rw [hrep.unlocked, hfree, if_neg (by decide), if_neg (by simp)]
      refine ⟨rfl, ⟨⟨_, ?_, hrep.append hlist hnew rfl⟩, ?_, hr.own.bind name (by simp)⟩⟩
      · rw [lsAppendNs, List.getElem?_modify_eq, hnode]
        rfl
      · rw [lsAppendNs, List.length_modify]
        exact hr.next

/-- `sdb_ns_unset`. -/
theorem NsRep.unset (name : NsName) :
    (nsCall s h (.unset name)).1 = (nsMapCall fits m (.unset name)).1 ∧
      NsRep fits s (nsCall s h (.unset name)).2 (nsMapCall fits m (.unset name)).2 := by
  obtain ⟨node, hnode, hrep⟩ := hr.node
  have hs : s < h.length := (List.getElem?_eq_some_iff.mp hnode).1
  rw [nsCall, nsMapCall]
  unfold sdbNsUnset
  rw [hnode]
  dsimp only
  cases hidx : node.nss.findIdx? (·.name = name.1) with
  | some i =>
      obtain ⟨hlt, hp, -⟩ := List.findIdx?_eq_some_iff_getElem.mp hidx
      have hi := List.getElem?_eq_getElem hlt
      have hname : (node.nss[i]).name = name := by simpa using hp
      have hbound : m.bound name ≠ none := by
        intro hfree
        exact hrep.bound_eq_none.mp hfree _ (List.getElem_mem hlt) hname
      refine ⟨?_, ⟨⟨_, List.getElem?_set_self hs, hrep.eraseIdx hi hname⟩, ?_, ?_⟩⟩
      · rw [Option.isSome_iff_ne_none.mpr hbound]
      · rw [List.length_set]
        exact hr.next
      · exact hr.own.bind name nofun
  | none =>
      have hfree : m.bound name = none := by
        rw [hrep.bound_eq_none]
        intro ns hmem
        simpa using List.findIdx?_eq_none_iff.mp hidx ns hmem
      have hsame : m.bind name none = m := by
        rw [NsMap.bind, ← hfree, Function.update_eq_self]
      rw [hsame, hfree]
      exact ⟨rfl, hr⟩

/-- `sdb_ns_reset`. -/
theorem NsRep.reset : NsRep fits s (sdbNsReset h s) { m with bound := fun _ ↦ none } := by
  obtain ⟨node, hnode, hrep⟩ := hr.node
  refine ⟨⟨_, ?_, hrep.reset⟩, ?_, nofun, nofun⟩
  · rw [sdbNsReset, List.getElem?_modify_eq, hnode]
    rfl
  · rw [sdbNsReset, List.length_modify]
    exact hr.next

end Calls

theorem simulates_nsCall (fits : CStr → Bool) (s : Ref) :
    Simulates (NsRep fits s) (fun h _ op ↦ NsSafe fits s h op) (nsCall s) (nsMapCall fits) := by
  intro h m op hr hsafe
  cases op with
  | ns name create => exact hr.ns name create hsafe
  | set name r => exact hr.set name r hsafe
  | unset name => exact hr.unset name
  | reset => exact ⟨rfl, hr.reset⟩

/-! ## Runs -/

/-- A name that is bound collides with no other. -/
theorem NsRep.sdbNs_bound {fits : CStr → Bool} {s : Ref} {h : Heap} {m : NsMap}
    (hr : NsRep fits s h m) {name : NsName} {b : Binding} (hb : m.bound name = some b) :
    (sdbNs h s name false).1 = some b.sdb := by
  obtain ⟨node, hnode, hrep⟩ := hr.node
  have hlookup := hrep.lookup name
  rw [hb, Option.map_some] at hlookup
  obtain ⟨ns, hns, -⟩ := Option.map_eq_some_iff.mp hlookup.symm
  obtain ⟨hmem, hname⟩ := Keyed.lookup_some_mem hns
  have hcol : NoCollision h s name := by
    rw [NoCollision, Heap.nss, hnode]
    intro ns' hmem' hhash
    have heq : ns' = ns := by
      apply hrep.list.distinct.eq_of_key_eq hmem' hmem
      rw [hhash, hrep.list.hash ns hmem, hname]
    rw [heq, hname]
  have hcall := (hr.ns name false ⟨hcol, (absurd · Bool.false_ne_true)⟩).1
  rw [nsCall, nsMapCall, hb] at hcall
  exact NsResult.sdb.inj hcall

/-- A write leaves the other databases alone. -/
theorem getElem?_heapSet_ne (h : Heap) (w : World) {r r' : Ref} (hne : r ≠ r') (key val : CStr)
    (cas : Nat) : (heapSet h w r key val cas).1[r']? = h[r']? := by
  unfold heapSet
  split
  · rfl
  · exact List.getElem?_set_ne hne

/-- The namespaces of `s` are the map in the whole run: they answer as the map does, `sdb_ns`
finds what a name is bound to, and two names never have the same one of the databases that
were made for them, so that a write under one is not seen under the other. -/
structure NsRefines (fits : CStr → Bool) (s : Ref) (h : Heap) (m : NsMap) (ops : List NsOp) :
    Prop where
  results : (runOps (nsCall s) h ops).1 = (runOps (nsMapCall fits) m ops).1
  bound : ∀ n (name : NsName) b, (stateAfter (nsMapCall fits) m ops n).bound name = some b →
    (sdbNs (stateAfter (nsCall s) h ops n) s name false).1 = some b.sdb
  own : ∀ n (name name' : NsName) r r', name ≠ name' →
    (stateAfter (nsMapCall fits) m ops n).bound name = some (.made r) →
    (stateAfter (nsMapCall fits) m ops n).bound name' = some (.made r') →
    r ≠ r' ∧ ∀ w key val cas, (heapSet (stateAfter (nsCall s) h ops n) w r key val cas).1[r']? =
      (stateAfter (nsCall s) h ops n)[r']?

/-- **Namespaces refine a map** from names to databases, in every run in which no name collides
with one that is bound, and in which no name is bound after a reset. -/
theorem nsRefines {fits : CStr → Bool} {s : Ref} {h : Heap} {m : NsMap} (hr : NsRep fits s h m)
    {ops : List NsOp}
    (hsafe : ∀ n op, ops[n]? = some op → NsSafe fits s (stateAfter (nsCall s) h ops n) op) :
    NsRefines fits s h m ops := by
  obtain ⟨hres, hrep⟩ := (simulates_nsCall fits s).run hr hsafe
  refine ⟨hres, fun n name b hb ↦ (hrep n).sdbNs_bound hb, fun n name name' r r' hne hb hb' ↦ ?_⟩
  have hrr : r ≠ r' := by
    rintro rfl
    exact hne (Subtype.ext ((hrep n).own.eq name name' r hb hb'))
  exact ⟨hrr, fun w key val cas ↦ getElem?_heapSet_ne _ w hrr key val cas⟩

/-- The names `a` and `b`: one is made, the other gets the same database, and the first one is
removed. -/
theorem nsRefines_ab :
    let a : NsName := ⟨CStr.ofBytes [97], by decide⟩
    let b : NsName := ⟨CStr.ofBytes [98], by decide⟩
    let ops := [.ns a true, .set b 1, .unset a, .ns b false, .ns a false]
    (NsRep (nsFits sdbNew0) 0 [sdbNode0] ⟨1, fun _ ↦ none⟩ ∧ ∀ n op, ops[n]? = some op →
        NsSafe (nsFits sdbNew0) 0 (stateAfter (nsCall 0) [sdbNode0] ops n) op) ∧
      NsRefines (nsFits sdbNew0) 0 [sdbNode0] ⟨1, fun _ ↦ none⟩ ops := by
  intro a b ops
  have hr : NsRep (nsFits sdbNew0) 0 [sdbNode0] ⟨1, fun _ ↦ none⟩ :=
    nsRep_new (s := 0) (h := [sdbNode0]) rfl rfl rfl
  have hsafe : ∀ n op, ops[n]? = some op →
      NsSafe (nsFits sdbNew0) 0 (stateAfter (nsCall 0) [sdbNode0] ops n) op := by
    intro n op hop
    rcases n with _ | _ | _ | _ | _ | n
    pick_goal 6
    · cases hop
    all_goals
      obtain rfl := Option.some.inj hop
      decide
  exact ⟨⟨hr, hsafe⟩, nsRefines hr hsafe⟩

/-- After a reset the database that is made for `a` is not found again.  The names `bC` and
`cb` have the same hash, and the database that is made for one is found under the other. -/
theorem not_nsRefines :
    let a : NsName := ⟨CStr.ofBytes [97], by decide⟩
    let bC : NsName := ⟨CStr.ofBytes [98, 67], by decide⟩
    let cb : NsName := ⟨CStr.ofBytes [99, 98], by decide⟩
    NsRep (nsFits sdbNew0) 0 [sdbNode0] ⟨1, fun _ ↦ none⟩ ∧
      ¬ NsRefines (nsFits sdbNew0) 0 [sdbNode0] ⟨1, fun _ ↦ none⟩
        [.reset, .ns a true, .ns a false] ∧
      ¬ NsRefines (nsFits sdbNew0) 0 [sdbNode0] ⟨1, fun _ ↦ none⟩ [.ns bC true, .ns cb false] := by
  intro a bC cb
  refine ⟨nsRep_new (s := 0) (h := [sdbNode0]) rfl rfl rfl, fun hr ↦ ?_, fun hr ↦ ?_⟩
  · exact absurd hr.results (by decide)
  · exact absurd hr.results (by decide)

end SdbStore
