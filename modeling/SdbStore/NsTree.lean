import SdbStore.Foreach
import SdbStore.TextLoad

/-!
# Trees of databases

Databases that are made by `sdb_ns` from one root, and written with `sdb_set`, form a tree
as long as no two names in one place have the same hash.  A database of the tree is known by
the names that lead to it from the root: `Heap.walk`.  `NsTree` holds in every such heap, and
under it a new namespace changes the walks along one path only, and a write the values in
one place.
-/

namespace SdbStore

open Lib

/-! ## Plain databases -/

/-- A pair that `sdb_set` stores and that is not a deletion. -/
structure Storable (key val : CStr) : Prop where
  key_ne : key ≠ CStr.empty
  val_ne : val ≠ CStr.empty
  key_lt : key.length < 0xff
  val_lt : val.length < 0xffffff

/-- A database in memory, with no lock and no journal, and with a value for every entry. -/
structure SdbNode.Plain (node : SdbNode) : Prop where
  sound : node.sdb.Sound
  bare : node.sdb.Bare
  unmapped : node.sdb.db.map = none
  journal : node.sdb.journal = none
  dir : node.sdb.dir = none
  unlocked : node.nsLock = false
  entries : ∀ k kv, sdbHtFindKvp node.sdb k = some kv → ∃ v, kv.value = some v ∧ Storable k v

/-- The value of a key in memory. -/
def SdbNode.get (node : SdbNode) (k : CStr) : Option CStr :=
  (sdbHtFindKvp node.sdb k).bind SdbKv.value

theorem plain_sdbNode0 (name : Option CStr) :
    SdbNode.Plain { sdbNode0 with sdb := { sdbNew0 with name := name } } where
  sound := sound_of_htNew rfl
  bare := ⟨rfl, rfl⟩
  unmapped := rfl
  journal := rfl
  dir := rfl
  unlocked := rfl
  entries k kv hk := by
    rw [sdbHtFindKvp_of_htNew rfl] at hk
    cases hk

section Plain

variable {node : SdbNode} (hp : node.Plain)
include hp

theorem SdbNode.Plain.sdbGet (w : World) (k : CStr) : sdbGet node.sdb w k = node.get k := by
  rw [sdbGet_eq hp.sound.noExpire, sdbGetDisk_bare hp.bare, SdbNode.get]
  unfold entryGet
  cases hf : sdbHtFindKvp node.sdb k with
  | none => rfl
  | some kv =>
      obtain ⟨v, hv, hst⟩ := hp.entries k kv hf
      simp only [hv, Option.bind_some]
      rw [if_neg hst.val_ne]

theorem SdbNode.Plain.storable {k v : CStr} (h : node.get k = some v) : Storable k v := by
  obtain ⟨kv, hkv, hv⟩ := Option.bind_eq_some_iff.mp h
  obtain ⟨v', hv', hst⟩ := hp.entries k kv hkv
  rw [hv] at hv'
  rwa [Option.some.inj hv']

/-- The calls of `sdb_foreach`. -/
theorem SdbNode.Plain.mem_foreachCalls {c : Call} :
    c ∈ foreachCalls node.sdb ↔ ∃ v, c.2 = some v ∧ node.get c.1 = some v := by
  rw [foreachCalls, scan_bare hp.bare hp.unmapped, List.filterMap_nil, List.nil_append,
    List.mem_filterMap]
  constructor
  · rintro ⟨kv, hkv, hcall⟩
    have hf := sdbHtFindKvp_of_mem hp.sound.wf hkv
    obtain ⟨v, hv, hst⟩ := hp.entries _ kv hf
    simp only [memCall, hv] at hcall
    rw [if_neg hst.val_ne] at hcall
    obtain rfl := Option.some.inj hcall
    exact ⟨v, rfl, by rw [SdbNode.get, hf, Option.bind_some, hv]⟩
  · rintro ⟨v, hv, hget⟩
    obtain ⟨kv, hf, hkv⟩ := Option.bind_eq_some_iff.mp hget
    obtain ⟨hmem, hkey⟩ := key_of_sdbHtFindKvp hp.sound.wf hf
    obtain ⟨v', hv', hst⟩ := hp.entries _ kv hf
    refine ⟨kv, hmem, ?_⟩
    simp only [memCall, hkv]
    rw [if_neg, hkey, ← hv]
    rw [hv'] at hkv
    rw [← Option.some.inj hkv]
    exact hst.val_ne

omit hp in
/-- What a write over a database in memory leaves under its key: what was there, or the new
value. -/
theorem setEntry_memory {e : Option SdbKv} (he : ∀ kv, e = some kv → kv.value ≠ none)
    {key val : CStr} (hval : val ≠ CStr.empty) (cas : Nat) :
    (setEntry e (-1) key val false cas).2 = e ∨
      (key.length < 0xff ∧ val.length < 0xffffff) ∧
        ∃ kv, (setEntry e (-1) key val false cas).2 = some kv ∧ kv.value = some val := by
  unfold setEntry
  by_cases hlen : key.length ≥ 0xff ∨ val.length ≥ 0xffffff
  · rw [if_pos hlen]
    exact .inl rfl
  · rw [if_neg hlen]
    have hlt : key.length < 0xff ∧ val.length < 0xffffff := by omega
    cases e with
    | none =>
        refine .inr ⟨hlt, _, rfl, ?_⟩
        simp [newEntry, hval]
    | some kv =>
        obtain ⟨old, hold⟩ := Option.ne_none_iff_exists'.mp (he kv rfl)
        simp only [hold]
        rw [if_pos (by decide)]
        split
        · exact .inl rfl
        · split
          · exact .inl rfl
          · exact .inr ⟨hlt, _, rfl, rfl⟩

/-- A write of a pair that is not empty. -/
theorem SdbNode.Plain.set (w : World) {key val : CStr} (hkey : key ≠ CStr.empty)
    (hval : val ≠ CStr.empty) (cas : Nat) :
    SdbNode.Plain { node with sdb := (sdbSet node.sdb w key val cas).2.1 } := by
  have hspec := sdbSetInternal_spec hp.sound.wf w key val false cas
  have hframe : node.sdb.Frame (sdbSet node.sdb w key val cas).2.1 := hspec.frame
  have hentry := @setEntry_memory (sdbHtFindKvp node.sdb key) (fun kv hkv ↦ by
    obtain ⟨v, hv, -⟩ := hp.entries key kv hkv
    rw [hv]
    exact nofun) key val hval cas
  refine ⟨hp.sound.setInternal w key val false cas, ⟨?_, ?_⟩, ?_, ?_, ?_, hp.unlocked, ?_⟩
  · exact hframe.fd.trans hp.bare.fd
  · exact (congrArg Cdb.fd hframe.db).trans hp.bare.dbFd
  · exact (congrArg Cdb.map hframe.db).trans hp.unmapped
  · exact hframe.journal.trans hp.journal
  · exact (congrArg Sdb.dir hframe).trans hp.dir
  · intro k kv hk
    have hfind := hspec.find k
    rw [cdbLookup_bare hp.bare] at hfind
    rw [show sdbHtFindKvp (sdbSet node.sdb w key val cas).2.1 k = _ from hfind] at hk
    split at hk
    · next hkk =>
        subst hkk
        rcases hentry with hsame | ⟨hlt, kv', hnew, hv⟩
        · exact hp.entries k kv (hsame ▸ hk)
        · obtain rfl := Option.some.inj (hnew.symm.trans hk)
          exact ⟨val, hv, hkey, hval, hlt.1, hlt.2⟩
    · exact hp.entries k kv hk

/-- A write with no counter. -/
theorem SdbNode.Plain.get_set (w : World) {key val : CStr} (hst : Storable key val) (k : CStr) :
    SdbNode.get { node with sdb := (sdbSet node.sdb w key val 0).2.1 } k =
      if k = key then some val else node.get k := by
  have hplain := hp.set w hst.key_ne hst.val_ne 0
  have hlen : ¬ (key.length ≥ 0xff ∨ val.length ≥ 0xffffff) := by
    have h₁ := hst.key_lt
    have h₂ := hst.val_lt
    omega
  have hspec := sdbSetInternal_spec hp.sound.wf w key val false 0
  have hfind := hspec.find k
  by_cases hk : k = key
  · subst hk
    rw [if_pos rfl] at hfind
    have hread : (entryGet (sdbHtFindKvp (sdbSet node.sdb w k val 0).2.1 k)
        (sdbGetDisk (sdbSet node.sdb w k val 0).2.1 k)).value = readAs val := by
      rw [show sdbHtFindKvp (sdbSet node.sdb w k val 0).2.1 k = _ from hfind,
        cdbLookup_bare hp.bare]
      exact entryGet_setEntry hlen (fun _ _ _ _ ↦ by decide) _
    rw [if_pos rfl, ← hplain.sdbGet w k, sdbGet_eq hplain.sound.noExpire, hread, readAs,
      if_neg hst.val_ne]
  · rw [if_neg hk] at hfind
    rw [if_neg hk, SdbNode.get,
      show sdbHtFindKvp (sdbSet node.sdb w key val 0).2.1 k = _ from hfind, SdbNode.get]

end Plain

/-! ## Lists of namespaces -/

/-- Every namespace has the hash of its name, and no two have the same hash. -/
structure NsList (l : List SdbNs) : Prop where
  hash : ∀ ns ∈ l, ns.hash = sdbHash ns.name
  distinct : Keyed.Distinct SdbNs.hash l

theorem nsList_nil : NsList [] := ⟨nofun, List.nodup_nil⟩

section List

variable {l : List SdbNs} (hl : NsList l)
include hl

/-- The names are distinct. -/
theorem NsList.names : Keyed.Distinct SdbNs.name l := by
  have hmap : l.map SdbNs.hash = (l.map SdbNs.name).map sdbHash := by
    rw [List.map_map]
    exact List.map_congr_left hl.hash
  have hd := hl.distinct
  rw [Keyed.Distinct, hmap] at hd
  exact List.Nodup.of_map sdbHash hd

theorem NsList.sublist {l' : List SdbNs} (hsub : l'.Sublist l) : NsList l' :=
  ⟨fun ns hns ↦ hl.hash ns (hsub.subset hns), List.Nodup.sublist (hsub.map _) hl.distinct⟩

theorem NsList.eraseIdx (i : Nat) : NsList (l.eraseIdx i) := hl.sublist (List.eraseIdx_sublist l i)

theorem NsList.append {ns : SdbNs} (hns : ns.hash = sdbHash ns.name)
    (hnew : ∀ ns' ∈ l, ns'.hash ≠ ns.hash) : NsList (l ++ [ns]) := by
  constructor
  · intro ns' hmem
    rcases List.mem_append.mp hmem with hmem | hmem
    · exact hl.hash ns' hmem
    · rw [List.mem_singleton.mp hmem]
      exact hns
  · rw [Keyed.Distinct, List.map_append, List.map_singleton]
    apply List.Nodup.append hl.distinct (List.nodup_singleton _)
    intro x hx hx'
    obtain ⟨ns', hns', rfl⟩ := List.mem_map.mp hx
    exact hnew ns' hns' (List.mem_singleton.mp hx')

/-- A name whose hash is not there has no namespace. -/
theorem NsList.lookup_of_hash_ne {name : CStr} (hnew : ∀ ns ∈ l, ns.hash ≠ sdbHash name) :
    Keyed.lookup SdbNs.name l name = none := by
  rw [Keyed.lookup_eq_none_iff]
  rintro ns hmem rfl
  exact hnew ns hmem (hl.hash ns hmem)

/-- A namespace gets another database. -/
theorem NsList.modify (i : Nat) (r : Ref) : NsList (l.modify i fun ns ↦ { ns with sdb := r }) := by
  have hget : ∀ j, (l.modify i fun ns ↦ { ns with sdb := r })[j]? =
      l[j]?.map fun ns : SdbNs ↦ { ns with sdb := if i = j then r else ns.sdb } := by
    intro j
    rw [List.getElem?_modify]
    congr 1
    funext ns
    split
    · rfl
    · rfl
  constructor
  · intro ns hns
    obtain ⟨j, hj⟩ := List.mem_iff_getElem?.mp hns
    rw [hget] at hj
    obtain ⟨ns', hns', rfl⟩ := Option.map_eq_some_iff.mp hj
    exact hl.hash ns' (List.mem_of_getElem? hns')
  · have hmap : (l.modify i fun ns ↦ { ns with sdb := r }).map SdbNs.hash = l.map SdbNs.hash := by
      apply List.ext_getElem?
      intro j
      rw [List.getElem?_map, hget, Option.map_map, List.getElem?_map]
      rfl
    rw [Keyed.Distinct, hmap]
    exact hl.distinct

variable {name : CStr} (hcol : ∀ ns ∈ l, ns.hash = sdbHash name → ns.name = name)
include hcol

/-- A namespace is found by the hash as it is by the name. -/
theorem NsList.hash_iff {ns : SdbNs} (hns : ns ∈ l) : ns.hash = sdbHash name ↔ ns.name = name := by
  constructor
  · exact hcol ns hns
  · rintro rfl
    exact hl.hash ns hns

theorem NsList.find?_hash : l.find? (·.hash = sdbHash name) = Keyed.lookup SdbNs.name l name := by
  cases hfind : l.find? (·.hash = sdbHash name) with
  | none =>
      symm
      rw [Keyed.lookup_eq_none_iff]
      intro ns hns hname
      have hno := List.find?_eq_none.mp hfind ns hns
      exact hno (by simpa using (hl.hash_iff hcol hns).mpr hname)
  | some ns =>
      have hns := List.mem_of_find?_eq_some hfind
      symm
      rw [hl.names.lookup_eq_some_iff]
      exact ⟨hns, (hl.hash_iff hcol hns).mp (by simpa using List.find?_some hfind)⟩

theorem NsList.findIdx?_hash {i : Nat} (hi : l.findIdx? (·.hash = sdbHash name) = some i) :
    ∃ ns, l[i]? = some ns ∧ ns.name = name := by
  obtain ⟨hlt, hp, -⟩ := List.findIdx?_eq_some_iff_getElem.mp hi
  refine ⟨l[i], List.getElem?_eq_getElem hlt, ?_⟩
  exact (hl.hash_iff hcol (List.getElem_mem hlt)).mp (by simpa using hp)

end List

/-! ## Walks -/

/-- The namespace with a name. -/
def Heap.child (h : Heap) (s : Ref) (name : CStr) : Option Ref :=
  ((h.nss s).find? (·.name = name)).map SdbNs.sdb

/-- The database that names lead to. -/
def Heap.walk (h : Heap) : Ref → List CStr → Option Ref
  | s, [] => some s
  | s, name :: path => (h.child s name).bind fun r ↦ h.walk r path

/-- The value of a key in a database. -/
def Heap.get (h : Heap) (s : Ref) (k : CStr) : Option CStr := h[s]?.bind fun node ↦ node.get k

theorem Heap.child_eq (h : Heap) (s : Ref) (name : CStr) :
    h.child s name = (Keyed.lookup SdbNs.name (h.nss s) name).map SdbNs.sdb := rfl

theorem Heap.walk_append (h : Heap) (s : Ref) (p q : List CStr) :
    h.walk s (p ++ q) = (h.walk s p).bind fun r ↦ h.walk r q := by
  induction p generalizing s with
  | nil => rfl
  | cons name p ih =>
      rw [List.cons_append, Heap.walk, Heap.walk, Option.bind_assoc]
      congr 1
      funext r
      exact ih r

theorem Heap.walk_singleton (h : Heap) (s : Ref) (name : CStr) :
    h.walk s [name] = h.child s name := by
  rw [Heap.walk]
  cases h.child s name with
  | none => rfl
  | some r => rfl

theorem Heap.walk_concat (h : Heap) (s : Ref) (p : List CStr) (name : CStr) :
    h.walk s (p ++ [name]) = (h.walk s p).bind fun r ↦ h.child r name := by
  rw [Heap.walk_append]
  congr 1
  funext r
  exact h.walk_singleton r name

theorem Heap.mem_of_child {h : Heap} {s r : Ref} {name : CStr} (hc : h.child s name = some r) :
    ∃ ns ∈ h.nss s, ns.name = name ∧ ns.sdb = r := by
  obtain ⟨ns, hns, rfl⟩ := Option.map_eq_some_iff.mp hc
  exact ⟨ns, List.mem_of_find?_eq_some hns, by simpa using List.find?_some hns, rfl⟩

/-- The databases form a tree below the first one. -/
structure NsTree (h : Heap) : Prop where
  plain : ∀ (s : Ref) (node : SdbNode), h[s]? = some node → node.Plain ∧ node.ns ≠ none
  root : 0 < h.length
  named : ∀ s, ∀ ns ∈ h.nss s, ns.name ≠ CStr.empty ∧ ns.hash = sdbHash ns.name
  distinct : ∀ s, ((h.nss s).map SdbNs.hash).Nodup
  down : ∀ s, ∀ ns ∈ h.nss s, s < ns.sdb ∧ ns.sdb < h.length
  parent : ∀ s s', ∀ ns ∈ h.nss s, ∀ ns' ∈ h.nss s', ns.sdb = ns'.sdb → s = s' ∧ ns.name = ns'.name

theorem nsTree_new : NsTree [sdbNode0] := by
  have hnss : ∀ s, Heap.nss [sdbNode0] s = [] := by
    intro s
    rw [Heap.nss]
    cases s with
    | zero => rfl
    | succ s => rfl
  refine ⟨fun s node hs ↦ ?_, Nat.zero_lt_one, ?_, ?_, ?_, ?_⟩
  · obtain ⟨rfl⟩ := List.mem_singleton.mp (List.mem_of_getElem? hs)
    exact ⟨plain_sdbNode0 none, by simp [sdbNode0]⟩
  all_goals
    intro s
    simp [hnss]

section Tree

variable {h : Heap} (ht : NsTree h)
include ht

theorem NsTree.list (s : Ref) : NsList (h.nss s) :=
  ⟨fun ns hns ↦ (ht.named s ns hns).2, ht.distinct s⟩

theorem NsTree.child_of_mem {s : Ref} {ns : SdbNs} (hns : ns ∈ h.nss s) :
    h.child s ns.name = some ns.sdb := by
  have hlookup := (ht.list s).names.lookup_eq_some_iff.mpr ⟨hns, rfl⟩
  rw [Heap.child_eq, hlookup]
  rfl

theorem NsTree.child_lt {s r : Ref} {name : CStr} (hc : h.child s name = some r) :
    s < r ∧ r < h.length := by
  obtain ⟨ns, hns, -, rfl⟩ := Heap.mem_of_child hc
  exact ht.down s ns hns

theorem NsTree.walk_lt {s r : Ref} {p : List CStr} (hs : s < h.length) (hw : h.walk s p = some r) :
    r < h.length := by
  induction p generalizing s with
  | nil =>
      obtain rfl := Option.some.inj hw
      exact hs
  | cons name p ih =>
      obtain ⟨r', hc, hw⟩ := Option.bind_eq_some_iff.mp hw
      exact ih (ht.child_lt hc).2 hw

/-- A database of the tree is reached along one path only. -/
theorem NsTree.walk_inj {p q : List CStr} {r : Ref} (hp : h.walk 0 p = some r)
    (hq : h.walk 0 q = some r) : p = q := by
  have hroot : ∀ p name, h.walk 0 (p ++ [name]) ≠ some 0 := by
    intro p name hw
    rw [Heap.walk_concat] at hw
    obtain ⟨s, -, hc⟩ := Option.bind_eq_some_iff.mp hw
    exact Nat.not_lt_zero _ (ht.child_lt hc).1
  induction p using List.reverseRecOn generalizing q r with
  | nil =>
      obtain rfl := Option.some.inj hp
      rcases List.eq_nil_or_concat' q with rfl | ⟨q, name, rfl⟩
      · rfl
      · exact absurd hq (hroot q name)
  | append_singleton p name ih =>
      rcases List.eq_nil_or_concat' q with rfl | ⟨q, name', rfl⟩
      · obtain rfl := Option.some.inj hq
        exact absurd hp (hroot p name)
      · rw [Heap.walk_concat] at hp hq
        obtain ⟨s, hs, hc⟩ := Option.bind_eq_some_iff.mp hp
        obtain ⟨s', hs', hc'⟩ := Option.bind_eq_some_iff.mp hq
        obtain ⟨ns, hns, rfl, hr⟩ := Heap.mem_of_child hc
        obtain ⟨ns', hns', rfl, hr'⟩ := Heap.mem_of_child hc'
        obtain ⟨rfl, hname⟩ := ht.parent s s' ns hns ns' hns' (hr.trans hr'.symm)
        rw [ih hs hs', hname]

end Tree

/-! ## New namespaces -/

/-- The heap `h'` is `h` with the database `r` as the namespace `name` of `s`, which may have
been there before. -/
structure Grown (h h' : Heap) (s : Ref) (name : CStr) (r : Ref) : Prop where
  tree : NsTree h'
  child : ∀ i m, h'.child i m = if i = s ∧ m = name then some r else h.child i m
  get : ∀ i k, h'.get i k = h.get i k
  old : ∀ r', h.child s name = some r' → r = r'
  leaf : h.child s name = none → ∀ m, h'.child r m = none
  blank : h.child s name = none → ∀ k, h.get r k = none

/-- The name is not taken for another one. -/
def NoCollision (h : Heap) (s : Ref) (name : CStr) : Prop :=
  ∀ ns ∈ h.nss s, ns.hash = sdbHash name → ns.name = name

instance (h : Heap) (s : Ref) (name : CStr) : Decidable (NoCollision h s name) :=
  inferInstanceAs (Decidable (∀ ns ∈ h.nss s, ns.hash = sdbHash name → ns.name = name))

section New

variable {h : Heap} (ht : NsTree h) {s : Ref} (hs : s < h.length) {name : CStr}
include ht hs

omit ht in
theorem getElem?_lsAppendNs (new : SdbNode) (ns : SdbNs) (i : Nat) :
    (lsAppendNs (h ++ [new]) s ns)[i]? =
      if i = s then h[s]?.map fun node ↦ { node with ns := node.ns.map (· ++ [ns]) }
      else if i = h.length then some new else h[i]? := by
  by_cases hi : i = s
  · subst hi
    rw [lsAppendNs, List.getElem?_modify_eq, if_pos rfl, List.getElem?_append_left hs]
    rfl
  · rw [lsAppendNs, List.getElem?_modify_ne _ _ (Ne.symm hi), if_neg hi]
    by_cases hlen : i = h.length
    · rw [if_pos hlen, hlen, List.getElem?_concat_length]
    · rw [if_neg hlen, List.getElem?_append]
      split
      · rfl
      · have hle : h.length + 1 ≤ i := by omega
        rw [List.getElem?_eq_none (l := h) (Nat.le_of_succ_le hle),
          List.getElem?_eq_none (Nat.le_sub_of_add_le (Nat.add_comm 1 _ ▸ hle))]

/-- The new database has no namespaces. -/
theorem nss_lsAppendNs {new : SdbNode} (hnew : new.nss = []) (ns : SdbNs) (i : Ref) :
    Heap.nss (lsAppendNs (h ++ [new]) s ns) i = if i = s then h.nss s ++ [ns] else h.nss i := by
  have hnode := List.getElem?_eq_getElem hs
  obtain ⟨l, hl⟩ := Option.ne_none_iff_exists'.mp (ht.plain s _ hnode).2
  rw [Heap.nss, getElem?_lsAppendNs hs]
  by_cases hi : i = s
  · rw [if_pos hi, if_pos hi, Heap.nss, hnode]
    simp [SdbNode.nss, hl]
  · rw [if_neg hi, if_neg hi]
    by_cases hlen : i = h.length
    · rw [if_pos hlen, hlen, Heap.nss, List.getElem?_eq_none (Nat.le_refl _)]
      exact hnew
    · rw [if_neg hlen]
      rfl

/-- The namespaces are the old ones and the new one. -/
theorem mem_nss_lsAppendNs {new : SdbNode} (hnew : new.nss = []) (ns : SdbNs) {i : Ref}
    {ns' : SdbNs} (hmem : ns' ∈ Heap.nss (lsAppendNs (h ++ [new]) s ns) i) :
    ns' ∈ h.nss i ∨ i = s ∧ ns' = ns := by
  rw [nss_lsAppendNs ht hs hnew] at hmem
  split at hmem
  · next hi =>
      rcases List.mem_append.mp hmem with hmem | hmem
      · exact .inl (hi ▸ hmem)
      · exact .inr ⟨hi, List.mem_singleton.mp hmem⟩
  · exact .inl hmem

omit ht hs in
theorem length_lsAppendNs (new : SdbNode) (ns : SdbNs) :
    (lsAppendNs (h ++ [new]) s ns).length = h.length + 1 := by
  rw [lsAppendNs, List.length_modify, List.length_append]
  rfl

omit ht in
theorem get_lsAppendNs {new : SdbNode} (hget : ∀ k, new.get k = none) (ns : SdbNs) (i : Ref)
    (k : CStr) : Heap.get (lsAppendNs (h ++ [new]) s ns) i k = h.get i k := by
  rw [Heap.get, getElem?_lsAppendNs hs, Heap.get]
  by_cases hi : i = s
  · rw [if_pos hi, hi, List.getElem?_eq_getElem hs]
    rfl
  · rw [if_neg hi]
    by_cases hlen : i = h.length
    · rw [if_pos hlen, hlen, List.getElem?_eq_none (l := h) (Nat.le_refl _), Option.bind_some, hget]
      rfl
    · rw [if_neg hlen]

section Fresh

variable {new : SdbNode} (hnew : new.Plain) (hns : new.ns = some []) (hne : name ≠ CStr.empty)
  (hnone : ∀ ns ∈ h.nss s, ns.hash ≠ sdbHash name)
include hns hnone

theorem child_lsAppendNs (i : Ref) (m : CStr) :
    Heap.child (lsAppendNs (h ++ [new]) s ⟨name, sdbHash name, h.length⟩) i m =
      if i = s ∧ m = name then some h.length else h.child i m := by
  have hbare : new.nss = [] := by
    rw [SdbNode.nss, hns]
    rfl
  rw [Heap.child_eq, nss_lsAppendNs ht hs hbare, Heap.child_eq]
  by_cases hi : i = s
  · subst hi
    rw [if_pos rfl, Keyed.lookup_append, Keyed.lookup_cons]
    by_cases hm : m = name
    · rw [hm, (ht.list _).lookup_of_hash_ne hnone, if_pos rfl, if_pos ⟨rfl, rfl⟩]
      rfl
    · rw [if_neg (Ne.symm hm), if_neg fun hc ↦ hm hc.2]
      congr 1
      exact Option.or_none
  · rw [if_neg hi, if_neg fun hc ↦ hi hc.1]

include hnew hne

/-- The tree with a new leaf is a tree. -/
theorem NsTree.lsAppendNs :
    NsTree (lsAppendNs (h ++ [new]) s ⟨name, sdbHash name, h.length⟩) := by
  have hbare : new.nss = [] := by
    rw [SdbNode.nss, hns]
    rfl
  have hnode := List.getElem?_eq_getElem hs
  have hmem : ∀ i ns, ns ∈
      Heap.nss (SdbStore.lsAppendNs (h ++ [new]) s ⟨name, sdbHash name, h.length⟩) i →
        ns ∈ h.nss i ∨ i = s ∧ ns = ⟨name, sdbHash name, h.length⟩ :=
    fun i ns ↦ mem_nss_lsAppendNs ht hs hbare _
  have hlt : ∀ i ns, ns ∈ h.nss i → ns.sdb ≠ h.length := fun i ns hns ↦ (ht.down i ns hns).2.ne
  refine ⟨fun i node hi ↦ ?_, ?_, fun i ns hns ↦ ?_, fun i ↦ ?_, fun i ns hns ↦ ?_,
    fun i i' ns hns ns' hns' heq ↦ ?_⟩
  · rw [getElem?_lsAppendNs hs] at hi
    split at hi
    · rw [hnode, Option.map_some] at hi
      obtain rfl := Option.some.inj hi
      obtain ⟨hp, hns'⟩ := ht.plain s _ hnode
      refine ⟨⟨hp.sound, hp.bare, hp.unmapped, hp.journal, hp.dir, hp.unlocked, hp.entries⟩, ?_⟩
      simpa using hns'
    · split at hi
      · obtain rfl := Option.some.inj hi
        exact ⟨hnew, by rw [hns]; exact nofun⟩
      · exact ht.plain i node hi
  · rw [length_lsAppendNs]
    exact Nat.succ_pos _
  · rcases hmem i ns hns with hns | ⟨-, rfl⟩
    · exact ht.named i ns hns
    · exact ⟨hne, rfl⟩
  · rw [nss_lsAppendNs ht hs hbare]
    split
    · exact ((ht.list s).append rfl hnone).distinct
    · exact ht.distinct i
  · rw [length_lsAppendNs]
    rcases hmem i ns hns with hns | ⟨rfl, rfl⟩
    · obtain ⟨h₁, h₂⟩ := ht.down i ns hns
      exact ⟨h₁, Nat.lt_succ_of_lt h₂⟩
    · exact ⟨hs, Nat.lt_succ_self _⟩
  · rcases hmem i ns hns with hold | ⟨hi, hnew⟩
    · rcases hmem i' ns' hns' with hold' | ⟨-, rfl⟩
      · exact ht.parent i i' ns hold ns' hold' heq
      · exact absurd heq (hlt i ns hold)
    · rcases hmem i' ns' hns' with hold' | ⟨hi', hnew'⟩
      · rw [hnew] at heq
        exact absurd heq.symm (hlt i' ns' hold')
      · exact ⟨hi.trans hi'.symm, by rw [hnew, hnew']⟩

/-- The tree with a new leaf. -/
theorem grown_new (hget : ∀ k, new.get k = none) :
    Grown h (SdbStore.lsAppendNs (h ++ [new]) s ⟨name, sdbHash name, h.length⟩) s name
      h.length := by
  have hleaf : h.child s name = none := by
    rw [Heap.child_eq, (ht.list _).lookup_of_hash_ne hnone]
    rfl
  refine ⟨ht.lsAppendNs hs hnew hns hne hnone, child_lsAppendNs ht hs hns hnone,
    get_lsAppendNs hs hget _, fun r' hr' ↦ ?_, fun _ m ↦ ?_, fun _ k ↦ ?_⟩
  · rw [hleaf] at hr'
    cases hr'
  · rw [child_lsAppendNs ht hs hns hnone, if_neg fun hc ↦ hs.ne' hc.1, Heap.child, Heap.nss,
      List.getElem?_eq_none (Nat.le_refl _)]
    rfl
  · rw [Heap.get, List.getElem?_eq_none (Nat.le_refl _)]
    rfl

end Fresh

/-- **A namespace is found or made**, if its name collides with no other. -/
theorem sdbNs_grown (hne : name ≠ CStr.empty) (hcol : NoCollision h s name) :
    ∃ r, (sdbNs h s name true).1 = some r ∧ Grown h (sdbNs h s name true).2 s name r := by
  have hnode := List.getElem?_eq_getElem hs
  have hp := (ht.plain s _ hnode).1
  have hnss : h.nss s = (h[s]).nss := by rw [Heap.nss, hnode]
  unfold sdbNs
  rw [hnode]
  dsimp only
  rw [if_neg hne, ← hnss]
  cases hfind : (h.nss s).find? (·.hash = sdbHash name) with
  | some ns =>
      have hmem := List.mem_of_find?_eq_some hfind
      obtain rfl := hcol ns hmem (by simpa using List.find?_some hfind)
      have hchild := ht.child_of_mem hmem
      dsimp only
      have hsome : h.child s ns.name ≠ none := by
        rw [hchild]
        exact nofun
      refine ⟨ns.sdb, rfl, ht, fun i m ↦ ?_, fun _ _ ↦ rfl, fun r' hr' ↦ ?_,
        fun hnone ↦ absurd hnone hsome, fun hnone ↦ absurd hnone hsome⟩
      · split
        · next hc => rw [hc.1, hc.2, hchild]
        · rfl
      · exact Option.some.inj (hchild.symm.trans hr')
  | none =>
      have hnone : ∀ ns ∈ h.nss s, ns.hash ≠ sdbHash name := by
        intro ns hns heq
        have hno := List.find?_eq_none.mp hfind ns hns
        exact hno (by simpa using heq)
      have hfits : nsFits h[s].sdb name = true := by rw [nsFits, hp.dir]
      dsimp only
      rw [if_neg (by decide), if_neg (by rw [hp.unlocked]; decide), sdbNsNew, if_pos hfits]
      exact ⟨h.length, rfl, grown_new ht hs (plain_sdbNode0 _) rfl hne hnone fun k ↦ by
        rw [SdbNode.get, sdbHtFindKvp_of_htNew rfl]
        rfl⟩

end New

/-- The walks after a namespace has been found or made. -/
theorem Grown.walk {h h' : Heap} {s r : Ref} {name : CStr} (hg : Grown h h' s name r)
    (ht : NsTree h) {p : List CStr} (hp : h.walk 0 p = some s) (q : List CStr) :
    h'.walk 0 q = if q = p ++ [name] then some r else h.walk 0 q := by
  have hhere : h.walk 0 (p ++ [name]) = h.child s name := by
    rw [Heap.walk_concat, hp, Option.bind_some]
  induction q using List.reverseRecOn with
  | nil =>
      rw [if_neg (by simp)]
      rfl
  | append_singleton q m ih =>
      rw [Heap.walk_concat, ih]
      by_cases hq : q = p ++ [name]
      · -- below the namespace nothing has changed
        have hne : q ++ [m] ≠ p ++ [name] := by
          intro heq
          have hlen := congrArg List.length heq
          rw [hq] at hlen
          simp at hlen
        rw [if_pos hq, if_neg hne, Option.bind_some, Heap.walk_concat, hq, hhere]
        cases hchild : h.child s name with
        | none => exact hg.leaf hchild m
        | some r' =>
            obtain rfl := hg.old r' hchild
            rw [Option.bind_some, hg.child, if_neg]
            exact fun hc ↦ absurd hc.1 (ht.child_lt hchild).1.ne'
      · rw [if_neg hq, Heap.walk_concat]
        cases hw : h.walk 0 q with
        | none =>
            have hne : q ++ [m] ≠ p ++ [name] := by
              intro heq
              obtain ⟨rfl, -⟩ := List.append_inj' heq rfl
              rw [hp] at hw
              cases hw
            rw [if_neg hne]
            rfl
        | some i =>
            rw [Option.bind_some, Option.bind_some, hg.child]
            have hiff : (i = s ∧ m = name) ↔ q ++ [m] = p ++ [name] := by
              constructor
              · rintro ⟨rfl, rfl⟩
                rw [ht.walk_inj hw hp]
              · intro heq
                obtain ⟨rfl, hm⟩ := List.append_inj' heq rfl
                rw [hp] at hw
                exact ⟨(Option.some.inj hw).symm, (List.cons.inj hm).1⟩
            simp only [hiff]

/-! ## Writes -/

section Set

variable {h : Heap} (ht : NsTree h) {s : Ref} (hs : s < h.length)
include hs

theorem heapSet_eq (w : World) (key val : CStr) (cas : Nat) :
    (heapSet h w s key val cas).1 =
      h.set s { h[s] with sdb := (sdbSet h[s].sdb w key val cas).2.1 } := by
  unfold heapSet
  rw [List.getElem?_eq_getElem hs]

theorem nss_heapSet (w : World) (key val : CStr) (cas : Nat) (i : Ref) :
    (heapSet h w s key val cas).1.nss i = h.nss i := by
  rw [heapSet_eq hs, Heap.nss, Heap.nss]
  by_cases hi : s = i
  · subst hi
    rw [List.getElem?_set_self hs, List.getElem?_eq_getElem hs]
    rfl
  · rw [List.getElem?_set_ne hi]

include ht

/-- A write keeps the tree. -/
theorem NsTree.heapSet (w : World) {key val : CStr} (hkey : key ≠ CStr.empty)
    (hval : val ≠ CStr.empty) (cas : Nat) : NsTree (heapSet h w s key val cas).1 := by
  have hnss := nss_heapSet hs w key val cas
  have hlen : (SdbStore.heapSet h w s key val cas).1.length = h.length := by
    rw [heapSet_eq hs, List.length_set]
  refine ⟨fun i node hi ↦ ?_, by rw [hlen]; exact ht.root, fun i ↦ ?_, fun i ↦ ?_, fun i ↦ ?_,
    fun i i' ↦ ?_⟩
  · rw [heapSet_eq hs, List.getElem?_set] at hi
    split at hi
    · obtain rfl := Option.some.inj hi
      obtain ⟨hp, hns⟩ := ht.plain s _ (List.getElem?_eq_getElem hs)
      exact ⟨hp.set w hkey hval cas, hns⟩
    · exact ht.plain i node hi
  · rw [hnss]
    exact ht.named i
  · rw [hnss]
    exact ht.distinct i
  · rw [hnss, hlen]
    exact ht.down i
  · rw [hnss, hnss]
    exact ht.parent i i'

omit ht in
theorem child_heapSet (w : World) (key val : CStr) (cas : Nat) (i : Ref) (m : CStr) :
    (SdbStore.heapSet h w s key val cas).1.child i m = h.child i m := by
  rw [Heap.child, nss_heapSet hs, Heap.child]

omit ht in
theorem walk_heapSet (w : World) (key val : CStr) (cas : Nat) (i : Ref) (q : List CStr) :
    (SdbStore.heapSet h w s key val cas).1.walk i q = h.walk i q := by
  induction q generalizing i with
  | nil => rfl
  | cons m q ih =>
      rw [Heap.walk, Heap.walk, child_heapSet hs]
      congr 1
      funext r
      exact ih r

/-- The values after a write of a storable pair. -/
theorem get_heapSet (w : World) {key val : CStr} (hst : Storable key val) (i : Ref) (k : CStr) :
    (SdbStore.heapSet h w s key val 0).1.get i k =
      if i = s ∧ k = key then some val else h.get i k := by
  have hp := (ht.plain s _ (List.getElem?_eq_getElem hs)).1
  rw [heapSet_eq hs, Heap.get, List.getElem?_set, Heap.get]
  by_cases hi : i = s
  · subst hi
    rw [if_pos rfl, if_pos hs, Option.bind_some, hp.get_set w hst, List.getElem?_eq_getElem hs,
      Option.bind_some]
    simp
  · rw [if_neg (Ne.symm hi), if_neg fun hc ↦ hi hc.1]

end Set

/-! ## Parts of a tree -/

/-- The value of a key in the database that names lead to. -/
def Heap.getAt (h : Heap) (p : List CStr) (k : CStr) : Option CStr :=
  (h.walk 0 p).bind fun s ↦ h.get s k

/-- Every namespace of `h` is in `h'`, and has the values there that it has in `h`. -/
structure Part (h h' : Heap) : Prop where
  ns : ∀ p, (h.walk 0 p).isSome → (h'.walk 0 p).isSome
  get : ∀ p k v, h.getAt p k = some v → h'.getAt p k = some v

theorem Part.refl (h : Heap) : Part h h := ⟨fun _ hp ↦ hp, fun _ _ _ hv ↦ hv⟩

theorem Part.trans {h h' h'' : Heap} (h₁ : Part h h') (h₂ : Part h' h'') : Part h h'' :=
  ⟨fun p hp ↦ h₂.ns p (h₁.ns p hp), fun p k v hv ↦ h₂.get p k v (h₁.get p k v hv)⟩

/-- An empty database is a part of every tree. -/
theorem part_new (h : Heap) : Part [sdbNode0] h := by
  refine ⟨fun p hp ↦ ?_, fun p k v hv ↦ ?_⟩
  · cases p with
    | nil => rfl
    | cons name p => cases hp
  · cases p with
    | nil =>
        have hget : sdbNode0.get k = some v := hv
        rw [SdbNode.get, sdbHtFindKvp_of_htNew rfl] at hget
        cases hget
    | cons name p => cases hv

theorem Heap.getAt_eq_some {h : Heap} {p : List CStr} {k v : CStr} :
    h.getAt p k = some v ↔ ∃ i, h.walk 0 p = some i ∧ h.get i k = some v :=
  Option.bind_eq_some_iff

section Part

variable {h t : Heap} (hh : NsTree h) (ht : NsTree t) (hpart : Part t h) {p : List CStr} {cur : Ref}
  (hcur : t.walk 0 p = some cur)
include hh ht hpart hcur

/-- A name that the whole tree has collides with none of its part. -/
theorem noCollision_of_part {name : CStr} (hname : (h.walk 0 (p ++ [name])).isSome) :
    name ≠ CStr.empty ∧ NoCollision t cur name := by
  rw [Heap.walk_concat] at hname
  obtain ⟨r, hr⟩ := Option.isSome_iff_exists.mp hname
  obtain ⟨j, hj, hchild⟩ := Option.bind_eq_some_iff.mp hr
  obtain ⟨ns, hns, rfl, -⟩ := Heap.mem_of_child hchild
  refine ⟨(hh.named j ns hns).1, fun ns' hns' hhash ↦ ?_⟩
  have hwalk : (t.walk 0 (p ++ [ns'.name])).isSome := by
    rw [Heap.walk_concat, hcur, Option.bind_some, ht.child_of_mem hns']
    rfl
  have hwalk' := hpart.ns _ hwalk
  rw [Heap.walk_concat, hj, Option.bind_some] at hwalk'
  obtain ⟨r', hr'⟩ := Option.isSome_iff_exists.mp hwalk'
  obtain ⟨ns'', hns'', hname'', -⟩ := Heap.mem_of_child hr'
  have heq : ns'' = ns := by
    apply (hh.list j).distinct.eq_of_key_eq hns'' hns
    rw [(hh.named j ns'' hns'').2, hname'', ← (ht.named cur ns' hns').2, hhash,
      (hh.named j ns hns).2]
  rw [← hname'', heq]

omit hh in
/-- A namespace of the whole tree is found or made in the part. -/
theorem Part.grown {t' : Heap} {r : Ref} {name : CStr} (hg : Grown t t' cur name r)
    (hname : (h.walk 0 (p ++ [name])).isSome) :
    t'.walk 0 (p ++ [name]) = some r ∧ Part t t' ∧ Part t' h := by
  have hwalk := hg.walk ht hcur
  have hhere : t.walk 0 (p ++ [name]) = t.child cur name := by
    rw [Heap.walk_concat, hcur, Option.bind_some]
  refine ⟨by rw [hwalk, if_pos rfl], ⟨fun q hq ↦ ?_, fun q k v hv ↦ ?_⟩,
    ⟨fun q hq ↦ ?_, fun q k v hv ↦ ?_⟩⟩
  · rw [hwalk]
    split
    · rfl
    · exact hq
  · obtain ⟨i, hi, hget⟩ := Heap.getAt_eq_some.mp hv
    refine Heap.getAt_eq_some.mpr ⟨i, ?_, (hg.get i k).trans hget⟩
    rw [hwalk]
    split
    · next hq =>
        rw [hq, hhere] at hi
        rw [hg.old i hi]
    · exact hi
  · rw [hwalk] at hq
    split at hq
    · next hq' => rw [hq']; exact hname
    · exact hpart.ns q hq
  · obtain ⟨i, hi, hget⟩ := Heap.getAt_eq_some.mp hv
    rw [hg.get] at hget
    apply hpart.get
    refine Heap.getAt_eq_some.mpr ⟨i, ?_, hget⟩
    rw [hwalk] at hi
    split at hi
    · next hq =>
        -- a new database has no values
        obtain rfl := Option.some.inj hi
        rw [hq, hhere]
        cases hchild : t.child cur name with
        | none =>
            rw [hg.blank hchild] at hget
            cases hget
        | some r' => rw [hg.old r' hchild]
    · exact hi

omit hh in
/-- A pair of the whole tree is set in the part. -/
theorem Part.heapSet (w : World) {key val : CStr} (hst : Storable key val)
    (hval : h.getAt p key = some val) :
    Part t (heapSet t w cur key val 0).1 ∧ Part (heapSet t w cur key val 0).1 h ∧
      (heapSet t w cur key val 0).1.getAt p key = some val := by
  have hlt : cur < t.length := ht.walk_lt ht.root hcur
  have hwalk := walk_heapSet hlt w key val 0 0
  have hget := get_heapSet ht hlt w hst
  refine ⟨⟨fun q hq ↦ ?_, fun q k v hv ↦ ?_⟩, ⟨fun q hq ↦ ?_, fun q k v hv ↦ ?_⟩, ?_⟩
  · rw [hwalk]
    exact hq
  · obtain ⟨i, hi, hv'⟩ := Heap.getAt_eq_some.mp hv
    refine Heap.getAt_eq_some.mpr ⟨i, (hwalk q).trans hi, ?_⟩
    rw [hget]
    split
    · next hc =>
        obtain ⟨rfl, rfl⟩ := hc
        obtain rfl := ht.walk_inj hi hcur
        exact hval.symm.trans (hpart.get q k v hv)
    · exact hv'
  · rw [hwalk] at hq
    exact hpart.ns q hq
  · obtain ⟨i, hi, hv'⟩ := Heap.getAt_eq_some.mp hv
    rw [hwalk] at hi
    rw [hget] at hv'
    split at hv'
    · next hc =>
        obtain ⟨rfl, rfl⟩ := hc
        obtain rfl := ht.walk_inj hi hcur
        rw [← hv']
        exact hval
    · exact hpart.get q k v (Heap.getAt_eq_some.mpr ⟨i, hi, hv'⟩)
  · refine Heap.getAt_eq_some.mpr ⟨cur, (hwalk p).trans hcur, ?_⟩
    rw [hget, if_pos ⟨rfl, rfl⟩]

end Part

/-! ## Built trees -/

/-- The heaps of a tree that is built from one database with `sdb_ns`, whose names do not collide,
and `sdb_set` with keys and values that are not empty. -/
inductive Built : Heap → Prop
  | new : Built [sdbNode0]
  | ns {h : Heap} (hb : Built h) (s : Ref) (name : CStr) (hcol : NoCollision h s name) :
      Built (sdbNs h s name true).2
  | set {h : Heap} (hb : Built h) (w : World) (s : Ref) (key val : CStr) (cas : Nat)
      (hkey : key ≠ CStr.empty) (hval : val ≠ CStr.empty) : Built (heapSet h w s key val cas).1

/-- **Built trees** are trees. -/
theorem Built.tree {h : Heap} (hb : Built h) : NsTree h := by
  induction hb with
  | new => exact nsTree_new
  | @ns h hb s name hcol ih =>
      by_cases hs : s < h.length
      · by_cases hne : name = CStr.empty
        · rw [sdbNs, List.getElem?_eq_getElem hs]
          dsimp only
          rw [if_pos hne]
          exact ih
        · obtain ⟨r, -, hg⟩ := sdbNs_grown ih hs hne hcol
          exact hg.tree
      · rw [sdbNs, List.getElem?_eq_none (Nat.not_lt.mp hs)]
        exact ih
  | @set h hb w s key val cas hkey hval ih =>
      by_cases hs : s < h.length
      · exact ih.heapSet hs w hkey hval cas
      · rw [heapSet, List.getElem?_eq_none (Nat.not_lt.mp hs)]
        exact ih

end SdbStore
