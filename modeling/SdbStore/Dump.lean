import SdbStore.Diff
import SdbStore.QueryLaws

/-!
# The dump of a tree

The query `***` prints the pairs of all namespaces of a database, each after the path that leads
to it.  The path is kept in one buffer of 1024 bytes, to which every level of the recursion
appends its name.  The room that is left is counted down for every name, and it is counted down
for the names of the siblings that came before as well, although these are overwritten.  Once it
is used up, names are not copied any more: the old contents of the buffer are printed in their
place, and what is below is written behind them, wherever that is.

The recursion has a bound on its depth, `fuel`; that this suffices is a result, like that nothing
is read or written outside of the buffer.
-/

namespace SdbStore

open Lib

/-- What may go wrong. -/
inductive DumpFail where
  | depth
  | outside
deriving DecidableEq

/-- `memcpy` to a place in the buffer. -/
def bufPut (buf : Bytes) (i : Nat) (src : Bytes) : Except DumpFail Bytes :=
  if i + src.length ≤ buf.length then .ok (buf.take i ++ src ++ buf.drop (i + src.length))
  else .error .outside

/-- The string at the beginning of the buffer. -/
def bufStr (buf : Bytes) : Except DumpFail Bytes :=
  if 0 ∈ buf then .ok (buf.takeWhile (· ≠ 0)) else .error .outside

/-- `foreach_list_cb` with a root, when nothing has to be decoded. -/
def foreachListCb (root : Bytes) : SdbForeachCallback (List Bytes) := fun out k v ↦
  (true, out ++ [root ++ 47 :: (k.val ++ 61 :: (v.getD CStr.empty).val)])

/-- The state of a loop over namespaces: the buffer, the lines, and the room that is left. -/
structure WalkState where
  root : Bytes
  out : List Bytes
  left : Nat
deriving DecidableEq

/-- A round of the loop of `walk_namespace`; `walk` is what is done below. -/
def walkChild (walk : Bytes → List Bytes → Nat → Nat → Ref → Except DumpFail (Bytes × List Bytes))
    (roote p : Nat) (st : WalkState) (n : SdbNs) : Except DumpFail WalkState := do
  let len := n.name.length
  let root ← bufPut st.root p [47]
  if len + 2 < st.left then
    let root ← bufPut root (p + 1) n.name.bytesZ
    let left := st.left - (len + 2)
    let r ← walk root st.out left (roote + len + 1) n.sdb
    return ⟨r.1, r.2, left⟩
  else
    let r ← walk root st.out st.left (roote + len + 1) n.sdb
    return ⟨r.1, r.2, st.left⟩

/-- `walk_namespace`. -/
def walkNamespace (h : Heap) :
    Nat → Bytes → List Bytes → Nat → Nat → Ref → Except DumpFail (Bytes × List Bytes)
  | 0, _, _, _, _, _ => .error .depth
  | fuel + 1, root, out, left, p, s => do
      let path ← bufStr root
      let out := (heapForeach h s (foreachListCb path) out).2
      let st ← (h.nss s).foldlM (walkChild (walkNamespace h fuel) path.length p) ⟨root, out, left⟩
      return (st.root, st.out)

/-- A round of the loop of `q_dump` for `***`. -/
def qDumpChild (h : Heap) (fuel : Nat) (st : Bytes × List Bytes) (ns : SdbNs) :
    Except DumpFail (Bytes × List Bytes) := do
  let nameLen := ns.name.length
  if nameLen < 1024 then
    let root ← bufPut st.1 0 ns.name.bytesZ
    walkNamespace h fuel root st.2 (1024 - nameLen) nameLen ns.sdb
  else return st

/-- `q_dump` for `***`: the lines that are printed, with a buffer that holds anything. -/
def qDumpStars (h : Heap) (fuel : Nat) (s : Ref) (root : Bytes) : Except DumpFail (List Bytes) :=
  ((h.nss s).foldlM (qDumpChild h fuel) (root, [])).map Prod.snd

/-- `***`. -/
def stars : CStr := CStr.ofBytes [42, 42, 42]

/-- The query `***` gets to `q_dump`, and ends with it. -/
theorem sdbQuerys_stars {σ ρ : Type} (api : QueryApi σ ρ) (r : ρ) (st : σ) :
    sdbQuerys api r stars st =
      (strbufLines (api.walkNamespaces st r false).1, (api.walkNamespaces st r false).2) := by
  rw [sdbQuerys, querysLoop_last api rfl]
  rfl

/-! ## The buffer -/

theorem bufPut_eq {buf src text : Bytes} (ht : text <+: buf)
    (hlen : text.length + src.length ≤ buf.length) :
    ∃ buf', bufPut buf text.length src = .ok buf' ∧ text ++ src <+: buf' ∧
      buf'.length = buf.length := by
  refine ⟨_, if_pos hlen, ?_, ?_⟩
  · rw [← List.prefix_iff_eq_take.mp ht]
    exact List.prefix_append _ _
  · rw [List.length_append, List.length_append, List.length_take, List.length_drop]
    omega

theorem bufStr_eq {buf text : Bytes} (ht : text ++ [0] <+: buf) (hz : 0 ∉ text) :
    bufStr buf = .ok text := by
  obtain ⟨rest, rfl⟩ := ht
  have hmem : (0 : UInt8) ∈ text ++ [0] ++ rest := by simp
  rw [bufStr, if_pos hmem, List.append_assoc, List.singleton_append,
    List.takeWhile_append_of_pos fun x hx ↦ ?_, List.takeWhile_cons_of_neg (by simp),
    List.append_nil]
  simpa using fun heq : x = 0 ↦ hz (heq ▸ hx)

/-! ## What is printed -/

/-- A namespace tree of depth `d`; the databases may be of any kind. -/
def Heap.Spans (h : Heap) : Nat → Ref → Prop
  | 0, _ => False
  | d + 1, s => ∃ node, h[s]? = some node ∧ NsList node.nss ∧ ∀ ns ∈ node.nss, h.Spans d ns.sdb

/-- The pairs that `sdb_foreach` finds in a database. -/
def Heap.calls (h : Heap) (s : Ref) : List Call :=
  match h[s]? with
  | none => []
  | some node => foreachCalls node.sdb

/-- The pairs of a tree, each at the path that leads to it. -/
def Heap.dumpItems (h : Heap) : Nat → Ref → List NsItem
  | 0, _ => []
  | d + 1, s => (h.calls s).map (fun c ↦ ⟨[], c.1, c.2⟩) ++
      (h.nss s).flatMap fun ns ↦ (h.dumpItems d ns.sdb).map (NsItem.push ns.name)

/-- The line for a pair below `root`. -/
def dumpLine (root : Bytes) (i : NsItem) : Bytes :=
  root ++ (i.path.flatMap fun name ↦ 47 :: name.val) ++
    47 :: (i.k.val ++ 61 :: (i.v.getD CStr.empty).val)

theorem dumpLine_push (root : Bytes) (name : CStr) (i : NsItem) :
    dumpLine root (i.push name) = dumpLine (root ++ 47 :: name.val) i := by
  simp [dumpLine, NsItem.push]

/-- Every name fits into the room that is left by the names before it. -/
def fitsList (sub : Nat → Ref → Prop) : Nat → List SdbNs → Prop
  | _, [] => True
  | left, n :: l => n.name.length + 2 < left ∧ sub (left - (n.name.length + 2)) n.sdb ∧
      fitsList sub (left - (n.name.length + 2)) l

/-- So it is in the whole tree. -/
def Heap.Fits (h : Heap) : Nat → Nat → Ref → Prop
  | 0, _, _ => True
  | d + 1, left, s => fitsList (h.Fits d) left (h.nss s)

theorem heapForeach_lines {h : Heap} {d : Nat} {s : Ref} (hs : h.Spans (d + 1) s) (root : Bytes)
    (out : List Bytes) :
    (heapForeach h s (foreachListCb root) out).2 =
      out ++ (h.calls s).map fun c ↦ dumpLine root ⟨[], c.1, c.2⟩ := by
  obtain ⟨node, hnode, -⟩ := hs
  rw [heapForeach, hnode]
  dsimp only
  rw [sdbForeach_eq node.sdb fun _ _ _ ↦ rfl, Heap.calls, hnode]
  dsimp only
  generalize foreachCalls node.sdb = calls
  induction calls generalizing out with
  | nil => exact (List.append_nil _).symm
  | cons c calls ih =>
      rw [makeCalls, List.foldl_cons]
      refine (ih _).trans ?_
      simp [foreachListCb, dumpLine]

/-- The buffer begins with a text, and has all of its bytes. -/
structure RootHas (root text : Bytes) : Prop where
  starts : text <+: root
  length : root.length = 1024

theorem Heap.Spans.nss {h : Heap} {d : Nat} {s : Ref} (hs : h.Spans (d + 1) s) :
    NsList (h.nss s) ∧ ∀ ns ∈ h.nss s, h.Spans d ns.sdb := by
  obtain ⟨node, hnode, hlist, hsub⟩ := hs
  rw [Heap.nss, hnode]
  exact ⟨hlist, hsub⟩

section Walk

variable {h : Heap} {d : Nat} {walk : Bytes → List Bytes → Nat → Nat → Ref →
    Except DumpFail (Bytes × List Bytes)}
  (hwalk : ∀ {root text : Bytes} {left : Nat} {s : Ref} (out : List Bytes), h.Spans d s →
    h.Fits d left s → RootHas root (text ++ [0]) → 0 ∉ text → left + text.length ≤ 1024 →
    ∃ root', walk root out left text.length s =
      .ok (root', out ++ (h.dumpItems d s).map (dumpLine text)) ∧ RootHas root' text)
include hwalk

/-- One name is appended to the path, and taken away again. -/
theorem walkChild_eq {root text : Bytes} {left : Nat} (out : List Bytes) {n : SdbNs}
    (hs : h.Spans d n.sdb) (hfit : n.name.length + 2 < left)
    (hsub : h.Fits d (left - (n.name.length + 2)) n.sdb) (hroot : RootHas root text) (hz : 0 ∉ text)
    (hleft : left + text.length ≤ 1024) :
    ∃ root', walkChild walk text.length text.length ⟨root, out, left⟩ n =
      .ok ⟨root', out ++ ((h.dumpItems d n.sdb).map (NsItem.push n.name)).map (dumpLine text),
        left - (n.name.length + 2)⟩ ∧ RootHas root' text := by
  have hname : n.name.bytesZ.length = n.name.length + 1 := by
    rw [CStr.bytesZ, List.length_append]
    rfl
  obtain ⟨root₁, hput₁, hpre₁, hlen₁⟩ := @bufPut_eq root [47] text hroot.starts (by
    rw [hroot.length, List.length_singleton]
    omega)
  obtain ⟨root₂, hput₂, hpre₂, hlen₂⟩ := @bufPut_eq root₁ n.name.bytesZ (text ++ [47]) hpre₁ (by
    rw [hlen₁, hroot.length, hname, List.length_append, List.length_singleton]
    omega)
  have hz' : 0 ∉ text ++ 47 :: n.name.val := by
    have hz₂ := n.name.property
    simp [hz, hz₂]
  have hpre : text ++ 47 :: n.name.val ++ [0] <+: root₂ := by
    simpa [CStr.bytesZ] using hpre₂
  have hlength : (text ++ 47 :: n.name.val).length = text.length + n.name.length + 1 := by
    rw [List.length_append, List.length_cons]
    rfl
  obtain ⟨root₃, hrun, hpre₃, hlen₃⟩ := hwalk out hs hsub
    ⟨hpre, hlen₂.trans (hlen₁.trans hroot.length)⟩ hz' (by omega)
  refine ⟨root₃, ?_, (List.prefix_append _ _).trans hpre₃, hlen₃⟩
  rw [hlength] at hrun
  rw [List.length_append, List.length_singleton] at hput₂
  have hlines : (h.dumpItems d n.sdb).map (dumpLine (text ++ 47 :: n.name.val)) =
      ((h.dumpItems d n.sdb).map (NsItem.push n.name)).map (dumpLine text) := by
    rw [List.map_map]
    exact List.map_congr_left fun i _ ↦ (dumpLine_push text n.name i).symm
  rw [walkChild]
  simp only [hput₁, hput₂, hrun, hlines, bind, Except.bind, pure, Except.pure, if_pos hfit]

/-- The loop over the namespaces. -/
theorem foldlM_walkChild {l : List SdbNs} (hs : ∀ n ∈ l, h.Spans d n.sdb) {root text : Bytes}
    {left : Nat} (out : List Bytes) (hfit : fitsList (h.Fits d) left l) (hroot : RootHas root text)
    (hz : 0 ∉ text) (hleft : left + text.length ≤ 1024) :
    ∃ root' left', l.foldlM (walkChild walk text.length text.length) ⟨root, out, left⟩ =
      .ok ⟨root', out ++ (l.flatMap fun n ↦
        (h.dumpItems d n.sdb).map (NsItem.push n.name)).map (dumpLine text), left'⟩ ∧
      RootHas root' text := by
  induction l generalizing root left out with
  | nil => exact ⟨root, left, by simp [pure, Except.pure], hroot⟩
  | cons n l ih =>
      obtain ⟨hlen, hsub, hrest⟩ := hfit
      obtain ⟨root₁, hrun, hroot₁⟩ := walkChild_eq hwalk out (hs n (List.mem_cons_self ..)) hlen
        hsub hroot hz hleft
      obtain ⟨root', left', hloop, hroot'⟩ := ih (fun n hn ↦ hs n (List.mem_cons_of_mem _ hn)) _
        hrest hroot₁ (by omega)
      refine ⟨root', left', ?_, hroot'⟩
      rw [List.foldlM_cons, hrun]
      refine hloop.trans ?_
      rw [List.flatMap_cons, List.map_append, List.append_assoc]

end Walk

/-- **`walk_namespace`** prints what is below, if everything fits. -/
theorem walkNamespace_eq {h : Heap} {d fuel : Nat} (hd : d ≤ fuel) {root text : Bytes} {left : Nat}
    {s : Ref} (out : List Bytes) (hs : h.Spans d s) (hfit : h.Fits d left s)
    (hroot : RootHas root (text ++ [0])) (hz : 0 ∉ text) (hleft : left + text.length ≤ 1024) :
    ∃ root', walkNamespace h fuel root out left text.length s =
      .ok (root', out ++ (h.dumpItems d s).map (dumpLine text)) ∧ RootHas root' text := by
  induction d generalizing fuel root text left s out with
  | zero => exact hs.elim
  | succ d ih =>
      obtain ⟨fuel, rfl⟩ := Nat.exists_eq_succ_of_ne_zero (Nat.ne_zero_of_lt hd)
      have hle := Nat.le_of_succ_le_succ hd
      obtain ⟨root', left', hloop, hroot'⟩ := foldlM_walkChild
        (fun out hs hfit hroot hz hleft ↦ ih hle out hs hfit hroot hz hleft) hs.nss.2
        (out ++ (h.calls s).map fun c ↦ dumpLine text ⟨[], c.1, c.2⟩) hfit
        ⟨(List.prefix_append _ _).trans hroot.starts, hroot.length⟩ hz hleft
      refine ⟨root', ?_, hroot'⟩
      rw [walkNamespace, bufStr_eq hroot.starts hz]
      simp only [bind, Except.bind, heapForeach_lines hs]
      rw [hloop]
      simp [Heap.dumpItems, pure, Except.pure, Function.comp_def]

/-! ## Every pair once -/

/-- `sdb_foreach` goes through a database as `sdb_get` shows it. -/
def Heap.Enumerated (h : Heap) (w : World) (s : Ref) : Prop :=
  ∀ node, h[s]? = some node → Exact (node.sdb, w) (foreachCalls node.sdb)

/-- It does so in every database that is in memory only. -/
theorem SdbNode.InMemory.exact {node : SdbNode} (hm : node.InMemory) (w : World) :
    Exact (node.sdb, w) (foreachCalls node.sdb) :=
  (@exact_iff (node.sdb, w) hm.sound [] (hm.bare.reads hm.unmapped)).mpr
    ⟨nofun, fun _ _ ↦ Nat.zero_le _⟩

theorem Exact.mem_iff {st : Sdb × World} {calls : List Call} (h : Exact st calls) (c : Call) :
    c ∈ calls ↔ ∃ v, c.2 = some v ∧ sdbGet st.1 st.2 c.1 = some v := by
  have hmem : c ∈ calls ↔ c ∈ calls.filter (·.1 = c.1) := by simp
  rw [hmem, h c.1]
  cases hget : sdbGet st.1 st.2 c.1 with
  | none => simp
  | some v =>
      dsimp only
      rw [List.mem_singleton]
      constructor
      · rintro hc
        exact ⟨v, congrArg Prod.snd hc, rfl⟩
      · rintro ⟨v', hv', hv⟩
        rw [Option.some.inj hv, ← hv']

theorem Exact.nodup {st : Sdb × World} {calls : List Call} (h : Exact st calls) : calls.Nodup := by
  rw [List.nodup_iff_count_le_one]
  intro c
  have hle : calls.count c ≤ (calls.filter (·.1 = c.1)).length := by
    rw [List.count, ← List.countP_eq_length_filter]
    refine List.countP_mono_left fun x _ hx ↦ ?_
    rw [beq_iff_eq.mp hx]
    simp
  refine hle.trans ?_
  rw [h c.1]
  split
  · exact Nat.zero_le _
  · exact Nat.le_refl _

/-- The value of a key at a path. -/
def Heap.dumpValue (h : Heap) (w : World) (s : Ref) (p : List CStr) (k : CStr) : Option CStr :=
  (h.walk s p).bind fun x ↦ heapValue (h, w) x k

/-- A pair of a tree, at its path. -/
def Heap.HoldsPair (h : Heap) (w : World) (s : Ref) (i : NsItem) : Prop :=
  ∃ v, i.v = some v ∧ h.dumpValue w s i.path i.k = some v

theorem Heap.Enumerated.mem_calls {h : Heap} {w : World} {s : Ref} (he : h.Enumerated w s)
    (c : Call) : c ∈ h.calls s ↔ h.HoldsPair w s ⟨[], c.1, c.2⟩ := by
  rw [Heap.calls, Heap.HoldsPair, Heap.dumpValue, Heap.walk, Option.bind_some, heapValue]
  cases hnode : h[s]? with
  | none => simp
  | some node => exact (he node hnode).mem_iff c

theorem Heap.Enumerated.nodup_calls {h : Heap} {w : World} {s : Ref} (he : h.Enumerated w s) :
    (h.calls s).Nodup := by
  rw [Heap.calls]
  split
  · exact List.nodup_nil
  · next node hnode => exact (he node hnode).nodup

theorem Heap.holdsPair_push (h : Heap) (w : World) (s : Ref) (name : CStr) (i : NsItem) :
    h.HoldsPair w s (i.push name) ↔ ∃ r, h.child s name = some r ∧ h.HoldsPair w r i := by
  rw [Heap.HoldsPair, Heap.dumpValue]
  change (∃ v, i.v = some v ∧ ((h.walk s (name :: i.path)).bind _) = some v) ↔ _
  rw [Heap.walk]
  cases h.child s name with
  | none => simp
  | some r => simp [Heap.HoldsPair, Heap.dumpValue, NsItem.push]

section Items

variable {h : Heap} {w : World}

theorem Heap.Spans.child_eq_some {d : Nat} {s : Ref} (hs : h.Spans (d + 1) s) {ns : SdbNs}
    (hns : ns ∈ h.nss s) : h.child s ns.name = some ns.sdb := by
  rw [Heap.child_eq, hs.nss.1.names.lookup_eq_some_iff.mpr ⟨hns, rfl⟩]
  rfl

/-- The pairs below the namespaces of a database. -/
theorem mem_flatMap_dumpItems {d : Nat} {s : Ref} (hs : h.Spans (d + 1) s)
    (hmem : ∀ ns ∈ h.nss s, ∀ i, i ∈ h.dumpItems d ns.sdb ↔ h.HoldsPair w ns.sdb i) (i : NsItem) :
    (i ∈ (h.nss s).flatMap fun ns ↦ (h.dumpItems d ns.sdb).map (NsItem.push ns.name)) ↔
      i.path ≠ [] ∧ h.HoldsPair w s i := by
  rw [List.mem_flatMap]
  constructor
  · rintro ⟨ns, hns, hi⟩
    obtain ⟨i', hi', rfl⟩ := List.mem_map.mp hi
    refine ⟨List.cons_ne_nil _ _, (h.holdsPair_push w s ns.name i').mpr ?_⟩
    exact ⟨ns.sdb, hs.child_eq_some hns, (hmem ns hns i').mp hi'⟩
  · rintro ⟨hne, hh⟩
    obtain ⟨_ | ⟨name, p⟩, k, v⟩ := i
    · exact absurd rfl hne
    · obtain ⟨r, hr, hh⟩ := (h.holdsPair_push w s name ⟨p, k, v⟩).mp hh
      obtain ⟨ns, hns, rfl, rfl⟩ := Heap.mem_of_child hr
      exact ⟨ns, hns, List.mem_map.mpr ⟨_, (hmem ns hns _).mpr hh, rfl⟩⟩

theorem nodup_flatMap_dumpItems {d : Nat} {s : Ref} (hs : h.Spans (d + 1) s)
    (hn : ∀ ns ∈ h.nss s, (h.dumpItems d ns.sdb).Nodup) :
    ((h.nss s).flatMap fun ns ↦ (h.dumpItems d ns.sdb).map (NsItem.push ns.name)).Nodup := by
  refine Keyed.nodup_flatMap_of_key hs.nss.1.nodup_heads
    (fun ns hns ↦ (hn ns hns).map (NsItem.push_injective _)) (fun i ↦ i.path.head?) ?_
  intro ns _ i hi
  obtain ⟨i', -, rfl⟩ := List.mem_map.mp hi
  rfl

theorem Heap.Spans.dumpItems {d : Nat} {s : Ref} (hs : h.Spans d s)
    (he : ∀ p x, h.walk s p = some x → h.Enumerated w x) :
    (∀ i, i ∈ h.dumpItems d s ↔ h.HoldsPair w s i) ∧ (h.dumpItems d s).Nodup := by
  induction d generalizing s with
  | zero => exact hs.elim
  | succ d ih =>
      have hsub : ∀ ns ∈ h.nss s, (∀ i, i ∈ h.dumpItems d ns.sdb ↔ h.HoldsPair w ns.sdb i) ∧
          (h.dumpItems d ns.sdb).Nodup := by
        intro ns hns
        refine ih (hs.nss.2 ns hns) fun p x hx ↦ he (ns.name :: p) x ?_
        rw [Heap.walk, hs.child_eq_some hns]
        exact hx
      have hflat := mem_flatMap_dumpItems hs fun ns hns ↦ (hsub ns hns).1
      have hcalls := (he [] s rfl).mem_calls
      constructor
      · intro i
        rw [Heap.dumpItems, List.mem_append, hflat, List.mem_map]
        constructor
        · rintro (⟨c, hc, rfl⟩ | ⟨-, hh⟩)
          · exact (hcalls c).mp hc
          · exact hh
        · intro hh
          obtain ⟨_ | ⟨name, p⟩, k, v⟩ := i
          · exact .inl ⟨(k, v), (hcalls (k, v)).mpr hh, rfl⟩
          · exact .inr ⟨List.cons_ne_nil _ _, hh⟩
      · rw [Heap.dumpItems]
        refine List.Nodup.append ?_ (nodup_flatMap_dumpItems hs fun ns hns ↦ (hsub ns hns).2) ?_
        · refine (he [] s rfl).nodup_calls.map ?_
          rintro ⟨k, v⟩ ⟨k', v'⟩ heq
          simpa using heq
        · intro i hi hi'
          obtain ⟨c, -, rfl⟩ := List.mem_map.mp hi
          exact ((hflat _).mp hi').1 rfl

end Items

/-! ## Whether the dump is right -/

/-- The path of a pair with its names, key and value, as it is printed. -/
def NsItem.line (i : NsItem) : Bytes :=
  [47].intercalate (i.path.map fun name ↦ name.val) ++
    47 :: (i.k.val ++ 61 :: (i.v.getD CStr.empty).val)

/-- The query `***` prints one line for every pair of every namespace, at any depth, and whatever
is in the buffer it stays within its 1024 bytes. -/
def DumpFaithful (h : Heap) (w : World) (s : Ref) : Prop :=
  ∃ n, ∀ fuel, n ≤ fuel → ∀ root, root.length = 1024 → ∃ items : List NsItem,
    qDumpStars h fuel s root = .ok (items.map NsItem.line) ∧ items.Nodup ∧
    (∀ i, i ∈ items ↔ i.path ≠ [] ∧ h.HoldsPair w s i) ∧
    ∀ api : QueryApi (Heap × World) Ref,
      (∀ lines, qDumpStars h fuel s root = .ok lines →
        api.walkNamespaces (h, w) s false = (lines, h, w)) →
      sdbQuerys api s stars (h, w) = (strbufLines (items.map NsItem.line), h, w)

/-- Every name fits into the buffer. -/
def Heap.DumpFits (h : Heap) (d : Nat) (s : Ref) : Prop :=
  ∀ ns ∈ h.nss s, ns.name.length < 1024 ∧ h.Fits d (1024 - ns.name.length) ns.sdb

theorem append_flatMap_slash (name : CStr) (p : List CStr) :
    name.val ++ (p.flatMap fun m ↦ 47 :: m.val) =
      [47].intercalate ((name :: p).map fun m ↦ m.val) := by
  induction p generalizing name with
  | nil => simp [List.intercalate]
  | cons m p ih =>
      rw [List.flatMap_cons, List.cons_append, ih m]
      simp [List.intercalate]

theorem dumpLine_eq_line (name : CStr) (i : NsItem) :
    dumpLine name.val i = (i.push name).line := by
  rw [dumpLine, append_flatMap_slash]
  rfl

/-- The loop of `q_dump`. -/
theorem foldlM_qDumpChild {h : Heap} {d fuel : Nat} (hd : d ≤ fuel) {l : List SdbNs}
    (hs : ∀ ns ∈ l, h.Spans d ns.sdb)
    (hfit : ∀ ns ∈ l, ns.name.length < 1024 ∧ h.Fits d (1024 - ns.name.length) ns.sdb)
    {root : Bytes} (hroot : root.length = 1024) (out : List Bytes) :
    ∃ root', l.foldlM (qDumpChild h fuel) (root, out) = .ok (root', out ++ (l.flatMap fun ns ↦
      (h.dumpItems d ns.sdb).map (NsItem.push ns.name)).map NsItem.line) := by
  induction l generalizing root out with
  | nil => exact ⟨root, by simp [pure, Except.pure]⟩
  | cons ns l ih =>
      obtain ⟨hlen, hsub⟩ := hfit ns (List.mem_cons_self ..)
      have hbytes : ns.name.bytesZ.length = ns.name.length + 1 := by
        rw [CStr.bytesZ, List.length_append]
        rfl
      obtain ⟨root₁, hput, hpre, hlen₁⟩ := @bufPut_eq root ns.name.bytesZ [] List.nil_prefix (by
        rw [hroot, hbytes, List.length_nil]
        omega)
      obtain ⟨root₂, hrun, -, hlen₂⟩ := walkNamespace_eq hd out (hs ns (List.mem_cons_self ..)) hsub
        ⟨hpre, hlen₁.trans hroot⟩ ns.name.property (Nat.le_of_eq (Nat.sub_add_cancel hlen.le))
      obtain ⟨root', hloop⟩ := ih (fun ns hns ↦ hs ns (List.mem_cons_of_mem _ hns))
        (fun ns hns ↦ hfit ns (List.mem_cons_of_mem _ hns)) hlen₂
        (out ++ (h.dumpItems d ns.sdb).map (dumpLine ns.name.val))
      have hchild : qDumpChild h fuel (root, out) ns =
          .ok (root₂, out ++ (h.dumpItems d ns.sdb).map (dumpLine ns.name.val)) := by
        rw [List.length_nil] at hput
        simp only [qDumpChild, if_pos hlen, hput, bind, Except.bind]
        exact hrun
      refine ⟨root', ?_⟩
      rw [List.foldlM_cons, hchild]
      refine hloop.trans ?_
      simp [dumpLine_eq_line, Function.comp_def]

/-- **The query `***`** is right for every tree in which the names fit into the room that is counted
for them, if `sdb_foreach` finds all pairs. -/
theorem dumpFaithful_of_fits {h : Heap} {w : World} {d : Nat} {s : Ref} (hs : h.Spans (d + 1) s)
    (he : ∀ name p x, h.walk s (name :: p) = some x → h.Enumerated w x) (hfit : h.DumpFits d s) :
    DumpFaithful h w s := by
  have hsub : ∀ ns ∈ h.nss s, (∀ i, i ∈ h.dumpItems d ns.sdb ↔ h.HoldsPair w ns.sdb i) ∧
      (h.dumpItems d ns.sdb).Nodup := by
    intro ns hns
    refine (hs.nss.2 ns hns).dumpItems fun p x hx ↦ he ns.name p x ?_
    rw [Heap.walk, hs.child_eq_some hns]
    exact hx
  refine ⟨d, fun fuel hfuel root hroot ↦ ?_⟩
  obtain ⟨root', hloop⟩ := foldlM_qDumpChild hfuel hs.nss.2 hfit hroot []
  have hdump : qDumpStars h fuel s root = .ok (((h.nss s).flatMap fun ns ↦
      (h.dumpItems d ns.sdb).map (NsItem.push ns.name)).map NsItem.line) := by
    rw [qDumpStars, hloop]
    rfl
  refine ⟨_, hdump, nodup_flatMap_dumpItems hs fun ns hns ↦ (hsub ns hns).2,
    mem_flatMap_dumpItems hs fun ns hns ↦ (hsub ns hns).1, ?_⟩
  intro api hapi
  rw [sdbQuerys_stars, hapi _ hdump]

/-- The namespace `n` with the pair `a=1`. -/
def heapDump : Heap :=
  [{ sdbNode0 with ns := some [⟨CStr.ofBytes [110], sdbHash (CStr.ofBytes [110]), 1⟩] },
   { sdbNode0 with sdb := (sdbSet sdbNew0 .empty (CStr.ofBytes [97]) (CStr.ofBytes [49]) 0).2.1 }]

theorem dumpFaithful_heapDump : DumpFaithful heapDump .empty 0 := by
  have hplain := (plain_sdbNode0 none).set .empty (show CStr.ofBytes [97] ≠ CStr.empty by decide)
    (show CStr.ofBytes [49] ≠ CStr.empty by decide) 0
  have hs : heapDump.Spans 2 0 := by
    refine ⟨_, rfl, ⟨?_, List.nodup_singleton _⟩, ?_⟩
    · intro ns hns
      rw [List.mem_singleton.mp hns]
    · intro ns hns
      rw [List.mem_singleton.mp hns]
      exact ⟨_, rfl, nsList_nil, nofun⟩
  refine dumpFaithful_of_fits hs (fun name p x hx ↦ ?_) ?_
  · obtain ⟨r, hr, hx⟩ := Option.bind_eq_some_iff.mp hx
    obtain ⟨ns, hns, rfl, rfl⟩ := Heap.mem_of_child hr
    obtain rfl := List.mem_singleton.mp hns
    obtain ⟨rfl, rfl⟩ := Heap.walk_leaf (h := heapDump) rfl hx
    intro node hnode
    obtain rfl := Option.some.inj hnode
    exact SdbNode.InMemory.exact ⟨hplain.sound, hplain.bare, hplain.unmapped⟩ .empty
  · intro ns hns
    obtain rfl := List.mem_singleton.mp hns
    exact ⟨by decide, trivial⟩

/-! ## The room runs out -/

/-- More fuel changes nothing but that it runs out. -/
theorem foldlM_eq_of_ne {σ α ε : Type} {f g : σ → α → Except ε σ} {e : ε}
    (hfg : ∀ st a, f st a ≠ .error e → g st a = f st a) {l : List α} {st : σ}
    (hne : l.foldlM f st ≠ .error e) : l.foldlM g st = l.foldlM f st := by
  induction l generalizing st with
  | nil => rfl
  | cons a l ih =>
      rw [List.foldlM_cons] at hne
      rw [List.foldlM_cons, List.foldlM_cons]
      have hfa : f st a ≠ .error e := fun hf ↦ hne (by rw [hf]; rfl)
      rw [hfg st a hfa]
      cases hf : f st a with
      | error e' => rfl
      | ok st' =>
          rw [hf] at hne
          exact ih hne

theorem walkChild_eq_of_ne {walk walk' : Bytes → List Bytes → Nat → Nat → Ref →
      Except DumpFail (Bytes × List Bytes)}
    (hwalk : ∀ root out left p s, walk root out left p s ≠ .error .depth →
      walk' root out left p s = walk root out left p s) {roote p : Nat} {st : WalkState} {n : SdbNs}
    (hne : walkChild walk roote p st n ≠ .error .depth) :
    walkChild walk' roote p st n = walkChild walk roote p st n := by
  have hbind : ∀ root left, ((walk root st.out left (roote + n.name.length + 1) n.sdb).bind
      fun r ↦ .ok (⟨r.1, r.2, left⟩ : WalkState)) ≠ .error .depth →
      walk' root st.out left (roote + n.name.length + 1) n.sdb =
        walk root st.out left (roote + n.name.length + 1) n.sdb :=
    fun root left hr ↦ hwalk _ _ _ _ _ fun hw ↦ hr (by rw [hw]; rfl)
  unfold walkChild at hne ⊢
  cases hput : bufPut st.root p [47] with
  | error e => rfl
  | ok root =>
      rw [hput] at hne
      simp only [bind, Except.bind, pure, Except.pure] at hne ⊢
      split
      · next hlen =>
          rw [if_pos hlen] at hne
          cases hput' : bufPut root (p + 1) n.name.bytesZ with
          | error e => rfl
          | ok root' =>
              rw [hput'] at hne
              dsimp only
              rw [hbind root' _ hne]
      · next hlen =>
          rw [if_neg hlen] at hne
          rw [hbind root _ hne]

theorem walkNamespace_succ {h : Heap} {fuel : Nat} {root : Bytes} {out : List Bytes} {left p : Nat}
    {s : Ref} (hne : walkNamespace h fuel root out left p s ≠ .error .depth) :
    walkNamespace h (fuel + 1) root out left p s = walkNamespace h fuel root out left p s := by
  induction fuel generalizing root out left p s with
  | zero => exact absurd rfl hne
  | succ fuel ih =>
      rw [walkNamespace] at hne
      rw [walkNamespace, walkNamespace]
      cases hstr : bufStr root with
      | error e => rfl
      | ok path =>
          rw [hstr] at hne
          simp only [bind, Except.bind] at hne ⊢
          rw [foldlM_eq_of_ne (e := DumpFail.depth) fun st n hn ↦
            walkChild_eq_of_ne (fun root out left p s hw ↦ ih hw) hn]
          intro hloop
          rw [hloop] at hne
          exact hne rfl

theorem qDumpStars_add {h : Heap} {fuel : Nat} {s : Ref} {root : Bytes}
    (hne : qDumpStars h fuel s root ≠ .error .depth) (n : Nat) :
    qDumpStars h (fuel + n) s root = qDumpStars h fuel s root := by
  induction n with
  | zero => rfl
  | succ n ih =>
      rw [← ih] at hne ⊢
      rw [qDumpStars, qDumpStars, ← Nat.add_assoc]
      congr 1
      refine foldlM_eq_of_ne (e := DumpFail.depth) (fun st ns hns ↦ ?_) fun hloop ↦ hne ?_
      · unfold qDumpChild at hns ⊢
        dsimp only at hns ⊢
        split
        · next hlen =>
            rw [if_pos hlen] at hns
            cases hput : bufPut st.1 0 ns.name.bytesZ with
            | error e => rfl
            | ok root =>
                rw [hput] at hns
                exact walkNamespace_succ hns
        · rfl
      · rw [qDumpStars, hloop]
        rfl

/-- No name has a slash, and every path is shorter than 1000 bytes; `n` bytes are before it. -/
def Heap.Short (h : Heap) : Nat → Nat → Ref → Prop
  | 0, _, _ => True
  | d + 1, n, s => ∀ ns ∈ h.nss s, 47 ∉ ns.name.val ∧ n + ns.name.length < 1000 ∧
      h.Short d (n + ns.name.length + 1) ns.sdb

instance Heap.decidableShort (h : Heap) : (d n : Nat) → (s : Ref) → Decidable (h.Short d n s)
  | 0, _, _ => isTrue trivial
  | d + 1, n, s =>
      have (ns : SdbNs) : Decidable (h.Short d (n + ns.name.length + 1) ns.sdb) :=
        h.decidableShort d _ _
      inferInstanceAs (Decidable (∀ ns ∈ h.nss s, _ ∧ _ ∧ _))

/-- A database with namespaces, and nothing else. -/
def nodeOf (l : List (CStr × Ref)) : SdbNode :=
  { sdbNode0 with ns := some (l.map fun n ↦ ⟨n.1, sdbHash n.1, n.2⟩) }

/-- Below `a` the namespaces `x…x` and `y…y/z…z/e`, with names of 900, 120 and 200 bytes. -/
def heapRoom : Heap :=
  [nodeOf [(CStr.ofBytes [97], 1)],
   nodeOf [(CStr.ofBytes (List.replicate 900 120), 2), (CStr.ofBytes (List.replicate 120 121), 3)],
   nodeOf [],
   nodeOf [(CStr.ofBytes (List.replicate 200 122), 4)],
   nodeOf [(CStr.ofBytes [101], 5)],
   nodeOf []]

theorem qDumpStars_heapRoom :
    qDumpStars heapRoom 5 0 (List.replicate 1024 0) = .error .outside := by
  decide +kernel

theorem spans_nodeOf {h : Heap} {d : Nat} {s : Ref} {l : List (CStr × Ref)}
    (hnode : h[s]? = some (nodeOf l)) (hl : (l.map fun n ↦ sdbHash n.1).Nodup)
    (hsub : ∀ n ∈ l, h.Spans d n.2) : h.Spans (d + 1) s := by
  refine ⟨nodeOf l, hnode, ⟨?_, ?_⟩, ?_⟩
  · intro ns hns
    obtain ⟨n, -, rfl⟩ := List.mem_map.mp hns
    rfl
  · change ((l.map _).map SdbNs.hash).Nodup
    rw [List.map_map]
    exact hl
  · intro ns hns
    obtain ⟨n, hn, rfl⟩ := List.mem_map.mp hns
    exact hsub n hn

theorem spans_heapRoom : heapRoom.Spans 5 0 := by
  have h₂ (d : Nat) : heapRoom.Spans (d + 1) 2 := spans_nodeOf rfl List.nodup_nil nofun
  have h₅ (d : Nat) : heapRoom.Spans (d + 1) 5 := spans_nodeOf rfl List.nodup_nil nofun
  have h₄ : heapRoom.Spans 2 4 :=
    spans_nodeOf rfl (List.nodup_singleton _) (List.forall_mem_singleton.mpr (h₅ 0))
  have h₃ : heapRoom.Spans 3 3 :=
    spans_nodeOf rfl (List.nodup_singleton _) (List.forall_mem_singleton.mpr h₄)
  have h₁ : heapRoom.Spans 4 1 := spans_nodeOf rfl (by decide +kernel)
    (List.forall_mem_cons.mpr ⟨h₂ 2, List.forall_mem_singleton.mpr h₃⟩)
  exact spans_nodeOf rfl (List.nodup_singleton _) (List.forall_mem_singleton.mpr h₁)

/-- The room is used up by `x…x`, so that the names below `y…y` are written behind it. -/
theorem not_dumpFaithful_heapRoom : heapRoom.Spans 5 0 ∧ heapRoom.Short 5 0 0 ∧
    (∀ x, heapRoom.Enumerated .empty x) ∧ ¬ DumpFaithful heapRoom .empty 0 := by
  refine ⟨spans_heapRoom, by decide +kernel, ?_, ?_⟩
  · intro x node hnode
    have hnode : ∃ l, node = nodeOf l := by
      have hmem := List.mem_of_getElem? hnode
      simp only [heapRoom, List.mem_cons, List.not_mem_nil, or_false] at hmem
      rcases hmem with rfl | rfl | rfl | rfl | rfl | rfl <;> exact ⟨_, rfl⟩
    obtain ⟨l, rfl⟩ := hnode
    exact (inMemory_new _).exact .empty
  · rintro ⟨n, hn⟩
    obtain ⟨items, hrun, -⟩ := hn (5 + n) (Nat.le_add_left n 5) _ (List.length_replicate ..)
    rw [qDumpStars_add (by rw [qDumpStars_heapRoom]; nofun), qDumpStars_heapRoom] at hrun
    cases hrun

end SdbStore
