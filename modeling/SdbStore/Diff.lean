import SdbStore.Branch

/-!
# Comparing trees

`diff.c`: `sdb_diff` compares two databases with their namespaces, and tells a callback what
would have to be removed from the first and added to it to get the second.  A namespace that
only one of them has is reported with everything below it.  Without a callback the comparison
stops early, since only the answer counts.

The recursion has a bound on its depth, `fuel`; it is `none` when that does not suffice.
-/

namespace SdbStore

open Lib

/-- `SdbDiff`. -/
structure SdbDiff where
  path : List CStr
  k : CStr
  v : Option CStr
  add : Bool
deriving DecidableEq

/-- `SdbDiffCtx`: `cb` says whether there is a callback, and `out` has its calls so far. -/
structure SdbDiffCtx where
  a : Ref
  b : Ref
  equal : Bool
  path : List CStr
  cb : Bool
  out : List SdbDiff

/-- `sdb_diff_report_ns`. -/
def sdbDiffReportNs (ctx : SdbDiffCtx) (ns : SdbNs) (add : Bool) : SdbDiffCtx :=
  { ctx with out := ctx.out ++ [⟨ctx.path, ns.name, none, add⟩] }

/-- `sdb_diff_report_kv`. -/
def sdbDiffReportKv (ctx : SdbDiffCtx) (k : CStr) (v : Option CStr) (add : Bool) : SdbDiffCtx :=
  { ctx with out := ctx.out ++ [⟨ctx.path, k, v, add⟩] }

/-- `sdb_diff_report_kv_cb`. -/
def sdbDiffReportKvCb (add : Bool) : SdbForeachCallback SdbDiffCtx := fun ctx k v ↦
  (true, sdbDiffReportKv ctx k v add)

/-- `sdb_foreach` on a database of the heap. -/
def heapForeach {σ : Type} (h : Heap) (s : Ref) (cb : SdbForeachCallback σ) (user : σ) : Bool × σ :=
  match h[s]? with
  | none => (false, user)
  | some node => sdbForeach node.sdb cb user

/-- A namespace is reported with all that is below it: the path is longer by its name while
`report` goes through it. -/
def sdbDiffReportSub (report : SdbDiffCtx → Ref → Option SdbDiffCtx) (ctx : SdbDiffCtx)
    (ns : SdbNs) (add : Bool) : Option SdbDiffCtx := do
  let ctx := sdbDiffReportNs ctx ns add
  let ctx ← report { ctx with path := ctx.path ++ [ns.name] } ns.sdb
  return { ctx with path := ctx.path.dropLast }

/-- `sdb_diff_report`. -/
def sdbDiffReport (h : Heap) (add : Bool) : Nat → SdbDiffCtx → Ref → Option SdbDiffCtx
  | 0, _, _ => none
  | fuel + 1, ctx, s => do
      let ctx ← (h.nss s).foldlM
        (fun ctx ns ↦ sdbDiffReportSub (sdbDiffReport h add fuel) ctx ns add) ctx
      return (heapForeach h s (sdbDiffReportKvCb add) ctx).2

/-- `sdb_diff_kv_cb`. -/
def sdbDiffKvCb (h : Heap) (w : World) (add : Bool) : SdbForeachCallback SdbDiffCtx := fun ctx k v ↦
  let other := if add then ctx.a else ctx.b
  match h[other]?.bind fun node ↦ sdbGet node.sdb w k with
  | none =>
      let ctx := { ctx with equal := false }
      if ctx.cb then (true, sdbDiffReportKv ctx k v add) else (false, ctx)
  | some otherVal =>
      if otherVal = CStr.empty then
        let ctx := { ctx with equal := false }
        if ctx.cb then (true, sdbDiffReportKv ctx k v add) else (false, ctx)
      else if !add ∧ v ≠ some otherVal then
        let ctx := { ctx with equal := false }
        if ctx.cb then
          (true, sdbDiffReportKv (sdbDiffReportKv ctx k v false) k (some otherVal) true)
        else (false, ctx)
      else (true, ctx)

/-- A loop over namespaces that ends at the first one where the function returns. -/
def nsLoop {σ : Type} (step : σ → SdbNs → Option (Bool × σ)) : List SdbNs → σ → Option (Bool × σ)
  | [], user => some (true, user)
  | ns :: l, user => (step user ns).bind fun r ↦ if r.1 then nsLoop step l r.2 else some r

/-- A namespace that the other database does not have. -/
def sdbDiffMissing (h : Heap) (fuel : Nat) (ctx : SdbDiffCtx) (ns : SdbNs) (add : Bool) :
    Option (Bool × SdbDiffCtx) :=
  let ctx := { ctx with equal := false }
  if ctx.cb then (sdbDiffReportSub (sdbDiffReport h add fuel) ctx ns add).map (true, ·)
  else some (false, ctx)

/-- The loop of `sdb_diff_ctx` over the namespaces of the first database; `diff` compares the
pair that is put into the context meanwhile. -/
def sdbDiffNsA (h : Heap) (fuel : Nat) (diff : SdbDiffCtx → Option SdbDiffCtx) (ctx : SdbDiffCtx)
    (ns : SdbNs) : Option (Bool × SdbDiffCtx) :=
  match (sdbNs h ctx.b ns.name false).1 with
  | none => sdbDiffMissing h fuel ctx ns false
  | some bNs => do
      let r ← diff { ctx with a := ns.sdb, b := bNs, path := ctx.path ++ [ns.name] }
      return (true, { r with path := r.path.dropLast, a := ctx.a, b := ctx.b })

/-- The loop over the namespaces of the second database. -/
def sdbDiffNsB (h : Heap) (fuel : Nat) (ctx : SdbDiffCtx) (ns : SdbNs) :
    Option (Bool × SdbDiffCtx) :=
  match (sdbNs h ctx.a ns.name false).1 with
  | none => sdbDiffMissing h fuel ctx ns true
  | some _ => some (true, ctx)

/-- `sdb_diff_ctx`. -/
def sdbDiffCtx (h : Heap) (w : World) : Nat → SdbDiffCtx → Option SdbDiffCtx
  | 0, _ => none
  | fuel + 1, ctx => do
      let r ← nsLoop (sdbDiffNsA h fuel (sdbDiffCtx h w fuel)) (h.nss ctx.a) ctx
      if !r.1 then return r.2
      let ctx := r.2
      let r ← nsLoop (sdbDiffNsB h fuel) (h.nss ctx.b) ctx
      if !r.1 then return r.2
      let ctx := r.2
      let r := heapForeach h ctx.a (sdbDiffKvCb h w false) ctx
      if !r.1 then return r.2
      let ctx := r.2
      return (heapForeach h ctx.b (sdbDiffKvCb h w true) ctx).2

/-- `sdb_diff`: what it returns, and the calls of the callback if there is one. -/
def sdbDiff (h : Heap) (w : World) (fuel : Nat) (a b : Ref) (cb : Bool) :
    Option (Bool × List SdbDiff) :=
  (sdbDiffCtx h w fuel ⟨a, b, true, [], cb, []⟩).map fun ctx ↦ (ctx.equal, ctx.out)

/-! ## Reports -/

/-- The call for an item that is found below `path`. -/
def NsItem.toDiff (path : List CStr) (add : Bool) (i : NsItem) : SdbDiff :=
  ⟨path ++ i.path, i.k, i.v, add⟩

theorem NsItem.toDiff_push (path : List CStr) (add : Bool) (name : CStr) (i : NsItem) :
    (i.push name).toDiff path add = i.toDiff (path ++ [name]) add := by
  simp [NsItem.toDiff, NsItem.push]

/-- The context after calls for items. -/
def SdbDiffCtx.called (ctx : SdbDiffCtx) (add : Bool) (l : List NsItem) : SdbDiffCtx :=
  { ctx with out := ctx.out ++ l.map (NsItem.toDiff ctx.path add) }

theorem SdbDiffCtx.called_called (ctx : SdbDiffCtx) (add : Bool) (l l' : List NsItem) :
    (ctx.called add l).called add l' = ctx.called add (l ++ l') := by
  simp [SdbDiffCtx.called]

theorem heapForeach_eq {σ : Type} {h : Heap} {d : Nat} {s : Ref} (hs : h.Branch (d + 1) s)
    (cb : SdbForeachCallback σ) (user : σ) :
    heapForeach h s cb user =
      foreachLoop (fun user p ↦ cb user p.1 (some p.2)) (h.pairs s) user := by
  obtain ⟨node, hnode, hm, -⟩ := hs
  rw [heapForeach, Heap.pairs, hnode]
  exact hm.sdbForeach cb user

theorem foreachLoop_report (add : Bool) (l : List (CStr × CStr)) (ctx : SdbDiffCtx) :
    foreachLoop (fun ctx p ↦ sdbDiffReportKvCb add ctx p.1 (some p.2)) l ctx =
      (true, ctx.called add (l.map fun p ↦ ⟨[], p.1, some p.2⟩)) := by
  induction l generalizing ctx with
  | nil => simp [foreachLoop, SdbDiffCtx.called]
  | cons p l ih =>
      rw [foreachLoop, sdbDiffReportKvCb]
      dsimp only
      rw [if_pos rfl, ih, List.map_cons, ← List.singleton_append, ← SdbDiffCtx.called_called]
      simp [SdbDiffCtx.called, sdbDiffReportKv, NsItem.toDiff]

/-- A namespace is reported with all that is below it, and the path is as before. -/
theorem sdbDiffReportSub_eq {h : Heap} {d : Nat} {add : Bool} {ns : SdbNs}
    {report : SdbDiffCtx → Ref → Option SdbDiffCtx}
    (hreport : ∀ ctx, report ctx ns.sdb = some (ctx.called add (h.contents d ns.sdb)))
    (ctx : SdbDiffCtx) :
    sdbDiffReportSub report ctx ns add = some (ctx.called add (h.nsContents d ns)) := by
  rw [sdbDiffReportSub]
  simp only [hreport, Option.bind_eq_bind, Option.bind_some, Option.pure_def, Option.some.injEq]
  have hmap : ∀ path, (h.contents d ns.sdb).map (NsItem.toDiff (path ++ [ns.name]) add) =
      ((h.contents d ns.sdb).map (NsItem.push ns.name)).map (NsItem.toDiff path add) := by
    intro path
    rw [List.map_map]
    refine List.map_congr_left fun i _ ↦ ?_
    exact (NsItem.toDiff_push path add ns.name i).symm
  simp only [SdbDiffCtx.called, sdbDiffReportNs, List.dropLast_concat, Heap.nsContents,
    List.map_cons, hmap, List.append_assoc, List.singleton_append]
  simp [NsItem.toDiff]

/-- `sdb_diff_report` goes through the tree. -/
theorem sdbDiffReport_eq {h : Heap} (add : Bool) {d fuel : Nat} (hd : d ≤ fuel) {s : Ref}
    (hs : h.Branch d s) (ctx : SdbDiffCtx) :
    sdbDiffReport h add fuel ctx s = some (ctx.called add (h.contents d s)) := by
  induction d generalizing fuel s ctx with
  | zero => exact hs.elim
  | succ d ih =>
      obtain ⟨fuel, rfl⟩ := Nat.exists_eq_succ_of_ne_zero (Nat.ne_zero_of_lt hd)
      have hsub : ∀ ns ∈ h.nss s, ∀ ctx,
          sdbDiffReportSub (sdbDiffReport h add fuel) ctx ns add =
            some (ctx.called add (h.nsContents d ns)) := fun ns hns ctx ↦
        sdbDiffReportSub_eq (fun ctx ↦ ih (Nat.le_of_succ_le_succ hd) (hs.nss.2 ns hns) ctx) ctx
      have hfold : ∀ (l : List SdbNs), (∀ ns ∈ l, ns ∈ h.nss s) → ∀ ctx,
          l.foldlM (fun ctx ns ↦ sdbDiffReportSub (sdbDiffReport h add fuel) ctx ns add) ctx =
            some (ctx.called add (l.flatMap (h.nsContents d))) := by
        intro l
        induction l with
        | nil => simp [SdbDiffCtx.called]
        | cons ns l ihl =>
            intro hl ctx
            rw [List.foldlM_cons, hsub ns (hl ns (by simp))]
            simp only [Option.bind_eq_bind, Option.bind_some]
            rw [ihl (fun ns' hns' ↦ hl ns' (by simp [hns'])), SdbDiffCtx.called_called,
              List.flatMap_cons]
      rw [sdbDiffReport, hfold _ fun _ hns ↦ hns]
      simp only [Option.bind_eq_bind, Option.bind_some, Option.pure_def, Option.some.injEq]
      rw [heapForeach_eq hs, foreachLoop_report, SdbDiffCtx.called_called, h.contents_succ]

/-! ## Differences -/

/-- A context that has found the differences `ds`, each with whether it is an addition. -/
def SdbDiffCtx.found (ctx : SdbDiffCtx) (ds : List (NsItem × Bool)) : SdbDiffCtx :=
  { ctx with
    equal := ctx.equal && ds.isEmpty
    out := if ctx.cb then ctx.out ++ ds.map fun x ↦ x.1.toDiff ctx.path x.2 else ctx.out }

theorem SdbDiffCtx.found_nil (ctx : SdbDiffCtx) : ctx.found [] = ctx := by
  simp [SdbDiffCtx.found]

theorem SdbDiffCtx.found_found (ctx : SdbDiffCtx) (ds ds' : List (NsItem × Bool)) :
    (ctx.found ds).found ds' = ctx.found (ds ++ ds') := by
  have hempty : (ds ++ ds').isEmpty = (ds.isEmpty && ds'.isEmpty) := by
    cases ds with
    | nil => rfl
    | cons x ds => rfl
  cases hcb : ctx.cb with
  | false => simp [SdbDiffCtx.found, hcb, Bool.and_assoc, hempty]
  | true => simp [SdbDiffCtx.found, hcb, Bool.and_assoc, hempty]

/-- Without a callback one difference is as good as many. -/
theorem SdbDiffCtx.found_append {ctx : SdbDiffCtx} (hcb : ctx.cb = false)
    {ds : List (NsItem × Bool)} (hds : ds ≠ []) (ds' : List (NsItem × Bool)) :
    ctx.found (ds ++ ds') = ctx.found ds := by
  obtain ⟨x, ds, rfl⟩ := List.exists_cons_of_ne_nil hds
  simp [SdbDiffCtx.found, hcb]

/-- What a loop leaves that finds `ds`; it returns early only if that is enough to know. -/
def Finding (ctx : SdbDiffCtx) (ds : List (NsItem × Bool)) (r : Bool × SdbDiffCtx) : Prop :=
  r.2 = ctx.found ds ∧ (r.1 = false → ctx.cb = false ∧ ds ≠ [])

theorem Finding.append {ctx : SdbDiffCtx} {ds ds' : List (NsItem × Bool)} {r r' : Bool × SdbDiffCtx}
    (h : Finding ctx ds r) (h' : Finding r.2 ds' r') :
    Finding ctx (ds ++ ds') r' := by
  have hcb : r.2.cb = ctx.cb := by rw [h.1]; rfl
  refine ⟨?_, fun hf ↦ ?_⟩
  · rw [h'.1, h.1, SdbDiffCtx.found_found]
  · obtain ⟨hcb', hne⟩ := h'.2 hf
    exact ⟨hcb.symm.trans hcb', List.append_ne_nil_of_right_ne_nil _ hne⟩

theorem Finding.stop {ctx : SdbDiffCtx} {ds : List (NsItem × Bool)} {r : Bool × SdbDiffCtx}
    (h : Finding ctx ds r) (hr : ¬ r.1 = true) (ds' : List (NsItem × Bool)) :
    Finding ctx (ds ++ ds') r := by
  obtain ⟨hcb, hne⟩ := h.2 (Bool.eq_false_iff.mpr hr)
  refine ⟨?_, fun _ ↦ ⟨hcb, List.append_ne_nil_of_left_ne_nil hne _⟩⟩
  rw [SdbDiffCtx.found_append hcb hne, h.1]

/-- The context is as `ctx` was, but for the differences that have been found. -/
def SdbDiffCtx.Since (ctx ctx' : SdbDiffCtx) : Prop := ∃ ds, ctx' = ctx.found ds

theorem SdbDiffCtx.Since.refl (ctx : SdbDiffCtx) : ctx.Since ctx := ⟨[], ctx.found_nil.symm⟩

theorem SdbDiffCtx.Since.found {ctx ctx' : SdbDiffCtx} (h : ctx.Since ctx')
    (ds : List (NsItem × Bool)) : ctx.Since (ctx'.found ds) := by
  obtain ⟨ds', rfl⟩ := h
  exact ⟨ds' ++ ds, ctx.found_found ds' ds⟩

theorem nsLoop_finding {step : SdbDiffCtx → SdbNs → Option (Bool × SdbDiffCtx)}
    (f : SdbNs → List (NsItem × Bool)) {ctx₀ : SdbDiffCtx} {l : List SdbNs}
    (hstep : ∀ ns ∈ l, ∀ ctx, ctx₀.Since ctx → ∃ r, step ctx ns = some r ∧ Finding ctx (f ns) r)
    {ctx : SdbDiffCtx} (hctx : ctx₀.Since ctx) :
    ∃ r, nsLoop step l ctx = some r ∧ Finding ctx (l.flatMap f) r := by
  induction l generalizing ctx with
  | nil => exact ⟨_, rfl, ctx.found_nil.symm, fun h ↦ nomatch h⟩
  | cons ns l ih =>
      obtain ⟨r, hr, hfind⟩ := hstep ns (by simp) ctx hctx
      rw [nsLoop, hr, Option.bind_some, List.flatMap_cons]
      by_cases hgo : r.1 = true
      · rw [if_pos hgo]
        have hsince : ctx₀.Since r.2 := by
          rw [hfind.1]
          exact hctx.found _
        obtain ⟨r', hr', hfind'⟩ := ih (fun ns' hns' ↦ hstep ns' (by simp [hns'])) hsince
        exact ⟨r', hr', hfind.append hfind'⟩
      · rw [if_neg hgo]
        exact ⟨r, rfl, hfind.stop hgo _⟩

theorem foreachLoop_finding {α : Type} {step : SdbDiffCtx → α → Bool × SdbDiffCtx}
    {f : α → List (NsItem × Bool)} {ctx₀ : SdbDiffCtx} {l : List α}
    (hstep : ∀ p ∈ l, ∀ ctx, ctx₀.Since ctx → Finding ctx (f p) (step ctx p))
    {ctx : SdbDiffCtx} (hctx : ctx₀.Since ctx) :
    Finding ctx (l.flatMap f) (foreachLoop step l ctx) := by
  induction l generalizing ctx with
  | nil => exact ⟨ctx.found_nil.symm, fun h ↦ nomatch h⟩
  | cons p l ih =>
      have hfind := hstep p (by simp) ctx hctx
      rw [foreachLoop, List.flatMap_cons]
      by_cases hgo : (step ctx p).1 = true
      · rw [if_pos hgo]
        refine hfind.append (ih (fun p' hp' ↦ hstep p' (by simp [hp'])) ?_)
        rw [hfind.1]
        exact hctx.found _
      · rw [if_neg hgo]
        have hstop := hfind.stop hgo (l.flatMap f)
        exact ⟨hstop.1, fun _ ↦ hstop.2 (Bool.eq_false_iff.mpr hgo)⟩

/-! ## The comparison -/

/-- What `sdb_ns` finds, if names are told apart by their hashes: nothing has the empty name. -/
def Heap.nsChild (h : Heap) (s : Ref) (name : CStr) : Option Ref :=
  if name = CStr.empty then none else h.child s name

/-- The differences at a pair of the first database. -/
def Heap.pairRemoved (h : Heap) (b : Ref) (p : CStr × CStr) : List (NsItem × Bool) :=
  match h.value b p.1 with
  | none => [(⟨[], p.1, some p.2⟩, false)]
  | some v => if p.2 = v then [] else [(⟨[], p.1, some p.2⟩, false), (⟨[], p.1, some v⟩, true)]

/-- The differences at a pair of the second database. -/
def Heap.pairAdded (h : Heap) (a : Ref) (p : CStr × CStr) : List (NsItem × Bool) :=
  if (h.value a p.1).isNone then [(⟨[], p.1, some p.2⟩, true)] else []

/-- The differences of two trees, in the order in which they are found. -/
def Heap.diffItems (h : Heap) : Nat → Ref → Ref → List (NsItem × Bool)
  | 0, _, _ => []
  | d + 1, a, b =>
      ((h.nss a).flatMap fun ns ↦
        match h.nsChild b ns.name with
        | none => (h.nsContents d ns).map (·, false)
        | some r => (h.diffItems d ns.sdb r).map fun x ↦ (x.1.push ns.name, x.2)) ++
      (((h.nss b).flatMap fun ns ↦
        if (h.nsChild a ns.name).isNone then (h.nsContents d ns).map (·, true) else []) ++
      ((h.pairs a).flatMap (h.pairRemoved b) ++ (h.pairs b).flatMap (h.pairAdded a)))

/-- In no place of two trees do names have the same hash that are different. -/
def Heap.NamesApart (h : Heap) (a b : Ref) : Prop :=
  ∀ p x y, h.walk a p = some x → h.walk b p = some y →
    ∀ ns ∈ h.nss x, ∀ ns' ∈ h.nss y, ns.hash = ns'.hash → ns.name = ns'.name

theorem Heap.NamesApart.symm {h : Heap} {a b : Ref} (hn : h.NamesApart a b) : h.NamesApart b a :=
  fun p x y hx hy ns hns ns' hns' heq ↦ (hn p y x hy hx ns' hns' ns hns heq.symm).symm

theorem Heap.NamesApart.child {h : Heap} {a b x y : Ref} {name : CStr} (hn : h.NamesApart a b)
    (hx : h.child a name = some x) (hy : h.child b name = some y) : h.NamesApart x y := by
  intro p x' y' hx' hy'
  refine hn (name :: p) x' y' ?_ ?_
  · rw [Heap.walk, hx]
    exact hx'
  · rw [Heap.walk, hy]
    exact hy'

theorem Heap.Branch.namesApart {h : Heap} {d : Nat} {a : Ref} (ha : h.Branch d a) :
    h.NamesApart a a := by
  intro p x y hx hy ns hns ns' hns' heq
  obtain rfl := Option.some.inj (hx.symm.trans hy)
  obtain ⟨d', hx⟩ := ha.walk hx
  rw [hx.nss.1.distinct.eq_of_key_eq hns hns' heq]

/-- `sdb_ns` with a name of the other tree. -/
theorem sdbNs_eq_nsChild {h : Heap} {d : Nat} {b : Ref} (hb : h.Branch (d + 1) b) {ns : SdbNs}
    (hhash : ns.hash = sdbHash ns.name)
    (hns : ∀ ns' ∈ h.nss b, ns.hash = ns'.hash → ns.name = ns'.name) :
    (sdbNs h b ns.name false).1 = h.nsChild b ns.name := by
  have hlist := hb.nss.1
  obtain ⟨node, hnode, -⟩ := hb
  have hnss : h.nss b = node.nss := by rw [Heap.nss, hnode]
  rw [sdbNs, hnode, Heap.nsChild]
  dsimp only
  by_cases hne : ns.name = CStr.empty
  · rw [if_pos hne, if_pos hne]
  · rw [if_neg hne, if_neg hne, ← hnss, hlist.find?_hash fun ns' hns' heq ↦
      (hns ns' hns' (hhash.trans heq.symm)).symm, Heap.child_eq]
    cases Keyed.lookup SdbNs.name (h.nss b) ns.name with
    | none => rfl
    | some ns' => rfl

theorem SdbDiffCtx.found_of_cb {ctx : SdbDiffCtx} (hcb : ctx.cb = true) {add : Bool}
    {l : List NsItem} (hl : l ≠ []) :
    ({ ctx with equal := false } : SdbDiffCtx).called add l = ctx.found (l.map (·, add)) := by
  obtain ⟨i, l, rfl⟩ := List.exists_cons_of_ne_nil hl
  simp [SdbDiffCtx.found, SdbDiffCtx.called, hcb, Function.comp_def]

theorem SdbDiffCtx.found_of_not_cb {ctx : SdbDiffCtx} (hcb : ctx.cb = false)
    {ds : List (NsItem × Bool)} (hds : ds ≠ []) :
    ({ ctx with equal := false } : SdbDiffCtx) = ctx.found ds := by
  obtain ⟨x, ds, rfl⟩ := List.exists_cons_of_ne_nil hds
  simp [SdbDiffCtx.found, hcb]

/-- The macro `DIFF`. -/
theorem finding_diff {ctx ctx' : SdbDiffCtx} {ds : List (NsItem × Bool)} (hds : ds ≠ [])
    (hout : ctx.cb = true → ctx' = ctx.found ds) :
    Finding ctx ds (if ctx.cb then (true, ctx') else (false, { ctx with equal := false })) := by
  by_cases hcb : ctx.cb = true
  · rw [if_pos hcb]
    exact ⟨hout hcb, fun hf ↦ nomatch hf⟩
  · rw [if_neg hcb]
    have hcb := Bool.eq_false_iff.mpr hcb
    exact ⟨SdbDiffCtx.found_of_not_cb hcb hds, fun _ ↦ ⟨hcb, hds⟩⟩

/-- A namespace that the other database does not have. -/
theorem sdbDiffMissing_finding {h : Heap} {d fuel : Nat} (hd : d ≤ fuel) {ns : SdbNs}
    (hs : h.Branch d ns.sdb) (ctx : SdbDiffCtx) (add : Bool) :
    ∃ r, sdbDiffMissing h fuel ctx ns add = some r ∧
      Finding ctx ((h.nsContents d ns).map (·, add)) r := by
  have hne : h.nsContents d ns ≠ [] := List.cons_ne_nil _ _
  have hmap : (h.nsContents d ns).map (·, add) ≠ [] := by simpa using hne
  refine ⟨_, ?_, finding_diff hmap fun hcb ↦ SdbDiffCtx.found_of_cb hcb hne⟩
  rw [sdbDiffMissing, sdbDiffReportSub_eq fun ctx ↦ sdbDiffReport_eq add hd hs ctx]
  dsimp only
  split
  · rfl
  · rfl

/-- The lookup of the other value. -/
theorem sdbGet_eq_value {h : Heap} {d : Nat} {s : Ref} (hs : h.Branch (d + 1) s) (w : World)
    (k : CStr) : (h[s]?.bind fun node ↦ sdbGet node.sdb w k) = h.value s k := by
  obtain ⟨node, hnode, hm, -⟩ := hs
  rw [Heap.value, hnode, Option.bind_some, Option.bind_some, hm.sdbGet]

theorem value_ne_empty {h : Heap} {s : Ref} {k v : CStr} (hv : h.value s k = some v) :
    v ≠ CStr.empty := by
  obtain ⟨node, -, hv⟩ := Option.bind_eq_some_iff.mp hv
  simpa using (Option.filter_eq_some_iff.mp hv).2

theorem sdbDiffKvCb_removed {h : Heap} {d : Nat} (w : World) (ctx : SdbDiffCtx)
    (hb : h.Branch (d + 1) ctx.b) (p : CStr × CStr) :
    Finding ctx (h.pairRemoved ctx.b p) (sdbDiffKvCb h w false ctx p.1 (some p.2)) := by
  rw [sdbDiffKvCb, Heap.pairRemoved]
  dsimp only
  rw [if_neg (by decide), sdbGet_eq_value hb]
  cases hv : h.value ctx.b p.1 with
  | none =>
      refine finding_diff (List.cons_ne_nil _ _) fun hcb ↦ ?_
      simp [SdbDiffCtx.found, sdbDiffReportKv, hcb, NsItem.toDiff]
  | some v =>
      dsimp only
      rw [if_neg (value_ne_empty hv)]
      by_cases heq : p.2 = v
      · rw [if_pos heq, if_neg (by simp [heq])]
        exact ⟨ctx.found_nil.symm, fun hf ↦ nomatch hf⟩
      · rw [if_neg heq, if_pos (by simp [heq])]
        refine finding_diff (List.cons_ne_nil _ _) fun hcb ↦ ?_
        simp [SdbDiffCtx.found, sdbDiffReportKv, hcb, NsItem.toDiff]

theorem sdbDiffKvCb_added {h : Heap} {d : Nat} (w : World) (ctx : SdbDiffCtx)
    (ha : h.Branch (d + 1) ctx.a) (p : CStr × CStr) :
    Finding ctx (h.pairAdded ctx.a p) (sdbDiffKvCb h w true ctx p.1 (some p.2)) := by
  rw [sdbDiffKvCb, Heap.pairAdded]
  dsimp only
  rw [if_pos rfl, sdbGet_eq_value ha]
  cases hv : h.value ctx.a p.1 with
  | none =>
      refine finding_diff (List.cons_ne_nil _ _) fun hcb ↦ ?_
      simp [SdbDiffCtx.found, sdbDiffReportKv, hcb, NsItem.toDiff]
  | some v =>
      dsimp only
      rw [if_neg (value_ne_empty hv), if_neg (by simp)]
      exact ⟨ctx.found_nil.symm, fun hf ↦ nomatch hf⟩

/-- What a comparison one level below leaves, when the path and the pair are put back. -/
theorem found_push (ctx : SdbDiffCtx) (a b : Ref) (name : CStr) (ds : List (NsItem × Bool)) :
    let r := ({ ctx with a := a, b := b, path := ctx.path ++ [name] } : SdbDiffCtx).found ds
    ({ r with path := r.path.dropLast, a := ctx.a, b := ctx.b } : SdbDiffCtx) =
      ctx.found (ds.map fun x ↦ (x.1.push name, x.2)) := by
  have hmap : ds.map (fun x ↦ x.1.toDiff (ctx.path ++ [name]) x.2) =
      (ds.map fun x ↦ (x.1.push name, x.2)).map fun x ↦ x.1.toDiff ctx.path x.2 := by
    rw [List.map_map]
    refine List.map_congr_left fun x _ ↦ ?_
    exact (NsItem.toDiff_push ctx.path x.2 name x.1).symm
  have hempty : (ds.map fun x ↦ (x.1.push name, x.2)).isEmpty = ds.isEmpty := by
    rw [List.isEmpty_map]
  simp only [SdbDiffCtx.found, List.dropLast_concat, hmap, hempty]

/-- The differences at a namespace of the first tree. -/
def Heap.nsRemoved (h : Heap) (d : Nat) (b : Ref) (ns : SdbNs) : List (NsItem × Bool) :=
  match h.nsChild b ns.name with
  | none => (h.nsContents d ns).map (·, false)
  | some r => (h.diffItems d ns.sdb r).map fun x ↦ (x.1.push ns.name, x.2)

/-- The differences at a namespace of the second tree. -/
def Heap.nsAdded (h : Heap) (d : Nat) (a : Ref) (ns : SdbNs) : List (NsItem × Bool) :=
  if (h.nsChild a ns.name).isNone then (h.nsContents d ns).map (·, true) else []

theorem Heap.diffItems_succ (h : Heap) (d : Nat) (a b : Ref) :
    h.diffItems (d + 1) a b = (h.nss a).flatMap (h.nsRemoved d b) ++
      ((h.nss b).flatMap (h.nsAdded d a) ++
        ((h.pairs a).flatMap (h.pairRemoved b) ++ (h.pairs b).flatMap (h.pairAdded a))) := rfl

section Compare

variable {h : Heap} {d fuel : Nat} (hd : d ≤ fuel) (ctx : SdbDiffCtx)
  (ha : h.Branch (d + 1) ctx.a) (hb : h.Branch (d + 1) ctx.b) (hn : h.NamesApart ctx.a ctx.b)
  {ns : SdbNs}
include hd ha hb hn

theorem sdbDiffNsA_finding {diff : SdbDiffCtx → Option SdbDiffCtx}
    (hdiff : ∀ ctx : SdbDiffCtx, h.Branch d ctx.a → h.Branch d ctx.b → h.NamesApart ctx.a ctx.b →
      diff ctx = some (ctx.found (h.diffItems d ctx.a ctx.b))) (hns : ns ∈ h.nss ctx.a) :
    ∃ r, sdbDiffNsA h fuel diff ctx ns = some r ∧ Finding ctx (h.nsRemoved d ctx.b ns) r := by
  have hroot := hn [] ctx.a ctx.b rfl rfl
  rw [sdbDiffNsA, sdbNs_eq_nsChild hb (ha.nss.1.hash ns hns) (hroot ns hns), Heap.nsRemoved]
  cases hc : h.nsChild ctx.b ns.name with
  | none => exact sdbDiffMissing_finding hd (ha.nss.2 ns hns) ctx false
  | some r =>
      have hr : h.child ctx.b ns.name = some r := by
        rw [Heap.nsChild] at hc
        split at hc
        · cases hc
        · exact hc
      obtain ⟨ns', hns', -, hr'⟩ := Heap.mem_of_child hr
      have hin := hdiff { ctx with a := ns.sdb, b := r, path := ctx.path ++ [ns.name] }
        (ha.nss.2 ns hns) (hr' ▸ hb.nss.2 ns' hns') (hn.child (ha.child_eq_some hns) hr)
      refine ⟨_, congrArg (Option.bind · _) hin, ?_⟩
      exact ⟨found_push ctx ns.sdb r ns.name _, fun hf ↦ nomatch hf⟩

theorem sdbDiffNsB_finding (hns : ns ∈ h.nss ctx.b) :
    ∃ r, sdbDiffNsB h fuel ctx ns = some r ∧ Finding ctx (h.nsAdded d ctx.a ns) r := by
  have hroot := hn.symm [] ctx.b ctx.a rfl rfl
  rw [sdbDiffNsB, sdbNs_eq_nsChild ha (hb.nss.1.hash ns hns) (hroot ns hns), Heap.nsAdded]
  cases h.nsChild ctx.a ns.name with
  | none => exact sdbDiffMissing_finding hd (hb.nss.2 ns hns) ctx true
  | some r => exact ⟨_, rfl, ctx.found_nil.symm, fun hf ↦ nomatch hf⟩

end Compare

/-- **`sdb_diff_ctx`** finds the differences of the two trees. -/
theorem sdbDiffCtx_eq {h : Heap} (w : World) {d fuel : Nat} (hd : d ≤ fuel) (ctx : SdbDiffCtx)
    (ha : h.Branch d ctx.a) (hb : h.Branch d ctx.b) (hn : h.NamesApart ctx.a ctx.b) :
    sdbDiffCtx h w fuel ctx = some (ctx.found (h.diffItems d ctx.a ctx.b)) := by
  induction d generalizing fuel ctx with
  | zero => exact ha.elim
  | succ d ih =>
      obtain ⟨fuel, rfl⟩ := Nat.exists_eq_succ_of_ne_zero (Nat.ne_zero_of_lt hd)
      have hle := Nat.le_of_succ_le_succ hd
      have hstep₁ : ∀ ns ∈ h.nss ctx.a, ∀ ctx', ctx.Since ctx' →
          ∃ r, sdbDiffNsA h fuel (sdbDiffCtx h w fuel) ctx' ns = some r ∧
            Finding ctx' (h.nsRemoved d ctx.b ns) r := by
        rintro ns hns ctx' ⟨ds, rfl⟩
        exact sdbDiffNsA_finding hle (ctx.found ds) ha hb hn
          (fun ctx ha hb hn ↦ ih hle ctx ha hb hn) hns
      have hstep₂ : ∀ ns ∈ h.nss ctx.b, ∀ ctx', ctx.Since ctx' →
          ∃ r, sdbDiffNsB h fuel ctx' ns = some r ∧ Finding ctx' (h.nsAdded d ctx.a ns) r := by
        rintro ns hns ctx' ⟨ds, rfl⟩
        exact sdbDiffNsB_finding hle (ctx.found ds) ha hb hn hns
      have hstep₃ : ∀ p ∈ h.pairs ctx.a, ∀ ctx', ctx.Since ctx' →
          Finding ctx' (h.pairRemoved ctx.b p) (sdbDiffKvCb h w false ctx' p.1 (some p.2)) := by
        rintro p - ctx' ⟨ds, rfl⟩
        exact sdbDiffKvCb_removed w (ctx.found ds) hb p
      have hstep₄ : ∀ p ∈ h.pairs ctx.b, ∀ ctx', ctx.Since ctx' →
          Finding ctx' (h.pairAdded ctx.a p) (sdbDiffKvCb h w true ctx' p.1 (some p.2)) := by
        rintro p - ctx' ⟨ds, rfl⟩
        exact sdbDiffKvCb_added w (ctx.found ds) ha p
      rw [Heap.diffItems_succ]
      obtain ⟨r₁, hr₁, hfind₁⟩ := nsLoop_finding _ hstep₁ (.refl ctx)
      rw [sdbDiffCtx, hr₁]
      simp only [Option.bind_eq_bind, Option.bind_some, Option.pure_def]
      by_cases hgo₁ : r₁.1 = true
      swap
      · rw [if_pos (by simpa using hgo₁)]
        exact congrArg some (hfind₁.stop hgo₁ _).1
      have hb₁ : r₁.2.b = ctx.b := by rw [hfind₁.1]; rfl
      obtain ⟨r₂, hr₂, hfind₂⟩ := nsLoop_finding _ hstep₂ ⟨_, hfind₁.1⟩
      have hfind₂ := hfind₁.append hfind₂
      rw [if_neg (by simp [hgo₁]), hb₁, hr₂]
      simp only [Option.bind_some]
      rw [← List.append_assoc]
      by_cases hgo₂ : r₂.1 = true
      swap
      · rw [if_pos (by simpa using hgo₂)]
        exact congrArg some (hfind₂.stop hgo₂ _).1
      have ha₂ : r₂.2.a = ctx.a := by rw [hfind₂.1]; rfl
      have hfind₃ := hfind₂.append (foreachLoop_finding hstep₃ ⟨_, hfind₂.1⟩)
      rw [if_neg (by simp [hgo₂]), ha₂, heapForeach_eq ha, ← List.append_assoc]
      generalize foreachLoop (fun ctx p ↦ sdbDiffKvCb h w false ctx p.1 (some p.2)) (h.pairs ctx.a)
        r₂.2 = r₃ at hfind₃ ⊢
      by_cases hgo₃ : r₃.1 = true
      swap
      · rw [if_pos (by simpa using hgo₃)]
        exact congrArg some (hfind₃.stop hgo₃ _).1
      have hb₃ : r₃.2.b = ctx.b := by rw [hfind₃.1]; rfl
      rw [if_neg (by simp [hgo₃]), hb₃, heapForeach_eq hb]
      exact congrArg some (hfind₃.append (foreachLoop_finding hstep₄ ⟨_, hfind₃.1⟩)).1

/-- The calls of the callback. -/
def Heap.diffCalls (h : Heap) (d : Nat) (a b : Ref) : List SdbDiff :=
  (h.diffItems d a b).map fun x ↦ x.1.toDiff [] x.2

/-- `sdb_diff` with and without a callback. -/
theorem sdbDiff_eq {h : Heap} (w : World) {d fuel : Nat} (hd : d ≤ fuel) {a b : Ref}
    (ha : h.Branch d a) (hb : h.Branch d b) (hn : h.NamesApart a b) (cb : Bool) :
    sdbDiff h w fuel a b cb =
      some ((h.diffItems d a b).isEmpty, if cb then h.diffCalls d a b else []) := by
  have hctx := sdbDiffCtx_eq w hd ⟨a, b, true, [], cb, []⟩ ha hb hn
  rw [sdbDiff, hctx]
  rfl

/-! ## What the differences are -/

/-- An item that `sdb_ns` can get at: no name on the way to it is empty. -/
def NsItem.Named (i : NsItem) : Prop :=
  (∀ name ∈ i.path, name ≠ CStr.empty) ∧ (i.v = none → i.k ≠ CStr.empty)

theorem NsItem.named_ns (name : CStr) : NsItem.Named ⟨[], name, none⟩ ↔ name ≠ CStr.empty := by
  simp [NsItem.Named]

theorem NsItem.named_pair (k v : CStr) : NsItem.Named ⟨[], k, some v⟩ := by
  simp [NsItem.Named]

theorem NsItem.named_push (name : CStr) (i : NsItem) :
    (i.push name).Named ↔ name ≠ CStr.empty ∧ i.Named := by
  simp [NsItem.Named, NsItem.push, and_assoc]

/-- An item is a difference when one tree has it and it cannot be got at in the other. -/
def Heap.Differs (h : Heap) (a b : Ref) (x : NsItem × Bool) : Prop :=
  if x.2 then h.Holds b x.1 ∧ ¬ (h.Holds a x.1 ∧ x.1.Named)
  else h.Holds a x.1 ∧ ¬ (h.Holds b x.1 ∧ x.1.Named)

theorem Heap.nsChild_isSome_iff (h : Heap) (s : Ref) (name : CStr) :
    (h.nsChild s name).isSome ↔ (h.child s name).isSome ∧ name ≠ CStr.empty := by
  rw [Heap.nsChild]
  split
  · next hne => simp [hne]
  · next hne => simp [hne]

/-- Where `sdb_ns` finds no namespace, nothing below it can be got at. -/
theorem Heap.not_holds_of_nsChild {h : Heap} {s : Ref} {name : CStr} (hc : h.nsChild s name = none)
    {i : NsItem} (hi : i.head = some name) : ¬ (h.Holds s i ∧ i.Named) := by
  have hnone : ¬ ((h.child s name).isSome ∧ name ≠ CStr.empty) := by
    rw [← h.nsChild_isSome_iff, hc]
    simp
  rintro ⟨hh, hnamed⟩
  rcases i.cases with ⟨name', rfl⟩ | ⟨name', i', rfl⟩ | ⟨k, v, rfl⟩
  · obtain rfl := Option.some.inj hi
    exact hnone ⟨(h.holds_ns s name').mp hh, (NsItem.named_ns name').mp hnamed⟩
  · obtain rfl := Option.some.inj hi
    obtain ⟨r, hr, -⟩ := (h.holds_push s name' i').mp hh
    exact hnone ⟨by rw [hr]; rfl, ((NsItem.named_push name' i').mp hnamed).1⟩
  · cases hi

theorem NsItem.head_eq_none {i : NsItem} : i.head = none ↔ ∃ k v, i = ⟨[], k, some v⟩ := by
  constructor
  · intro hi
    rcases i.cases with ⟨name, rfl⟩ | ⟨name, i', rfl⟩ | hpair
    · cases hi
    · cases hi
    · exact hpair
  · rintro ⟨k, v, rfl⟩
    rfl

theorem Heap.differs_pair (h : Heap) (a b : Ref) (k v : CStr) (add : Bool) :
    h.Differs a b (⟨[], k, some v⟩, add) ↔
      if add then h.value b k = some v ∧ h.value a k ≠ some v
      else h.value a k = some v ∧ h.value b k ≠ some v := by
  simp only [Heap.Differs, Heap.holds_pair, NsItem.named_pair, and_true, ne_eq]

theorem mem_pairRemoved {h : Heap} {b : Ref} {p : CStr × CStr} {x : NsItem × Bool} :
    x ∈ h.pairRemoved b p ↔ h.value b p.1 ≠ some p.2 ∧ (x = (⟨[], p.1, some p.2⟩, false) ∨
      ∃ v, h.value b p.1 = some v ∧ x = (⟨[], p.1, some v⟩, true)) := by
  rw [Heap.pairRemoved]
  cases h.value b p.1 with
  | none => simp
  | some v =>
      dsimp only
      split
      · next heq => simp [heq]
      · next heq =>
          have hne : v ≠ p.2 := fun h ↦ heq h.symm
          simp [hne]

theorem mem_pairAdded {h : Heap} {a : Ref} {p : CStr × CStr} {x : NsItem × Bool} :
    x ∈ h.pairAdded a p ↔ h.value a p.1 = none ∧ x = (⟨[], p.1, some p.2⟩, true) := by
  rw [Heap.pairAdded]
  cases h.value a p.1 with
  | none => simp
  | some v => simp

section Pairs

variable {h : Heap} {d : Nat} {a b : Ref} (ha : h.Branch (d + 1) a) (hb : h.Branch (d + 1) b)
include ha hb

/-- The differences between the pairs of two databases. -/
theorem mem_pairDiffs (x : NsItem × Bool) :
    x ∈ (h.pairs a).flatMap (h.pairRemoved b) ++ (h.pairs b).flatMap (h.pairAdded a) ↔
      x.1.head = none ∧ h.Differs a b x := by
  rw [List.mem_append, List.mem_flatMap, List.mem_flatMap]
  constructor
  · rintro (⟨⟨k, v⟩, hp, hx⟩ | ⟨⟨k, v⟩, hp, hx⟩)
    · obtain ⟨hne, rfl | ⟨v', hv', rfl⟩⟩ := mem_pairRemoved.mp hx
      · exact ⟨rfl, (h.differs_pair a b k v false).mpr ⟨ha.mem_pairs.mp hp, hne⟩⟩
      · refine ⟨rfl, (h.differs_pair a b k v' true).mpr ⟨hv', ?_⟩⟩
        rw [ha.mem_pairs.mp hp, ← hv']
        exact hne.symm
    · obtain ⟨hnone, rfl⟩ := mem_pairAdded.mp hx
      refine ⟨rfl, (h.differs_pair a b k v true).mpr ⟨hb.mem_pairs.mp hp, ?_⟩⟩
      rw [show h.value a k = none from hnone]
      exact (Option.some_ne_none v).symm
  · obtain ⟨i, add⟩ := x
    rintro ⟨hhead, hdiff⟩
    obtain ⟨k, v, rfl⟩ := NsItem.head_eq_none.mp hhead
    rw [h.differs_pair] at hdiff
    cases add with
    | false =>
        rw [if_neg (by decide)] at hdiff
        exact .inl ⟨(k, v), ha.mem_pairs.mpr hdiff.1, mem_pairRemoved.mpr ⟨hdiff.2, .inl rfl⟩⟩
    | true =>
        rw [if_pos rfl] at hdiff
        cases hva : h.value a k with
        | none => exact .inr ⟨(k, v), hb.mem_pairs.mpr hdiff.1, mem_pairAdded.mpr ⟨hva, rfl⟩⟩
        | some v' =>
            refine .inl ⟨(k, v'), ha.mem_pairs.mpr hva,
              mem_pairRemoved.mpr ⟨?_, .inr ⟨v, hdiff.1, rfl⟩⟩⟩
            rw [hdiff.1, ← hva]
            exact hdiff.2.symm

/-- Each of them is found once. -/
theorem nodup_pairDiffs :
    ((h.pairs a).flatMap (h.pairRemoved b) ++ (h.pairs b).flatMap (h.pairAdded a)).Nodup := by
  refine List.Nodup.append
    (Keyed.nodup_flatMap_of_key ha.nodup_pairs ?_ (fun x ↦ x.1.k) ?_)
    (Keyed.nodup_flatMap_of_key hb.nodup_pairs ?_ (fun x ↦ x.1.k) ?_) ?_
  · intro p _
    rw [Heap.pairRemoved]
    split
    · exact List.nodup_singleton _
    · split
      · exact List.nodup_nil
      · simp
  · intro p _ x hx
    obtain ⟨-, rfl | ⟨v, -, rfl⟩⟩ := mem_pairRemoved.mp hx
    · rfl
    · rfl
  · intro p _
    rw [Heap.pairAdded]
    split
    · exact List.nodup_singleton _
    · exact List.nodup_nil
  · intro p _ x hx
    obtain ⟨-, rfl⟩ := mem_pairAdded.mp hx
    rfl
  · intro x hx hx'
    obtain ⟨p, hp, hx⟩ := List.mem_flatMap.mp hx
    obtain ⟨q, -, hx'⟩ := List.mem_flatMap.mp hx'
    obtain ⟨hnone, rfl⟩ := mem_pairAdded.mp hx'
    obtain ⟨-, heq | ⟨v, -, heq⟩⟩ := mem_pairRemoved.mp hx
    · exact nomatch congrArg Prod.snd heq
    · have hk : q.1 = p.1 := congrArg (fun x ↦ x.1.k) heq
      have hsome := ha.mem_pairs.mp hp
      rw [← hk, hnone] at hsome
      cases hsome

end Pairs

section Namespaces

variable {h : Heap} {d : Nat} {a b : Ref} {ns : SdbNs}

/-- The differences at a namespace of the second tree that the first does not have. -/
theorem mem_nsAdded (hb : h.Branch (d + 1) b) (hns : ns ∈ h.nss b) (x : NsItem × Bool) :
    x ∈ h.nsAdded d a ns ↔ h.nsChild a ns.name = none ∧ x.2 = true ∧ x.1.head = some ns.name ∧
      h.Differs a b x := by
  obtain ⟨i, add⟩ := x
  have hcont := mem_nsContents (fun i ↦ (hb.nss.2 ns hns).mem_contents i) (hb.child_eq_some hns) i
  rw [Heap.nsAdded]
  cases hc : h.nsChild a ns.name with
  | some r => simp
  | none =>
      simp only [Option.isNone_none, if_true, List.mem_map, Prod.mk.injEq, true_and]
      constructor
      · rintro ⟨i', hi', rfl, rfl⟩
        obtain ⟨hhead, hh⟩ := hcont.mp hi'
        exact ⟨rfl, hhead, hh, Heap.not_holds_of_nsChild hc hhead⟩
      · rintro ⟨rfl, hhead, hh, -⟩
        exact ⟨i, hcont.mpr ⟨hhead, hh⟩, rfl, rfl⟩

/-- The differences at a namespace of the first tree. -/
theorem mem_nsRemoved (ha : h.Branch (d + 1) a) (hdiff : ∀ r, h.child b ns.name = some r → ∀ x,
      x ∈ h.diffItems d ns.sdb r ↔ h.Differs ns.sdb r x) (hns : ns ∈ h.nss a) (x : NsItem × Bool) :
    x ∈ h.nsRemoved d b ns ↔ (h.nsChild b ns.name = none → x.2 = false) ∧
      x.1.head = some ns.name ∧ h.Differs a b x := by
  obtain ⟨i, add⟩ := x
  have hchild := ha.child_eq_some hns
  rw [Heap.nsRemoved]
  cases hc : h.nsChild b ns.name with
  | none =>
      have hcont := mem_nsContents (fun i ↦ (ha.nss.2 ns hns).mem_contents i) hchild i
      simp only [List.mem_map, Prod.mk.injEq, true_implies]
      constructor
      · rintro ⟨i', hi', rfl, rfl⟩
        obtain ⟨hhead, hh⟩ := hcont.mp hi'
        exact ⟨rfl, hhead, hh, Heap.not_holds_of_nsChild hc hhead⟩
      · rintro ⟨rfl, hhead, hh, -⟩
        exact ⟨i, hcont.mpr ⟨hhead, hh⟩, rfl, rfl⟩
  | some r =>
      have hsome := (h.nsChild_isSome_iff b ns.name).mp (by rw [hc]; rfl)
      have hr : h.child b ns.name = some r := by
        rw [Heap.nsChild, if_neg hsome.2] at hc
        exact hc
      simp only [List.mem_map, reduceCtorEq, false_implies, true_and]
      rcases i.cases with ⟨name, rfl⟩ | ⟨name, i', rfl⟩ | ⟨k, v, rfl⟩
      · -- the namespace itself is in both trees
        refine iff_of_false ?_ ?_
        · rintro ⟨y, -, heq⟩
          exact absurd (congrArg (fun x ↦ x.1.path) heq) (List.cons_ne_nil _ _)
        · rintro ⟨hhead, hdiffers⟩
          obtain rfl : name = ns.name := Option.some.inj hhead
          have hha := (h.holds_ns a ns.name).mpr (by rw [hchild]; rfl)
          have hhb := (h.holds_ns b ns.name).mpr hsome.1
          have hnamed := (NsItem.named_ns ns.name).mpr hsome.2
          cases add with
          | false => exact hdiffers.2 ⟨hhb, hnamed⟩
          | true => exact hdiffers.2 ⟨hha, hnamed⟩
      · have hiff : name = ns.name →
            (h.Differs a b (i'.push name, add) ↔ h.Differs ns.sdb r (i', add)) := by
          rintro rfl
          simp only [Heap.Differs, h.holds_push, NsItem.named_push, hchild, hr, Option.some.injEq,
            exists_eq_left', hsome.2, ne_eq, not_false_eq_true, true_and]
        constructor
        · rintro ⟨⟨i'', add'⟩, hy, heq⟩
          have hi : i''.push ns.name = i'.push name := congrArg Prod.fst heq
          obtain rfl : add' = add := congrArg Prod.snd heq
          obtain rfl : ns.name = name := (List.cons.inj (congrArg NsItem.path hi)).1
          obtain rfl := NsItem.push_injective _ hi
          exact ⟨rfl, (hiff rfl).mpr ((hdiff r hr _).mp hy)⟩
        · rintro ⟨hhead, hdiffers⟩
          obtain rfl := Option.some.inj hhead
          exact ⟨(i', add), (hdiff r hr _).mpr ((hiff rfl).mp hdiffers), rfl⟩
      · refine iff_of_false ?_ (fun h ↦ nomatch h.1)
        rintro ⟨y, -, heq⟩
        exact absurd (congrArg (fun x ↦ x.1.path) heq) (List.cons_ne_nil _ _)

end Namespaces

/-- The differences that are found. -/
theorem mem_diffItems {h : Heap} {d : Nat} {a b : Ref} (ha : h.Branch d a) (hb : h.Branch d b)
    (x : NsItem × Bool) : x ∈ h.diffItems d a b ↔ h.Differs a b x := by
  induction d generalizing a b x with
  | zero => exact ha.elim
  | succ d ih =>
      have hrem : ∀ ns ∈ h.nss a, ∀ x, x ∈ h.nsRemoved d b ns ↔ _ := fun ns hns ↦
        mem_nsRemoved ha (fun r hr ↦ by
          obtain ⟨ns', hns', -, rfl⟩ := Heap.mem_of_child hr
          exact ih (ha.nss.2 ns hns) (hb.nss.2 ns' hns')) hns
      have hadd : ∀ ns ∈ h.nss b, ∀ x, x ∈ h.nsAdded d a ns ↔ _ := fun ns hns ↦ mem_nsAdded hb hns
      rw [h.diffItems_succ, List.mem_append, List.mem_append, mem_pairDiffs ha hb,
        List.mem_flatMap, List.mem_flatMap]
      constructor
      · rintro (⟨ns, hns, hx⟩ | ⟨ns, hns, hx⟩ | hx)
        · exact ((hrem ns hns x).mp hx).2.2
        · exact ((hadd ns hns x).mp hx).2.2.2
        · exact hx.2
      · intro hx
        obtain ⟨i, add⟩ := x
        rcases hhead : i.head with _ | name
        · exact .inr (.inr ⟨rfl, hx⟩)
        · cases add with
            | false =>
                obtain ⟨ns, hns, rfl⟩ := Heap.Branch.exists_ns hhead hx.1
                exact .inl ⟨ns, hns, (hrem ns hns _).mpr ⟨fun _ ↦ rfl, hhead, hx⟩⟩
            | true =>
                obtain ⟨ns', hns', rfl⟩ := Heap.Branch.exists_ns hhead hx.1
                cases hc : h.nsChild a ns'.name with
                | none => exact .inr (.inl ⟨ns', hns', (hadd ns' hns' _).mpr ⟨hc, rfl, hhead, hx⟩⟩)
                | some r =>
                    -- both trees have the namespace
                    have hsome := (h.nsChild_isSome_iff a ns'.name).mp (by rw [hc]; rfl)
                    obtain ⟨r', hr'⟩ := Option.isSome_iff_exists.mp hsome.1
                    obtain ⟨ns, hns, hname, -⟩ := Heap.mem_of_child hr'
                    refine .inl ⟨ns, hns, (hrem ns hns _).mpr ⟨fun hnone ↦ ?_, ?_, hx⟩⟩
                    · rw [hname, Heap.nsChild, if_neg hsome.2, hb.child_eq_some hns'] at hnone
                      cases hnone
                    · rw [hname]
                      exact hhead

theorem nodup_diffItems {h : Heap} {d : Nat} {a b : Ref} (ha : h.Branch d a) (hb : h.Branch d b) :
    (h.diffItems d a b).Nodup := by
  induction d generalizing a b with
  | zero => exact ha.elim
  | succ d ih =>
      have hrem : ∀ ns ∈ h.nss a, ∀ x, x ∈ h.nsRemoved d b ns ↔ _ := fun ns hns ↦
        mem_nsRemoved ha (fun r hr ↦ by
          obtain ⟨ns', hns', -, rfl⟩ := Heap.mem_of_child hr
          exact mem_diffItems (ha.nss.2 ns hns) (hb.nss.2 ns' hns')) hns
      have hadd : ∀ ns ∈ h.nss b, ∀ x, x ∈ h.nsAdded d a ns ↔ _ := fun ns hns ↦ mem_nsAdded hb hns
      have htag : ∀ add : Bool, Function.Injective fun i : NsItem ↦ (i, add) := fun add i i' heq ↦
        congrArg Prod.fst heq
      rw [h.diffItems_succ]
      refine List.Nodup.append ?_ (List.Nodup.append ?_ (nodup_pairDiffs ha hb) ?_) ?_
      · refine Keyed.nodup_flatMap_of_key ha.nss.1.nodup_heads (fun ns hns ↦ ?_)
          (fun x ↦ x.1.head) fun ns hns x hx ↦ ((hrem ns hns x).mp hx).2.1
        rw [Heap.nsRemoved]
        split
        · exact (nodup_nsContents (ha.nss.2 ns hns).nodup_contents).map (htag false)
        · next r hr =>
            have hsome := (h.nsChild_isSome_iff b ns.name).mp (by rw [hr]; rfl)
            rw [Heap.nsChild, if_neg hsome.2] at hr
            obtain ⟨ns', hns', -, rfl⟩ := Heap.mem_of_child hr
            refine (ih (ha.nss.2 ns hns) (hb.nss.2 ns' hns')).map ?_
            rintro ⟨i, add⟩ ⟨i', add'⟩ heq
            have hi : i.push ns.name = i'.push ns.name := congrArg Prod.fst heq
            obtain rfl : add = add' := congrArg Prod.snd heq
            rw [NsItem.push_injective _ hi]
      · refine Keyed.nodup_flatMap_of_key hb.nss.1.nodup_heads (fun ns hns ↦ ?_)
          (fun x ↦ x.1.head) fun ns hns x hx ↦ ((hadd ns hns x).mp hx).2.2.1
        rw [Heap.nsAdded]
        split
        · exact (nodup_nsContents (hb.nss.2 ns hns).nodup_contents).map (htag true)
        · exact List.nodup_nil
      · intro x hx hx'
        obtain ⟨ns, hns, hx⟩ := List.mem_flatMap.mp hx
        have hhead := ((hadd ns hns x).mp hx).2.2.1
        rw [((mem_pairDiffs ha hb x).mp hx').1] at hhead
        cases hhead
      · intro x hx hx'
        obtain ⟨ns, hns, hx⟩ := List.mem_flatMap.mp hx
        obtain ⟨hflag, hhead, -⟩ := (hrem ns hns x).mp hx
        rcases List.mem_append.mp hx' with hx' | hx'
        · obtain ⟨ns', hns', hx'⟩ := List.mem_flatMap.mp hx'
          obtain ⟨hnone, htrue, hhead', -⟩ := (hadd ns' hns' x).mp hx'
          obtain hname : ns.name = ns'.name := Option.some.inj (hhead.symm.trans hhead')
          -- an addition below a namespace of the first tree is below a name that is not empty
          have hne : ns.name ≠ CStr.empty := by
            intro hempty
            have hfalse := hflag (by rw [Heap.nsChild, if_pos hempty])
            rw [htrue] at hfalse
            cases hfalse
          rw [Heap.nsChild, ← hname, if_neg hne, ha.child_eq_some hns] at hnone
          cases hnone
        · rw [((mem_pairDiffs ha hb x).mp hx').1] at hhead
          cases hhead

/-! ## Whether the comparison is right -/

/-- Two trees have the same namespaces and the same pairs in each. -/
def Heap.SameTree (h : Heap) (a b : Ref) : Prop := ∀ i, h.Holds a i ↔ h.Holds b i

/-- The difference the other way round. -/
def SdbDiff.flip (x : SdbDiff) : SdbDiff := { x with add := !x.add }

/-- `sdb_diff` decides whether two trees are the same, with a callback and without, and reports
exactly what is in one of them only, each item once; the other way round it reports the same
with the signs swapped. -/
def DiffDecides (h : Heap) (w : World) (a b : Ref) : Prop :=
  ∃ n eq out out', (∀ fuel, n ≤ fuel →
      sdbDiff h w fuel a b true = some (eq, out) ∧ sdbDiff h w fuel a b false = some (eq, []) ∧
      sdbDiff h w fuel b a true = some (eq, out')) ∧
    (eq = true ↔ h.SameTree a b) ∧ out.Nodup ∧ out'.Perm (out.map SdbDiff.flip) ∧
    ∀ i, (i.toDiff [] false ∈ out ↔ h.Holds a i ∧ ¬ h.Holds b i) ∧
      (i.toDiff [] true ∈ out ↔ h.Holds b i ∧ ¬ h.Holds a i)

/-- A namespace without a name in the same place of both trees. -/
def Heap.ShareUnnamed (h : Heap) (a b : Ref) : Prop :=
  ∃ p, (h.walk a (p ++ [CStr.empty])).isSome ∧ (h.walk b (p ++ [CStr.empty])).isSome

theorem toDiff_injective : Function.Injective fun x : NsItem × Bool ↦ x.1.toDiff [] x.2 := by
  rintro ⟨⟨p, k, v⟩, add⟩ ⟨⟨p', k', v'⟩, add'⟩ heq
  simpa [NsItem.toDiff, and_assoc] using heq

theorem toDiff_mem_diffCalls {h : Heap} {d : Nat} {a b : Ref} {i : NsItem} {add : Bool} :
    i.toDiff [] add ∈ h.diffCalls d a b ↔ (i, add) ∈ h.diffItems d a b :=
  List.mem_map_of_injective toDiff_injective (a := (i, add))

/-- The other way round additions are removals. -/
theorem diffItems_swap {h : Heap} {d : Nat} {a b : Ref} (ha : h.Branch d a) (hb : h.Branch d b) :
    (h.diffItems d b a).Perm ((h.diffItems d a b).map fun x ↦ (x.1, !x.2)) := by
  have hinj : Function.Injective fun x : NsItem × Bool ↦ (x.1, !x.2) := by
    rintro ⟨i, add⟩ ⟨i', add'⟩ heq
    simpa using heq
  rw [List.perm_ext_iff_of_nodup (nodup_diffItems hb ha) ((nodup_diffItems ha hb).map hinj)]
  rintro ⟨i, add⟩
  have hmem : (i, add) ∈ (h.diffItems d a b).map (fun x ↦ (x.1, !x.2)) ↔
      (i, !add) ∈ h.diffItems d a b := by
    have h := List.mem_map_of_injective hinj (a := (i, !add)) (l := h.diffItems d a b)
    rwa [Bool.not_not] at h
  rw [hmem, mem_diffItems hb ha, mem_diffItems ha hb]
  cases add with
  | false => rfl
  | true => rfl

theorem diffCalls_swap {h : Heap} {d : Nat} {a b : Ref} (ha : h.Branch d a) (hb : h.Branch d b) :
    (h.diffCalls d b a).Perm ((h.diffCalls d a b).map SdbDiff.flip) := by
  have hp := (diffItems_swap ha hb).map fun x ↦ x.1.toDiff [] x.2
  rw [List.map_map] at hp
  rw [Heap.diffCalls, Heap.diffCalls, List.map_map]
  exact hp

theorem Heap.walk_isSome_of_append {h : Heap} {s : Ref} {p q : List CStr}
    (hw : (h.walk s (p ++ q)).isSome) : (h.walk s p).isSome := by
  rw [h.walk_append] at hw
  cases hp : h.walk s p with
  | none => simp [hp] at hw
  | some r => rfl

/-- Without such a namespace every item that both trees have can be got at. -/
theorem named_of_not_shareUnnamed {h : Heap} {a b : Ref} (hno : ¬ h.ShareUnnamed a b) {i : NsItem}
    (hha : h.Holds a i) (hhb : h.Holds b i) : i.Named := by
  have hwalk : ∀ {s}, h.Holds s i →
      (h.walk s i.path).isSome ∧ (i.v = none → (h.walk s (i.path ++ [i.k])).isSome) := by
    intro s hh
    obtain ⟨p, k, _ | v⟩ := i
    · exact ⟨Heap.walk_isSome_of_append (show (h.walk s (p ++ [k])).isSome from hh), fun _ ↦ hh⟩
    · refine ⟨?_, fun hv ↦ nomatch hv⟩
      obtain ⟨r, hr, -⟩ := Option.bind_eq_some_iff.mp
        (show ((h.walk s p).bind fun r ↦ h.value r k) = some v from hh)
      rw [show h.walk s p = some r from hr]
      rfl
  constructor
  · rintro name hname rfl
    obtain ⟨p, q, hpath⟩ := List.append_of_mem hname
    rw [← List.singleton_append, ← List.append_assoc] at hpath
    have hwa := (hwalk hha).1
    have hwb := (hwalk hhb).1
    rw [hpath] at hwa hwb
    exact hno ⟨p, Heap.walk_isSome_of_append hwa, Heap.walk_isSome_of_append hwb⟩
  · rintro hv hk
    have hwa := (hwalk hha).2 hv
    have hwb := (hwalk hhb).2 hv
    rw [hk] at hwa hwb
    exact hno ⟨i.path, hwa, hwb⟩

/-- `sdb_diff` is right exactly when no place of both trees has a namespace without a name. -/
theorem diffDecides_iff {h : Heap} (w : World) {d : Nat} {a b : Ref} (ha : h.Branch d a)
    (hb : h.Branch d b) (hn : h.NamesApart a b) :
    DiffDecides h w a b ↔ ¬ h.ShareUnnamed a b := by
  constructor
  · rintro ⟨n, eq, out, out', hrun, -, -, -, hmem⟩ ⟨p, hwa, hwb⟩
    -- the namespace without a name is reported, though both trees have it
    have hrun := (hrun (max n d) (Nat.le_max_left _ _)).1
    rw [sdbDiff_eq w (Nat.le_max_right _ _) ha hb hn, if_pos rfl, Option.some.injEq,
      Prod.mk.injEq] at hrun
    have hx := (hmem ⟨p, CStr.empty, none⟩).1
    rw [← hrun.2, toDiff_mem_diffCalls, mem_diffItems ha hb] at hx
    exact (hx.mp ⟨hwa, fun hnamed ↦ hnamed.2.2 rfl rfl⟩).2 hwb
  · intro hno
    have hdiff : ∀ i add, (i, add) ∈ h.diffItems d a b ↔
        if add then h.Holds b i ∧ ¬ h.Holds a i else h.Holds a i ∧ ¬ h.Holds b i := by
      intro i add
      rw [mem_diffItems ha hb]
      cases add with
      | false =>
          refine and_congr_right fun hha ↦ not_congr (and_iff_left_of_imp fun hhb ↦ ?_)
          exact named_of_not_shareUnnamed hno hha hhb
      | true =>
          refine and_congr_right fun hhb ↦ not_congr (and_iff_left_of_imp fun hha ↦ ?_)
          exact named_of_not_shareUnnamed hno hha hhb
    have hempty : (h.diffItems d b a).isEmpty = (h.diffItems d a b).isEmpty := by
      rw [(diffItems_swap ha hb).isEmpty_eq, List.isEmpty_map]
    refine ⟨d, (h.diffItems d a b).isEmpty, h.diffCalls d a b, h.diffCalls d b a,
      fun fuel hfuel ↦ ⟨?_, ?_, ?_⟩, ?_, ?_, diffCalls_swap ha hb, fun i ↦ ⟨?_, ?_⟩⟩
    · rw [sdbDiff_eq w hfuel ha hb hn, if_pos rfl]
    · rw [sdbDiff_eq w hfuel ha hb hn, if_neg (by decide)]
    · rw [sdbDiff_eq w hfuel hb ha hn.symm, if_pos rfl, hempty]
    · rw [List.isEmpty_iff, List.eq_nil_iff_forall_not_mem]
      constructor
      · intro hall i
        have hfalse := hall (i, false)
        have htrue := hall (i, true)
        rw [hdiff, if_neg (by decide)] at hfalse
        rw [hdiff, if_pos rfl] at htrue
        tauto
      · rintro hsame ⟨i, add⟩ hx
        rw [hdiff, hsame i] at hx
        cases add with
        | false => exact hx.2 hx.1
        | true => exact hx.2 hx.1
    · exact (nodup_diffItems ha hb).map toDiff_injective
    · rw [toDiff_mem_diffCalls, hdiff, if_neg (by decide)]
    · rw [toDiff_mem_diffCalls, hdiff, if_pos rfl]

theorem inMemory_new (ns : Option (List SdbNs)) :
    SdbNode.InMemory { sdbNode0 with ns := ns } := ⟨sound_of_htNew rfl, ⟨rfl, rfl⟩, rfl⟩

/-- Two databases, the first with a pair and the second with a namespace. -/
def heapPair : Heap :=
  [{ sdbNode0 with sdb := (sdbSet sdbNew0 .empty (CStr.ofBytes [97]) (CStr.ofBytes [49]) 0).2.1 },
   { sdbNode0 with ns := some [⟨CStr.ofBytes [110], sdbHash (CStr.ofBytes [110]), 2⟩] }, sdbNode0]

theorem diffDecides_heapPair : DiffDecides heapPair .empty 0 1 := by
  have hplain := (plain_sdbNode0 none).set .empty (show CStr.ofBytes [97] ≠ CStr.empty by decide)
    (show CStr.ofBytes [49] ≠ CStr.empty by decide) 0
  have ha : heapPair.Branch 2 0 :=
    ⟨_, rfl, ⟨hplain.sound, hplain.bare, hplain.unmapped⟩, nsList_nil, nofun⟩
  have hb : heapPair.Branch 2 1 := by
    refine ⟨_, rfl, inMemory_new _, ⟨?_, List.nodup_singleton _⟩, ?_⟩
    · intro ns hns
      rw [List.mem_singleton.mp hns]
    · intro ns hns
      rw [List.mem_singleton.mp hns]
      exact ⟨sdbNode0, rfl, inMemory_new _, nsList_nil, nofun⟩
  have hleaf : ∀ p x, heapPair.walk 0 p = some x → p = [] ∧ x = 0 := by
    rintro (_ | ⟨name, p⟩) x hx
    · exact ⟨rfl, (Option.some.inj hx).symm⟩
    · cases hx
  have hn : heapPair.NamesApart 0 1 := by
    intro p x y hx _ ns hns
    obtain ⟨rfl, rfl⟩ := hleaf p x hx
    cases hns
  refine (diffDecides_iff .empty ha hb hn).mpr ?_
  rintro ⟨p, hp, -⟩
  obtain ⟨x, hx⟩ := Option.isSome_iff_exists.mp hp
  exact absurd (hleaf _ x hx).1 (by simp)

/-- A database with a namespace that `sdb_ns_set` has given no name. -/
def heapUnnamed : Heap := (sdbNsSet [sdbNode0, sdbNode0] 0 CStr.empty 1).2

/-- Such a database is different from itself. -/
theorem not_diffDecides_heapUnnamed : ¬ DiffDecides heapUnnamed .empty 0 0 := by
  have hleaf : heapUnnamed.Branch 1 1 := ⟨sdbNode0, rfl, inMemory_new _, nsList_nil, nofun⟩
  have ha : heapUnnamed.Branch 2 0 := by
    refine ⟨_, rfl, inMemory_new _, ⟨?_, List.nodup_singleton _⟩, ?_⟩
    · intro ns hns
      rw [List.mem_singleton.mp hns]
    · intro ns hns
      rw [List.mem_singleton.mp hns]
      exact hleaf
  rintro ⟨n, eq, out, out', hrun, heq, -⟩
  have hrun := (hrun (max n 2) (Nat.le_max_left _ _)).1
  rw [sdbDiff_eq .empty (Nat.le_max_right _ _) ha ha ha.namesApart, Option.some.injEq,
    Prod.mk.injEq] at hrun
  rw [← hrun.1] at heq
  exact absurd (heq.mpr fun i ↦ Iff.rfl) (by decide)

end SdbStore
