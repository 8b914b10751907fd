import SdbStore.NsSync

/-!
# Locks of namespaces

`sdb_ns_lock` of `ns.c` keeps a database, and those below it down to a depth, from getting new
namespaces.  Nothing is asked of the namespaces here: a database may be in several places, and there
may be cycles.  Without a depth the call does not come back from a cycle (`nsLock_reaches`).
-/

namespace SdbStore

/-- A database with its lock set. -/
def SdbNode.withLock (node : SdbNode) (lock : Bool) : SdbNode := { node with nsLock := lock }

/-- `sdb_ns_lock`.  A negative depth is not used up. -/
def sdbNsLock : Nat → Heap → Ref → Bool → Int → Option Heap
  | 0, _, _, _, _ => none
  | fuel + 1, h, s, lock, depth =>
      let h' : Heap := h.modify s (·.withLock lock)
      if depth = 0 then some h'
      else (Heap.nss h' s).foldlM (fun h ns ↦ sdbNsLock fuel h ns.sdb lock (depth - 1)) h'

/-! ## The lock -/

/-- The databases that are at most `depth` steps below a database; all that are below it if `depth`
is negative. -/
inductive Heap.Within (h : Heap) : Int → Ref → Ref → Prop
  | here (depth : Int) (s : Ref) : Within h depth s s
  | child {depth : Int} {s r t : Ref} (hd : depth ≠ 0) (hc : h.Child s r)
      (hw : Within h (depth - 1) r t) :
      Within h depth s t

/-- The lock of some of the databases has been set, and nothing else. -/
structure Relocked (lock : Bool) (L : Ref → Prop) (h h' : Heap) : Prop where
  length : h'.length = h.length
  inside : ∀ t, L t → h'[t]? = h[t]?.map (·.withLock lock)
  outside : ∀ t, ¬L t → h'[t]? = h[t]?

theorem SameNss.within {h h' : Heap} (hs : SameNss h h') {depth : Int} {s t : Ref} :
    h'.Within depth s t ↔ h.Within depth s t := by
  constructor
  · intro hw
    induction hw with
    | here depth s => exact .here depth s
    | child hd hc _ ih =>
        rw [Heap.Child, hs.nss] at hc
        exact .child hd hc ih
  · intro hw
    induction hw with
    | here depth s => exact .here depth s
    | child hd hc _ ih =>
        rw [Heap.Child, ← hs.nss] at hc
        exact .child hd hc ih

/-- The databases within a depth are the database and those within a smaller depth of its
namespaces. -/
theorem Heap.within_iff {h : Heap} {depth : Int} (hd : depth ≠ 0) {s t : Ref} :
    h.Within depth s t ↔ t = s ∨ ∃ ns ∈ h.nss s, h.Within (depth - 1) ns.sdb t := by
  constructor
  · rintro (- | ⟨-, ⟨ns, hns, rfl⟩, hw⟩)
    · exact .inl rfl
    · exact .inr ⟨ns, hns, hw⟩
  · rintro (rfl | ⟨ns, hns, hw⟩)
    · exact .here depth t
    · exact .child hd ⟨ns, hns, rfl⟩ hw

theorem Heap.within_zero {h : Heap} {s t : Ref} : h.Within 0 s t ↔ t = s := by
  constructor
  · rintro (- | ⟨hd, -, -⟩)
    · rfl
    · exact absurd rfl hd
  · rintro rfl
    exact .here 0 t

namespace Relocked

variable {lock : Bool} {L M : Ref → Prop} {h h₁ h₂ : Heap}

theorem refl (h : Heap) : Relocked lock (fun _ ↦ False) h h :=
  ⟨rfl, fun _ ↦ False.elim, fun _ _ ↦ rfl⟩

theorem congr (hr : Relocked lock L h h₁) (hiff : ∀ t, M t ↔ L t) : Relocked lock M h h₁ := by
  obtain rfl : M = L := funext fun t ↦ propext (hiff t)
  exact hr

theorem modify (lock : Bool) (h : Heap) (s : Ref) :
    Relocked lock (· = s) h (h.modify s (·.withLock lock)) where
  length := List.length_modify _ _ _
  inside t ht := by
    subst ht
    exact List.getElem?_modify_eq _ _ _
  outside _ ht := List.getElem?_modify_ne _ _ (Ne.symm ht)

theorem trans (hr₁ : Relocked lock L h h₁) (hr₂ : Relocked lock M h₁ h₂) :
    Relocked lock (fun t ↦ L t ∨ M t) h h₂ := by
  refine ⟨hr₂.length.trans hr₁.length, fun t ht ↦ ?_, fun t ht ↦ ?_⟩
  · by_cases hM : M t
    · rw [hr₂.inside t hM]
      by_cases hL : L t
      · -- the lock is set a second time
        rw [hr₁.inside t hL, Option.map_map]
        rfl
      · rw [hr₁.outside t hL]
    · rw [hr₂.outside t hM]
      exact hr₁.inside t (ht.resolve_right hM)
  · obtain ⟨hL, hM⟩ := not_or.mp ht
    rw [hr₂.outside t hM, hr₁.outside t hL]

theorem nss (hr : Relocked lock L h h₁) : SameNss h h₁ := by
  refine ⟨hr.length, fun t ↦ ?_⟩
  rw [Heap.nss, Heap.nss]
  by_cases hL : L t
  · rw [hr.inside t hL]
    cases h[t]? with
    | none => rfl
    | some node => rfl
  · rw [hr.outside t hL]

end Relocked

/-- **`sdb_ns_lock`** sets the lock of the databases down to its depth, and does nothing else. -/
theorem sdbNsLock_relocked {fuel : Nat} {h h' : Heap} {s : Ref} {lock : Bool} {depth : Int}
    (h₁ : sdbNsLock fuel h s lock depth = some h') : Relocked lock (h.Within depth s) h h' := by
  induction fuel generalizing h h' s depth with
  | zero => cases h₁
  | succ fuel ih =>
      have hself := Relocked.modify lock h s
      rw [sdbNsLock] at h₁
      split at h₁
      · next hd =>
          cases h₁
          subst hd
          exact hself.congr fun t ↦ Heap.within_zero
      · next hd =>
          have hfold (l : List SdbNs) {h₂ h' : Heap} (hsame : SameNss h h₂)
              (h₁ : l.foldlM (fun h ns ↦ sdbNsLock fuel h ns.sdb lock (depth - 1)) h₂ = some h') :
              Relocked lock (fun t ↦ ∃ ns ∈ l, h.Within (depth - 1) ns.sdb t) h₂ h' := by
            induction l generalizing h₂ with
            | nil =>
                cases h₁
                refine (Relocked.refl _).congr fun t ↦ ⟨?_, False.elim⟩
                rintro ⟨ns, hns, -⟩
                exact absurd hns List.not_mem_nil
            | cons ns l ihl =>
                obtain ⟨h₃, hns, h₁⟩ := Option.bind_eq_some_iff.mp h₁
                have hr := (ih hns).congr fun t ↦ hsame.within.symm
                have hrest := ihl ⟨hr.nss.length.trans hsame.length,
                    fun t ↦ (hr.nss.nss t).trans (hsame.nss t)⟩ h₁
                exact (hr.trans hrest).congr fun t ↦ List.exists_mem_cons_iff _ ns l
          rw [hself.nss.nss] at h₁
          exact (hself.trans (hfold _ hself.nss h₁)).congr fun t ↦ Heap.within_iff hd

/-- More fuel makes no difference. -/
theorem sdbNsLock_mono {fuel fuel' : Nat} (hle : fuel ≤ fuel') {h h' : Heap} {s : Ref} {lock : Bool}
    {depth : Int} (h₁ : sdbNsLock fuel h s lock depth = some h') :
    sdbNsLock fuel' h s lock depth = some h' := by
  induction fuel generalizing fuel' h h' s depth with
  | zero => cases h₁
  | succ fuel ih =>
      obtain ⟨fuel', rfl⟩ :=
        Nat.exists_eq_add_of_le' (Nat.le_trans (Nat.succ_le_succ (Nat.zero_le fuel)) hle)
      rw [sdbNsLock] at h₁ ⊢
      split at h₁
      · next hd =>
          rw [if_pos hd]
          exact h₁
      · next hd =>
          rw [if_neg hd]
          exact foldlM_mono (fun _ _ _ hns ↦ ih (Nat.le_of_succ_le_succ hle) hns) _ h₁

/-- The call comes back, whatever the locks are. -/
def Heap.LockEnds (h : Heap) (s : Ref) (lock : Bool) (depth : Int) : Prop :=
  ∀ h₁, SameNss h h₁ → ∃ fuel h₂, sdbNsLock fuel h₁ s lock depth = some h₂

/-- The call comes back if those for the namespaces do. -/
theorem Heap.LockEnds.of_children {h : Heap} {s : Ref} {lock : Bool} {depth : Int}
    (hc : ∀ ns ∈ h.nss s, h.LockEnds ns.sdb lock (depth - 1)) : h.LockEnds s lock depth := by
  intro h₁ hsame
  have hself := Relocked.modify lock h₁ s
  have hfold (l : List SdbNs) (hl : ∀ ns ∈ l, h.LockEnds ns.sdb lock (depth - 1)) {h₂ : Heap}
      (hsame : SameNss h h₂) : ∃ fuel h₃,
        l.foldlM (fun h ns ↦ sdbNsLock fuel h ns.sdb lock (depth - 1)) h₂ = some h₃ := by
    induction l generalizing h₂ with
    | nil => exact ⟨0, h₂, rfl⟩
    | cons ns l ih =>
        obtain ⟨fuel, h₃, hns⟩ := hl ns List.mem_cons_self h₂ hsame
        have hr := sdbNsLock_relocked hns
        obtain ⟨fuel', h₄, hrest⟩ := ih (fun ns hns ↦ hl ns (List.mem_cons_of_mem _ hns))
          ⟨hr.nss.length.trans hsame.length, fun t ↦ (hr.nss.nss t).trans (hsame.nss t)⟩
        refine ⟨max fuel fuel', h₄, ?_⟩
        rw [List.foldlM_cons, sdbNsLock_mono (Nat.le_max_left fuel fuel') hns]
        exact foldlM_mono (fun _ _ _ hns ↦ sdbNsLock_mono (Nat.le_max_right fuel fuel') hns) l hrest
  obtain ⟨fuel, h₃, hres⟩ := hfold (h.nss s) hc
    ⟨hself.length.trans hsame.length, fun t ↦ (hself.nss.nss t).trans (hsame.nss t)⟩
  by_cases hd : depth = 0
  · refine ⟨1, List.modify h₁ s (·.withLock lock), ?_⟩
    rw [sdbNsLock]
    exact if_pos hd
  · refine ⟨fuel + 1, h₃, ?_⟩
    rw [sdbNsLock, if_neg hd, hself.nss.nss, hsame.nss]
    exact hres

/-- There is no cycle below a database. -/
def Heap.Acyclic (h : Heap) (s : Ref) : Prop := Acc (fun r s ↦ h.Child s r) s

theorem Heap.Acyclic.lockEnds {h : Heap} {s : Ref} (ha : h.Acyclic s) (lock : Bool) (depth : Int) :
    h.LockEnds s lock depth := by
  induction ha generalizing depth with
  | intro s _ ih => exact .of_children fun ns hns ↦ ih ns.sdb ⟨ns, hns, rfl⟩ (depth - 1)

theorem Heap.lockEnds_of_nonneg (h : Heap) (s : Ref) (lock : Bool) (depth : Nat) :
    h.LockEnds s lock depth := by
  induction depth generalizing s with
  | zero =>
      intro h₁ _
      refine ⟨1, List.modify h₁ s (·.withLock lock), ?_⟩
      rw [sdbNsLock]
      exact if_pos rfl
  | succ depth ih =>
      refine .of_children fun ns _ ↦ ?_
      rw [Int.natCast_succ, Int.add_sub_cancel]
      exact ih ns.sdb

/-- A call without a depth does not come back from a cycle. -/
theorem acyclic_of_sdbNsLock {fuel : Nat} {h₁ h' : Heap} {s : Ref} {lock : Bool} {depth : Int}
    (hd : depth < 0) (hcall : sdbNsLock fuel h₁ s lock depth = some h') {h : Heap}
    (hsame : SameNss h h₁) : h.Acyclic s := by
  induction fuel generalizing h₁ h' s depth with
  | zero => cases hcall
  | succ fuel ih =>
      have hself := Relocked.modify lock h₁ s
      rw [sdbNsLock, if_neg (Int.ne_of_lt hd), hself.nss.nss, hsame.nss] at hcall
      have hfold (l : List SdbNs) {h₂ h₃ : Heap} (hsame : SameNss h h₂)
          (hcall : l.foldlM (fun h ns ↦ sdbNsLock fuel h ns.sdb lock (depth - 1)) h₂ = some h₃) :
          ∀ ns ∈ l, h.Acyclic ns.sdb := by
        induction l generalizing h₂ with
        | nil => exact nofun
        | cons ns l ihl =>
            obtain ⟨h₄, hns, hrest⟩ := Option.bind_eq_some_iff.mp hcall
            have hr := sdbNsLock_relocked hns
            have hfirst := ih (by omega : depth - 1 < 0) hns hsame
            have htail := ihl ⟨hr.nss.length.trans hsame.length,
                fun t ↦ (hr.nss.nss t).trans (hsame.nss t)⟩ hrest
            exact List.forall_mem_cons.mpr ⟨hfirst, htail⟩
      have hchildren := hfold (h.nss s)
        ⟨hself.length.trans hsame.length, fun t ↦ (hself.nss.nss t).trans (hsame.nss t)⟩ hcall
      refine .intro s ?_
      rintro r ⟨ns, hns, rfl⟩
      exact hchildren ns hns

/-- **`sdb_ns_lock` comes back** if it has a depth, or if there is no cycle below the database, and
not otherwise; it then has set the lock of precisely the databases down to its depth. -/
theorem nsLock_reaches (h : Heap) (s : Ref) (lock : Bool) (depth : Int) :
    ((∃ fuel h', sdbNsLock fuel h s lock depth = some h') ↔ 0 ≤ depth ∨ h.Acyclic s) ∧
      ∀ fuel h', sdbNsLock fuel h s lock depth = some h' →
        Relocked lock (h.Within depth s) h h' := by
  have hsame : SameNss h h := ⟨rfl, fun _ ↦ rfl⟩
  refine ⟨⟨?_, ?_⟩, fun fuel h' ↦ sdbNsLock_relocked⟩
  · rintro ⟨fuel, h', hcall⟩
    rcases Int.lt_or_le depth 0 with hd | hd
    · exact .inr (acyclic_of_sdbNsLock hd hcall hsame)
    · exact .inl hd
  · rintro (hd | ha)
    · obtain ⟨n, rfl⟩ := Int.eq_ofNat_of_zero_le hd
      exact h.lockEnds_of_nonneg s lock n h hsame
    · exact ha.lockEnds lock depth h hsame

end SdbStore
