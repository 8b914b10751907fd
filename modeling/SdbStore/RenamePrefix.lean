import SdbStore.Foreach
import SdbStore.Match
import SdbStore.Rename
import SdbStore.Lib.Moves

/-!
# Renaming a prefix

`sdb_rename_prefix` collects the keys that have the old prefix, in the order of the table, and
renames them one after another.  A new name can be a key that is still to be renamed: the value that
it holds is then lost, and the value that moves there moves on.  `renamePrefix_iff` says when the
keys are renamed as if it happened at once.
-/

namespace SdbStore

open Lib

/-- `key + n`. -/
def CStr.skip (s : CStr) (n : Nat) : CStr :=
  ⟨s.val.drop n, fun h ↦ s.property (List.mem_of_mem_drop h)⟩

/-- `SZT_ADD_OVFCHK`, where `size_t` has 64 bits. -/
def sztAddOvfchk (x y : Nat) : Bool := 0xffffffffffffffff - x ≤ y

/-- `rename_prefix_cb`, which collects the keys. -/
def renamePrefixCb (oldPrefix : CStr) : SdbForeachCallback (List CStr) := fun keys k _ ↦
  if strncmpEq k.val oldPrefix.val oldPrefix.length then (true, keys ++ [k]) else (true, keys)

/-- `rename_prefix_key`. -/
def renamePrefixKey (newPrefix suffix : CStr) : Option CStr :=
  let plen := newPrefix.length
  let slen := suffix.length
  if sztAddOvfchk plen slen || sztAddOvfchk (plen + slen) 1 then none
  else some (newPrefix ++ suffix)

/-- A turn of the loop of `sdb_rename_prefix`, with the count. -/
def renamePrefixTurn (oldPrefix newPrefix : CStr) (r : Nat × Sdb × World) (key : CStr) :
    Nat × Sdb × World :=
  match renamePrefixKey newPrefix (key.skip oldPrefix.length) with
  | none => r
  | some newkey =>
      let r' := sdbRename r.2.1 r.2.2 key newkey 0
      (if r'.1 then r.1 + 1 else r.1, r'.2)

/-- `sdb_rename_prefix`. -/
def sdbRenamePrefix (s : Sdb) (w : World) (oldPrefix newPrefix : CStr) : Nat × Sdb × World :=
  let r := sdbForeach s (renamePrefixCb oldPrefix) []
  if r.1 then r.2.foldl (renamePrefixTurn oldPrefix newPrefix) (0, s, w) else (0, s, w)

/-- The new name of a key. -/
def newName (p q k : CStr) : CStr := q ++ k.skip p.length

/-- The map in which the value of every key `p ++ x` has moved to `q ++ x`. -/
def renamedMap (get : CStr → Option CStr) (p q k : CStr) : Option CStr :=
  match if q.val <+: k.val then get (p ++ k.skip q.length) else none with
  | some v => some v
  | none => if p.val <+: k.val then none else get k

/-- What the keys read after `sdb_rename_prefix` is the map that they read before with the prefix
renamed at once, whatever the order of the table is. -/
def RenamesAtOnce (st : Sdb × World) (p q : CStr) : Prop :=
  let r := (sdbRenamePrefix st.1 st.2 p q).2
  ∀ k, sdbGet r.1 r.2 k = renamedMap (sdbGet st.1 st.2) p q k

/-- The keys whose values are to be moved, in the order of the table. -/
def keysToMove (st : Sdb × World) (p : CStr) : List CStr :=
  (st.1.ht.toList.map SdbKv.key).filter fun k ↦ p.val <+: k.val ∧ (sdbGet st.1 st.2 k).isSome

/-- No new name is a key that comes later; none has run out of time; and where the counter of a key
comes round to 0, the new name is no key to be moved and has the value already. -/
structure Movable (st : Sdb × World) (p q : CStr) : Prop where
  ahead : (keysToMove st p).Pairwise fun a b ↦ newName p q a ≠ b
  live : ∀ k ∈ keysToMove st p, ¬ TimedOut st.1 st.2 (newName p q k)
  counted : ∀ k ∈ keysToMove st p, ∀ kv, sdbHtFindKvp st.1 k = some kv → nextcas kv = 0 →
    ¬ p.val <+: (newName p q k).val ∧ sdbGet st.1 st.2 (newName p q k) = sdbGet st.1 st.2 k

/-! ## New names -/

section Names

variable {p q k : CStr}

theorem CStr.val_append (a b : CStr) : (a ++ b).val = a.val ++ b.val := rfl

theorem CStr.length_append (a b : CStr) : (a ++ b).length = a.length + b.length :=
  List.length_append

theorem CStr.skip_append (a b : CStr) : (a ++ b).skip a.length = b :=
  CStr.ext (List.drop_left' rfl)

theorem CStr.append_skip (h : p.val <+: k.val) : p ++ k.skip p.length = k := by
  obtain ⟨r, hr⟩ := h
  refine CStr.ext ?_
  change p.val ++ k.val.drop p.val.length = k.val
  rw [← hr, List.drop_left]

theorem prefix_newName (p q k : CStr) : q.val <+: (newName p q k).val := List.prefix_append _ _

/-- The old name of a new one. -/
theorem newName_newName (h : p.val <+: k.val) : newName q p (newName p q k) = k := by
  rw [newName, newName, CStr.skip_append, CStr.append_skip h]

theorem newName_injOn (p q : CStr) : Set.InjOn (newName p q) {k | p.val <+: k.val} := by
  intro a ha b hb h
  rw [← newName_newName (q := q) ha, h, newName_newName hb]

/-- A short name passes the checks of its allocation. -/
theorem renamePrefixKey_of_short (h : (newName p q k).length < 0xff) :
    renamePrefixKey q (k.skip p.length) = some (newName p q k) := by
  rw [newName, CStr.length_append] at h
  rw [renamePrefixKey, if_neg]
  · rfl
  · simp only [sztAddOvfchk, Bool.or_eq_true, decide_eq_true_eq]
    omega

theorem newName_eq_iff {a : CStr} (ha : p.val <+: a.val) :
    newName p q a = k ↔ q.val <+: k.val ∧ p ++ k.skip q.length = a := by
  constructor
  · rintro rfl
    exact ⟨prefix_newName p q a, newName_newName ha⟩
  · rintro ⟨hk, rfl⟩
    rw [newName, CStr.skip_append, CStr.append_skip hk]

/-- A key that has a moved value. -/
theorem renamedMap_target {get : CStr → Option CStr} {v : CStr} (hk : p.val <+: k.val)
    (hv : get k = some v) : renamedMap get p q (newName p q k) = some v := by
  have hback : p ++ (newName p q k).skip q.length = k := newName_newName hk
  rw [renamedMap, if_pos (prefix_newName p q k), hback, hv]

/-- A key that has none. -/
theorem renamedMap_other {get : CStr → Option CStr}
    (h : ∀ a, p.val <+: a.val → get a ≠ none → newName p q a ≠ k) :
    renamedMap get p q k = if p.val <+: k.val then none else get k := by
  have hnone : (if q.val <+: k.val then get (p ++ k.skip q.length) else none) = none := by
    split
    · next hk =>
        have hp : p.val <+: (p ++ k.skip q.length).val := List.prefix_append _ _
        exact by_contra fun hsome ↦ h _ hp hsome ((newName_eq_iff hp).mpr ⟨hk, rfl⟩)
    · rfl
  rw [renamedMap, hnone]

/-- The two forms of renaming at once. -/
theorem moved_iff_renamedMap {get get' : CStr → Option CStr} :
    Moved (newName p q) (fun k ↦ p.val <+: k.val) get get' ↔
      ∀ k, get' k = renamedMap get p q k := by
  constructor
  · intro h k
    by_cases htarget : ∃ a, p.val <+: a.val ∧ get a ≠ none ∧ newName p q a = k
    · obtain ⟨a, ha, hsome, rfl⟩ := htarget
      obtain ⟨v, hv⟩ := Option.ne_none_iff_exists'.mp hsome
      rw [h.target ha hv, renamedMap_target ha hv]
    · have hother : ∀ a, p.val <+: a.val → get a ≠ none → newName p q a ≠ k :=
        fun a ha hsome heq ↦ htarget ⟨a, ha, hsome, heq⟩
      rw [renamedMap_other hother]
      split
      · next hk => exact h.source hk hother
      · next hk => exact h.frame hk hother
  · intro h
    refine ⟨fun {k v} hk hv ↦ ?_, fun {k} hk hother ↦ ?_, fun {k} hk hother ↦ ?_⟩
    · rw [h, renamedMap_target hk hv]
    · rw [h, renamedMap_other hother, if_pos hk]
    · rw [h, renamedMap_other hother, if_neg hk]

end Names

/-! ## One key -/

/-- What the turn of a key does: its value is moved, or lost. -/
structure RenameStep (st st' : Sdb × World) (f : CStr → CStr) (key : CStr) (lost : Bool) :
    Prop where
  memory : st'.1.Memory
  timedOut : ∀ k, TimedOut st'.1 st'.2 k ↔ TimedOut st.1 st.2 k
  get : sdbGet st'.1 st'.2 = move f (sdbGet st.1 st.2) (key, lost)
  find : ∀ {k}, k ≠ key → (sdbGet st.1 st.2 key ≠ none → f key ≠ k) →
    sdbHtFindKvp st'.1 k = sdbHtFindKvp st.1 k
  lost : ∀ {kv}, sdbGet st.1 st.2 key ≠ none → sdbHtFindKvp st.1 key = some kv →
    (lost = true ↔ nextcas kv = 0 ∨ TimedOut st.1 st.2 (f key))

section Step

variable {st : Sdb × World} {f : CStr → CStr} {key : CStr} (hm : st.1.Memory)
include hm

omit hm in
/-- A lookup leaves the database as it is, or unsets the key. -/
theorem state_constGetLen_cases (s : Sdb) (w : World) (key : CStr) :
    (sdbConstGetLen s w key).2 = (s, w) ∨
      (sdbConstGetLen s w key).2 = (sdbSetInternal s w key CStr.empty false 0).2 := by
  unfold sdbConstGetLen
  split
  · exact .inl rfl
  · split
    · exact .inl rfl
    · split
      · exact .inl rfl
      · split
        · exact .inr rfl
        · exact .inl rfl

/-- A key without a value. -/
theorem RenameStep.of_none (hnone : sdbGet st.1 st.2 key = none) :
    RenameStep st (sdbRename st.1 st.2 key (f key) 0).2 f key false := by
  have hrun : (sdbRename st.1 st.2 key (f key) 0).2 = (sdbConstGetLen st.1 st.2 key).2 := by
    rw [sdbRename, show (sdbConstGetLen st.1 st.2 key).1.value = none from hnone]
  have hget : sdbGet (sdbConstGetLen st.1 st.2 key).2.1 (sdbConstGetLen st.1 st.2 key).2.2 =
      move f (sdbGet st.1 st.2) (key, false) :=
    funext fun k ↦ by rw [move_of_none hnone, hm.sdbGet_constGetLen]
  rw [hrun]
  refine ⟨hm.constGetLen st.2 key, fun k ↦ ?_, hget, fun {k} hk _ ↦ ?_, fun hno ↦ absurd hnone hno⟩
  · rcases state_constGetLen_cases st.1 st.2 key with h | h
    · rw [h]
    · rw [h]
      exact hm.timedOut_setInternal st.2 key CStr.empty false 0 k
  · rcases state_constGetLen_cases st.1 st.2 key with h | h
    · rw [h]
    · rw [h, (hm.wrote st.2 key CStr.empty false 0).find, if_neg hk]

/-- The value of the key is unset, and the call ends there. -/
theorem RenameStep.of_stop {v : CStr} {kv : SdbKv} (h : Cell st key v) (hv : v ≠ CStr.empty)
    (hf : sdbHtFindKvp st.1 key = some kv) (hval : kv.value = some v) (hstop : nextcas kv = 0) :
    RenameStep st (sdbRename st.1 st.2 key (f key) 0).2 f key true := by
  have hlive : sdbGet st.1 st.2 key = some v := by rw [h.sdbGet, readAs_of_ne hv]
  have hun := hm.wrote st.2 key CStr.empty false 0
  rw [h.rename_stops hv hf hval (.inl rfl) (.inl hstop)]
  refine ⟨(h.unset hv hf hval (.inl rfl)).2.memory,
    hm.timedOut_setInternal st.2 key CStr.empty false 0, funext fun k ↦ ?_,
    fun {k} hk _ ↦ (hun.find k).trans (if_neg hk), fun {kv'} _ hf' ↦ ?_⟩
  · by_cases hk : k = key
    · rw [hk, (h.unset hv hf hval (.inl rfl)).2.sdbGet, readAs_empty]
      exact (move_source fun _ hno ↦ by cases hno).symm
    · rw [move_of_ne hk fun _ hno ↦ by cases hno]
      exact hm.sdbGet_setInternal_ne st.2 hk CStr.empty false 0
  · cases hf.symm.trans hf'
    exact iff_of_true rfl (.inl hstop)

/-- The value is unset and written under the new name, where it is read unless that has run out of
time. -/
theorem RenameStep.of_go {v : CStr} {kv : SdbKv} (h : Cell st key v) (hv : v ≠ CStr.empty)
    (hf : sdbHtFindKvp st.1 key = some kv) (hval : kv.value = some v) (hgo : nextcas kv ≠ 0)
    (hnew : (f key).length < 0xff) [Decidable (TimedOut st.1 st.2 (f key))] :
    RenameStep st (sdbRename st.1 st.2 key (f key) 0).2 f key
      (decide (TimedOut st.1 st.2 (f key))) := by
  have hlive : sdbGet st.1 st.2 key = some v := by rw [h.sdbGet, readAs_of_ne hv]
  have hcell : Cell (afterUnset st key 0) key CStr.empty := (h.unset hv hf hval (.inl rfl)).2
  have htimed : ∀ k, TimedOut (afterUnset st key 0).1 (afterUnset st key 0).2 k ↔
      TimedOut st.1 st.2 k := hm.timedOut_setInternal st.2 key CStr.empty false 0
  have hun := hm.wrote st.2 key CStr.empty false 0
  have hset := hcell.memory.wrote (afterUnset st key 0).2 (f key) v true 0
  have hmem := hcell.memory.setInternal (afterUnset st key 0).2 (f key) v true 0
  have htimed' := hcell.memory.timedOut_setInternal (afterUnset st key 0).2 (f key) v true 0
  rw [h.rename_goes hv hf hval (.inl rfl) hgo, sdbSetOwned]
  refine ⟨hmem, fun k ↦ (htimed' k).trans (htimed k), funext fun k ↦ ?_, fun {k} hk hne ↦ ?_,
    fun {kv'} _ hf' ↦ ?_⟩
  · by_cases hk : k = f key
    · rw [hk]
      by_cases ht : TimedOut st.1 st.2 (f key)
      · have hne : f key ≠ key := fun heq ↦ h.live (heq ▸ ht)
        rw [decide_eq_true ht, move_of_ne hne fun _ hno ↦ (by cases hno),
          hm.sdbGet_timedOut st.2 ht]
        exact hmem.sdbGet_timedOut _ ((htimed' _).mpr ((htimed _).mpr ht))
      · have hnew : Cell (afterUnset st key 0) (f key) _ :=
          ⟨hcell.memory, hnew, mt (htimed _).mp ht, rfl⟩
        rw [move_target hlive (decide_eq_false ht)]
        exact (hnew.write h.length_lt true (.inl rfl)).sdbGet.trans (readAs_of_ne hv)
    · refine (hcell.memory.sdbGet_setInternal_ne _ hk v true 0).trans ?_
      by_cases hkey : k = key
      · subst hkey
        rw [hcell.sdbGet, readAs_empty]
        exact (move_source fun _ _ ↦ Ne.symm hk).symm
      · rw [move_of_ne hkey fun _ _ ↦ Ne.symm hk]
        exact hm.sdbGet_setInternal_ne st.2 hkey CStr.empty false 0
  · rw [hset.find, if_neg (hne (by simp [hlive])).symm]
    exact (hun.find k).trans (if_neg hk)
  · cases hf.symm.trans hf'
    rw [decide_eq_true_iff, or_iff_right hgo]

theorem RenameStep.of_some {v : CStr} (hsome : sdbGet st.1 st.2 key = some v)
    (hnew : (f key).length < 0xff) :
    ∃ lost, RenameStep st (sdbRename st.1 st.2 key (f key) 0).2 f key lost := by
  obtain ⟨h, hv⟩ := Cell.of_some hm hsome
  obtain ⟨kv, hf, hval⟩ := h.exists_entry hv
  by_cases hstop : nextcas kv = 0
  · exact ⟨true, .of_stop hm h hv hf hval hstop⟩
  · classical exact ⟨_, .of_go hm h hv hf hval hstop hnew⟩

end Step

/-! ## The keys -/

section Keys

variable {s : Sdb} {p : CStr}

theorem renamePrefixCb_eq (p : CStr) (keys : List CStr) (k : CStr) (v : Option CStr) :
    renamePrefixCb p keys k v = (true, keys ++ if p.val <+: k.val then [k] else []) := by
  have hcmp : strncmpEq k.val p.val p.length = true ↔ p.val <+: k.val :=
    strncmpEq_length k.val p.property
  rw [renamePrefixCb]
  by_cases hk : p.val <+: k.val
  · rw [if_pos (hcmp.mpr hk), if_pos hk]
  · rw [if_neg (mt hcmp.mp hk), if_neg hk, List.append_nil]

/-- The keys that `sdb_rename_prefix` collects. -/
theorem renamePrefixCb_keys (s : Sdb) (p : CStr) : sdbForeach s (renamePrefixCb p) [] =
    (true, ((foreachCalls s).map Prod.fst).filter fun k ↦ p.val <+: k.val) := by
  have hcollect : ∀ (calls : List Call) (keys : List CStr), makeCalls
      (renamePrefixCb p) calls keys =
        keys ++ (calls.map Prod.fst).filter fun k ↦ p.val <+: k.val := by
    intro calls
    induction calls with
    | nil => exact fun keys ↦ (List.append_nil keys).symm
    | cons c calls ih =>
        intro keys
        rw [makeCalls, List.foldl_cons, renamePrefixCb_eq, List.map_cons, List.filter_cons]
        refine (ih _).trans ?_
        rw [List.append_assoc]
        by_cases hc : p.val <+: c.1.val
        · rw [if_pos hc, if_pos (decide_eq_true hc)]
          rfl
        · rw [if_neg hc, if_neg (mt of_decide_eq_true hc)]
          rfl
  rw [sdbForeach_eq s fun keys k v ↦ congrArg Prod.fst (renamePrefixCb_eq p keys k v), hcollect,
    List.nil_append]

theorem memCall_keys_sublist (l : List SdbKv) :
    ((l.filterMap memCall).map Prod.fst).Sublist (l.map SdbKv.key) := by
  induction l with
  | nil => exact List.Sublist.slnil
  | cons kv l ih =>
      rw [List.filterMap_cons, List.map_cons]
      cases hc : memCall kv with
      | none => exact ih.cons kv.key
      | some c =>
          rw [← key_of_memCall hc]
          exact ih.cons_cons c.1

/-- Entries that are not called for can be left out of a list of keys. -/
theorem filter_memCall_keys {l : List SdbKv} {P : CStr → Bool}
    (h : ∀ kv ∈ l, P kv.key = true → memCall kv ≠ none) :
    ((l.filterMap memCall).map Prod.fst).filter P = (l.map SdbKv.key).filter P := by
  induction l with
  | nil => rfl
  | cons kv l ih =>
      have hl := ih fun kv' hkv' ↦ h kv' (List.mem_cons_of_mem kv hkv')
      rw [List.filterMap_cons, List.map_cons]
      cases hc : memCall kv with
      | none =>
          rw [List.filter_cons_of_neg fun hP ↦ h kv List.mem_cons_self hP hc]
          exact hl
      | some c =>
          rw [← key_of_memCall hc, List.map_cons, List.filter_cons, List.filter_cons, hl]

end Keys

/-! ## A run -/

section Run

variable {p q : CStr} {r : Nat × Sdb × World}

/-- One turn. -/
theorem renamePrefixTurn_step {key : CStr} (hm : r.2.1.Memory)
    (hnew : ¬ TimedOut r.2.1 r.2.2 key → (newName p q key).length < 0xff) :
    ∃ lost, RenameStep r.2 (renamePrefixTurn p q r key).2 (newName p q) key lost := by
  rw [renamePrefixTurn]
  cases hget : sdbGet r.2.1 r.2.2 key with
  | none =>
      refine ⟨false, ?_⟩
      cases hkey : renamePrefixKey q (key.skip p.length) with
      | none =>
          exact ⟨hm, fun _ ↦ Iff.rfl, (move_of_none hget).symm, fun _ _ ↦ rfl,
            fun hno ↦ absurd hget hno⟩
      | some newkey =>
          obtain rfl : newkey = newName p q key := by
            rw [renamePrefixKey] at hkey
            split at hkey
            · cases hkey
            · exact (Option.some.inj hkey).symm
          exact .of_none hm hget
  | some v =>
      have hshort := hnew (Cell.of_some hm hget).1.live
      rw [renamePrefixKey_of_short hshort]
      exact RenameStep.of_some hm hget hshort

/-- **The loop** moves one value after another.  If no value moves onto a key that comes later,
those are lost whose counter comes round to 0 or whose new name has run out of time. -/
theorem renamePrefix_run {keys : List CStr} (hm : r.2.1.Memory)
    (hnew : ∀ k ∈ keys, ¬ TimedOut r.2.1 r.2.2 k → (newName p q k).length < 0xff) :
    ∃ l : List (CStr × Bool), l.map Prod.fst = keys ∧
      sdbGet (keys.foldl (renamePrefixTurn p q) r).2.1 (keys.foldl (renamePrefixTurn p q) r).2.2 =
        moves (newName p q) (sdbGet r.2.1 r.2.2) l ∧
      (keys.Nodup → MovesAhead (newName p q) (sdbGet r.2.1 r.2.2) l → ∀ m ∈ l,
        sdbGet r.2.1 r.2.2 m.1 ≠ none → ∀ kv, sdbHtFindKvp r.2.1 m.1 = some kv →
          (m.2 = true ↔ nextcas kv = 0 ∨ TimedOut r.2.1 r.2.2 (newName p q m.1))) := by
  induction keys generalizing r with
  | nil => exact ⟨[], rfl, rfl, fun _ _ m hm ↦ by cases hm⟩
  | cons key keys ih =>
      obtain ⟨lost, hstep⟩ := renamePrefixTurn_step hm (hnew key List.mem_cons_self)
      obtain ⟨l, hl, hget, hlost⟩ := ih (r := renamePrefixTurn p q r key) hstep.memory
        fun k hk hlive ↦ hnew k (List.mem_cons_of_mem key hk) (mt (hstep.timedOut k).mpr hlive)
      have hkeys : ((key, lost) :: l).map Prod.fst = key :: keys := congrArg (key :: ·) hl
      refine ⟨(key, lost) :: l, hkeys, ?_, fun hnodup hahead m hmem hsome kv hf ↦ ?_⟩
      · rw [List.foldl_cons, hget, hstep.get]
        rfl
      · rcases List.mem_cons.mp hmem with rfl | hmem
        · exact hstep.lost hsome hf
        · have hnodup' := hkeys.symm ▸ hnodup
          have hlater := hahead.move_later hnodup' hmem
          have hne : m.1 ≠ key := fun hno ↦
            (List.nodup_cons.mp hnodup).1 (hl ▸ hno ▸ List.mem_map_of_mem hmem)
          rw [← hstep.timedOut]
          refine hlost (List.nodup_cons.mp hnodup).2 ?_ m hmem ?_ kv ?_
          · rw [hstep.get]
            exact hahead.tail hnodup'
          · rw [hstep.get, hlater]
            exact hsome
          · rw [hstep.find hne fun hlive ↦ List.rel_of_pairwise_cons hahead hmem hlive]
            exact hf

end Run

/-! ## When the keys are renamed at once -/

/-- The keys that are collected. -/
def collected (s : Sdb) (p : CStr) : List CStr :=
  ((foreachCalls s).map Prod.fst).filter fun k ↦ p.val <+: k.val

section Memory

variable {st : Sdb × World} {p q k : CStr} (hm : st.1.Memory) (hmap : st.1.db.map = none)
include hm

theorem mem_keysToMove : k ∈ keysToMove st p ↔ p.val <+: k.val ∧ sdbGet st.1 st.2 k ≠ none := by
  rw [keysToMove, List.mem_filter, decide_eq_true_iff, Option.isSome_iff_ne_none]
  refine and_iff_right_of_imp fun ⟨_, hsome⟩ ↦ ?_
  obtain ⟨v, hv⟩ := Option.ne_none_iff_exists'.mp hsome
  obtain ⟨h, hne⟩ := Cell.of_some hm hv
  obtain ⟨kv, hf, -⟩ := h.exists_entry hne
  obtain ⟨hmem, rfl⟩ := key_of_sdbHtFindKvp hm.wf hf
  exact List.mem_map_of_mem hmem

include hmap

theorem collected_eq : collected st.1 p =
    ((st.1.ht.toList.filterMap memCall).map Prod.fst).filter fun k ↦ p.val <+: k.val := by
  rw [collected, foreachCalls, scan_bare hm.bare hmap]
  rfl

theorem collected_nodup : (collected st.1 p).Nodup := by
  rw [collected_eq hm hmap]
  exact (hm.wf.distinctKeys.sublist (memCall_keys_sublist _)).filter _

/-- A key that is collected has a value, unless it has run out of time. -/
theorem of_mem_collected (hk : k ∈ collected st.1 p) :
    p.val <+: k.val ∧ (¬ TimedOut st.1 st.2 k → sdbGet st.1 st.2 k ≠ none) := by
  rw [collected_eq hm hmap, List.mem_filter, decide_eq_true_iff] at hk
  obtain ⟨hmem, hp⟩ := hk
  obtain ⟨c, hc, rfl⟩ := List.mem_map.mp hmem
  obtain ⟨kv, hkv, hcall⟩ := List.mem_filterMap.mp hc
  refine ⟨hp, fun hlive ↦ ?_⟩
  have hf : sdbHtFindKvp st.1 c.1 = some kv :=
    key_of_memCall hcall ▸ sdbHtFindKvp_of_mem hm.wf hkv
  rw [hm.sdbGet_eq, entryRead_live hlive, hf, textOf, Option.bind_some]
  rw [memCall] at hcall
  split at hcall
  · cases hcall
  · next v hv =>
      split at hcall
      · cases hcall
      · next hne =>
          rw [hv, Option.getD_some, readAs_of_ne hne]
          exact Option.some_ne_none v

/-- Those that have one are the keys to be moved. -/
theorem filter_collected : (collected st.1 p).filter (fun k ↦ (sdbGet st.1 st.2 k).isSome) =
    keysToMove st p := by
  rw [collected_eq hm hmap, List.filter_filter, keysToMove]
  refine (filter_memCall_keys fun kv hkv hP ↦ ?_).trans ?_
  · rw [Bool.and_eq_true, Option.isSome_iff_exists] at hP
    obtain ⟨⟨v, hv⟩, -⟩ := hP
    obtain ⟨h, hne⟩ := Cell.of_some hm hv
    obtain ⟨kv', hf, hval⟩ := h.exists_entry hne
    cases (sdbHtFindKvp_of_mem hm.wf hkv).symm.trans hf
    rw [memCall, hval]
    dsimp only
    rw [if_neg hne]
    exact Option.some_ne_none _
  · refine List.filter_congr fun k _ ↦ ?_
    rw [Bool.and_comm, Bool.decide_and, Bool.decide_coe]

/-- If no new name has run out of time, the keys that have no value do not matter. -/
theorem collected_pairwise_iff
    (hlive : ∀ k ∈ keysToMove st p, ¬ TimedOut st.1 st.2 (newName p q k)) :
    ((collected st.1 p).Pairwise fun a b ↦ sdbGet st.1 st.2 a ≠ none → newName p q a ≠ b) ↔
    (keysToMove st p).Pairwise fun a b ↦ newName p q a ≠ b := by
  rw [← filter_collected hm hmap, List.pairwise_filter]
  constructor
  · exact fun h ↦ h.imp fun hab ha _ ↦ hab (Option.isSome_iff_ne_none.mp ha)
  · refine fun h ↦ h.imp_of_mem fun {a b} ha hb hab hsome heq ↦ ?_
    have hmove := (mem_keysToMove hm).mpr ⟨(of_mem_collected hm hmap ha).1, hsome⟩
    have hsome' := (of_mem_collected hm hmap hb).2 (heq ▸ hlive a hmove)
    exact hab (Option.isSome_iff_ne_none.mpr hsome) (Option.isSome_iff_ne_none.mpr hsome') heq

/-- **A prefix is renamed at once** when and only when the keys to be moved are movable. -/
theorem renamePrefix_iff (hshort : ∀ k ∈ keysToMove st p, (newName p q k).length < 0xff) :
    RenamesAtOnce st p q ↔ Movable st p q := by
  have hnew : ∀ k ∈ collected st.1 p, ¬ TimedOut st.1 st.2 k → (newName p q k).length < 0xff :=
    fun k hk hlive ↦ hshort k ((mem_keysToMove hm).mpr
      ((of_mem_collected hm hmap hk).imp_right fun hsome ↦ hsome hlive))
  obtain ⟨l, hl, hget, hlost⟩ := renamePrefix_run (r := (0, st)) hm hnew
  have hnodup := collected_nodup hm hmap (p := p)
  have hrun : (sdbRenamePrefix st.1 st.2 p q).2 =
      ((collected st.1 p).foldl (renamePrefixTurn p q) (0, st)).2 := by
    rw [sdbRenamePrefix, renamePrefixCb_keys]
    rfl
  have hturn : ∀ k ∈ l.map Prod.fst, p.val <+: k.val := fun k hk ↦
    (of_mem_collected hm hmap (hl ▸ hk)).1
  have hmoving : ∀ k ∈ keysToMove st p, k ∈ l.map Prod.fst := fun k hk ↦ by
    rw [← filter_collected hm hmap] at hk
    exact hl ▸ List.mem_of_mem_filter hk
  have hentry : ∀ k ∈ keysToMove st p, ∃ kv, sdbHtFindKvp st.1 k = some kv := fun k hk ↦ by
    obtain ⟨v, hv⟩ := Option.ne_none_iff_exists'.mp ((mem_keysToMove hm).mp hk).2
    obtain ⟨h, hne⟩ := Cell.of_some hm hv
    obtain ⟨kv, hf, -⟩ := h.exists_entry hne
    exact ⟨kv, hf⟩
  rw [RenamesAtOnce, hrun, ← moved_iff_renamedMap, hget, moved_iff (hl ▸ hnodup) (newName_injOn p q)
    hturn fun k hp hsome ↦ hmoving k ((mem_keysToMove hm).mpr ⟨hp, hsome⟩), movesAhead_iff, hl]
  constructor
  · rintro ⟨hahead, hkept⟩
    have hcause := hlost hnodup (movesAhead_iff.mpr (hl.symm ▸ hahead))
    -- what a lost value finds at its target
    have htarget : ∀ k ∈ keysToMove st p, ∀ kv, sdbHtFindKvp st.1 k = some kv →
        (nextcas kv = 0 ∨ TimedOut st.1 st.2 (newName p q k)) → ¬ p.val <+: (newName p q k).val ∧
          sdbGet st.1 st.2 (newName p q k) = sdbGet st.1 st.2 k := by
      intro k hk kv hf hcond
      obtain ⟨m, hm', rfl⟩ := List.mem_map.mp (hmoving k hk)
      have hsome := ((mem_keysToMove hm).mp hk).2
      obtain ⟨v, hv⟩ := Option.ne_none_iff_exists'.mp hsome
      rw [hv]
      exact hkept m hm' ((hcause m hm' hsome kv hf).mpr hcond) v hv
    have hlive : ∀ k ∈ keysToMove st p, ¬ TimedOut st.1 st.2 (newName p q k) := by
      intro k hk htimed
      obtain ⟨kv, hf⟩ := hentry k hk
      have hsame := (htarget k hk kv hf (.inr htimed)).2
      rw [hm.sdbGet_timedOut st.2 htimed] at hsame
      exact ((mem_keysToMove hm).mp hk).2 hsame.symm
    exact ⟨(collected_pairwise_iff hm hmap hlive).mp hahead, hlive,
      fun k hk kv hf hzero ↦ htarget k hk kv hf (.inl hzero)⟩
  · rintro ⟨hahead, hlive, hcounted⟩
    have hahead := (collected_pairwise_iff hm hmap hlive).mpr hahead
    have hcause := hlost hnodup (movesAhead_iff.mpr (hl.symm ▸ hahead))
    refine ⟨hahead, fun m hm' hmlost v hv ↦ ?_⟩
    have hk : m.1 ∈ keysToMove st p :=
      (mem_keysToMove hm).mpr ⟨hturn m.1 (List.mem_map_of_mem hm'), by simp [hv]⟩
    obtain ⟨kv, hf⟩ := hentry m.1 hk
    have hzero := ((hcause m hm' (by simp [hv]) kv hf).mp hmlost).resolve_right (hlive m.1 hk)
    rw [← hv]
    exact hcounted m.1 hk kv hf hzero

end Memory

/-- Two pairs in memory: the second key has one more `a` in front. -/
def memTwo (x : UInt8) : Sdb × World :=
  let st := (sdbSet sdbNew0 .empty (CStr.ofBytes [97, x]) (CStr.ofBytes [49]) 0).2
  (sdbSet st.1 st.2 (CStr.ofBytes [97, 97, x]) (CStr.ofBytes [50]) 0).2

theorem memory_memTwo (x : UInt8) : (memTwo x).1.Memory :=
  (Sdb.Memory.new0.setInternal _ _ _ _ _).setInternal _ _ _ _ _

/-- The keys `aa` and `aaa` are renamed from `a` to `aa`: the second one comes first in the
table. -/
theorem renamePrefix_iff_aa :
    RenamesAtOnce (memTwo 97) (CStr.ofBytes [97]) (CStr.ofBytes [97, 97]) := by
  refine (renamePrefix_iff (memory_memTwo 97) rfl (by decide)).mpr ⟨by decide, fun k _ h ↦ ?_, ?_⟩
  · have hstamp : (memTwo 97).1.timestamped = true := h.1
    exact absurd hstamp (by decide)
  · intro k hk kv hf hzero
    have hcas : ∀ k ∈ keysToMove (memTwo 97) (CStr.ofBytes [97]),
        (sdbHtFindKvp (memTwo 97).1 k).map nextcas = some 3 := by decide
    have hkv := hcas k hk
    rw [hf, Option.map_some, hzero] at hkv
    cases hkv

/-- The keys `ab` and `aab` are not: the value of the second one is lost. -/
theorem not_renamesAtOnce : ∃ st p q, st.1.Memory ∧ st.1.db.map = none ∧
    (∀ k ∈ keysToMove st p, (newName p q k).length < 0xff) ∧ ¬ RenamesAtOnce st p q := by
  refine ⟨memTwo 98, CStr.ofBytes [97], CStr.ofBytes [97, 97], memory_memTwo 98, rfl, by decide,
    fun h ↦ ?_⟩
  exact absurd (h (CStr.ofBytes [97, 97, 97, 98])) (by decide)

end SdbStore
