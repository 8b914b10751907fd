import SdbStore.Count
import SdbStore.Expire
import SdbStore.Match
import SdbStore.Lib.Runs

/-!
# Unsetting what matches

`sdb_unset_like` changes the database in the callback of the `sdb_foreach` that enumerates it: a
record of the file gets an entry that hides it, an entry over the file is emptied where it stands,
and any other entry is taken out of its bucket while the loop is at it.  `sdb_foreach` is modelled
once more here, with a callback that may do that; the loop over a bucket goes on with the next entry
only if none has been taken out.
-/

namespace SdbStore

open Lib

/-! ## Enumerating a database that changes -/

instance : Nonempty Sdb := ⟨sdbNew0⟩

instance : Nonempty World := ⟨.empty⟩

section Foreach

variable {σ : Type} [Nonempty σ]

/-- A callback that may change the database. -/
abbrev ChangingCallback (σ : Type) :=
  σ → Sdb × World → CStr → Option CStr → Bool × σ × Sdb × World

/-- The rounds of `sdb_foreach_cdb`. -/
def foreachCdbRounds (cb : ChangingCallback σ) :
    Nat → Nat → σ → Sdb × World → Bool × σ × Sdb × World
  | 0, _, user, st => (true, user, st)
  | n + 1, pos, user, st =>
      match sdbDumpDupnext st.1.db pos with
      | (none, _) => (true, user, st)
      | (some d, pos) =>
          let r :=
            match sdbHtFindKvp st.1 d.key with
            | some kv =>
                match kv.value with
                | none => (true, user, st)
                | some v => cb user st kv.key (some v)
            | none => cb user st d.key (d.value.map CStr.ofBytes)
          if r.1 then foreachCdbRounds cb n pos r.2.1 r.2.2 else r

/-- A turn of the loop over a bucket, which stays at the place of an entry that is gone. -/
def bucketTurn (cb : ChangingCallback σ) (i : Nat) (v : Nat × σ × Sdb × World) :
    Option ((Nat × σ × Sdb × World) ⊕ (Bool × σ × Sdb × World)) :=
  let (j, user, st) := v
  match (st.1.ht.table.getD i [])[j]? with
  | none => some (.inr (true, user, st))
  | some kv =>
      let r :=
        match kv.value with
        | none => (true, user, st)
        | some v => if v = CStr.empty then (true, user, st) else cb user st kv.key (some v)
      if r.1 then some (.inl (if st.1.ht.count = r.2.2.1.ht.count then j + 1 else j, r.2))
      else some (.inr r)

/-- A turn of the loop over the buckets. -/
def tableTurn (cb : ChangingCallback σ) (v : Nat × σ × Sdb × World) :
    Option ((Nat × σ × Sdb × World) ⊕ (Bool × σ × Sdb × World)) :=
  let (i, user, st) := v
  if i < st.1.ht.size then do
    let r ← repeatM (bucketTurn cb i) (0, user, st)
    some (if r.1 then .inl (i + 1, r.2) else .inr r)
  else some (.inr (true, user, st))

/-- `sdb_foreach`, if it comes back. -/
def sdbForeachChanging (cb : ChangingCallback σ) (user : σ) (st : Sdb × World) :
    Option (Bool × σ × Sdb × World) :=
  let r := foreachCdbRounds cb (scanBound st.1.db) (sdbDumpBegin st.1.fd) user st
  if r.1 then repeatM (tableTurn cb) (0, r.2) else some r

end Foreach

/-- `unset_cb`, which counts. -/
def unsetCb (glob : Option CStr) : ChangingCallback Nat := fun count st k _ ↦
  if sdbMatch (some k) glob then (true, count + 1, (sdbUnset st.1 st.2 k 0).2)
  else (true, count, st)

/-- `sdb_unset_like`: the number of keys that it counts, and the state after it. -/
def sdbUnsetLike (st : Sdb × World) (glob : Option CStr) : Option (Nat × Sdb × World) :=
  (sdbForeachChanging (unsetCb glob) 0 st).map Prod.snd

/-! ## One unset -/

section Unset

variable {s : Sdb} {w : World} {key k : CStr}

/-- A key that `sdb_get` does not find, whatever the time is: its entry has no value, or it has no
entry and no record. -/
def Cleared (s : Sdb) (k : CStr) : Prop :=
  match sdbHtFindKvp s k with
  | none => (cdbLookup s.db k).1 = 0
  | some kv => ¬ Gettable kv

theorem sdbGet_cleared (h : Cleared s k) (w : World) : sdbGet s w k = none := by
  rw [Cleared] at h
  rw [sdbGet, sdbConstGetLen]
  cases hf : sdbHtFindKvp s k with
  | none =>
      rw [hf] at h
      exact congrArg Got.value (sdbGetDisk_of_lookup h)
  | some kv =>
      rw [hf] at h
      cases hv : kv.value with
      | none =>
          simp only [hv]
          rfl
      | some v =>
          have hempty : v = CStr.empty := by
            by_contra hne
            exact h ⟨v, hv, hne⟩
          simp only [hv, hempty, if_true]
          rfl

theorem setEntry_unset (e : Option SdbKv) (disk : Int) (hlen : key.length < 0xff) :
    match (setEntry e disk key CStr.empty false 0).2 with
    | none => disk = 0
    | some kv => ¬ Gettable kv := by
  have hempty : ¬ (key.length ≥ 0xff ∨ CStr.empty.length ≥ 0xffffff) := by
    rintro (h | h)
    · omega
    · exact absurd h (by decide)
  have hnew : ¬ Gettable (newEntry key CStr.empty false) := by
    rintro ⟨v, hv, -⟩
    cases hv
  unfold setEntry
  rw [if_neg hempty]
  cases e with
  | none => exact hnew
  | some kv =>
      cases hv : kv.value with
      | none =>
          simp only [hv]
          exact hnew
      | some old =>
          simp only [hv]
          by_cases hdisk : disk = 0
          · rw [if_neg (not_not_intro hdisk)]
            exact hdisk
          · rw [if_pos hdisk, if_neg fun h ↦ h.1 rfl]
            by_cases hold : CStr.empty = old
            · rw [if_pos hold]
              rintro ⟨v, hv', hne⟩
              exact hne ((Option.some.inj (hv'.symm.trans hv)).trans hold.symm)
            · rw [if_neg hold]
              rintro ⟨v, hv', hne⟩
              exact hne (Option.some.inj hv').symm

theorem cleared_sdbUnset (hw : s.WF) (w : World) (hlen : key.length < 0xff) :
    Cleared (sdbUnset s w key 0).2.1 key := by
  have hspec := sdbSetInternal_spec hw w key CStr.empty false 0
  have hentry := setEntry_unset (sdbHtFindKvp s key) (cdbLookup s.db key).1 hlen
  rw [Cleared, sdbUnset, sdbSet, hspec.find, if_pos rfl, hspec.frame.db]
  exact hentry

end Unset

/-! ## Many unsets -/

/-- No key in memory is too long to be unset. -/
def ShortKeys (s : Sdb) : Prop := ∀ k kv, sdbHtFindKvp s k = some kv → k.length < 0xff

/-- Some keys that match are unset: the entries of the others stay, and what is cleared stays so. -/
structure Wipes (glob : Option CStr) (st st' : Sdb × World) : Prop where
  wf : st'.1.WF
  short : ShortKeys st'.1
  frame : st.1.Frame st'.1
  now : st'.2.now = st.2.now
  other : ∀ k, sdbMatch (some k) glob = false → sdbHtFindKvp st'.1 k = sdbHtFindKvp st.1 k
  cleared : ∀ k, Cleared st.1 k → Cleared st'.1 k

section Wipes

variable {glob : Option CStr} {st st' st'' : Sdb × World}

theorem Wipes.refl (hw : st.1.WF) (hs : ShortKeys st.1) : Wipes glob st st :=
  ⟨hw, hs, rfl, rfl, fun _ _ ↦ rfl, fun _ h ↦ h⟩

theorem Wipes.trans (h : Wipes glob st st') (h' : Wipes glob st' st'') : Wipes glob st st'' :=
  ⟨h'.wf, h'.short, h.frame.trans h'.frame, h'.now.trans h.now,
    fun k hk ↦ (h'.other k hk).trans (h.other k hk), fun k hk ↦ h'.cleared k (h.cleared k hk)⟩

theorem ShortKeys.set {s : Sdb} (hs : ShortKeys s) (hw : s.WF) (w : World) (key val : CStr)
    (owned : Bool) (cas : Nat) : ShortKeys (sdbSetInternal s w key val owned cas).2.1 := by
  intro k kv hf
  rw [(sdbSetInternal_spec hw w key val owned cas).find] at hf
  split at hf
  · next hk =>
      subst hk
      by_contra hlen
      unfold setEntry at hf
      rw [if_pos (.inl (Nat.le_of_not_lt hlen))] at hf
      exact hlen (hs k kv hf)
  · exact hs k kv hf

/-- A key that matches is unset. -/
theorem wipes_sdbUnset (hw : st.1.WF) (hs : ShortKeys st.1) {key : CStr}
    (hmatch : sdbMatch (some key) glob = true) : Wipes glob st (sdbUnset st.1 st.2 key 0).2 := by
  have hspec := sdbSetInternal_spec hw st.2 key CStr.empty false 0
  have hother : ∀ k, k ≠ key →
      sdbHtFindKvp (sdbUnset st.1 st.2 key 0).2.1 k = sdbHtFindKvp st.1 k :=
    fun k hk ↦ (hspec.find k).trans (if_neg hk)
  refine ⟨hspec.wf, hs.set hw st.2 key CStr.empty false 0, hspec.frame,
    now_sdbSetInternal _ _ _ _ _ _, fun k hk ↦ hother k ?_, fun k hk ↦ ?_⟩
  · rintro rfl
    rw [hmatch] at hk
    cases hk
  · by_cases heq : k = key
    · subst heq
      by_cases hlen : k.length < 0xff
      · exact cleared_sdbUnset hw st.2 hlen
      · have hsame : sdbUnset st.1 st.2 k 0 = (false, st) := by
          rw [sdbUnset, sdbSet, sdbSetInternal, if_pos (.inl (Nat.le_of_not_lt hlen))]
          rfl
        rw [hsame]
        exact hk
    · have hdb : (sdbUnset st.1 st.2 key 0).2.1.db = st.1.db := hspec.frame.db
      rw [Cleared, hother k heq, hdb]
      exact hk

/-- A call of `unset_cb`. -/
theorem unsetCb_wipes (hw : st.1.WF) (hs : ShortKeys st.1) (count : Nat) (k : CStr)
    (v : Option CStr) : (unsetCb glob count st k v).1 = true ∧
      Wipes glob st (unsetCb glob count st k v).2.2 ∧
        (sdbMatch (some k) glob = true → k.length < 0xff →
          Cleared (unsetCb glob count st k v).2.2.1 k) := by
  rw [unsetCb]
  split
  · next hmatch =>
      exact ⟨rfl, wipes_sdbUnset hw hs hmatch, fun _ hlen ↦ cleared_sdbUnset hw st.2 hlen⟩
  · next hmatch => exact ⟨rfl, .refl hw hs, fun h _ ↦ absurd h hmatch⟩

/-! ## The file -/

variable (glob) in
/-- What a round does with a record. -/
theorem cdbRound_wipes (hw : st.1.WF) (hs : ShortKeys st.1) (count : Nat) (d : Dumped) :
    let r :=
      match sdbHtFindKvp st.1 d.key with
      | some kv =>
          match kv.value with
          | none => (true, count, st)
          | some v => unsetCb glob count st kv.key (some v)
      | none => unsetCb glob count st d.key (d.value.map CStr.ofBytes)
    r.1 = true ∧ Wipes glob st r.2.2 ∧
      (sdbMatch (some d.key) glob = true → d.key.length < 0xff → Cleared r.2.2.1 d.key) := by
  cases hf : sdbHtFindKvp st.1 d.key with
  | none => exact unsetCb_wipes hw hs count d.key _
  | some kv =>
      have hkey := (key_of_sdbHtFindKvp hw hf).2
      cases hv : kv.value with
      | none =>
          simp only [hv]
          refine ⟨trivial, .refl hw hs, fun _ _ ↦ ?_⟩
          rw [Cleared, hf]
          rintro ⟨v, hv', -⟩
          rw [hv] at hv'
          cases hv'
      | some v =>
          simp only [hv]
          rw [← hkey]
          exact unsetCb_wipes hw hs count kv.key (some v)

variable (glob) in
/-- **The pass over the file** goes to its end, and clears the keys of the records that match. -/
theorem foreachCdbRounds_wipes (hw : st.1.WF) (hs : ShortKeys st.1) (n pos count : Nat) :
    let r := foreachCdbRounds (unsetCb glob) n pos count st
    r.1 = true ∧ Wipes glob st r.2.2 ∧
      ∀ d ∈ dumpLoop st.1.db n pos, sdbMatch (some d.key) glob = true → d.key.length < 0xff →
        Cleared r.2.2.1 d.key := by
  induction n generalizing pos count st with
  | zero => exact ⟨rfl, .refl hw hs, fun _ hd ↦ absurd hd List.not_mem_nil⟩
  | succ n ih =>
      rw [foreachCdbRounds, dumpLoop]
      rcases hd : sdbDumpDupnext st.1.db pos with ⟨_ | d, pos'⟩
      · exact ⟨rfl, .refl hw hs, fun _ hd ↦ absurd hd List.not_mem_nil⟩
      · obtain ⟨hret, hwipes, hcleared⟩ := cdbRound_wipes glob hw hs count d
        dsimp only
        rw [if_pos hret]
        obtain ⟨hret', hwipes', hrest⟩ := ih hwipes.wf hwipes.short pos' _
        refine ⟨hret', hwipes.trans hwipes', fun d' hd' hmatch hlen ↦ ?_⟩
        rcases List.mem_cons.mp hd' with rfl | hd'
        · exact hwipes'.cleared _ (hcleared hmatch hlen)
        · rw [← hwipes.frame.db] at hd'
          exact hrest d' hd' hmatch hlen

/-! ## The memory -/

/-- An entry that is unset while its bucket is looped over is emptied at its place or taken out. -/
theorem sdbUnset_bucket {s : Sdb} (hw : s.WF) (w : World) {i : Nat} {A B : List SdbKv} {kv : SdbKv}
    {v : CStr} (hi : s.ht.table[i]? = some (A ++ kv :: B)) (hv : kv.value = some v)
    (hne : v ≠ CStr.empty) (hlen : kv.key.length < 0xff) :
    let s' := (sdbUnset s w kv.key 0).2.1
    s'.ht.size = s.ht.size ∧ (∀ j ≠ i, s'.ht.table[j]? = s.ht.table[j]?) ∧
      ((∃ kv', ¬ Gettable kv' ∧ s'.ht.table[i]? = some (A ++ kv' :: B) ∧ s.ht.count = s'.ht.count) ∨
        s'.ht.table[i]? = some (A ++ B) ∧ s.ht.count ≠ s'.ht.count) := by
  obtain ⟨hlt, hget⟩ := List.getElem?_eq_some_iff.mp hi
  have hbucket : bucketfn sdbHtOpt s.ht kv.key = i := hw.home i _ hi kv (by simp)
  have hmem : kv ∈ s.ht.toList := List.mem_flatten.mpr ⟨_, List.mem_of_getElem? hi, by simp⟩
  have hfind : sdbHtFindKvp s kv.key = some kv := sdbHtFindKvp_of_mem hw hmem
  have hlong : ¬ (kv.key.length ≥ 0xff ∨ CStr.empty.length ≥ 0xffffff) := by
    rintro (h | h)
    · omega
    · exact absurd h (by decide)
  intro s'
  by_cases hdisk : (cdbLookup s.db kv.key).1 = 0
  · -- the entry is taken out
    have hs' : s' = { s with ht := (htDelete sdbHtOpt s.ht kv.key).2 } := by
      simp only [s', sdbUnset, sdbSet, sdbSetInternal, hlong, if_false, hfind, hv, hdisk, ne_eq,
        not_true_eq_false]
    have hdel : htDelete sdbHtOpt s.ht kv.key = _ := htDelete_bucket sdbHtOpt_lawful hw hi
    rw [hs', hdel]
    refine ⟨rfl, fun j hj ↦ List.getElem?_set_ne (Ne.symm hj),
      .inr ⟨List.getElem?_set_self hlt, ?_⟩⟩
    have hcount := hw.count
    have hpos := List.length_pos_of_mem hmem
    dsimp only
    omega
  · -- the entry is emptied
    have hs' : s' = { s with ht := htWriteKv sdbHtOpt s.ht { kv with
        cas := nextcas kv, value := some CStr.empty } } := by
      simp only [s', sdbUnset, sdbSet, sdbSetInternal, hlong, if_false, hfind, hv, hdisk, ne_eq,
        not_false_eq_true, if_true, not_true_eq_false, false_and, hne.symm]
    have hgetD : s.ht.table.getD i [] = A ++ kv :: B := by
      rw [List.getD_eq_getElem?_getD, hi]
      rfl
    have hA := isKvEqual_before sdbHtOpt_lawful hw hi
    have hx : isKvEqual sdbHtOpt kv.key (sdbHtOpt.calcsizeK kv.key) kv = true :=
      (sdbHtOpt_lawful.isKvEqual_iff _ kv).mpr rfl
    rw [hs', htWriteKv]
    dsimp only [sdbHtOpt] at hbucket hA hx ⊢
    rw [hbucket, hgetD, overwrite_append hA hx]
    refine ⟨rfl, fun j hj ↦ List.getElem?_set_ne (Ne.symm hj),
      .inl ⟨_, ?_, List.getElem?_set_self hlt, rfl⟩⟩
    rintro ⟨v', hv', hne'⟩
    exact hne' (Option.some.inj hv').symm

/-- The entries of a bucket that match have no value. -/
def Wiped (glob : Option CStr) (bt : List SdbKv) : Prop :=
  ∀ kv ∈ bt, sdbMatch (some kv.key) glob = true → ¬ Gettable kv

theorem Wiped.concat {A : List SdbKv} {kv : SdbKv} (hA : Wiped glob A)
    (hkv : sdbMatch (some kv.key) glob = true → ¬ Gettable kv) : Wiped glob (A ++ [kv]) := by
  intro kv' hmem
  rcases List.mem_append.mp hmem with hmem | hmem
  · exact hA kv' hmem
  · obtain rfl := List.mem_singleton.mp hmem
    exact hkv

/-- A turn that leaves the database as it is goes on with the next entry. -/
theorem bucketTurn_same {i : Nat} {A B : List SdbKv} {kv : SdbKv}
    (hi : st.1.ht.table[i]? = some (A ++ kv :: B)) (count : Nat)
    (hkv : Gettable kv → sdbMatch (some kv.key) glob = false) :
    bucketTurn (unsetCb glob) i (A.length, count, st) = some (.inl (A.length + 1, count, st)) := by
  have hidx : (st.1.ht.table.getD i [])[A.length]? = some kv := by
    rw [List.getD_eq_getElem?_getD, hi, Option.getD_some,
      List.getElem?_append_right (Nat.le_refl _), Nat.sub_self]
    rfl
  rw [bucketTurn]
  simp only [hidx]
  cases hv : kv.value with
  | none => simp only [if_true]
  | some v =>
      by_cases hne : v = CStr.empty
      · simp only [hne, if_true]
      · simp only [hne, if_false, unsetCb, hkv ⟨v, hv, hne⟩, Bool.false_eq_true, if_true]

/-- A turn on an entry that matches. -/
theorem bucketTurn_unset {i : Nat} {A B : List SdbKv} {kv : SdbKv} {v : CStr}
    (hi : st.1.ht.table[i]? = some (A ++ kv :: B)) (count : Nat) (hv : kv.value = some v)
    (hne : v ≠ CStr.empty) (hmatch : sdbMatch (some kv.key) glob = true) :
    let st' := (sdbUnset st.1 st.2 kv.key 0).2
    bucketTurn (unsetCb glob) i (A.length, count, st) =
      some (.inl (if st.1.ht.count = st'.1.ht.count then A.length + 1 else A.length, count + 1,
        st')) := by
  have hidx : (st.1.ht.table.getD i [])[A.length]? = some kv := by
    rw [List.getD_eq_getElem?_getD, hi, Option.getD_some,
      List.getElem?_append_right (Nat.le_refl _), Nat.sub_self]
    rfl
  rw [bucketTurn]
  simp only [hidx, hv, hne, if_false, unsetCb, hmatch, if_true]

/-- **The loop over a bucket** comes to an end, and unsets the entries that match. -/
theorem bucket_loop (hw : st.1.WF) (hs : ShortKeys st.1) {i : Nat} {A B : List SdbKv}
    (hi : st.1.ht.table[i]? = some (A ++ B)) (hA : Wiped glob A) (count : Nat) :
    ∃ count' st' bt, LoopEnds (bucketTurn (unsetCb glob) i) (A.length, count, st)
      (true, count', st') ∧ Wipes glob st st' ∧ st'.1.ht.size = st.1.ht.size ∧
      (∀ j ≠ i, st'.1.ht.table[j]? = st.1.ht.table[j]?) ∧ st'.1.ht.table[i]? = some bt ∧
      Wiped glob bt := by
  induction B generalizing A st count with
  | nil =>
      rw [List.append_nil] at hi
      refine ⟨count, st, A, .stop ?_, .refl hw hs, rfl, fun _ _ ↦ rfl, hi, hA⟩
      have hidx : (st.1.ht.table.getD i [])[A.length]? = none := by
        rw [List.getD_eq_getElem?_getD, hi, Option.getD_some]
        exact List.getElem?_eq_none (Nat.le_refl _)
      rw [bucketTurn]
      simp only [hidx]
  | cons kv B ih =>
      have hsplit : ∀ e : SdbKv, A ++ e :: B = (A ++ [e]) ++ B := fun e ↦ by
        rw [List.append_assoc]
        rfl
      have hlen : ∀ e : SdbKv, A.length + 1 = (A ++ [e]).length := fun e ↦ by
        rw [List.length_append, List.length_singleton]
      by_cases hgo : Gettable kv ∧ sdbMatch (some kv.key) glob = true
      · obtain ⟨⟨v, hv, hne⟩, hmatch⟩ := hgo
        have hfind : sdbHtFindKvp st.1 kv.key = some kv := sdbHtFindKvp_of_mem hw
          (List.mem_flatten.mpr ⟨_, List.mem_of_getElem? hi, by simp⟩)
        have hturn := bucketTurn_unset hi count hv hne hmatch
        dsimp only at hturn
        have hwipes := wipes_sdbUnset hw hs hmatch
        obtain ⟨hsize, hothers, hcases⟩ := sdbUnset_bucket hw st.2 hi hv hne (hs kv.key kv hfind)
        rcases hcases with ⟨kv', hkv', hi', hcount⟩ | ⟨hi', hcount⟩
        · -- the entry has been emptied
          rw [hsplit] at hi'
          rw [if_pos hcount, hlen kv'] at hturn
          obtain ⟨count', st', bt, hloop, hwipes', hsize', hothers', hbt, hwiped⟩ :=
            ih hwipes.wf hwipes.short hi' (hA.concat fun _ ↦ hkv') (count + 1)
          exact ⟨count', st', bt, .turn hturn hloop, hwipes.trans hwipes', hsize'.trans hsize,
            fun j hj ↦ (hothers' j hj).trans (hothers j hj), hbt, hwiped⟩
        · -- the entry has been taken out
          rw [if_neg hcount] at hturn
          obtain ⟨count', st', bt, hloop, hwipes', hsize', hothers', hbt, hwiped⟩ :=
            ih hwipes.wf hwipes.short hi' hA (count + 1)
          exact ⟨count', st', bt, .turn hturn hloop, hwipes.trans hwipes', hsize'.trans hsize,
            fun j hj ↦ (hothers' j hj).trans (hothers j hj), hbt, hwiped⟩
      · have hkv : Gettable kv → sdbMatch (some kv.key) glob = false := fun h ↦ by
          simpa using fun hmatch ↦ hgo ⟨h, hmatch⟩
        have hturn := bucketTurn_same hi count hkv
        rw [hsplit] at hi
        rw [hlen kv] at hturn
        obtain ⟨count', st', bt, hloop, hrest⟩ := ih hw hs hi (hA.concat fun hmatch hgettable ↦
          hgo ⟨hgettable, hmatch⟩) count
        exact ⟨count', st', bt, .turn hturn hloop, hrest⟩

/-- **The pass over the memory** comes to an end, and unsets the entries that match. -/
theorem table_loop (hw : st.1.WF) (hs : ShortKeys st.1) {i n : Nat} (hn : i + n = st.1.ht.size)
    (hdone : ∀ j < i, ∀ bt, st.1.ht.table[j]? = some bt → Wiped glob bt) (count : Nat) :
    ∃ count' st', LoopEnds (tableTurn (unsetCb glob)) (i, count, st) (true, count', st') ∧
      Wipes glob st st' ∧ Wiped glob st'.1.ht.toList := by
  induction n generalizing i st count with
  | zero =>
      refine ⟨count, st, .stop ?_, .refl hw hs, fun kv hkv ↦ ?_⟩
      · rw [tableTurn]
        simp only [← hn, Nat.add_zero, Nat.lt_irrefl, if_false]
      · obtain ⟨bt, hbt, hmem⟩ := List.mem_flatten.mp hkv
        obtain ⟨j, hj⟩ := List.mem_iff_getElem?.mp hbt
        have hlt := (List.getElem?_eq_some_iff.mp hj).1
        rw [hw.length, ← hn] at hlt
        exact hdone j hlt bt hj kv hmem
  | succ n ih =>
      have hlt : i < st.1.ht.size := by omega
      have hlen : i < st.1.ht.table.length := by
        rw [hw.length]
        exact hlt
      obtain ⟨bt₀, hi⟩ : ∃ bt₀, st.1.ht.table[i]? = some ([] ++ bt₀) :=
        ⟨_, List.getElem?_eq_getElem hlen⟩
      have hnil : Wiped glob [] := fun _ h ↦ absurd h List.not_mem_nil
      obtain ⟨count₁, st₁, bt, hloop, hwipes, hsize, hothers, hbt, hwiped⟩ :=
        bucket_loop hw hs hi hnil count
      have hturn : tableTurn (unsetCb glob) (i, count, st) = some (.inl (i + 1, count₁, st₁)) := by
        rw [tableTurn]
        simp only [hlt, if_true, Option.bind_eq_bind]
        rw [List.length_nil] at hloop
        rw [hloop.result]
        rfl
      have hdone₁ : ∀ j < i + 1, ∀ bt, st₁.1.ht.table[j]? = some bt → Wiped glob bt := by
        intro j hj bt' hbt'
        by_cases hji : j = i
        · subst hji
          obtain rfl := Option.some.inj (hbt.symm.trans hbt')
          exact hwiped
        · rw [hothers j hji] at hbt'
          exact hdone j (by omega) bt' hbt'
      obtain ⟨count', st', hloop', hwipes', hall⟩ :=
        ih hwipes.wf hwipes.short (by omega) hdone₁ count₁
      exact ⟨count', st', .turn hturn hloop', hwipes.trans hwipes', hall⟩

/-- **`sdb_unset_like`** comes to an end.  It leaves the keys alone that do not match, and clears
those that are in memory or in a record that the scan steps over. -/
theorem sdbUnsetLike_wipes (hw : st.1.WF) (hs : ShortKeys st.1) (glob : Option CStr) :
    ∃ count st', sdbUnsetLike st glob = some (count, st') ∧ Wipes glob st st' ∧
      Wiped glob st'.1.ht.toList ∧ ∀ d ∈ st.1.scan, sdbMatch (some d.key) glob = true →
        d.key.length < 0xff → Cleared st'.1 d.key := by
  obtain ⟨hret, hwipes, hcleared⟩ :=
    foreachCdbRounds_wipes glob hw hs (scanBound st.1.db) (sdbDumpBegin st.1.fd) 0
  obtain ⟨count', st', hloop, hwipes', hall⟩ := table_loop hwipes.wf hwipes.short (Nat.zero_add _)
    (fun j hj ↦ absurd hj (Nat.not_lt_zero j))
    (foreachCdbRounds (unsetCb glob) (scanBound st.1.db) (sdbDumpBegin st.1.fd) 0 st).2.1
  refine ⟨count', st', ?_, hwipes.trans hwipes', hall, fun d hd hmatch hlen ↦
    hwipes'.cleared _ (hcleared d hd hmatch hlen)⟩
  rw [sdbUnsetLike, sdbForeachChanging, if_pos hret]
  exact congrArg (Option.map Prod.snd) hloop.result

end Wipes

/-! ## The records of a file -/

/-- The scan of a written file steps over all records with keys of 1 to 253 bytes; `pre` stands
before the scan. -/
theorem mem_dumpLoop_image {c : Cdb} (pre post : List CdbRec) (hfit : Fitting (pre ++ post))
    (hc : c.Over (cdbImage (pre ++ post))) (hk : ∀ r ∈ post, r.Readable) {n : Nat}
    (hn : post.length ≤ n) {r : CdbRec} (hr : r ∈ post) :
    r.dumped ∈ dumpLoop c n (cdbFinalSize + (cdbBody pre).length) := by
  induction post generalizing pre n with
  | nil => cases hr
  | cons r' post ih =>
      obtain ⟨n, rfl⟩ := Nat.exists_eq_succ_of_ne_zero (Nat.ne_zero_of_lt hn)
      have hstep := sdbDumpDupnext_rec hc hfit.size (recAt_image pre r' post)
        (hfit.fits r' (by simp)) (hk r' (by simp))
      rw [dumpLoop, hstep]
      rcases List.mem_cons.mp hr with rfl | hr
      · exact List.mem_cons_self
      · have happ : pre ++ r' :: post = (pre ++ [r']) ++ post := by simp
        rw [happ] at hfit hc
        have hrest := ih (pre ++ [r']) hfit hc (fun r hr ↦ hk r (by simp [hr]))
          (Nat.le_of_succ_le_succ hn) hr
        rw [length_cdbBody_append_singleton, ← Nat.add_assoc] at hrest
        exact List.mem_cons_of_mem _ hrest

theorem Sdb.Holds.mem_scan {s : Sdb} {recs : List KvRec} (h : s.Holds recs)
    (hk : ∀ r ∈ recs, 1 ≤ r.1.length ∧ r.1.length ≤ 253) {r : KvRec} (hr : r ∈ recs) :
    r.raw.dumped ∈ s.scan := by
  rw [Sdb.scan, h.fd, sdbDumpBegin]
  refine mem_dumpLoop_image [] (recs.map KvRec.raw) h.fitting h.db (fun r' hr' ↦ ?_) ?_
    (List.mem_map_of_mem hr)
  · obtain ⟨r'', hr'', rfl⟩ := List.mem_map.mp hr'
    exact hk r'' hr''
  · have hlen := length_cdbImage_eq (recs.map KvRec.raw)
    rw [scanBound, h.db.size, kvImage]
    omega

/-! ## Runs -/

/-- The states reached by runs with time that open sane files. -/
inductive SaneReachable : Sdb × World → Prop
  | start {st : Sdb × World} (h : SaneOpened st) : SaneReachable st
  | step {st st' : Sdb × World} (op : TimedOp) (hst : SaneReachable st)
      (hok : ∀ call, op = .call call → SaneCall call st) (hop : op.run st = some st') :
      SaneReachable st'

/-- The table is well formed and has no long key, and the file is a written one, if there is one. -/
structure Sdb.Kept (s : Sdb) : Prop where
  wf : s.WF
  short : ShortKeys s
  backed : s.Backed

theorem tableInv_short : TableInv fun s ↦ s.WF ∧ ShortKeys s where
  new {s} hht := by
    refine ⟨tableInv_wf.new hht, fun k kv hf ↦ ?_⟩
    rw [sdbHtFindKvp_of_htNew hht] at hf
    cases hf
  of_ht {s s'} hs hht hstamp := by
    refine ⟨tableInv_wf.of_ht hs.1 hht hstamp, fun k kv hf ↦ hs.2 k kv ?_⟩
    rw [sdbHtFindKvp, hht] at hf
    exact hf
  set hs w key val owned cas :=
    ⟨tableInv_wf.set hs.1 w key val owned cas, hs.2.set hs.1 w key val owned cas⟩
  remove {s} hs keys := by
    refine ⟨tableInv_wf.remove hs.1 keys, fun k kv hf ↦ ?_⟩
    rw [sdbHtFindKvp_removePersisted hs.1] at hf
    split at hf
    · cases hf
    · exact hs.2 k kv hf

section Kept

variable {s : Sdb}

theorem Sdb.Kept.set (h : s.Kept) (w : World) (key val : CStr) (owned : Bool) (cas : Nat) :
    (sdbSetInternal s w key val owned cas).2.1.Kept := by
  obtain ⟨hwf, hshort⟩ := tableInv_short.set ⟨h.wf, h.short⟩ w key val owned cas
  exact ⟨hwf, hshort, h.backed.of_frame (sdbSetInternal_spec h.wf w key val owned cas).frame⟩

theorem Sdb.Kept.get (h : s.Kept) (w : World) (key : CStr) : (sdbConstGetLen s w key).2.1.Kept := by
  unfold sdbConstGetLen
  split
  · exact h
  · split
    · exact h
    · split
      · exact h
      · split
        · exact h.set w key CStr.empty false 0
        · exact h

theorem Sdb.Kept.stamp (h : s.Kept) : Sdb.Kept { s with timestamped := true } := by
  refine ⟨h.wf, h.short, ?_⟩
  rcases h.backed with ⟨recs, hh⟩ | hh
  · exact .inl ⟨recs, hh.fitting, hh.fd, hh.db⟩
  · exact .inr ⟨hh.fd, hh.dbFd⟩

theorem Sdb.Kept.expireSetKv (h : s.Kept) {w : World} {key : CStr} {kv : SdbKv}
    (hf : sdbHtFindKvp s key = some kv) {expire cas : Nat} {r : Bool × Sdb × World}
    (hr : sdbExpireSetKv s w kv expire cas = some r) : r.2.1.Kept := by
  obtain ⟨-, hframe, hwf, -, hfind⟩ := sdbExpireSetKv_spec h.wf hf hr
  refine ⟨hwf, fun k kv' hk ↦ ?_, h.backed.of_frame hframe⟩
  rw [hfind] at hk
  split at hk
  · next hkey =>
      rw [hkey.1]
      exact h.short key kv hf
  · exact h.short k kv' hk

theorem Sdb.Kept.expireSet (h : s.Kept) {w : World} {t : CdbFind} {key : CStr} {expire cas : Nat}
    {r : Bool × Sdb × World} (hr : sdbExpireSet s w t key expire cas = some r) : r.2.1.Kept := by
  cases sdbExpireSet_ends hr with
  | nothing => exact h.stamp
  | entry hf hkv => exact h.stamp.expireSetKv hf hkv
  | copied hf hkv => exact (h.stamp.set w key _ true cas).expireSetKv hf hkv

end Kept

theorem SaneReachable.kept {st : Sdb × World} (h : SaneReachable st) : st.1.Kept := by
  induction h with
  | start h =>
      obtain ⟨w, path, name, hfile, rfl⟩ := h
      obtain ⟨hwf, hshort⟩ := tableInv_short.sdbNew w path name
      exact ⟨hwf, hshort, Sdb.Backed.new hfile⟩
  | @step st st' op _ hok hop ih =>
      cases op with
      | call op =>
          cases hop
          obtain ⟨hwf, hshort⟩ := tableInv_short.run ⟨ih.wf, ih.short⟩ op
          exact ⟨hwf, hshort, ih.backed.run ih.wf (hok op rfl)⟩
      | setOwned key val cas =>
          cases hop
          exact ih.set st.2 key val true cas
      | get key =>
          cases hop
          exact ih.get st.2 key
      | expireSet t key expire cas =>
          obtain ⟨r, hr, rfl⟩ := Option.map_eq_some_iff.mp hop
          exact ih.expireSet hr
      | wait n =>
          cases hop
          exact ih

/-- A run without time is one with time. -/
theorem SaneReachable.of_reach {st : Sdb × World} (h : Reach SaneOpened SaneCall st) :
    SaneReachable st := by
  refine h.induct (fun _ hst ↦ .start hst) fun _ op ih hok ↦ .step (.call op) ih ?_ rfl
  rintro call hcall
  cases hcall
  exact hok

/-- **`sdb_unset_like` removes the matches**, and nothing else: in every state of a run that opens
sane files, over a file whose keys have 1 to 253 bytes or over none, it comes to an end, and after
it `sdb_get` finds no key that matches, and all others as before. -/
theorem sdbUnsetLike_removes {st : Sdb × World} (hst : SaneReachable st)
    (hkeys : ∀ recs, st.1.Holds recs → ∀ r ∈ recs, 1 ≤ r.1.length ∧ r.1.length ≤ 253)
    (glob : Option CStr) : ∃ count st', sdbUnsetLike st glob = some (count, st') ∧ ∀ k,
      sdbGet st'.1 st'.2 k = if sdbMatch (some k) glob then none else sdbGet st.1 st.2 k := by
  have hkept := hst.kept
  obtain ⟨count, st', hrun, hwipes, hwiped, hscanned⟩ :=
    sdbUnsetLike_wipes hkept.wf hkept.short glob
  refine ⟨count, st', hrun, fun k ↦ ?_⟩
  split
  · next hmatch =>
      cases hf : sdbHtFindKvp st'.1 k with
      | some kv =>
          obtain ⟨hmem, hkey⟩ := key_of_sdbHtFindKvp hwipes.wf hf
          refine sdbGet_cleared ?_ st'.2
          rw [Cleared, hf]
          exact hwiped kv hmem (hkey ▸ hmatch)
      | none =>
          -- then the key is in no record
          rcases hkept.backed with ⟨recs, hh⟩ | hh
          · refine sdbGet_cleared ?_ st'.2
            cases hlook : Keyed.lookup Prod.fst recs k with
            | none =>
                rw [Cleared, hf, hwipes.frame.db]
                exact cdbLookup_of_none hh hlook
            | some r =>
                obtain ⟨hmem, rfl⟩ := mem_of_lookup hlook
                have hlen := (hkeys recs hh r hmem).2
                exact hscanned _ (hh.mem_scan (hkeys recs hh) hmem) hmatch
                  (Nat.lt_of_le_of_lt hlen (by decide))
          · have hfd : st'.1.fd = none := hwipes.frame.fd.trans hh.fd
            rw [sdbGet, sdbConstGetLen, hf, sdbGetDisk, hfd]
            rfl
  · next hmatch =>
      refine sdbGet_congr (hwipes.other k (by simpa using hmatch)) ?_ ?_ hwipes.now
      · rw [hwipes.frame]
        rfl
      · rw [hwipes.frame]

theorem Sdb.Holds.set {st : Sdb × World} {recs : List KvRec} (h : st.1.Holds recs) (hw : st.1.WF)
    (key val : CStr) (cas : Nat) : (Op.run (.set key val cas) st).1.Holds recs :=
  (sdbSetInternal_spec hw st.2 key val false cas).holds h

/-- Over the file `x=1`, the key `a` is set in memory. -/
def overXWithA : Sdb × World :=
  Op.run (.set (CStr.ofBytes [97]) (CStr.ofBytes [50]) 0) (newOn (kvImage fileX))

/-- The key `x` is unset, and the key `a` stays. -/
theorem sdbUnsetLike_x : ∃ count st',
    sdbUnsetLike overXWithA (some (CStr.ofBytes [120])) = some (count, st') ∧ ∀ k,
      sdbGet st'.1 st'.2 k = if sdbMatch (some k) (some (CStr.ofBytes [120])) then none
        else sdbGet overXWithA.1 overXWithA.2 k := by
  have hnew := OverX.new
  have hreach : Reach SaneOpened SaneCall overXWithA := .step _ hnew.reach trivial
  have hholds : overXWithA.1.Holds fileX := by
    rw [overXWithA]
    exact hnew.holds.set hnew.reach.backed.1.wf _ _ _
  refine sdbUnsetLike_removes (.of_reach hreach) (fun recs hrecs ↦ ?_) _
  rw [hrecs.unique hholds]
  decide

end SdbStore
