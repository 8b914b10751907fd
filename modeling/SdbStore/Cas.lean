import SdbStore.Persist

/-!
# Compare and swap

`sdb.h`: "pass a nonzero cas (obtained from a get) to fail the write if the key changed in
between".  Several clients use one database, one call after another.  The counter lives
in the memory entry of the key, and a write that finds no entry with a value, or that
drops the entry, does not look at it.  As long as no such write is made the counter goes
up with every change, so that a write with an old counter fails.
-/

namespace SdbStore

open Lib

/-- The calls of the clients, in the order in which they are made. -/
def runCalls (st : Sdb × World) (calls : List (Nat × Op)) : Sdb × World :=
  calls.foldl (fun st a ↦ a.2.run st) st

/-- No call of another client changes the value of the key. -/
def Undisturbed (client : Nat) (k : CStr) : Sdb × World → List (Nat × Op) → Prop
  | _, [] => True
  | st, a :: calls =>
      (a.1 ≠ client → sdbGet (a.2.run st).1 (a.2.run st).2 k = sdbGet st.1 st.2 k) ∧
        Undisturbed client k (a.2.run st) calls

/-- A client gets the counter of the key in the state `st`; the calls are made, and then
the client writes with this counter.  If the counter is not zero and the write succeeds, no
other client has changed the value in between. -/
def CasGuards (st : Sdb × World) (client : Nat) (k val : CStr) (calls : List (Nat × Op)) : Prop :=
  let c := (sdbConstGetLen st.1 st.2 k).1.cas
  let st' := runCalls st calls
  c ≠ 0 → (sdbSet st'.1 st'.2 k val c).1 = true → Undisturbed client k st calls

/-! ## Calls that respect the counter -/

/-- The key has an entry with a value, and a write to it does not drop the entry. -/
def Guarded (s : Sdb) (k : CStr) : Prop :=
  ∃ kv old, sdbHtFindKvp s k = some kv ∧ kv.value = some old ∧ (cdbLookup s.db k).1 ≠ 0

/-- A write to the key, unless it is refused for its length, finds the key guarded; a sync
takes neither the file at the path nor the file it writes for text. -/
def CasSafe (k : CStr) (op : Op) (st : Sdb × World) : Prop :=
  match op with
  | .set key val _ => key = k → ¬ (key.length ≥ 0xff ∨ val.length ≥ 0xffffff) → Guarded st.1 k
  | .unset key _ => key = k → ¬ (key.length ≥ 0xff) → Guarded st.1 k
  | .sync => sdbTextCheck (st.2.fs st.1.target) = false ∧
      ∀ p, Writable (syncDir st.1) p → sdbTextCheck (some (kvImage p.1)) = false
  | .journalOpen => True
  | .open _ => False
  | .reset => False

/-- Every call is safe in the state before it. -/
def SafeCalls (k : CStr) : Sdb × World → List (Nat × Op) → Prop
  | _, [] => True
  | st, a :: calls => CasSafe k a.2 st ∧ SafeCalls k (a.2.run st) calls

/-- `sdb_set` and `sdb_unset`. -/
def Op.isWrite : Op → Bool
  | .set _ _ _ => true
  | .unset _ _ => true
  | _ => false

/-! ## One call -/

/-- The counter goes up by one, modulo `2 ^ 32`. -/
theorem nextcas_mod (kv : SdbKv) : nextcas kv % 4294967296 = (kv.cas + 1) % 4294967296 := by
  rw [nextcas]
  split
  · next h => rw [h]
  · rw [ut32, Nat.mod_mod]

/-- What a write leaves of a guarded entry. -/
theorem setEntry_guarded {kv : SdbKv} {old : CStr} {disk : Int} (hv : kv.value = some old)
    (hdisk : disk ≠ 0) (key val : CStr) (cas : Nat) :
    (setEntry (some kv) disk key val false cas).2 = some kv ∨
      ∃ kv' v, (setEntry (some kv) disk key val false cas).2 = some kv' ∧ kv'.value = some v ∧
        kv'.cas % 4294967296 = (kv.cas + 1) % 4294967296 := by
  unfold setEntry
  split
  · exact .inl rfl
  · simp only [hv]
    split
    · exact .inl rfl
    · split
      · exact .inl rfl
      · exact .inr ⟨_, val, rfl, rfl, nextcas_mod kv⟩

/-- A write with a counter succeeds on a guarded entry only if the counters agree. -/
theorem cas_of_setEntry {kv : SdbKv} {old : CStr} {disk : Int} (hv : kv.value = some old)
    (hdisk : disk ≠ 0) {key val : CStr} {cas : Nat} (hcas : cas ≠ 0)
    (hret : (setEntry (some kv) disk key val false cas).1 ≠ 0) : kv.cas = cas := by
  by_contra hne
  refine hret ?_
  unfold setEntry
  split
  · rfl
  · simp only [hv]
    rw [if_pos ⟨hcas, hne⟩]

/-- A sync that loads no text leaves an entry as it is or takes it out of memory. -/
theorem sdbHtFindKvp_sync {st : Sdb × World} (hs : st.1.Sound) {k : CStr}
    (hsafe : CasSafe k .sync st) :
    sdbHtFindKvp (sdbSync st.1 st.2).2.1 k = sdbHtFindKvp st.1 k ∨
      sdbHtFindKvp (sdbSync st.1 st.2).2.1 k = none := by
  obtain ⟨htext, himage⟩ := hsafe
  have hsame : ∀ s' : Sdb, s'.ht = st.1.ht → sdbHtFindKvp s' k = sdbHtFindKvp st.1 k := by
    intro s' hht
    rw [sdbHtFindKvp, hht]
    rfl
  have htrue := fun hret ↦ sdbSync_true hs.wf (w := st.2) hret
  have hsync := sdbSync_synced st.1 st.2
  generalize sdbSync st.1 st.2 = res at hsync htrue ⊢
  cases hsync with
  | noCreate => exact .inl (hsame _ (syncDir_ht st.1))
  | noWrite => exact .inl (hsame _ (syncDir_ht st.1))
  | @noRename w₁ w₂ w₃ per e hopen hwrite hrename =>
      -- the old file is opened again, and it is no text
      obtain ⟨-, -, -, -, htouch⟩ := written_of_syncWrite hs.wf hopen hwrite
      refine .inl (hsame _ ?_)
      have hne := (tmpPath_ne st.1.target).symm
      rw [sdbOpen, setFile_fs, if_neg hne, (sysCall_eq_error hrename).2]
      dsimp only
      rw [htouch.fs _ hne, if_neg (by rw [htext]; decide)]
      split
      · exact syncDir_ht st.1
      · exact syncDir_ht st.1
  | @noReopen w₁ w₂ w₃ per r hopen hwrite hrename hr hret =>
      obtain ⟨p, hp, -, hfile, -⟩ := written_of_syncWrite hs.wf hopen hwrite
      rw [hr, sdbOpen_file (target_of_tmpRename hrename hfile) (himage p hp)] at hret
      cases hret
  | done =>
      obtain ⟨p, hp⟩ := htrue rfl
      rw [hp.find hs.wf]
      split
      · exact .inr rfl
      · exact .inl rfl

theorem sdbHtFindKvp_journalOpen (st : Sdb × World) (k : CStr) :
    sdbHtFindKvp (Op.journalOpen.run st).1 k = sdbHtFindKvp st.1 k := by
  change sdbHtFindKvp (sdbJournalOpen st.1 st.2).2.1 k = _
  rw [sdbJournalOpen]
  split
  · rfl
  · dsimp only
    split
    · rfl
    · rfl

/-- A write to the key, or to another one. -/
theorem sdbHtFindKvp_write {st : Sdb × World} (hs : st.1.Sound) {k key val : CStr}
    (hsafe : key = k → ¬ (key.length ≥ 0xff ∨ val.length ≥ 0xffffff) → Guarded st.1 k) (cas : Nat) :
    sdbHtFindKvp (sdbSetInternal st.1 st.2 key val false cas).2.1 k = sdbHtFindKvp st.1 k ∨
      ∃ kv kv' v, sdbHtFindKvp st.1 k = some kv ∧
        sdbHtFindKvp (sdbSetInternal st.1 st.2 key val false cas).2.1 k = some kv' ∧
        kv'.value = some v ∧ kv'.cas % 4294967296 = (kv.cas + 1) % 4294967296 := by
  rw [(sdbSetInternal_spec hs.wf st.2 key val false cas).find]
  by_cases hk : k = key
  · subst hk
    rw [if_pos rfl]
    by_cases hlen : k.length ≥ 0xff ∨ val.length ≥ 0xffffff
    · unfold setEntry
      rw [if_pos hlen]
      exact .inl rfl
    · obtain ⟨kv, old, hf, hv, hdisk⟩ := hsafe rfl hlen
      rw [hf]
      rcases setEntry_guarded hv hdisk k val cas with h | ⟨kv', v, h, hv', hcas⟩
      · exact .inl h
      · exact .inr ⟨kv, kv', v, rfl, h, hv', hcas⟩
  · rw [if_neg hk]
    exact .inl rfl

/-- **One safe call**: the entry of the key stays as it is, or it leaves memory, or it is
written and its counter goes up. -/
theorem CasSafe.step {st : Sdb × World} (hs : st.1.Sound) {k : CStr} {op : Op}
    (h : CasSafe k op st) :
    sdbHtFindKvp (op.run st).1 k = sdbHtFindKvp st.1 k ∨ sdbHtFindKvp (op.run st).1 k = none ∨
      ∃ kv kv' v, op.isWrite = true ∧ sdbHtFindKvp st.1 k = some kv ∧
        sdbHtFindKvp (op.run st).1 k = some kv' ∧ kv'.value = some v ∧
        kv'.cas % 4294967296 = (kv.cas + 1) % 4294967296 := by
  cases op with
  | set key val cas =>
      rcases sdbHtFindKvp_write hs h cas with h | ⟨kv, kv', v, h⟩
      · exact .inl h
      · exact .inr (.inr ⟨kv, kv', v, rfl, h⟩)
  | unset key cas =>
      have hsafe : key = k → ¬ (key.length ≥ 0xff ∨ CStr.empty.length ≥ 0xffffff) →
          Guarded st.1 k := fun hk hlen ↦ h hk fun hlong ↦ hlen (.inl hlong)
      rcases sdbHtFindKvp_write hs hsafe cas with h | ⟨kv, kv', v, h⟩
      · exact .inl h
      · exact .inr (.inr ⟨kv, kv', v, rfl, h⟩)
  | sync =>
      rcases sdbHtFindKvp_sync hs h with h | h
      · exact .inl h
      · exact .inr (.inl h)
  | «open» file => exact absurd h id
  | reset => exact absurd h id
  | journalOpen => exact .inl (sdbHtFindKvp_journalOpen st k)

/-! ## Runs -/

/-- An entry that has left memory does not come back. -/
theorem SafeCalls.gone {st : Sdb × World} (hs : st.1.Sound) {k : CStr} {calls : List (Nat × Op)}
    (h : SafeCalls k st calls) (hf : sdbHtFindKvp st.1 k = none) :
    sdbHtFindKvp (runCalls st calls).1 k = none := by
  induction calls generalizing st with
  | nil => exact hf
  | cons a calls ih =>
      refine ih (hs.run a.2) h.2 ?_
      rcases h.1.step hs with hsame | hnone | ⟨kv, -, -, -, hkv, -⟩
      · exact hsame.trans hf
      · exact hnone
      · rw [hf] at hkv
        cases hkv

theorem sdbGet_of_value {s : Sdb} (hs : s.Sound) {w : World} {k : CStr} {kv : SdbKv} {v : CStr}
    (hf : sdbHtFindKvp s k = some kv) (hv : kv.value = some v) : sdbGet s w k = readAs v := by
  rw [sdbGet_eq hs.noExpire, hf]
  simp only [entryGet, hv, readAs]
  split
  · rfl
  · rfl

/-- **The counter over a run**: if the entry is still in memory, its counter has gone up
by the number of the changes, and without changes the value is the same all along. -/
theorem SafeCalls.counter {st : Sdb × World} (hs : st.1.Sound) {k : CStr}
    {calls : List (Nat × Op)} (h : SafeCalls k st calls) {kv : SdbKv} {v : CStr}
    (hf : sdbHtFindKvp st.1 k = some kv) (hv : kv.value = some v) (client : Nat) :
    sdbHtFindKvp (runCalls st calls).1 k = none ∨
      ∃ kv' m, sdbHtFindKvp (runCalls st calls).1 k = some kv' ∧
        m ≤ calls.countP (·.2.isWrite) ∧
        kv'.cas % 4294967296 = (kv.cas + m) % 4294967296 ∧
        (m = 0 → Undisturbed client k st calls) := by
  induction calls generalizing st kv v with
  | nil => exact .inr ⟨kv, 0, hf, Nat.le_refl _, rfl, fun _ ↦ trivial⟩
  | cons a calls ih =>
      have hs' := hs.run a.2
      rw [List.countP_cons]
      rcases h.1.step hs with hsame | hnone | ⟨kv₀, kv₁, v₁, hwrite, hkv₀, hkv₁, hv₁, hcas₁⟩
      · rcases ih hs' h.2 (hsame.trans hf) hv with hgone | ⟨kv', m, hkv', hm, hcas, hquiet⟩
        · exact .inl hgone
        · refine .inr ⟨kv', m, hkv', Nat.le_add_right_of_le hm, hcas,
            fun h0 ↦ ⟨fun _ ↦ ?_, hquiet h0⟩⟩
          rw [sdbGet_of_value hs' (hsame.trans hf) hv, sdbGet_of_value hs hf hv]
      · exact .inl (h.2.gone hs' hnone)
      · rw [hf, Option.some.injEq] at hkv₀
        subst hkv₀
        rcases ih hs' h.2 hkv₁ hv₁ with hgone | ⟨kv', m, hkv', hm, hcas, -⟩
        · exact .inl hgone
        · refine .inr ⟨kv', m + 1, hkv', ?_, ?_, fun h0 ↦ absurd h0 (Nat.succ_ne_zero m)⟩
          · rw [if_pos hwrite]
            exact Nat.succ_le_succ hm
          · omega

theorem sdbGetDisk_cas (s : Sdb) (k : CStr) : (sdbGetDisk s k).cas = 0 := by
  rw [sdbGetDisk]
  split
  · rfl
  · dsimp only
    split
    · rfl
    · split
      · rfl
      · rfl

/-- The counter that `sdb_get` hands out is that of an entry with a value. -/
theorem of_cas_ne_zero {s : Sdb} (hs : s.Sound) {w : World} {k : CStr}
    (hc : (sdbConstGetLen s w k).1.cas ≠ 0) :
    ∃ kv v, sdbHtFindKvp s k = some kv ∧ kv.value = some v ∧
      (sdbConstGetLen s w k).1.cas = kv.cas := by
  rw [sdbConstGetLen_eq hs.noExpire] at hc ⊢
  cases hf : sdbHtFindKvp s k with
  | none =>
      rw [hf] at hc
      exact absurd (sdbGetDisk_cas s k) hc
  | some kv =>
      rw [hf] at hc
      cases hv : kv.value with
      | none =>
          simp only [entryGet, hv] at hc
          exact absurd rfl hc
      | some v =>
          simp only [entryGet, hv] at hc ⊢
          split at hc
          · exact absurd rfl hc
          · next hne => exact ⟨kv, v, rfl, hv, by rw [if_neg hne]⟩

theorem SafeCalls.sound {st : Sdb × World} (hs : st.1.Sound) (calls : List (Nat × Op)) :
    (runCalls st calls).1.Sound := by
  induction calls generalizing st with
  | nil => exact hs
  | cons a calls ih => exact ih (hs.run a.2)

/-- **No lost updates**, in every run of safe calls with fewer than `2 ^ 32` writes. -/
theorem casGuards_of_safe {st : Sdb × World} (hst : Reachable st) (client : Nat) {k val : CStr}
    {calls : List (Nat × Op)} (hsafe : SafeCalls k st calls)
    (hlast : CasSafe k (.set k val (sdbConstGetLen st.1 st.2 k).1.cas) (runCalls st calls))
    (hcount : calls.countP (·.2.isWrite) < 4294967296) : CasGuards st client k val calls := by
  intro hc hret
  have hs := Reach.sound hst
  have hs' := SafeCalls.sound hs calls
  obtain ⟨kv, v, hf, hv, hcas⟩ := of_cas_ne_zero hs hc
  generalize (sdbConstGetLen st.1 st.2 k).1.cas = c at hlast hc hret hcas
  have hret' : (sdbSetInternal (runCalls st calls).1 (runCalls st calls).2 k val false c).1 ≠ 0 :=
    of_decide_eq_true hret
  rw [(sdbSetInternal_spec hs'.wf (runCalls st calls).2 k val false c).ret] at hret'
  have hlen : ¬ (k.length ≥ 0xff ∨ val.length ≥ 0xffffff) := by
    intro hlen
    unfold setEntry at hret'
    rw [if_pos hlen] at hret'
    exact hret' rfl
  obtain ⟨kv₁, old, hf₁, hv₁, hdisk⟩ := hlast rfl hlen
  rw [hf₁] at hret'
  have hcas₁ : kv₁.cas = c := cas_of_setEntry hv₁ hdisk hc hret'
  rcases hsafe.counter hs hf hv client with hgone | ⟨kv', m, hkv', hm, hmod, hquiet⟩
  · exact nomatch hgone.symm.trans hf₁
  · obtain rfl : kv' = kv₁ := Option.some.inj (hkv'.symm.trans hf₁)
    rw [hcas₁, hcas] at hmod
    exact hquiet (by omega)

/-- In a database without a file, `a` is set to `1`; another client sets `b`, and then `a`
is set to `2` with the counter of `1`. -/
theorem casGuards_other :
    let st := Op.run (.set (CStr.ofBytes [97]) (CStr.ofBytes [49]) 0) (sdbNew .empty .empty .empty)
    let calls := [(1, Op.set (CStr.ofBytes [98]) (CStr.ofBytes [50]) 0)]
    (sdbConstGetLen st.1 st.2 (CStr.ofBytes [97])).1.cas = 2 ∧
      (sdbSet (runCalls st calls).1 (runCalls st calls).2 (CStr.ofBytes [97]) (CStr.ofBytes [50])
        2).1 = true ∧ CasGuards st 0 (CStr.ofBytes [97]) (CStr.ofBytes [50]) calls := by
  have hst : Reachable (Op.run (.set (CStr.ofBytes [97]) (CStr.ofBytes [49]) 0)
      (sdbNew .empty .empty .empty)) := .step _ (.start ⟨_, _, _, rfl⟩) trivial
  refine ⟨by decide, by decide, casGuards_of_safe hst 0 ⟨?_, trivial⟩ ?_ (by decide)⟩
  · exact fun hk ↦ absurd hk (by decide)
  · exact fun _ _ ↦ ⟨⟨CStr.ofBytes [97], some (CStr.ofBytes [49]), 2, 0⟩, CStr.ofBytes [49],
      by decide, rfl, by decide⟩

/-- A write of another client that drops the entry: the counter is not looked at again. -/
theorem not_casGuards_of_dropped {st : Sdb × World} (hs : st.1.Sound) {k : CStr}
    (hd : Dropped st.1 k) (hc : (sdbConstGetLen st.1 st.2 k).1.cas ≠ 0) {val val' : CStr}
    (hlen : ¬ (k.length ≥ 0xff ∨ val.length ≥ 0xffffff))
    (hlen' : ¬ (k.length ≥ 0xff ∨ val'.length ≥ 0xffffff)) :
    ¬ CasGuards st 0 k val' [(1, .set k val 0)] := by
  intro h
  have hs₁ := hs.run (.set k val 0)
  have hgone : sdbHtFindKvp (Op.run (.set k val 0) st).1 k = none := by
    refine ((sdbSetInternal_spec hs.wf st.2 k val false 0).find k).trans ?_
    rw [if_pos rfl, (hd.setEntry hlen false 0).2]
  have hret : (sdbSet (Op.run (.set k val 0) st).1 (Op.run (.set k val 0) st).2 k val'
      (sdbConstGetLen st.1 st.2 k).1.cas).1 = true := by
    refine decide_eq_true ?_
    rw [(sdbSetInternal_spec hs₁.wf _ k val' false _).ret, hgone, setEntry, if_neg hlen']
    exact Nat.succ_ne_zero 1
  have hsame := (h hc hret).1 Nat.one_ne_zero
  have hnone : sdbGet (Op.run (.set k val 0) st).1 (Op.run (.set k val 0) st).2 k = none :=
    (sdbGet_dropped hs st.2 hd hlen).2
  rw [hnone, sdbGet] at hsame
  -- a value that has a counter is not `NULL`
  obtain ⟨kv, v, hf, hv, -⟩ := of_cas_ne_zero hs hc
  rw [sdbConstGetLen_eq hs.noExpire, hf] at hsame hc
  simp only [entryGet, hv] at hsame hc
  split at hsame
  · next hempty =>
      rw [if_pos hempty] at hc
      exact hc rfl
  · cases hsame

/-- With the file `x=1` open, `a` is set to `1` and has the counter 2.  Another client
sets it to `2`, which drops the entry; a write with the counter 2 succeeds all the same. -/
theorem not_casGuards_dropped : ∃ st, Reachable st ∧
    ¬ CasGuards st 0 (CStr.ofBytes [97]) (CStr.ofBytes [51])
      [(1, .set (CStr.ofBytes [97]) (CStr.ofBytes [50]) 0)] := by
  have hnew := sound_of_htNew (newOn_ht fileX_not_text)
  have hempty := sdbHtFindKvp_of_htNew (newOn_ht fileX_not_text) (CStr.ofBytes [97])
  have hlen : ¬ ((CStr.ofBytes [97]).length ≥ 0xff ∨ (CStr.ofBytes [49]).length ≥ 0xffffff) := by
    decide
  have hentry := sdbHtFindKvp_set_new hnew hlen hempty 0
  have hdrop := dropped_set hnew (newOn_holds fileX_fitting fileX_not_text) hlen (by decide) hempty
    (by decide)
  refine ⟨Op.run (.set (CStr.ofBytes [97]) (CStr.ofBytes [49]) 0) (newOn (kvImage fileX)),
    .step _ (.start ⟨_, _, _, rfl⟩) trivial,
    not_casGuards_of_dropped (hnew.run _) hdrop ?_ (by decide) (by decide)⟩
  rw [sdbConstGetLen_eq (hnew.run _).noExpire, hentry]
  decide

end SdbStore
