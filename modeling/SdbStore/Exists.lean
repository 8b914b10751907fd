import SdbStore.Expire

/-!
# Existence and lookup

`sdb_exists` is written apart from `sdb_const_get_len` and differs from it in three ways:
it does not look at the time of an entry, it takes the -1 of `cdb_findnext` for a record
that was found, and it tells an empty value in the file by its first byte where a lookup
goes by its length.  `existsAgrees_iff` says when the two give the same answer.
-/

namespace SdbStore

open Lib

/-- The character that `sdb_exists` looks at; `ch` is what stands in its variable when
nothing is read. -/
def charAt (c : Cdb) (ch : UInt8) (pos : Nat) : UInt8 :=
  match cdbRead c 1 pos with
  | none => ch
  | some b => b.getD 0 0

/-- `sdb_exists`.  `t` is what earlier searches left behind. -/
def sdbExists (s : Sdb) (t : CdbFind) (ch : UInt8) (key : CStr) : Bool :=
  match sdbHtFindKvp s key with
  | some kv =>
      match kv.value with
      | none => false
      | some v => v ≠ CStr.empty
  | none =>
      if s.fd = none then false else
        let r := cdbFindnext s.db (cdbFindstart t) (sdbHash key) key
        if r.1 ≠ 0 then charAt s.db ch r.2.dpos ≠ 0 else false

/-- `sdb_add`. -/
def sdbAdd (s : Sdb) (w : World) (t : CdbFind) (ch : UInt8) (key val : CStr) (cas : Nat) :
    Bool × Sdb × World :=
  if sdbExists s t ch key then (false, s, w) else sdbSet s w key val cas

/-! ## What a search leaves behind -/

/-- Two searches that differ in what was left behind before them: they end in the same way,
and the data position is that of the key when it is found and the old one else. -/
structure Stale (dpos : Nat) (r r' : Int × CdbFind) : Prop where
  le : r.1 ≤ 1
  code : r'.1 = r.1
  found : r.1 = 1 → r'.2.dpos = r.2.dpos
  missed : r.1 ≠ 1 → r'.2.dpos = dpos

theorem Stale.miss {n : Int} (hn : n < 1) (t : CdbFind) {t' : CdbFind} {dpos : Nat}
    (h : t'.dpos = dpos) : Stale dpos (n, t) (n, t') :=
  ⟨hn.le, rfl, fun h ↦ absurd h hn.ne, fun _ ↦ h⟩

/-- A search reads neither `dpos` nor `dlen`, and sets `dpos` only when it finds the key. -/
theorem cdbFindLoop_stale (c : Cdb) (key : Bytes) (n : Nat) (t : CdbFind) (a b : Nat) :
    Stale a (cdbFindLoop c key n t) (cdbFindLoop c key n { t with dpos := a, dlen := b }) := by
  induction n generalizing t b with
  | zero => exact .miss (by decide) t rfl
  | succ n ih =>
      unfold cdbFindLoop
      dsimp only
      cases cdbRead c 8 t.kpos with
      | none => exact .miss (by decide) _ rfl
      | some buf =>
          dsimp only
          by_cases hpos : unle32 (buf.drop 4) = 0
          · rw [if_pos hpos, if_pos hpos]
            exact .miss (by decide) _ rfl
          · rw [if_neg hpos, if_neg hpos]
            by_cases hhash : unle32 buf = t.khash
            · rw [if_pos hhash, if_pos hhash]
              rcases cdbGetkvlen c (unle32 (buf.drop 4)) with _ | ⟨u, dlen⟩
              · exact .miss (by decide) _ rfl
              · dsimp only
                by_cases hu : u = 0
                · rw [if_pos hu, if_pos hu]
                  exact .miss (by decide) _ rfl
                · rw [if_neg hu, if_neg hu]
                  by_cases hlen : u = key.length
                  · rw [if_pos hlen, if_pos hlen]
                    split
                    · exact .miss (by decide) _ rfl
                    · exact ⟨le_rfl, rfl, fun _ ↦ rfl, fun h ↦ absurd rfl h⟩
                    · exact ih _ _
                  · rw [if_neg hlen, if_neg hlen]
                    exact ih _ _
            · rw [if_neg hhash, if_neg hhash]
              exact ih _ _

theorem cdbFindnext_stale (c : Cdb) (t : CdbFind) (key : CStr) :
    Stale t.dpos (cdbLookup c key) (cdbFindnext c (cdbFindstart t) (sdbHash key) key) := by
  unfold cdbLookup cdbFindnext
  dsimp only [cdbFindstart]
  cases c.fd with
  | none => exact .miss (by decide) _ rfl
  | some f =>
      dsimp only
      rw [if_pos rfl, if_pos rfl]
      cases cdbRead c (if (sdbHash key + 1) % 256 = 0 then 4 else 8) (sdbHash key % 256 * 4) with
      | none => exact .miss (by decide) _ rfl
      | some buf =>
          dsimp only
          generalize (if (if (sdbHash key + 1) % 256 = 0 then 4 else 8) = 8 then
            unle32 (buf.drop 4) else c.size) = pos
          by_cases hpos : pos < unle32 buf
          · rw [if_pos hpos, if_pos hpos]
            exact .miss (by decide) _ rfl
          · rw [if_neg hpos, if_neg hpos]
            by_cases hslots : (pos - unle32 buf) / 8 = 0
            · rw [if_pos hslots, if_pos hslots]
              exact .miss (by decide) _ rfl
            · rw [if_neg hslots, if_neg hslots]
              exact cdbFindLoop_stale c _ _ _ t.dpos t.dlen

/-- A search that finds the key sets everything that was left behind. -/
theorem cdbFindLoop_found (c : Cdb) (key : Bytes) (n : Nat) (t : CdbFind) (a b : Nat)
    (h : (cdbFindLoop c key n t).1 = 1) :
    cdbFindLoop c key n { t with dpos := a, dlen := b } = cdbFindLoop c key n t := by
  induction n generalizing t b with
  | zero => cases h
  | succ n ih =>
      unfold cdbFindLoop at h ⊢
      dsimp only at h ⊢
      cases hread : cdbRead c 8 t.kpos with
      | none =>
          rw [hread] at h
          cases h
      | some buf =>
          rw [hread] at h
          dsimp only at h ⊢
          split
          · next hpos =>
              rw [if_pos hpos] at h
              cases h
          · next hpos =>
              rw [if_neg hpos] at h
              split
              · next hhash =>
                  rw [if_pos hhash] at h
                  cases hlen : cdbGetkvlen c (unle32 (buf.drop 4)) with
                  | none =>
                      rw [hlen] at h
                      cases h
                  | some kv =>
                      obtain ⟨u, dlen⟩ := kv
                      rw [hlen] at h
                      dsimp only at h ⊢
                      split
                      · next hu =>
                          rw [if_pos hu] at h
                          cases h
                      · next hu =>
                          rw [if_neg hu] at h
                          split
                          · next heq =>
                              rw [if_pos heq] at h
                              split
                              · next hm =>
                                  rw [hm] at h
                                  cases h
                              · rfl
                              · next hm₀ hm₁ =>
                                  split at h
                                  · next hm => exact absurd hm hm₀
                                  · next hm => exact absurd hm hm₁
                                  · exact ih _ _ h
                          · next heq =>
                              rw [if_neg heq] at h
                              exact ih _ _ h
              · next hhash =>
                  rw [if_neg hhash] at h
                  exact ih _ _ h

theorem cdbFindnext_found {c : Cdb} {key : CStr} (t : CdbFind) (h : (cdbLookup c key).1 = 1) :
    (cdbFindnext c (cdbFindstart t) (sdbHash key) key).2.dlen = (cdbLookup c key).2.dlen := by
  unfold cdbLookup cdbFindnext at h ⊢
  dsimp only [cdbFindstart] at h ⊢
  cases hfd : c.fd with
  | none =>
      rw [hfd] at h
      cases h
  | some f =>
      rw [hfd] at h
      dsimp only at h ⊢
      rw [if_pos rfl] at h ⊢
      rw [if_pos rfl]
      cases hread : cdbRead c (if (sdbHash key + 1) % 256 = 0 then 4 else 8)
        (sdbHash key % 256 * 4) with
      | none =>
          rw [hread] at h
          cases h
      | some buf =>
          rw [hread] at h
          dsimp only at h ⊢
          generalize (if (if (sdbHash key + 1) % 256 = 0 then 4 else 8) = 8 then
            unle32 (buf.drop 4) else c.size) = pos at h ⊢
          by_cases hpos : pos < unle32 buf
          · rw [if_pos hpos] at h
            cases h
          · rw [if_neg hpos] at h ⊢
            rw [if_neg hpos]
            by_cases hslots : (pos - unle32 buf) / 8 = 0
            · rw [if_pos hslots] at h
              cases h
            · rw [if_neg hslots] at h ⊢
              rw [if_neg hslots]
              exact congrArg (fun r ↦ r.2.dlen) (cdbFindLoop_found c _ _ _ t.dpos t.dlen h)

/-! ## When the two agree -/

/-- The key exists exactly when a lookup gives a value. -/
def ExistsAgrees (s : Sdb) (w : World) (t : CdbFind) (ch : UInt8) (k : CStr) : Prop :=
  sdbExists s t ch k = true ↔ sdbGet s w k ≠ none

/-- The entry of the key has a value, and its time is over. -/
def Expired (s : Sdb) (w : World) (k : CStr) : Prop :=
  ∃ kv v, sdbHtFindKvp s k = some kv ∧ kv.value = some v ∧ v ≠ CStr.empty ∧
    s.timestamped = true ∧ kv.expire ≠ 0 ∧ w.now > kv.expire

/-- The key is looked up in the file. -/
def OnlyOnDisk (s : Sdb) (k : CStr) : Prop := sdbHtFindKvp s k = none ∧ s.fd ≠ none

/-- The conditions under which the two functions agree on a key: its entry has not expired,
the value of its record has a length that a lookup accepts exactly when it does not begin
with a NUL, and the search does not end with -1 where an earlier one has left the position
of another byte than NUL. -/
structure Tellable (s : Sdb) (w : World) (t : CdbFind) (ch : UInt8) (k : CStr) : Prop where
  live : ¬ Expired s w k
  found : OnlyOnDisk s k → (cdbLookup s.db k).1 = 1 →
    (charAt s.db ch (cdbLookup s.db k).2.dpos ≠ 0 ↔
      1 ≤ (cdbLookup s.db k).2.dlen ∧ (cdbLookup s.db k).2.dlen < sdbMaxValue)
  stale : OnlyOnDisk s k → (cdbLookup s.db k).1 < 0 → charAt s.db ch t.dpos = 0

/-- What a lookup in the file gives. -/
theorem sdbGetDisk_ne_none {s : Sdb} {k : CStr} (hfd : s.fd ≠ none) :
    (sdbGetDisk s k).value ≠ none ↔ ¬ (cdbLookup s.db k).1 < 1 ∧
      1 ≤ (cdbLookup s.db k).2.dlen ∧ (cdbLookup s.db k).2.dlen < sdbMaxValue := by
  obtain ⟨f, hf⟩ := Option.ne_none_iff_exists'.mp hfd
  rw [sdbGetDisk, hf]
  dsimp only
  split
  · next hcode => simp [Got.null, hcode]
  · next hcode =>
      split
      · next hlen =>
          have hno : ¬ (1 ≤ (cdbLookup s.db k).2.dlen ∧
              (cdbLookup s.db k).2.dlen < sdbMaxValue) := by omega
          simp [Got.null, hno]
      · next hlen =>
          have hyes : 1 ≤ (cdbLookup s.db k).2.dlen ∧
              (cdbLookup s.db k).2.dlen < sdbMaxValue := by omega
          simp [hcode, hyes]

section Agree

variable {s : Sdb} {w : World} {t : CdbFind} {ch : UInt8} {k : CStr}

/-- For an entry in memory only the time matters. -/
theorem existsAgrees_mem {kv : SdbKv} (hf : sdbHtFindKvp s k = some kv) :
    ExistsAgrees s w t ch k ↔ ¬ Expired s w k := by
  have hexp : Expired s w k ↔ ∃ v, kv.value = some v ∧ v ≠ CStr.empty ∧ s.timestamped = true ∧
      kv.expire ≠ 0 ∧ w.now > kv.expire := by
    simp [Expired, hf]
  rw [hexp, ExistsAgrees, sdbGet]
  unfold sdbExists sdbConstGetLen
  simp only [hf]
  cases kv.value with
  | none => simp [Got.null]
  | some v =>
      dsimp only
      by_cases hv : v = CStr.empty
      · simp [hv, Got.null]
      · rw [if_neg hv]
        split
        · next htime => simp [hv, htime, Got.null]
        · next htime => simp [hv, htime]

/-- For a key that is searched in the file. -/
theorem existsAgrees_disk (hd : OnlyOnDisk s k) :
    ExistsAgrees s w t ch k ↔
      ((cdbLookup s.db k).1 = 1 → (charAt s.db ch (cdbLookup s.db k).2.dpos ≠ 0 ↔
        1 ≤ (cdbLookup s.db k).2.dlen ∧ (cdbLookup s.db k).2.dlen < sdbMaxValue)) ∧
      ((cdbLookup s.db k).1 < 0 → charAt s.db ch t.dpos = 0) := by
  obtain ⟨hf, hfd⟩ := hd
  have hstale := cdbFindnext_stale s.db t k
  have hget : sdbGet s w k = (sdbGetDisk s k).value := by
    rw [sdbGet]
    unfold sdbConstGetLen
    rw [hf]
  have hexists : sdbExists s t ch k = true ↔ (cdbLookup s.db k).1 ≠ 0 ∧
      charAt s.db ch (cdbFindnext s.db (cdbFindstart t) (sdbHash k) k).2.dpos ≠ 0 := by
    unfold sdbExists
    simp only [hf, if_neg hfd, hstale.code]
    split
    · next h => simp [h]
    · next h => simp [h]
  rw [ExistsAgrees, hexists, hget, sdbGetDisk_ne_none hfd]
  rcases lt_trichotomy (cdbLookup s.db k).1 0 with hneg | hzero | hpos
  · -- malformed file: the lookup gives nothing
    have hne : (cdbLookup s.db k).1 ≠ 1 := by omega
    have hlt : (cdbLookup s.db k).1 < 1 := by omega
    rw [hstale.missed hne]
    simp [hneg, hneg.ne, hne, hlt]
  · simp [hzero]
  · have hone : (cdbLookup s.db k).1 = 1 := le_antisymm hstale.le hpos
    rw [hstale.found hone]
    simp [hone]

/-- Without an entry and without a file there is nothing. -/
theorem existsAgrees_bare (hf : sdbHtFindKvp s k = none) (hfd : s.fd = none) :
    ExistsAgrees s w t ch k := by
  simp [ExistsAgrees, sdbExists, sdbGet, sdbConstGetLen, sdbGetDisk, hf, hfd, Got.null]

theorem Tellable.existsAgrees (h : Tellable s w t ch k) : ExistsAgrees s w t ch k := by
  cases hf : sdbHtFindKvp s k with
  | some kv => exact (existsAgrees_mem hf).mpr h.live
  | none =>
      by_cases hfd : s.fd = none
      · exact existsAgrees_bare hf hfd
      · exact (existsAgrees_disk ⟨hf, hfd⟩).mpr ⟨h.found ⟨hf, hfd⟩, h.stale ⟨hf, hfd⟩⟩

theorem ExistsAgrees.tellable (h : ExistsAgrees s w t ch k) : Tellable s w t ch k := by
  refine ⟨?_, fun hd ↦ ((existsAgrees_disk hd).mp h).1, fun hd ↦ ((existsAgrees_disk hd).mp h).2⟩
  rintro ⟨kv, v, hf, hexp⟩
  exact (existsAgrees_mem hf).mp h ⟨kv, v, hf, hexp⟩

/-- Where they agree, `sdb_add` sets what a lookup does not give, and that alone. -/
theorem Tellable.sdbAdd_eq (h : Tellable s w t ch k) (val : CStr) (cas : Nat) :
    sdbAdd s w t ch k val cas =
      if sdbGet s w k = none then sdbSet s w k val cas else (false, s, w) := by
  have hagree := h.existsAgrees
  rw [ExistsAgrees] at hagree
  rw [sdbAdd]
  by_cases hget : sdbGet s w k = none
  · rw [if_pos hget, if_neg fun hex ↦ hagree.mp hex hget]
  · rw [if_neg hget, if_pos (hagree.mpr hget)]

/-- **Existence and lookup agree** on a key exactly under these conditions, in every state of a
database and whatever earlier searches have left behind; there `sdb_add` is decided by the
lookup. -/
theorem existsAgrees_iff : (ExistsAgrees s w t ch k ↔ Tellable s w t ch k) ∧
    (Tellable s w t ch k → ∀ val cas, sdbAdd s w t ch k val cas =
      if sdbGet s w k = none then sdbSet s w k val cas else (false, s, w)) :=
  ⟨⟨ExistsAgrees.tellable, Tellable.existsAgrees⟩, fun h ↦ h.sdbAdd_eq⟩

end Agree

/-! ## Over a written file -/

/-- The first character of a value in the file. -/
theorem charAt_over {c : Cdb} {f : Bytes} (hc : c.Over f) {pos : Nat} {v : CStr}
    (hslice : slice f pos (v.length + 1) = v.bytesZ) (ch : UInt8) :
    charAt c ch pos ≠ 0 ↔ v ≠ CStr.empty := by
  have hle : pos + (v.length + 1) ≤ f.length := by
    have h := congrArg List.length hslice
    rw [slice, List.length_take, List.length_drop, CStr.length_bytesZ] at h
    omega
  have hone : slice f pos 1 = v.bytesZ.take 1 := by
    rw [← hslice, slice, slice, List.take_take, Nat.min_eq_left (by omega)]
  rw [charAt, cdbRead_over hc (by omega), hone]
  rcases hv : v.val with _ | ⟨b, l⟩
  · have hempty : v = CStr.empty := CStr.ext hv
    refine iff_of_false ?_ (not_not_intro hempty)
    simp [CStr.bytesZ, hv]
  · have hb : b ≠ 0 := by
      rintro rfl
      exact v.property (by rw [hv]; exact List.mem_cons_self)
    have hne : v ≠ CStr.empty := by
      rintro rfl
      cases hv
    simp [CStr.bytesZ, hv, hb, hne]

/-- Over a written file the two differ on expired entries and on records with an empty
value. -/
theorem tellable_holds {s : Sdb} {recs : List KvRec} (h : s.Holds recs) (w : World) (t : CdbFind)
    (ch : UInt8) (k : CStr) :
    Tellable s w t ch k ↔ ¬ Expired s w k ∧ (sdbHtFindKvp s k = none →
      ∀ r, Keyed.lookup Prod.fst recs k = some r → r.2 ≠ CStr.empty) := by
  have hfd : s.fd ≠ none := by
    rw [h.fd]
    simp
  have hlook := cdbLookup_holds h k
  cases hr : Keyed.lookup Prod.fst recs k with
  | none =>
      rw [hr] at hlook
      dsimp only at hlook
      constructor
      · exact fun ht ↦ ⟨ht.live, fun _ r hr' ↦ nomatch hr'⟩
      · rintro ⟨hlive, -⟩
        refine ⟨hlive, fun _ hone ↦ ?_, fun _ hneg ↦ ?_⟩
        · rw [hlook] at hone
          cases hone
        · rw [hlook] at hneg
          exact absurd hneg (by decide)
  | some r =>
      rw [hr] at hlook
      obtain ⟨hone, hdlen, hslice⟩ := hlook
      have hlt := (h.fitting.length_lt (mem_of_lookup hr).1).2
      have hchar := charAt_over h.db hslice ch
      constructor
      · rintro ⟨hlive, hfound, -⟩
        refine ⟨hlive, fun hf r' hr' ↦ ?_⟩
        obtain rfl := Option.some.inj hr'
        apply hchar.mp
        apply (hfound ⟨hf, hfd⟩ hone).mpr
        omega
      · rintro ⟨hlive, hne⟩
        refine ⟨hlive, fun hd _ ↦ ?_, fun _ hneg ↦ ?_⟩
        · rw [hchar]
          exact iff_of_true (hne hd.1 r rfl) (by omega)
        · rw [hone] at hneg
          exact absurd hneg (by decide)

/-- A file whose only record is `x` with an empty value. -/
def fileBlank : List KvRec := [(CStr.ofBytes [120], CStr.empty)]

theorem fileBlank_fitting : KvFitting fileBlank where
  fits := by decide
  size := by
    rw [length_cdbImage_eq]
    decide

theorem fileBlank_not_text : sdbTextCheck (some (kvImage fileBlank)) = false :=
  sdbTextCheck_cdbImage (by decide)

/-- The key `a` exists after its time, when a lookup gives nothing; and a lookup gives the
empty value of `x` in a file, which does not exist. -/
theorem not_existsAgrees :
    (∃ st, TimedReachable st ∧ Expired st.1 st.2 (CStr.ofBytes [97]) ∧
      ¬ ExistsAgrees st.1 st.2 .zero 0 (CStr.ofBytes [97])) ∧
    ∃ st, TimedReachable st ∧ st.1.Holds fileBlank ∧
      ¬ ExistsAgrees st.1 st.2 .zero 0 (CStr.ofBytes [120]) := by
  constructor
  · have hf : sdbHtFindKvp expiringA.1 (CStr.ofBytes [97]) =
        some ⟨CStr.ofBytes [97], some (CStr.ofBytes [49]), 2, 100⟩ := by decide
    have hexp : Expired expiringA.1 { expiringA.2 with now := expiringA.2.now + 101 }
        (CStr.ofBytes [97]) := ⟨_, _, hf, rfl, by decide, by decide, by decide, by decide⟩
    refine ⟨_, .step (.wait 101) expiringA_reachable rfl, hexp, fun h ↦ ?_⟩
    exact (existsAgrees_mem hf).mp h hexp
  · have hholds := newOn_holds fileBlank_fitting fileBlank_not_text
    have hf := sdbHtFindKvp_of_htNew (newOn_ht fileBlank_not_text) (CStr.ofBytes [120])
    refine ⟨newOn (kvImage fileBlank), .start ⟨_, _, _, rfl⟩, hholds, fun h ↦ ?_⟩
    exact ((tellable_holds hholds _ _ _ _).mp h.tellable).2 hf (CStr.ofBytes [120], CStr.empty)
      (by decide) rfl

end SdbStore
