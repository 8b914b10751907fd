import Mathlib.Data.Fintype.Pigeonhole
import SdbStore.Foreach

/-!
# Files of unknown origin

Nothing is known about a file that somebody else wrote: each position, slot count and length
in it may be anything.  `cdb_read` checks every read against the size of the file, so the
search and the scan can be described for arbitrary bytes.  The search is described by
`Finds`: a walk through the slots of one table, from the home of the key on, that goes past
the records of other keys and ends at the first record with the key.
-/

namespace SdbStore

open Lib

/-! ## Reading an arbitrary file -/

/-- The bytes from `pos` on lie in the file; the size that is kept is a `ut32`. -/
def Within (f : Bytes) (pos len : Nat) : Prop := pos + len ≤ ut32 f.length

instance (f : Bytes) (pos len : Nat) : Decidable (Within f pos len) :=
  inferInstanceAs (Decidable (_ ≤ _))

/-- The word at a position. -/
def wordAt (f : Bytes) (pos : Nat) : Nat := unle32 (f.drop pos)

/-- The length of the key in the header of a record. -/
def klenAt (f : Bytes) (pos : Nat) : Nat := (f.getD pos 0).toNat

/-- The length of the value in the header of a record. -/
def vlenAt (f : Bytes) (pos : Nat) : Nat :=
  (f.getD (pos + 1) 0).toNat + 256 * (f.getD (pos + 2) 0).toNat +
    65536 * (f.getD (pos + 3) 0).toNat

theorem unle32_lt (b : Bytes) : unle32 b < 4294967296 := by
  have h : ∀ i, (b.getD i 0).toNat < 256 := fun i ↦ UInt8.toNat_lt _
  have h₀ := h 0
  have h₁ := h 1
  have h₂ := h 2
  have h₃ := h 3
  rw [unle32]
  omega

theorem ut32_le (n : Nat) : ut32 n ≤ n := Nat.mod_le _ _

theorem getD_slice (f : Bytes) {pos len i : Nat} (h : i < len) :
    (slice f pos len).getD i 0 = f.getD (pos + i) 0 := by
  rw [List.getD_eq_getElem?_getD, List.getD_eq_getElem?_getD, slice, List.getElem?_take_of_lt h,
    List.getElem?_drop]

theorem unle32_slice (f : Bytes) (pos : Nat) {len : Nat} (h : 4 ≤ len) :
    unle32 (slice f pos len) = wordAt f pos := by
  have hget : ∀ i < 4, (slice f pos len).getD i 0 = (f.drop pos).getD i 0 := by
    intro i hi
    rw [getD_slice f (by omega), List.getD_eq_getElem?_getD, List.getD_eq_getElem?_getD,
      List.getElem?_drop]
  rw [wordAt, unle32, unle32, hget 0 (by decide), hget 1 (by decide), hget 2 (by decide),
    hget 3 (by decide)]

theorem unle32_drop_slice (f : Bytes) (pos : Nat) :
    unle32 ((slice f pos 8).drop 4) = wordAt f (pos + 4) := by
  have hdrop : (slice f pos 8).drop 4 = slice f (pos + 4) 4 := by
    rw [slice, slice, List.drop_take, List.drop_drop]
  rw [hdrop, unle32_slice f _ (by decide)]

/-- A read of an open file, whatever is in it. -/
theorem cdbRead_init (f : Bytes) {len : Nat} (hlen : 0 < len) (pos : Nat) :
    cdbRead (cdbInit (some f)).2 len pos =
      if Within f pos len then some (slice f pos len) else none := by
  have hin : Within f pos len ↔ pos + len ≤ ut32 f.length := Iff.rfl
  rw [cdbInit]
  by_cases h : f.length > 4
  · rw [if_pos h, cdbRead]
    dsimp only
    by_cases hw : Within f pos len
    · have hle := hin.mp hw
      rw [if_pos hw, if_neg (by omega)]
    · have hle := mt hin.mpr hw
      rw [if_neg hw, if_pos (by omega)]
  · rw [ut32_of_lt (by omega)] at hin
    rw [if_neg h, cdbRead]
    dsimp only
    by_cases hw : Within f pos len
    · have hle := hin.mp hw
      rw [if_pos hw, if_neg (by omega)]
    · have hle := mt hin.mpr hw
      rw [if_neg hw, if_pos (by omega)]

theorem vlenAt_le (f : Bytes) (pos : Nat) : vlenAt f pos ≤ sdbMaxValue := by
  have h : ∀ i, (f.getD i 0).toNat < 256 := fun i ↦ UInt8.toNat_lt _
  have h₁ := h (pos + 1)
  have h₂ := h (pos + 2)
  have h₃ := h (pos + 3)
  rw [vlenAt, sdbMaxValue]
  omega

theorem cdbGetkvlen_init (f : Bytes) (pos : Nat) :
    cdbGetkvlen (cdbInit (some f)).2 pos =
      if Within f pos 4 then some (klenAt f pos, vlenAt f pos) else none := by
  rw [cdbGetkvlen, cdbRead_init f (by decide)]
  by_cases h : Within f pos 4
  · rw [if_pos h, if_pos h]
    have hv := vlenAt_le f pos
    simp only [Option.bind_eq_bind, Option.bind_some, getD_slice f (show 0 < 4 by decide),
      getD_slice f (show 1 < 4 by decide), getD_slice f (show 2 < 4 by decide),
      getD_slice f (show 3 < 4 by decide)]
    rw [if_neg (by rw [← vlenAt]; omega)]
    rfl
  · rw [if_neg h, if_neg h]
    rfl

/-! ## Comparing the key -/

/-- The bytes of the key are at `pos`. -/
def SameKey (f key : Bytes) (pos : Nat) : Prop :=
  Within f pos key.length ∧ slice f pos key.length = key

/-- The bytes at `pos` are compared in blocks of 32, and a block that lies in the file is the
first one that is not as in the key. -/
def OtherKey (f key : Bytes) (pos : Nat) : Prop :=
  ∃ m, 32 * m < key.length ∧ Within f pos (min (32 * m + 32) key.length) ∧
    slice f pos (32 * m) = key.take (32 * m) ∧
    slice f pos (min (32 * m + 32) key.length) ≠ key.take (min (32 * m + 32) key.length)

/-- Equality with a beginning of the key, cut in two. -/
theorem slice_add_eq_take_add_iff {f key : Bytes} {pos b : Nat} (hf : pos + b ≤ f.length)
    (hk : b ≤ key.length) (k : Nat) :
    slice f pos (b + k) = key.take (b + k) ↔
      slice f pos b = key.take b ∧ slice f (pos + b) k = (key.drop b).take k := by
  rw [slice_add, List.take_add]
  constructor
  · intro h
    apply List.append_inj h
    rw [length_slice hf, List.length_take, Nat.min_eq_left hk]
  · rintro ⟨h₁, h₂⟩
    rw [h₁, h₂]

theorem sameKey_cons_iff {f key : Bytes} {pos b : Nat} (hb : b ≤ key.length) :
    SameKey f key pos ↔
      Within f pos b ∧ slice f pos b = key.take b ∧ SameKey f (key.drop b) (pos + b) := by
  have hle := ut32_le f.length
  obtain ⟨k, hk⟩ := Nat.exists_eq_add_of_le hb
  have hdrop : (key.drop b).length = k := by
    rw [List.length_drop]
    omega
  unfold SameKey Within
  rw [hdrop]
  by_cases hin : pos + key.length ≤ ut32 f.length
  · have h := @slice_add_eq_take_add_iff f key pos b (by omega) hb k
    rw [← hk, List.take_length, ← hdrop, List.take_length, hdrop] at h
    rw [h]
    constructor
    · exact fun h ↦ ⟨by omega, h.2.1, by omega, h.2.2⟩
    · exact fun h ↦ ⟨hin, h.2.1, h.2.2.2⟩
  · refine iff_of_false (fun h ↦ hin h.1) (fun h ↦ hin ?_)
    omega

theorem otherKey_cons_iff {f key : Bytes} {pos : Nat} (hne : key ≠ []) :
    OtherKey f key pos ↔ Within f pos (min 32 key.length) ∧
      (slice f pos (min 32 key.length) = key.take (min 32 key.length) →
        OtherKey f (key.drop (min 32 key.length)) (pos + min 32 key.length)) := by
  have hle := ut32_le f.length
  have hpos := List.length_pos_iff.mpr hne
  constructor
  · rintro ⟨m, hm, hin, hsame, hother⟩
    unfold Within at hin ⊢
    refine ⟨by omega, fun hfirst ↦ ?_⟩
    cases m with
    | zero => exact absurd hfirst hother
    | succ m =>
        have hb : min 32 key.length = 32 := by omega
        have hnext : min (32 * (m + 1) + 32) key.length =
            32 + min (32 * m + 32) (key.drop 32).length := by
          rw [List.length_drop]
          omega
        rw [hb] at hfirst ⊢
        rw [hnext] at hin hother
        rw [Nat.mul_succ, Nat.add_comm, slice_add_eq_take_add_iff (by omega) (by omega)] at hsame
        rw [ne_eq, slice_add_eq_take_add_iff (by omega) (by omega)] at hother
        refine ⟨m, by rw [List.length_drop]; omega, by unfold Within; omega, hsame.2, fun h ↦ ?_⟩
        exact hother ⟨hfirst, h⟩
  · rintro ⟨hin, hrest⟩
    by_cases hfirst : slice f pos (min 32 key.length) = key.take (min 32 key.length)
    · obtain ⟨m, hm, hin', hsame, hother⟩ := hrest hfirst
      unfold Within at hin hin'
      rw [List.length_drop] at hm
      have hb : min 32 key.length = 32 := by omega
      have hnext : min (32 * (m + 1) + 32) key.length =
          32 + min (32 * m + 32) (key.drop 32).length := by
        rw [List.length_drop]
        omega
      rw [hb] at hfirst hin' hsame hother
      refine ⟨m + 1, by omega, ?_, ?_, ?_⟩
      · unfold Within
        omega
      · rw [Nat.mul_succ, Nat.add_comm, slice_add_eq_take_add_iff (by omega) (by omega)]
        exact ⟨hfirst, hsame⟩
      · rw [hnext]
        intro h
        rw [slice_add_eq_take_add_iff (by omega) (by omega)] at h
        exact hother h.2
    · exact ⟨0, hpos, hin, by simp [slice], hfirst⟩

/-- What `match` returns, for a key that begins in the file. -/
theorem cdbMatch_init (f : Bytes) : ∀ (n : Nat) (key : Bytes) (pos : Nat), key.length ≤ n →
    pos ≤ ut32 f.length →
    cdbMatch (cdbInit (some f)).2 n key pos = 1 ∧ SameKey f key pos ∨
    cdbMatch (cdbInit (some f)).2 n key pos = 0 ∧ ¬ SameKey f key pos ∧ OtherKey f key pos ∨
    cdbMatch (cdbInit (some f)).2 n key pos = -1 ∧ ¬ SameKey f key pos ∧ ¬ OtherKey f key pos := by
  have hnil : ∀ pos, pos ≤ ut32 f.length → SameKey f [] pos := fun pos hpos ↦
    ⟨hpos, by simp [slice]⟩
  intro n
  induction n with
  | zero =>
      intro key pos hn hpos
      obtain rfl : key = [] := List.eq_nil_of_length_eq_zero (by omega)
      exact .inl ⟨rfl, hnil pos hpos⟩
  | succ n ih =>
      intro key pos hn hpos
      by_cases hkey : key = []
      · subst hkey
        exact .inl ⟨by simp [cdbMatch], hnil pos hpos⟩
      have hlen := List.length_pos_iff.mpr hkey
      rw [sameKey_cons_iff (Nat.min_le_right 32 key.length), otherKey_cons_iff hkey, cdbMatch,
        if_neg hkey, cdbRead_init f (by omega)]
      by_cases hin : Within f pos (min 32 key.length)
      · rw [if_pos hin]
        dsimp only
        by_cases hsame : slice f pos (min 32 key.length) = key.take (min 32 key.length)
        · have hpos' : pos + min 32 key.length ≤ ut32 f.length := hin
          have hlt := ut32_lt f.length
          rw [if_neg (by simpa using hsame), ut32_of_lt (by omega)]
          have h := ih (key.drop (min 32 key.length)) (pos + min 32 key.length)
            (by rw [List.length_drop]; omega) hpos'
          simpa only [hin, hsame, true_and, true_implies] using h
        · rw [if_pos hsame]
          exact .inr (.inl ⟨rfl, fun h ↦ hsame h.2.1, hin, fun h ↦ absurd h hsame⟩)
      · rw [if_neg hin]
        exact .inr (.inr ⟨rfl, fun h ↦ hin h.1, fun h ↦ hin h.1⟩)

/-! ## One round of the search -/

/-- One round of the loop of `cdb_findnext`: what it returns, or the search as it goes on. -/
def cdbFindRound (c : Cdb) (key : Bytes) (t : CdbFind) : (Int × CdbFind) ⊕ CdbFind :=
  match cdbRead c 8 t.kpos with
  | none => .inl (0, t)
  | some buf =>
      let pos := unle32 (buf.drop 4)
      if pos = 0 then .inl (0, t) else
        let kpos := ut32 (t.kpos + 8)
        let t := { t with
          loop := t.loop + 1
          kpos := if kpos = ut32 (t.hpos + t.hslots * 8) then t.hpos else kpos }
        if unle32 buf = t.khash then
          match cdbGetkvlen c pos with
          | none => .inl (-1, { t with dlen := 0 })
          | some (u, dlen) =>
              let t := { t with dlen := dlen }
              if u = 0 then .inl (-1, t)
              else if u = key.length then
                match cdbMatch c key.length key (ut32 (pos + kvlsz)) with
                | -1 => .inl (0, t)
                | 1 => .inl (1, { t with dpos := ut32 (pos + kvlsz + key.length) })
                | _ => .inr t
              else .inr t
        else .inr t

theorem cdbMatch_cases (c : Cdb) (n : Nat) (key : Bytes) (pos : Nat) :
    cdbMatch c n key pos = -1 ∨ cdbMatch c n key pos = 0 ∨ cdbMatch c n key pos = 1 := by
  induction n generalizing key pos with
  | zero => exact .inr (.inr rfl)
  | succ n ih =>
      rw [cdbMatch]
      split
      · exact .inr (.inr rfl)
      · cases cdbRead c (min 32 key.length) pos with
        | none => exact .inl rfl
        | some buf =>
            dsimp only
            split
            · exact .inr (.inl rfl)
            · exact ih _ _

theorem cdbFindLoop_succ (c : Cdb) (key : Bytes) (n : Nat) (t : CdbFind) :
    cdbFindLoop c key (n + 1) t = (cdbFindRound c key t).elim id (cdbFindLoop c key n) := by
  rw [cdbFindLoop, cdbFindRound]
  cases cdbRead c 8 t.kpos with
  | none => rfl
  | some buf =>
      dsimp only
      by_cases hpos : unle32 (buf.drop 4) = 0
      · rw [if_pos hpos, if_pos hpos]
        rfl
      rw [if_neg hpos, if_neg hpos]
      by_cases hhash : unle32 buf = t.khash
      · rw [if_pos hhash, if_pos hhash]
        rcases cdbGetkvlen c (unle32 (buf.drop 4)) with _ | ⟨u, dlen⟩
        · rfl
        dsimp only
        by_cases hu : u = 0
        · rw [if_pos hu, if_pos hu]
          rfl
        rw [if_neg hu, if_neg hu]
        by_cases hlen : u = key.length
        · rw [if_pos hlen, if_pos hlen]
          rcases cdbMatch_cases c key.length key (ut32 (unle32 (buf.drop 4) + kvlsz)) with
            hm | hm | hm
          · rw [hm]
            rfl
          · rw [hm]
            rfl
          · rw [hm]
            rfl
        · rw [if_neg hlen, if_neg hlen]
          rfl
      · rw [if_neg hhash, if_neg hhash]
        rfl

/-- A round that goes on has counted itself and moved to the next slot. -/
theorem cdbFindRound_inr {c : Cdb} {key : Bytes} {t t' : CdbFind}
    (h : cdbFindRound c key t = .inr t') :
    t'.loop = t.loop + 1 ∧ t'.hslots = t.hslots := by
  rw [cdbFindRound] at h
  split at h
  · cases h
  · dsimp only at h
    split at h
    · cases h
    · split at h
      · split at h
        · cases h
        · split at h
          · cases h
          · split at h
            · split at h
              · cases h
              · cases h
              · obtain rfl := Sum.inr.inj h
                exact ⟨rfl, rfl⟩
            · obtain rfl := Sum.inr.inj h
              exact ⟨rfl, rfl⟩
      · obtain rfl := Sum.inr.inj h
        exact ⟨rfl, rfl⟩

/-- `while (c->loop < c->hslots)`, for `fuel` rounds at most. -/
def cdbFindWhile (c : Cdb) (key : Bytes) : Nat → CdbFind → Option (Int × CdbFind)
  | 0, _ => none
  | fuel + 1, t =>
      if t.loop < t.hslots then
        (cdbFindRound c key t).elim some (cdbFindWhile c key fuel)
      else some (0, t)

/-- The loop ends by itself after one round for each slot. -/
theorem cdbFindWhile_eq (c : Cdb) (key : Bytes) {fuel n : Nat} (hfuel : n < fuel) {t : CdbFind}
    (hn : n = t.hslots - t.loop) : cdbFindWhile c key fuel t = some (cdbFindLoop c key n t) := by
  induction n generalizing fuel t with
  | zero =>
      obtain ⟨fuel, rfl⟩ := Nat.exists_eq_succ_of_ne_zero (Nat.ne_zero_of_lt hfuel)
      rw [cdbFindWhile, if_neg (by omega)]
      rfl
  | succ n ih =>
      obtain ⟨fuel, rfl⟩ := Nat.exists_eq_succ_of_ne_zero (Nat.ne_zero_of_lt hfuel)
      rw [cdbFindWhile, if_pos (by omega), cdbFindLoop_succ]
      cases hr : cdbFindRound c key t with
      | inl r => rfl
      | inr t' =>
          obtain ⟨hloop, hslots⟩ := cdbFindRound_inr hr
          exact ih (by omega) (by rw [hloop, hslots]; omega)

/-- `cdb_findnext` with its loop as it stands in the source. -/
def cdbFindnextWhile (fuel : Nat) (c : Cdb) (t : CdbFind) (u : Nat) (key : CStr) :
    Option (Int × CdbFind) :=
  match c.fd with
  | none => some (-1, t)
  | some _ =>
      let key := key.bytesZ.take (ut32 (key.length + 1))
      let t := { t with hslots := 0 }
      if t.loop = 0 then
        let bufsz := if (u + 1) % 256 = 0 then 4 else 8
        match cdbRead c bufsz (u % 256 * 4) with
        | none => some (-1, t)
        | some buf =>
            let hpos := unle32 buf
            let pos := if bufsz = 8 then unle32 (buf.drop 4) else c.size
            if pos < hpos then some (-1, { t with hpos := hpos })
            else
              let hslots := (pos - hpos) / 8
              if hslots = 0 then some (0, { t with hpos := hpos })
              else cdbFindWhile c key fuel { t with
                hpos := hpos
                hslots := hslots
                khash := u
                kpos := ut32 (hpos + u / 256 % hslots * 8) }
      else cdbFindWhile c key fuel t

/-- No file keeps `cdb_findnext` busy for more than `2 ^ 29` rounds. -/
theorem cdbFindnextWhile_eq {c : Cdb} (hc : c.size < 4294967296) {fuel : Nat}
    (hfuel : 536870912 ≤ fuel) (t : CdbFind) (u : Nat) (key : CStr) :
    cdbFindnextWhile fuel c t u key = some (cdbFindnext c t u key) := by
  rw [cdbFindnextWhile, cdbFindnext]
  cases c.fd with
  | none => rfl
  | some f =>
      dsimp only
      by_cases hloop : t.loop = 0
      · rw [if_pos hloop, if_pos hloop]
        generalize (if (u + 1) % 256 = 0 then 4 else 8) = bufsz
        cases cdbRead c bufsz (u % 256 * 4) with
        | none => rfl
        | some buf =>
            dsimp only
            have hlt := unle32_lt (buf.drop 4)
            have hpos : (if bufsz = 8 then unle32 (buf.drop 4) else c.size) < 4294967296 := by
              split
              · exact hlt
              · exact hc
            generalize (if bufsz = 8 then unle32 (buf.drop 4) else c.size) = pos at hpos
            by_cases hle : pos < unle32 buf
            · rw [if_pos hle, if_pos hle]
            rw [if_neg hle, if_neg hle]
            by_cases hslots : (pos - unle32 buf) / 8 = 0
            · rw [if_pos hslots, if_pos hslots]
            rw [if_neg hslots, if_neg hslots]
            apply cdbFindWhile_eq
            · omega
            · exact (congrArg (_ - ·) hloop).symm
      · rw [if_neg hloop, if_neg hloop]
        exact cdbFindWhile_eq c _ (n := 0) (by omega) (Nat.zero_sub _).symm

/-! ## The search as a walk through a table -/

/-- The bytes of the key that are compared; their number is a `ut32`. -/
def keyBytes (key : CStr) : Bytes := key.bytesZ.take (ut32 (key.length + 1))

/-- Where the table of a hash begins. -/
def tableAt (f : Bytes) (u : Nat) : Nat := wordAt f (u % 256 * 4)

/-- Where the table of a hash ends: at the next one, or at the end of the file. -/
def tableEnd (f : Bytes) (u : Nat) : Nat :=
  if u % 256 = 255 then ut32 f.length else wordAt f (u % 256 * 4 + 4)

/-- The number of slots of the table. -/
def tableSlots (f : Bytes) (u : Nat) : Nat := (tableEnd f u - tableAt f u) / 8

/-- Slot `n` of the walk, which begins at the home of the hash and goes around. -/
def slotAt (f : Bytes) (u n : Nat) : Nat := tableAt f u + 8 * ((u / 256 + n) % tableSlots f u)

/-- The record that slot `n` of the walk points to. -/
def slotRecord (f : Bytes) (u n : Nat) : Nat := wordAt f (slotAt f u n + 4)

/-- The search ends at slot `n` with a record. -/
structure Hit (f : Bytes) (key : CStr) (n : Nat) : Prop where
  within : Within f (slotAt f (sdbHash key) n) 8
  used : slotRecord f (sdbHash key) n ≠ 0
  hash : wordAt f (slotAt f (sdbHash key) n) = sdbHash key
  header : Within f (slotRecord f (sdbHash key) n) 4
  klen : klenAt f (slotRecord f (sdbHash key) n) ≠ 0
  len : klenAt f (slotRecord f (sdbHash key) n) = (keyBytes key).length
  same : SameKey f (keyBytes key) (slotRecord f (sdbHash key) n + 4)

/-- The search goes past slot `n`: it is that of another key. -/
structure Passed (f : Bytes) (key : CStr) (n : Nat) : Prop where
  within : Within f (slotAt f (sdbHash key) n) 8
  used : slotRecord f (sdbHash key) n ≠ 0
  other : wordAt f (slotAt f (sdbHash key) n) = sdbHash key →
    Within f (slotRecord f (sdbHash key) n) 4 ∧ klenAt f (slotRecord f (sdbHash key) n) ≠ 0 ∧
      (klenAt f (slotRecord f (sdbHash key) n) = (keyBytes key).length →
        ¬ SameKey f (keyBytes key) (slotRecord f (sdbHash key) n + 4) ∧
          OtherKey f (keyBytes key) (slotRecord f (sdbHash key) n + 4))

/-- From slot `i` of the walk on, the search ends at the record at `p`. -/
def FindsFrom (f : Bytes) (key : CStr) (i p : Nat) : Prop :=
  ∃ n, i ≤ n ∧ n < tableSlots f (sdbHash key) ∧ (∀ m, i ≤ m → m < n → Passed f key m) ∧
    Hit f key n ∧ slotRecord f (sdbHash key) n = p

/-- The record at `p` is the first one with the key that its table leads to. -/
def Finds (f : Bytes) (key : CStr) (p : Nat) : Prop :=
  Within f (sdbHash key % 256 * 4) (if sdbHash key % 256 = 255 then 4 else 8) ∧
    FindsFrom f key 0 p

theorem tableEnd_lt (f : Bytes) (u : Nat) : tableEnd f u < 4294967296 := by
  rw [tableEnd]
  split
  · exact ut32_lt _
  · exact unle32_lt _

theorem slotAt_succ (f : Bytes) (u n : Nat) (h : 0 < tableSlots f u) :
    slotAt f u (n + 1) = if slotAt f u n + 8 = tableAt f u + tableSlots f u * 8 then tableAt f u
      else slotAt f u n + 8 := by
  rw [slotAt, slotAt, ← Nat.add_assoc, ← Nat.mod_add_mod]
  have hlt := Nat.mod_lt (u / 256 + n) h
  by_cases hlast : (u / 256 + n) % tableSlots f u + 1 = tableSlots f u
  · rw [if_pos (by omega), hlast, Nat.mod_self, Nat.mul_zero, Nat.add_zero]
  · rw [if_neg (by omega), Nat.mod_eq_of_lt (by omega)]
    omega

/-- The search is about to read slot `n` of its walk. -/
structure CdbFind.At (t : CdbFind) (f : Bytes) (u n : Nat) : Prop where
  hpos : t.hpos = tableAt f u
  hslots : t.hslots = tableSlots f u
  khash : t.khash = u
  kpos : t.kpos = slotAt f u n

/-- The slots lie below `2 ^ 32`, so that no position wraps around. -/
theorem CdbFind.At.kpos_succ {t : CdbFind} {f : Bytes} {u n : Nat} (h : t.At f u n)
    (hslots : 0 < tableSlots f u) :
    (if ut32 (t.kpos + 8) = ut32 (t.hpos + t.hslots * 8) then t.hpos else ut32 (t.kpos + 8)) =
      slotAt f u (n + 1) := by
  have hend := tableEnd_lt f u
  have hmod := Nat.mod_lt (u / 256 + n) hslots
  have hcount : tableAt f u + 8 * tableSlots f u ≤ tableEnd f u := by
    rw [tableSlots] at hslots ⊢
    omega
  have hslot : slotAt f u n + 8 ≤ tableAt f u + 8 * tableSlots f u := by
    rw [slotAt]
    omega
  rw [slotAt_succ f u n hslots, h.hpos, h.hslots, h.kpos, ut32_of_lt (by omega),
    ut32_of_lt (by omega)]

/-- What a round does at slot `n`: it returns the record, goes past the slot, or gives up. -/
theorem cdbFindRound_init {f : Bytes} {key : CStr} {t : CdbFind} {n : Nat}
    (ht : t.At f (sdbHash key) n) (hslots : 0 < tableSlots f (sdbHash key)) :
    Hit f key n ∧ (∃ t', cdbFindRound (cdbInit (some f)).2 (keyBytes key) t = .inl (1, t') ∧
      t'.dpos = slotRecord f (sdbHash key) n + 4 + (keyBytes key).length ∧
      t'.dlen = vlenAt f (slotRecord f (sdbHash key) n)) ∨
    ¬ Hit f key n ∧ Passed f key n ∧
      (∃ t', cdbFindRound (cdbInit (some f)).2 (keyBytes key) t = .inr t' ∧
        t'.At f (sdbHash key) (n + 1)) ∨
    ¬ Hit f key n ∧ ¬ Passed f key n ∧
      ∃ r, cdbFindRound (cdbInit (some f)).2 (keyBytes key) t = .inl r ∧ r.1 < 1 := by
  have hnext := ht.kpos_succ hslots
  have hlt := ut32_lt f.length
  rw [cdbFindRound]
  dsimp only
  rw [hnext, cdbRead_init f (by decide), ht.kpos]
  by_cases hin : Within f (slotAt f (sdbHash key) n) 8
  · rw [if_pos hin]
    dsimp only
    rw [unle32_drop_slice, unle32_slice f _ (by decide), ← slotRecord]
    by_cases hused : slotRecord f (sdbHash key) n = 0
    · rw [if_pos hused]
      exact .inr (.inr ⟨fun h ↦ h.used hused, fun h ↦ h.used hused, _, rfl, by simp⟩)
    rw [if_neg hused, ht.khash]
    by_cases hhash : wordAt f (slotAt f (sdbHash key) n) = sdbHash key
    · rw [if_pos hhash, cdbGetkvlen_init]
      by_cases hhead : Within f (slotRecord f (sdbHash key) n) 4
      · rw [if_pos hhead]
        dsimp only
        by_cases hklen : klenAt f (slotRecord f (sdbHash key) n) = 0
        · rw [if_pos hklen]
          exact .inr (.inr ⟨fun h ↦ h.klen hklen, fun h ↦ (h.other hhash).2.1 hklen, _, rfl,
            by simp⟩)
        rw [if_neg hklen]
        by_cases hlen : klenAt f (slotRecord f (sdbHash key) n) = (keyBytes key).length
        · have hpos : slotRecord f (sdbHash key) n + 4 ≤ ut32 f.length := hhead
          rw [if_pos hlen, show kvlsz = 4 from rfl,
            ut32_of_lt (n := slotRecord f (sdbHash key) n + 4) (by omega)]
          rcases cdbMatch_init f _ (keyBytes key) _ (Nat.le_refl _) hpos with
            ⟨hm, hsame⟩ | ⟨hm, hdiff, hother⟩ | ⟨hm, hdiff, hother⟩
          · have hend : slotRecord f (sdbHash key) n + 4 + (keyBytes key).length ≤
                ut32 f.length := hsame.1
            rw [hm, ut32_of_lt (by omega)]
            exact .inl ⟨⟨hin, hused, hhash, hhead, hklen, hlen, hsame⟩, _, rfl, rfl, rfl⟩
          · rw [hm]
            refine .inr (.inl ⟨fun h ↦ hdiff h.same, ⟨hin, hused, fun _ ↦ ⟨hhead, hklen,
              fun _ ↦ ⟨hdiff, hother⟩⟩⟩, _, rfl, ?_⟩)
            exact ⟨ht.hpos, ht.hslots, rfl, rfl⟩
          · rw [hm]
            exact .inr (.inr ⟨fun h ↦ hdiff h.same, fun h ↦ hother ((h.other hhash).2.2 hlen).2, _,
              rfl, by simp⟩)
        · rw [if_neg hlen]
          refine .inr (.inl ⟨fun h ↦ hlen h.len, ⟨hin, hused, fun _ ↦ ⟨hhead, hklen,
            fun h ↦ absurd h hlen⟩⟩, _, rfl, ?_⟩)
          exact ⟨ht.hpos, ht.hslots, rfl, rfl⟩
      · rw [if_neg hhead]
        exact .inr (.inr ⟨fun h ↦ hhead h.header, fun h ↦ hhead (h.other hhash).1, _, rfl,
          by simp⟩)
    · rw [if_neg hhash]
      refine .inr (.inl ⟨fun h ↦ hhash h.hash, ⟨hin, hused, fun h ↦ absurd h hhash⟩, _, rfl, ?_⟩)
      exact ⟨ht.hpos, ht.hslots, rfl, rfl⟩
  · rw [if_neg hin]
    exact .inr (.inr ⟨fun h ↦ hin h.within, fun h ↦ hin h.within, _, rfl, by simp⟩)

theorem findsFrom_of_hit {f : Bytes} {key : CStr} {i p : Nat}
    (hi : i < tableSlots f (sdbHash key)) (h : Hit f key i) :
    FindsFrom f key i p ↔ slotRecord f (sdbHash key) i = p := by
  constructor
  · rintro ⟨n, hin, -, hpass, -, rfl⟩
    rcases Nat.eq_or_lt_of_le hin with rfl | hlt
    · rfl
    · have hp := hpass i (Nat.le_refl i) hlt
      exact absurd h.same ((hp.other h.hash).2.2 h.len).1
  · rintro rfl
    exact ⟨i, Nat.le_refl i, hi, fun m him hmi ↦ absurd hmi (by omega), h, rfl⟩

theorem findsFrom_of_passed {f : Bytes} {key : CStr} {i p : Nat} (hn : ¬ Hit f key i)
    (h : Passed f key i) : FindsFrom f key i p ↔ FindsFrom f key (i + 1) p := by
  constructor
  · rintro ⟨n, hin, hlt, hpass, hhit, rfl⟩
    rcases Nat.eq_or_lt_of_le hin with rfl | hin
    · exact absurd hhit hn
    · exact ⟨n, hin, hlt, fun m hm ↦ hpass m (by omega), hhit, rfl⟩
  · rintro ⟨n, hin, hlt, hpass, hhit, rfl⟩
    refine ⟨n, by omega, hlt, fun m him hmn ↦ ?_, hhit, rfl⟩
    rcases Nat.eq_or_lt_of_le him with rfl | him
    · exact h
    · exact hpass m him hmn

theorem not_findsFrom {f : Bytes} {key : CStr} {i p : Nat} (hn : ¬ Hit f key i)
    (h : ¬ Passed f key i) : ¬ FindsFrom f key i p := by
  rintro ⟨n, hin, -, hpass, hhit, -⟩
  rcases Nat.eq_or_lt_of_le hin with rfl | hlt
  · exact hn hhit
  · exact h (hpass i (Nat.le_refl i) hlt)

/-- The loop finds the record that the walk ends at. -/
theorem cdbFindLoop_init {f : Bytes} {key : CStr} (k : Nat) {t : CdbFind} {i : Nat}
    (ht : t.At f (sdbHash key) i) (hk : i + k = tableSlots f (sdbHash key)) :
    (∃ p, FindsFrom f key i p ∧ ∃ t',
      cdbFindLoop (cdbInit (some f)).2 (keyBytes key) k t = (1, t') ∧
      t'.dpos = p + 4 + (keyBytes key).length ∧ t'.dlen = vlenAt f p) ∨
    (∀ p, ¬ FindsFrom f key i p) ∧
      (cdbFindLoop (cdbInit (some f)).2 (keyBytes key) k t).1 < 1 := by
  induction k generalizing t i with
  | zero =>
      refine .inr ⟨?_, by simp [cdbFindLoop]⟩
      rintro p ⟨n, hin, hlt, -⟩
      omega
  | succ k ih =>
      rw [cdbFindLoop_succ]
      rcases cdbFindRound_init ht (by omega) with
        ⟨hhit, t', hr, hdpos, hdlen⟩ | ⟨hn, hpass, t', hr, ht'⟩ | ⟨hn, hpass, r, hr, hlt⟩
      · rw [hr]
        exact .inl ⟨_, (findsFrom_of_hit (by omega) hhit).mpr rfl, t', rfl, hdpos, hdlen⟩
      · rw [hr]
        simp only [findsFrom_of_passed hn hpass]
        exact ih ht' (by omega)
      · rw [hr]
        exact .inr ⟨fun p ↦ not_findsFrom hn hpass, hlt⟩

/-- The header spells where the table of a hash begins and ends. -/
theorem cdbRead_header_init (f : Bytes) (u : Nat) :
    cdbRead (cdbInit (some f)).2 (if (u + 1) % 256 = 0 then 4 else 8) (u % 256 * 4) = none ∧
      ¬ Within f (u % 256 * 4) (if u % 256 = 255 then 4 else 8) ∨
    Within f (u % 256 * 4) (if u % 256 = 255 then 4 else 8) ∧ ∃ buf,
      cdbRead (cdbInit (some f)).2 (if (u + 1) % 256 = 0 then 4 else 8) (u % 256 * 4) = some buf ∧
      unle32 buf = tableAt f u ∧
      (if (if (u + 1) % 256 = 0 then 4 else 8) = 8 then unle32 (buf.drop 4)
        else (cdbInit (some f)).2.size) = tableEnd f u := by
  by_cases hlast : u % 256 = 255
  · rw [if_pos hlast, if_pos (show (u + 1) % 256 = 0 by omega), cdbRead_init f (by decide),
      tableEnd, if_pos hlast]
    by_cases hin : Within f (u % 256 * 4) 4
    · have hle : u % 256 * 4 + 4 ≤ ut32 f.length := hin
      have hlen := ut32_le f.length
      rw [if_pos hin]
      refine .inr ⟨hin, _, rfl, unle32_slice f _ (by decide), ?_⟩
      rw [if_neg (by decide), cdbInit, if_pos (show f.length > 4 by omega)]
    · rw [if_neg hin]
      exact .inl ⟨rfl, hin⟩
  · rw [if_neg hlast, if_neg (show ¬ (u + 1) % 256 = 0 by omega), cdbRead_init f (by decide),
      tableEnd, if_neg hlast]
    by_cases hin : Within f (u % 256 * 4) 8
    · rw [if_pos hin]
      refine .inr ⟨hin, _, rfl, unle32_slice f _ (by decide), ?_⟩
      rw [if_pos rfl, unle32_drop_slice]
    · rw [if_neg hin]
      exact .inl ⟨rfl, hin⟩

theorem fd_cdbInit (f : Bytes) : (cdbInit (some f)).2.fd = some f := by
  rw [cdbInit]
  split
  · rfl
  · rfl

theorem size_cdbInit_lt (f : Bytes) : (cdbInit (some f)).2.size < 4294967296 := by
  rw [cdbInit]
  split
  · exact ut32_lt _
  · exact Nat.zero_lt_succ _

/-- `cdb_findnext` on an arbitrary file finds the first record with the key that the table
leads to. -/
theorem cdbLookup_init (f : Bytes) (key : CStr) :
    (∃ p, Finds f key p ∧ ∃ t', cdbLookup (cdbInit (some f)).2 key = (1, t') ∧
      t'.dpos = p + 4 + (keyBytes key).length ∧ t'.dlen = vlenAt f p) ∨
    (∀ p, ¬ Finds f key p) ∧ (cdbLookup (cdbInit (some f)).2 key).1 < 1 := by
  rw [cdbLookup, cdbFindnext, fd_cdbInit, cdbFindstart]
  dsimp only
  rw [if_pos rfl]
  rcases cdbRead_header_init f (sdbHash key) with ⟨hread, hin⟩ | ⟨hin, buf, hread, hat, hend⟩
  · rw [hread]
    exact .inr ⟨fun p h ↦ hin h.1, by simp⟩
  rw [hread]
  dsimp only
  rw [hend, hat]
  by_cases hle : tableEnd f (sdbHash key) < tableAt f (sdbHash key)
  · rw [if_pos hle]
    refine .inr ⟨?_, by simp⟩
    rintro p ⟨-, n, -, hn, -⟩
    rw [tableSlots] at hn
    omega
  rw [if_neg hle, ← tableSlots]
  by_cases hslots : tableSlots f (sdbHash key) = 0
  · rw [if_pos hslots]
    refine .inr ⟨?_, by simp⟩
    rintro p ⟨-, n, -, hn, -⟩
    omega
  rw [if_neg hslots, ← keyBytes]
  simp only [Finds, hin, true_and]
  refine cdbFindLoop_init _ ⟨rfl, rfl, rfl, ?_⟩ (Nat.zero_add _)
  have hend := tableEnd_lt f (sdbHash key)
  have hmod := Nat.mod_lt (sdbHash key / 256) (Nat.pos_of_ne_zero hslots)
  have hcount : tableAt f (sdbHash key) + 8 * tableSlots f (sdbHash key) ≤
      tableEnd f (sdbHash key) := by
    rw [tableSlots] at hslots ⊢
    omega
  rw [slotAt, Nat.add_zero, ut32_of_lt (by omega), Nat.mul_comm]

theorem Finds.unique {f : Bytes} {key : CStr} {p q : Nat} (hp : Finds f key p)
    (hq : Finds f key q) : p = q := by
  -- a slot that is passed is no hit
  have hne : ∀ {n}, Hit f key n → ¬ Passed f key n := fun hhit hpass ↦
    ((hpass.other hhit.hash).2.2 hhit.len).1 hhit.same
  obtain ⟨-, n, -, -, hn, hhit, rfl⟩ := hp
  obtain ⟨-, m, -, -, hm, hhit', rfl⟩ := hq
  rcases Nat.lt_trichotomy n m with h | rfl | h
  · exact absurd (hm n (Nat.zero_le n) h) (hne hhit)
  · rfl
  · exact absurd (hn m (Nat.zero_le m) h) (hne hhit')

/-! ## The values that are handed out -/

/-- The database has the file open, as `sdb_open` leaves it. -/
structure Sdb.OpenOn (s : Sdb) (f : Bytes) : Prop where
  fd : s.fd = some f
  db : s.db = (cdbInit (some f)).2

/-- The search for a key ends, and a value that is found lies in the file, up to its NUL. -/
def LookupRobust (f : Bytes) (key : CStr) : Prop :=
  (∀ t fuel, 536870912 ≤ fuel →
    (cdbFindnextWhile fuel (cdbInit (some f)).2 t (sdbHash key) key).isSome) ∧
  ∀ (s : Sdb) (w : World) (v : CStr), s.OpenOn f → sdbHtFindKvp s key = none →
    (sdbConstGetLen s w key).1.value = some v →
      let pos := (cdbLookup s.db key).2.dpos
      let vlen := (sdbConstGetLen s w key).1.vlen
      pos + vlen ≤ f.length ∧ f[pos + vlen - 1]? = some 0

/-- The value of the record at `p` lies in the file and ends with a NUL. -/
def ValueWithin (f : Bytes) (key : CStr) (p : Nat) : Prop :=
  p + 4 + (keyBytes key).length + vlenAt f p ≤ f.length ∧
    f[p + 4 + (keyBytes key).length + vlenAt f p - 1]? = some 0

/-- A lookup is safe exactly when the record that is found has no value, one of the greatest
length, or one that lies in the file. -/
theorem lookupRobust_iff (f : Bytes) (key : CStr) :
    LookupRobust f key ↔ ∀ p, Finds f key p → 0 < vlenAt f p → vlenAt f p < 0xffffff →
      ValueWithin f key p := by
  constructor
  · rintro ⟨-, hvalue⟩ p hp hpos hlt
    rcases cdbLookup_init f key with ⟨q, hq, t', hr, hdpos, hdlen⟩ | ⟨hnone, -⟩
    · obtain rfl := hp.unique hq
      let s : Sdb := { sdbNew0 with fd := some f, db := (cdbInit (some f)).2 }
      have hfind : sdbHtFindKvp s key = none := sdbHtFindKvp_of_htNew rfl key
      have hget : (sdbConstGetLen s .empty key).1 =
          ⟨some (CStr.ofBytes ((s.db.map.getD []).drop t'.dpos)), t'.dlen, 0⟩ := by
        rw [sdbConstGetLen, hfind]
        dsimp only [sdbGetDisk, s]
        rw [hr, if_neg (Int.lt_irrefl 1), if_neg (by rw [hdlen, sdbMaxValue]; omega)]
      have h := hvalue s .empty _ ⟨rfl, rfl⟩ hfind (congrArg Got.value hget)
      rw [hget, hr] at h
      dsimp only at h
      rwa [hdpos, hdlen] at h
    · exact absurd hp (hnone p)
  · intro hcond
    refine ⟨fun t fuel hfuel ↦ ?_, fun s w v hs hfind hv ↦ ?_⟩
    · rw [cdbFindnextWhile_eq (size_cdbInit_lt f) hfuel]
      rfl
    · rw [sdbConstGetLen, hfind] at hv ⊢
      dsimp only at hv ⊢
      rw [sdbGetDisk, hs.fd, hs.db] at hv ⊢
      dsimp only at hv ⊢
      rcases cdbLookup_init f key with ⟨p, hp, t', hr, hdpos, hdlen⟩ | ⟨-, hlt⟩
      · rw [hr] at hv ⊢
        rw [if_neg (Int.lt_irrefl 1)] at hv ⊢
        by_cases hlen : t'.dlen < 1 ∨ t'.dlen ≥ sdbMaxValue
        · rw [if_pos hlen] at hv
          cases hv
        · rw [if_neg hlen]
          rw [hdlen, sdbMaxValue] at hlen
          dsimp only
          rw [hdpos, hdlen]
          exact hcond p hp (by omega) (by omega)
      · rw [if_pos hlt] at hv
        cases hv

/-- A file of 23 bytes: one table with one slot, whose record has the key `hm` and says that
five more bytes follow. -/
def fileHm : Bytes :=
  [8, 0, 0, 0, 16, 0, 0, 0, 0, 111, 89, 0, 16, 0, 0, 0, 3, 5, 0, 0, 104, 109, 0]

theorem not_lookupRobust_fileHm : ¬ LookupRobust fileHm (CStr.ofBytes [104, 109]) := by
  rintro ⟨-, h⟩
  have h' := h { sdbNew0 with fd := some fileHm, db := (cdbInit (some fileHm)).2 } .empty
    CStr.empty ⟨rfl, rfl⟩ (by decide) (by decide)
  exact absurd h'.1 (by decide)

/-! ## The scan -/

/-- The bytes at `pos` are the header of a record, with a key and a value. -/
def IsRecord (f : Bytes) (pos : Nat) : Prop :=
  Within f pos 4 ∧ 0 < klenAt f pos ∧ 0 < vlenAt f pos

instance (f : Bytes) (pos : Nat) : Decidable (IsRecord f pos) :=
  inferInstanceAs (Decidable (_ ∧ _ ∧ _))

/-- What `sdb_dump_dupnext` makes of the record at `pos`. -/
def dumpedAt (f : Bytes) (pos : Nat) : Dumped where
  key :=
    if sdbMinKey < klenAt f pos ∧ klenAt f pos < sdbMaxKey then
      CStr.ofBytes (slice f (pos + 4) (klenAt f pos))
    else CStr.empty
  value :=
    if vlenAt f pos < sdbMaxValue then
      some (slice f (pos + 4 + keySpan (klenAt f pos)) (vlenAt f pos))
    else none
  vlen := vlenAt f pos

theorem klenAt_le (f : Bytes) (pos : Nat) : klenAt f pos ≤ 255 :=
  Nat.le_of_lt_succ (UInt8.toNat_lt _)

theorem dupnextKey_init (f : Bytes) {pos : Nat} (hpos : Within f pos 0) (klen : Nat) :
    dupnextKey (cdbInit (some f)).2 klen pos =
      if Within f pos (keySpan klen) then
        some (if sdbMinKey < klen ∧ klen < sdbMaxKey then CStr.ofBytes (slice f pos klen)
          else CStr.empty, pos + keySpan klen)
      else none := by
  have hlt := ut32_lt f.length
  rw [dupnextKey, keySpan]
  by_cases hk : sdbMinKey < klen ∧ klen < sdbMaxKey
  · rw [if_pos hk, if_pos hk, if_pos hk, cdbRead_init f (by omega)]
    by_cases hin : Within f pos klen
    · have hle : pos + klen ≤ ut32 f.length := hin
      rw [if_pos hin, if_pos hin, Option.map_some, ut32_of_lt (by omega)]
    · rw [if_neg hin, if_neg hin]
      rfl
  · rw [if_neg hk, if_neg hk, if_neg hk, if_pos hpos]
    rfl

/-- `sdb_dump_dupnext` on an arbitrary file: it returns true when all that it reads lies in
the file. -/
theorem sdbDumpDupnext_init (f : Bytes) (pos : Nat) :
    if IsRecord f pos ∧ Within f pos (4 + keySpan (klenAt f pos) + valueSpan (vlenAt f pos)) then
      sdbDumpDupnext (cdbInit (some f)).2 pos = (some (dumpedAt f pos),
        pos + (4 + keySpan (klenAt f pos) + valueSpan (vlenAt f pos)))
    else (sdbDumpDupnext (cdbInit (some f)).2 pos).1 = none := by
  have hlt := ut32_lt f.length
  have hwithin : ∀ pos len, Within f pos len ↔ pos + len ≤ ut32 f.length := fun _ _ ↦ Iff.rfl
  rw [sdbDumpDupnext, cdbGetkvlen_init]
  by_cases hhead : Within f pos 4
  · have hle := (hwithin pos 4).mp hhead
    rw [if_pos hhead]
    dsimp only
    rw [ut32_of_lt (by omega)]
    by_cases hz : klenAt f pos < 1 ∨ vlenAt f pos < 1
    · rw [if_pos hz, if_neg (by rintro ⟨⟨-, hk, hv⟩, -⟩; omega)]
    have hrec : IsRecord f pos := ⟨hhead, by omega, by omega⟩
    rw [if_neg hz, dupnextKey_init f ((hwithin _ _).mpr hle)]
    by_cases hkey : Within f (pos + 4) (keySpan (klenAt f pos))
    · have hkle := (hwithin _ _).mp hkey
      rw [if_pos hkey]
      dsimp only
      by_cases hv : vlenAt f pos < sdbMaxValue
      · rw [if_pos hv, cdbRead_init f hrec.2.2]
        have hspan : valueSpan (vlenAt f pos) = vlenAt f pos := by rw [valueSpan, if_pos hv]
        rw [hspan]
        by_cases hval : Within f (pos + 4 + keySpan (klenAt f pos)) (vlenAt f pos)
        · have hvle := (hwithin _ _).mp hval
          rw [if_pos hval, if_pos ⟨hrec, (hwithin _ _).mpr (by omega)⟩]
          dsimp only
          rw [ut32_of_lt (by omega), dumpedAt, if_pos hv]
          congr 1
          omega
        · have hvle := mt (hwithin _ _).mpr hval
          rw [if_neg hval, if_neg fun h ↦ hvle (by have := (hwithin _ _).mp h.2; omega)]
      · have hspan : valueSpan (vlenAt f pos) = 0 := by rw [valueSpan, if_neg hv]
        rw [if_neg hv, hspan, if_pos ⟨hrec, (hwithin _ _).mpr (by omega)⟩, dumpedAt, if_neg hv]
        congr 1
        omega
    · have hkle := mt (hwithin _ _).mpr hkey
      rw [if_neg hkey, if_neg fun h ↦ hkle (by have := (hwithin _ _).mp h.2; omega)]
  · rw [if_neg hhead, if_neg fun h ↦ hhead h.1.1]

/-- Every true result moves on by at least the header, within the file. -/
theorem sdbDumpDupnext_init_some {f : Bytes} {pos : Nat} {d : Dumped} {pos' : Nat}
    (h : sdbDumpDupnext (cdbInit (some f)).2 pos = (some d, pos')) :
    IsRecord f pos ∧ Within f pos (4 + keySpan (klenAt f pos) + valueSpan (vlenAt f pos)) ∧
      d = dumpedAt f pos ∧
        pos' = pos + (4 + keySpan (klenAt f pos) + valueSpan (vlenAt f pos)) := by
  have hinit := sdbDumpDupnext_init f pos
  rw [h] at hinit
  split at hinit
  · next hin =>
      obtain ⟨hd, hpos⟩ := Prod.mk.inj hinit
      exact ⟨hin.1, hin.2, Option.some.inj hd, hpos⟩
  · cases hinit

theorem dumpTimes_init {f : Bytes} (n : Nat) {pos : Nat} {l : List Dumped}
    (h : dumpTimes (cdbInit (some f)).2 (n + 1) pos = some l) : pos + n < ut32 f.length := by
  induction n generalizing pos l with
  | zero =>
      rw [dumpTimes] at h
      split at h
      · cases h
      · next hd =>
          have hin : pos + _ ≤ ut32 f.length := (sdbDumpDupnext_init_some hd).2.1
          omega
  | succ n ih =>
      rw [dumpTimes] at h
      split at h
      · cases h
      · next hd =>
          obtain ⟨l', hl', -⟩ := Option.map_eq_some_iff.mp h
          obtain ⟨-, -, -, rfl⟩ := sdbDumpDupnext_init_some hd
          have hrest := ih hl'
          omega

/-- The loop of `sdb_foreach_cdb` ends: its position only grows. -/
theorem dumpTimes_init_none (f : Bytes) (pos : Nat) :
    dumpTimes (cdbInit (some f)).2 (ut32 f.length + 1) pos = none := by
  cases h : dumpTimes (cdbInit (some f)).2 (ut32 f.length + 1) pos with
  | none => rfl
  | some l =>
      have hlt := dumpTimes_init _ h
      omega

/-- The position where a record of the chain of `sdb_dump_hasnext` ends, as a `ut32`. -/
def recordEnd (f : Bytes) (pos : Nat) : Nat := ut32 (pos + (klenAt f pos + vlenAt f pos + 4))

/-- The positions of the records, by their lengths alone. -/
def chainAt (f : Bytes) : Nat → Nat
  | 0 => cdbFinalSize
  | n + 1 => recordEnd f (chainAt f n)

/-- The chain of records comes back to a record that it has been at. -/
def ChainReturns (f : Bytes) : Prop :=
  ∃ i j, i < j ∧ (∀ m < j, IsRecord f (chainAt f m)) ∧ chainAt f i = chainAt f j

theorem sdbDumpHasnext_init (f : Bytes) (pos : Nat) :
    sdbDumpHasnext (cdbInit (some f)).2 pos =
      if IsRecord f pos then (true, recordEnd f pos) else (false, pos) := by
  rw [sdbDumpHasnext, cdbGetkvlen_init]
  by_cases hhead : Within f pos 4
  · rw [if_pos hhead]
    dsimp only
    by_cases hz : klenAt f pos < 1 ∨ vlenAt f pos < 1
    · rw [if_pos hz, if_neg (by rintro ⟨-, hk, hv⟩; omega)]
    · rw [if_neg hz, if_pos ⟨hhead, by omega, by omega⟩, recordEnd]
  · rw [if_neg hhead, if_neg fun h ↦ hhead h.1]

theorem hasnextTimes_init (f : Bytes) (n i : Nat) :
    hasnextTimes (cdbInit (some f)).2 n (chainAt f i) = none ↔
      ∃ m, i ≤ m ∧ m < i + n ∧ ¬ IsRecord f (chainAt f m) := by
  induction n generalizing i with
  | zero =>
      rw [hasnextTimes]
      refine iff_of_false (by simp) ?_
      rintro ⟨m, hle, hlt, -⟩
      omega
  | succ n ih =>
      rw [hasnextTimes, sdbDumpHasnext_init]
      by_cases hrec : IsRecord f (chainAt f i)
      · rw [if_pos hrec]
        refine (ih (i + 1)).trans ⟨?_, ?_⟩
        · rintro ⟨m, hle, hlt, hm⟩
          exact ⟨m, by omega, by omega, hm⟩
        · rintro ⟨m, hle, hlt, hm⟩
          rcases Nat.eq_or_lt_of_le hle with rfl | hle
          · exact absurd hrec hm
          · exact ⟨m, hle, by omega, hm⟩
      · rw [if_neg hrec]
        exact iff_of_true rfl ⟨i, Nat.le_refl i, by omega, hrec⟩

theorem chainAt_lt (f : Bytes) (n : Nat) : chainAt f n < 4294967296 := by
  cases n with
  | zero => exact (by decide : cdbFinalSize < 4294967296)
  | succ n => exact ut32_lt _

/-- A chain that comes back to where it was goes on for ever. -/
theorem ChainReturns.isRecord {f : Bytes} (h : ChainReturns f) (n : Nat) :
    IsRecord f (chainAt f n) := by
  obtain ⟨i, j, hij, hrec, heq⟩ := h
  have hback : ∀ n, ∃ m < j, chainAt f n = chainAt f m := by
    intro n
    induction n with
    | zero => exact ⟨0, by omega, rfl⟩
    | succ n ih =>
        obtain ⟨m, hm, hn⟩ := ih
        have hnext : chainAt f (n + 1) = chainAt f (m + 1) := by rw [chainAt, chainAt, hn]
        rcases Nat.eq_or_lt_of_le (Nat.succ_le_of_lt hm) with hj | hlt
        · exact ⟨i, hij, hnext.trans ((congrArg (chainAt f) hj).trans heq.symm)⟩
        · exact ⟨m + 1, hlt, hnext⟩
  obtain ⟨m, hm, hn⟩ := hback n
  rw [hn]
  exact hrec m hm

/-- A loop of `sdb_dump_hasnext` ends unless the chain of records returns: there are finitely
many positions. -/
theorem hasnext_ends_iff (f : Bytes) :
    (∃ n, hasnextTimes (cdbInit (some f)).2 n (sdbDumpBegin (some f)) = none) ↔
      ¬ ChainReturns f := by
  have hbegin : sdbDumpBegin (some f) = chainAt f 0 := rfl
  constructor
  · rintro ⟨n, hn⟩ hret
    obtain ⟨m, -, -, hm⟩ := (hasnextTimes_init f n 0).mp (hbegin ▸ hn)
    exact hm (hret.isRecord m)
  · intro hno
    by_contra hall
    have hrec : ∀ m, IsRecord f (chainAt f m) := by
      intro m
      by_contra hm
      refine hall ⟨m + 1, ?_⟩
      rw [hbegin, hasnextTimes_init]
      exact ⟨m, Nat.zero_le m, by omega, hm⟩
    obtain ⟨i, j, hne, heq⟩ := Finite.exists_ne_map_eq_of_infinite
      fun n ↦ (⟨chainAt f n, chainAt_lt f n⟩ : Fin 4294967296)
    have heq := congrArg Fin.val heq
    rcases Nat.lt_or_gt_of_ne hne with hlt | hlt
    · exact hno ⟨i, j, hlt, fun m _ ↦ hrec m, heq⟩
    · exact hno ⟨j, i, hlt, fun m _ ↦ hrec m, heq.symm⟩

/-- The positions that a scan of the file can be at, after any calls. -/
inductive ScanAt (f : Bytes) : Nat → Prop
  | begin : ScanAt f (sdbDumpBegin (some f))
  | hasnext {pos : Nat} : ScanAt f pos → ScanAt f (sdbDumpHasnext (cdbInit (some f)).2 pos).2
  | dupnext {pos : Nat} : ScanAt f pos → ScanAt f (sdbDumpDupnext (cdbInit (some f)).2 pos).2

/-- The record at `pos` has been read: all of its key and all of its value. -/
structure ReadWhole (f : Bytes) (pos : Nat) (d : Dumped) (pos' : Nat) : Prop where
  within : Within f pos (4 + klenAt f pos + vlenAt f pos)
  key : d.key = CStr.ofBytes (slice f (pos + 4) (klenAt f pos))
  value : d.value = some (slice f (pos + 4 + klenAt f pos) (vlenAt f pos))
  next : pos' = pos + (4 + klenAt f pos + vlenAt f pos)

/-- Scans of the file end, every record that is handed out has been read, and no callback
receives `NULL`. -/
structure ScanRobust (f : Bytes) : Prop where
  foreach_ends : ∃ n, dumpTimes (cdbInit (some f)).2 n (sdbDumpBegin (some f)) = none
  hasnext_ends : ∃ n, hasnextTimes (cdbInit (some f)).2 n (sdbDumpBegin (some f)) = none
  read {pos : Nat} {d : Dumped} {pos' : Nat} : ScanAt f pos →
    sdbDumpDupnext (cdbInit (some f)).2 pos = (some d, pos') → ReadWhole f pos d pos'
  value {s : Sdb} {call : Call} : s.OpenOn f → call ∈ foreachCalls s → call.2 ≠ none

/-- A record that lies in the file, up to what is read of it, has a key of 2 to 254 bytes and
not the greatest length for its value. -/
def SaneAt (f : Bytes) (pos : Nat) : Prop :=
  IsRecord f pos → Within f pos (4 + keySpan (klenAt f pos) + valueSpan (vlenAt f pos)) →
    1 < klenAt f pos ∧ klenAt f pos < 0xff ∧ vlenAt f pos < 0xffffff

theorem SaneAt.readWhole {f : Bytes} {pos : Nat} (h : SaneAt f pos) {d : Dumped} {pos' : Nat}
    (hd : sdbDumpDupnext (cdbInit (some f)).2 pos = (some d, pos')) : ReadWhole f pos d pos' := by
  obtain ⟨hrec, hin, rfl, rfl⟩ := sdbDumpDupnext_init_some hd
  obtain ⟨hk, hk', hv⟩ := h hrec hin
  have hkey : sdbMinKey < klenAt f pos ∧ klenAt f pos < sdbMaxKey := ⟨hk, hk'⟩
  have hspan : keySpan (klenAt f pos) = klenAt f pos := if_pos hkey
  have hvspan : valueSpan (vlenAt f pos) = vlenAt f pos := if_pos hv
  rw [hspan, hvspan] at hin ⊢
  refine ⟨hin, if_pos hkey, ?_, rfl⟩
  rw [dumpedAt, hspan]
  exact if_pos hv

/-- Where a record is not sane some of it is not read. -/
theorem ReadWhole.saneAt {f : Bytes} {pos : Nat}
    (h : ∀ d pos', sdbDumpDupnext (cdbInit (some f)).2 pos = (some d, pos') →
      ReadWhole f pos d pos') : SaneAt f pos := by
  intro hrec hin
  have hd := sdbDumpDupnext_init f pos
  rw [if_pos ⟨hrec, hin⟩] at hd
  have hwhole := h _ _ hd
  have hv : vlenAt f pos < 0xffffff := by
    by_contra hv
    have hvalue := hwhole.value
    rw [dumpedAt] at hvalue
    dsimp only at hvalue
    rw [sdbMaxValue, if_neg hv] at hvalue
    cases hvalue
  have hvspan : valueSpan (vlenAt f pos) = vlenAt f pos := if_pos hv
  have hnext := hwhole.next
  have hpos := hrec.2.1
  have hspan : keySpan (klenAt f pos) = klenAt f pos := by omega
  rw [keySpan] at hspan
  split at hspan
  · next hk => exact ⟨hk.1, hk.2, hv⟩
  · omega

theorem mem_dumpLoop {f : Bytes} {n pos : Nat} {d : Dumped} (hpos : ScanAt f pos)
    (hd : d ∈ dumpLoop (cdbInit (some f)).2 n pos) :
    ∃ pos₁ pos₂, ScanAt f pos₁ ∧ sdbDumpDupnext (cdbInit (some f)).2 pos₁ = (some d, pos₂) := by
  induction n generalizing pos with
  | zero => exact absurd hd (by simp [dumpLoop])
  | succ n ih =>
      have hnext := hpos.dupnext
      rw [dumpLoop] at hd
      rcases hr : sdbDumpDupnext (cdbInit (some f)).2 pos with ⟨_ | d', pos'⟩
      · rw [hr] at hd
        exact absurd hd (by simp)
      · rw [hr] at hd hnext
        rcases List.mem_cons.mp hd with rfl | hd
        · exact ⟨pos, pos', hpos, hr⟩
        · exact ih hnext hd

/-- The chain cannot return in a file that ends 16 MiB before the greatest position. -/
theorem not_chainReturns_of_length {f : Bytes} (h : f.length ≤ 4278189821) : ¬ ChainReturns f := by
  rintro ⟨i, j, hij, hrec, heq⟩
  have hstep : ∀ m < j, chainAt f m < chainAt f (m + 1) := by
    intro m hm
    have hin : chainAt f m + 4 ≤ ut32 f.length := (hrec m hm).1
    have hle := ut32_le f.length
    have hk := klenAt_le f (chainAt f m)
    have hv := vlenAt_le f (chainAt f m)
    rw [sdbMaxValue] at hv
    rw [chainAt, recordEnd, ut32_of_lt (by omega)]
    omega
  have hmono : ∀ k, i < k → k ≤ j → chainAt f i < chainAt f k := by
    intro k hik
    induction hik with
    | refl => exact fun hk ↦ hstep i (by omega)
    | step hlt ih => exact fun hk ↦ Nat.lt_trans (ih (by omega)) (hstep _ (by omega))
  exact absurd heq (Nat.ne_of_lt (hmono j hij (Nat.le_refl j)))

theorem scanBound_init_le {f : Bytes} (h : f.length ≤ 4278189821) :
    scanBound (cdbInit (some f)).2 ≤ 4294967296 := by
  have hlt := size_cdbInit_lt f
  rw [scanBound, fd_cdbInit, Option.getD_some]
  omega

/-- Scans are safe exactly when every record that they come to is sane and the chain of
records does not return, as it cannot if the file ends 16 MiB before the greatest position; there
`scanBound` rounds are all that a scan makes. -/
theorem scanRobust_iff (f : Bytes) :
    (ScanRobust f ↔ (∀ pos, ScanAt f pos → SaneAt f pos) ∧ ¬ ChainReturns f) ∧
      (f.length ≤ 4278189821 → ¬ ChainReturns f ∧
        ∀ n pos, scanBound (cdbInit (some f)).2 ≤ n → dumpLoop (cdbInit (some f)).2 n pos =
          dumpLoop (cdbInit (some f)).2 (scanBound (cdbInit (some f)).2) pos) := by
  refine ⟨?_, fun hlen ↦ ⟨not_chainReturns_of_length hlen, fun n pos hn ↦
    dumpLoop_scanBound (scanBound_init_le hlen) hn pos⟩⟩
  constructor
  · intro h
    refine ⟨fun pos hpos ↦ ReadWhole.saneAt fun d pos' hd ↦ h.read hpos hd, ?_⟩
    exact (hasnext_ends_iff f).mp h.hasnext_ends
  · rintro ⟨hsane, hret⟩
    refine ⟨⟨_, dumpTimes_init_none f _⟩, (hasnext_ends_iff f).mpr hret,
      fun hpos hd ↦ (hsane _ hpos).readWhole hd, ?_⟩
    intro s call hs hcall hnull
    rw [foreachCalls, List.mem_append, List.mem_filterMap, List.mem_filterMap] at hcall
    rcases hcall with ⟨d, hd, hcall⟩ | ⟨kv, -, hcall⟩
    · rw [Sdb.scan, hs.fd, hs.db] at hd
      obtain ⟨pos₁, pos₂, hpos, hdup⟩ := mem_dumpLoop .begin hd
      have hvalue := ((hsane pos₁ hpos).readWhole hdup).value
      rw [cdbCall] at hcall
      split at hcall
      · obtain ⟨v, -, rfl⟩ := Option.map_eq_some_iff.mp hcall
        cases hnull
      · obtain rfl := Option.some.inj hcall
        rw [hvalue] at hnull
        cases hnull
    · rw [memCall] at hcall
      split at hcall
      · cases hcall
      · split at hcall
        · cases hcall
        · obtain rfl := Option.some.inj hcall
          cases hnull

/-- A file with one record, whose value has the greatest length. -/
def fileHuge : Bytes := List.replicate 1024 0 ++ [2, 255, 255, 255, 97, 0]

theorem not_scanRobust_fileHuge : ¬ ScanRobust fileHuge := by
  have hlen : fileHuge.length = 1030 := by
    rw [fileHuge, List.length_append, List.length_replicate]
    rfl
  have hget : ∀ i, fileHuge.getD (1024 + i) 0 = [2, 255, 255, 255, 97, 0].getD i 0 := by
    intro i
    rw [fileHuge, List.getD_append_right _ _ _ _ (by rw [List.length_replicate]; omega),
      List.length_replicate, Nat.add_sub_cancel_left]
  have hklen : klenAt fileHuge 1024 = 2 := by rw [klenAt, hget 0]; rfl
  have hvlen : vlenAt fileHuge 1024 = 0xffffff := by
    rw [vlenAt, hget 1, hget 2, hget 3]
    rfl
  have hwithin : ∀ len, 1024 + len ≤ 1030 → Within fileHuge 1024 len := by
    intro len hle
    unfold Within
    rw [hlen, ut32_of_lt (by decide)]
    exact hle
  intro h
  have hsane := ReadWhole.saneAt fun d pos' hd ↦ h.read .begin hd
  have hlt := (hsane ⟨hwithin 4 (by decide), ?_, ?_⟩ (hwithin _ ?_)).2.2
  · exact absurd hvlen (Nat.ne_of_lt hlt)
  · exact hklen ▸ (by decide : 0 < 2)
  · exact hvlen ▸ (by decide : 0 < 0xffffff)
  · rw [show sdbDumpBegin (some fileHuge) = 1024 from rfl, hklen, hvlen]
    decide

end SdbStore
