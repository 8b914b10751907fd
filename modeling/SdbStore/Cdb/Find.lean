import SdbStore.Cdb.Image
import SdbStore.Lib.Keyed

/-!
# Looking a key up in a CDB file

`cdb.c`: reading the mapped file and searching it for a key.  A search goes from the
header to one of the 256 tables, from the slot where the key has its home to the next
free slot, and compares the key with the record of every slot whose hash is the
key's.

`cdbFindnext_image` is the specification on a file that `cdb_make.c` wrote: a search
finds the first record with the key, and says so when there is none.
-/

namespace SdbStore

open Lib

/-- The file of `struct cdb`: `map` is the mapping, `fd` the file behind the open
descriptor.  A file that is opened is never written to, so both are its contents. -/
structure Cdb where
  map : Option Bytes
  fd : Option Bytes
  size : Nat
deriving DecidableEq

/-- The search of `struct cdb`; of these fields only `loop` is read before it is
written. -/
structure CdbFind where
  loop : Nat
  khash : Nat
  kpos : Nat
  hpos : Nat
  hslots : Nat
  dpos : Nat
  dlen : Nat

/-- No file at all. -/
def Cdb.closed : Cdb := ⟨none, none, 0⟩

/-- `cdb_init`: files of up to four bytes are not mapped. -/
def cdbInit (fd : Option Bytes) : Bool × Cdb :=
  match fd with
  | none => (false, ⟨none, none, 0⟩)
  | some f =>
      if f.length > 4 then (true, ⟨some f, some f, ut32 f.length⟩) else (false, ⟨none, some f, 0⟩)

/-- `cdb_read`, from the mapping if there is one and from the descriptor else. -/
def cdbRead (c : Cdb) (len pos : Nat) : Option Bytes :=
  match c.map with
  | some m => if pos > c.size ∨ c.size - pos < len then none else some (slice m pos len)
  | none =>
      match c.fd with
      | none => none
      | some f => if len > 0 ∧ f.length < pos + len then none else some (slice f pos len)

/-- `cdb_getkvlen`. -/
def cdbGetkvlen (c : Cdb) (pos : Nat) : Option (Nat × Nat) := do
  let buf ← cdbRead c 4 pos
  let klen := (buf.getD 0 0).toNat
  let vlen := (buf.getD 1 0).toNat + 256 * (buf.getD 2 0).toNat + 65536 * (buf.getD 3 0).toNat
  if vlen > sdbMaxValue then none else some (klen, vlen)

/-- `match`, in steps of 32 bytes; `n` bounds the number of steps. -/
def cdbMatch (c : Cdb) : Nat → Bytes → Nat → Int
  | 0, _, _ => 1
  | n + 1, key, pos =>
      if key = [] then 1 else
        match cdbRead c (min 32 key.length) pos with
        | none => -1
        | some buf =>
            if buf ≠ key.take (min 32 key.length) then 0
            else cdbMatch c n (key.drop (min 32 key.length)) (ut32 (pos + min 32 key.length))

/-- `cdb_findstart`. -/
def cdbFindstart (t : CdbFind) : CdbFind := { t with loop := 0 }

/-- The loop of `cdb_findnext` over the slots of a table; `n` is `hslots - loop`. -/
def cdbFindLoop (c : Cdb) (key : Bytes) : Nat → CdbFind → Int × CdbFind
  | 0, t => (0, t)
  | n + 1, t =>
      match cdbRead c 8 t.kpos with
      | none => (0, t)
      | some buf =>
          let pos := unle32 (buf.drop 4)
          if pos = 0 then (0, t) else
            let kpos := ut32 (t.kpos + 8)
            let t := { t with
              loop := t.loop + 1
              kpos := if kpos = ut32 (t.hpos + t.hslots * 8) then t.hpos else kpos }
            if unle32 buf = t.khash then
              match cdbGetkvlen c pos with
              | none => (-1, { t with dlen := 0 })
              | some (u, dlen) =>
                  let t := { t with dlen := dlen }
                  if u = 0 then (-1, t)
                  else if u = key.length then
                    match cdbMatch c key.length key (ut32 (pos + kvlsz)) with
                    | -1 => (0, t)
                    | 1 => (1, { t with dpos := ut32 (pos + kvlsz + key.length) })
                    | _ => cdbFindLoop c key n t
                  else cdbFindLoop c key n t
            else cdbFindLoop c key n t

/-- `cdb_findnext`; `u` is the hash of the key. -/
def cdbFindnext (c : Cdb) (t : CdbFind) (u : Nat) (key : CStr) : Int × CdbFind :=
  match c.fd with
  | none => (-1, t)
  | some _ =>
      let key := key.bytesZ.take (ut32 (key.length + 1))
      let t := { t with hslots := 0 }
      if t.loop = 0 then
        let bufsz := if (u + 1) % 256 = 0 then 4 else 8
        match cdbRead c bufsz (u % 256 * 4) with
        | none => (-1, t)
        | some buf =>
            let hpos := unle32 buf
            let pos := if bufsz = 8 then unle32 (buf.drop 4) else c.size
            if pos < hpos then (-1, { t with hpos := hpos })
            else
              let hslots := (pos - hpos) / 8
              if hslots = 0 then (0, { t with hpos := hpos })
              else cdbFindLoop c key hslots { t with
                hpos := hpos
                hslots := hslots
                khash := u
                kpos := ut32 (hpos + u / 256 % hslots * 8) }
      else (0, t)

/-- One search from the start: what `cdb_findstart` and `cdb_findnext` do together. -/
def cdbLookup (c : Cdb) (key : CStr) : Int × CdbFind :=
  cdbFindnext c (cdbFindstart ⟨0, 0, 0, 0, 0, 0, 0⟩) (sdbHash key) key

/-! ## Reading the image -/

/-- The file `f` is open and mapped. -/
structure Cdb.Over (c : Cdb) (f : Bytes) : Prop where
  map : c.map = some f
  fd : c.fd = some f
  size : c.size = f.length

theorem cdbRead_over {c : Cdb} {f : Bytes} (hc : c.Over f) {len pos : Nat}
    (h : pos + len ≤ f.length) : cdbRead c len pos = some (slice f pos len) := by
  have hin : ¬ (pos > c.size ∨ c.size - pos < len) := by
    rw [hc.size]
    omega
  simp only [cdbRead, hc.map]
  exact if_neg hin

theorem cdbImage_split (pre : List CdbRec) (r : CdbRec) (post : List CdbRec) :
    ∃ A B, cdbImage (pre ++ r :: post) = A ++ (recBytes r ++ B) ∧
      A.length = cdbFinalSize + (cdbBody pre).length := by
  refine ⟨cdbHeader (pre ++ r :: post) 256 ++ cdbBody pre,
    cdbBody post ++ (cdbSlots (pre ++ r :: post) 256).flatMap cdbSlotBytes, ?_, ?_⟩
  · have hbody : cdbBody (pre ++ r :: post) = cdbBody pre ++ (recBytes r ++ cdbBody post) := by
      rw [cdbBody_append]
      rfl
    rw [cdbImage, hbody]
    simp only [List.append_assoc]
  · rw [List.length_append, length_cdbHeader, cdbFinalSize]

/-- The header gives the position of a table. -/
theorem slice_header (recs : List CdbRec) {i : Nat} (hi : i < 256) :
    slice (cdbImage recs) (4 * i) 4 = le32 (cdbTablePos recs i) := by
  have hlen := length_cdbHeader recs 256
  rw [cdbImage, slice_append_left (by omega), cdbHeader,
    slice_flatMap _ (fun _ ↦ length_le32 _) _ (by rwa [List.length_range]), List.getElem_range]

/-- The bytes of a slot of a table. -/
theorem slice_slot (recs : List CdbRec) {i j : Nat} (hi : i < 256)
    (hj : j < (cdbTable recs i).length) :
    slice (cdbImage recs) (cdbTablePos recs i + 8 * j) 8 = cdbSlotBytes (cdbTable recs i)[j] := by
  have hsplit : ∃ rest, cdbSlots recs 256 = cdbSlots recs i ++ (cdbTable recs i ++ rest) := by
    refine ⟨((List.range (256 - (i + 1))).map (i + 1 + ·)).flatMap (cdbTable recs), ?_⟩
    rw [← List.append_assoc, ← cdbSlots_succ, cdbSlots, cdbSlots, ← List.flatMap_append,
      ← List.range_add, show i + 1 + (256 - (i + 1)) = 256 by omega]
  obtain ⟨rest, hrest⟩ := hsplit
  have hlen : (cdbHeader recs 256 ++ cdbBody recs).length =
      cdbFinalSize + (cdbBody recs).length := by
    rw [List.length_append, length_cdbHeader, cdbFinalSize]
  rw [cdbImage, ← List.append_assoc, slice_append_right' (8 * ((cdbSlots recs i).length + j)) 8
    (by rw [hlen, cdbTablePos]; omega), hrest]
  have hlt : (cdbSlots recs i).length + j <
      (cdbSlots recs i ++ (cdbTable recs i ++ rest)).length := by
    rw [List.length_append, List.length_append]
    omega
  rw [slice_flatMap _ length_cdbSlotBytes _ hlt,
    List.getElem_append_right (Nat.le_add_right _ _)]
  simp only [Nat.add_sub_cancel_left]
  rw [List.getElem_append_left hj]

/-- The key of the record at `pos`, read as a C string. -/
def keyAt (f : Bytes) (pos : Nat) : CStr := CStr.ofBytes (f.drop (pos + kvlsz))

/-- The record `r` stands in `f` at `pos`. -/
def RecAt (f : Bytes) (pos : Nat) (r : CdbRec) : Prop :=
  ∃ A B, f = A ++ (recBytes r ++ B) ∧ A.length = pos

theorem RecAt.le {f : Bytes} {pos : Nat} {r : CdbRec} (h : RecAt f pos r) :
    pos + (recBytes r).length ≤ f.length := by
  obtain ⟨A, B, rfl, rfl⟩ := h
  rw [List.length_append, List.length_append]
  omega

theorem RecAt.slice_tail {f : Bytes} {pos : Nat} {r : CdbRec} (h : RecAt f pos r) {n : Nat}
    (hn : n ≤ (r.1.bytesZ ++ (r.2 ++ [0])).length) :
    slice f (pos + kvlsz) n = (r.1.bytesZ ++ (r.2 ++ [0])).take n := by
  obtain ⟨A, B, rfl, rfl⟩ := h
  rw [slice_append_right, recBytes, List.append_assoc,
    slice_append_right' 0 n (by rfl : kvlsz = _ + 0), slice, List.drop_zero,
    List.take_append_of_le_length hn]

theorem RecAt.slice_key {f : Bytes} {pos : Nat} {r : CdbRec} (h : RecAt f pos r) :
    slice f (pos + kvlsz) (r.1.length + 1) = r.1.bytesZ := by
  rw [h.slice_tail (by rw [List.length_append, CStr.length_bytesZ]; omega),
    ← CStr.length_bytesZ, List.take_left]

theorem RecAt.slice_data {f : Bytes} {pos : Nat} {r : CdbRec} (h : RecAt f pos r) :
    slice f (pos + kvlsz + (r.1.length + 1)) (r.2.length + 1) = r.2 ++ [0] := by
  obtain ⟨A, B, rfl, rfl⟩ := h
  have hmid : recBytes r ++ B =
      kvlenBytes (r.1.length + 1) (r.2.length + 1) ++ r.1.bytesZ ++ (r.2 ++ [0] ++ B) := by
    simp only [recBytes, List.append_assoc]
  rw [Nat.add_assoc, slice_append_right, hmid]
  refine slice_mid ?_ (by simp)
  rw [List.length_append, CStr.length_bytesZ]
  rfl

theorem RecAt.keyAt {f : Bytes} {pos : Nat} {r : CdbRec} (h : RecAt f pos r) :
    keyAt f pos = r.1 := by
  obtain ⟨A, B, rfl, rfl⟩ := h
  rw [SdbStore.keyAt, List.drop_length_add_append, recBytes, List.append_assoc, List.append_assoc]
  exact CStr.ofBytes_bytesZ_append _ _

theorem RecAt.getkvlen {c : Cdb} {f : Bytes} (hc : c.Over f) {pos : Nat} {r : CdbRec}
    (h : RecAt f pos r) (hr : r.Fits) :
    cdbGetkvlen c pos = some (r.1.length + 1, r.2.length + 1) := by
  have hle := h.le
  have hsize := length_recBytes r
  have hbuf : slice f pos 4 = kvlenBytes (r.1.length + 1) (r.2.length + 1) := by
    obtain ⟨A, B, rfl, rfl⟩ := h
    rw [recBytes, List.append_assoc]
    exact slice_mid rfl rfl
  obtain ⟨hk, hv⟩ := hr
  simp only [sdbMaxKey, sdbMaxValue] at hk hv
  have hklen : (r.1.length + 1) % 256 = r.1.length + 1 := Nat.mod_eq_of_lt (by omega)
  have hvlen : (r.2.length + 1) % 256 + 256 * ((r.2.length + 1) / 256 % 256) +
      65536 * ((r.2.length + 1) / 65536 % 256) = r.2.length + 1 := by omega
  rw [cdbGetkvlen, cdbRead_over hc (by omega), hbuf]
  simp only [kvlenBytes, Option.bind_eq_bind, Option.bind_some, List.getD_cons_zero,
    List.getD_cons_succ, UInt8.toNat_ofNat', Nat.reducePow, hklen, hvlen]
  exact if_neg (by rw [sdbMaxValue]; omega)

theorem cdbMatch_over {c : Cdb} {f : Bytes} (hc : c.Over f) (hf : f.length < 4294967296) :
    ∀ {n : Nat} {key : Bytes} {pos : Nat}, key.length ≤ n → pos + key.length ≤ f.length →
      cdbMatch c n key pos = if slice f pos key.length = key then 1 else 0 := by
  intro n
  induction n with
  | zero =>
      intro key pos hn _
      obtain rfl := List.eq_nil_of_length_eq_zero (Nat.le_zero.mp hn)
      simp [cdbMatch, slice]
  | succ n ih =>
      intro key pos hn hpos
      rw [cdbMatch]
      split
      · next hnil => simp [hnil, slice]
      · next hne =>
          have hlen := List.length_pos_iff.mpr hne
          have hmin : min 32 key.length ≤ key.length := Nat.min_le_right _ _
          have hmin0 : 0 < min 32 key.length := by omega
          -- the first chunk and the rest together are the whole key
          have hsplit : slice f pos key.length = slice f pos (min 32 key.length) ++
              slice f (pos + min 32 key.length) (key.drop (min 32 key.length)).length := by
            rw [← slice_add, List.length_drop, Nat.add_sub_cancel' hmin]
          generalize min 32 key.length = m at hmin hmin0 hsplit ⊢
          have hdrop : (key.drop m).length = key.length - m := List.length_drop
          rw [cdbRead_over hc (by omega)]
          dsimp only
          have htake : (slice f pos m).length = m := length_slice (by omega)
          have hkey : (key.take m).length = m := by rw [List.length_take]; omega
          have hiff : slice f pos key.length = key ↔
              slice f pos m = key.take m ∧ slice f (pos + m) (key.drop m).length = key.drop m := by
            rw [hsplit]
            constructor
            · intro h
              exact List.append_inj (h.trans (List.take_append_drop m key).symm)
                (htake.trans hkey.symm)
            · rintro ⟨h₁, h₂⟩
              rw [h₁, h₂, List.take_append_drop]
          by_cases h : slice f pos m = key.take m
          · rw [if_neg (not_not.mpr h), ut32_of_lt (by omega), ih (by omega) (by omega)]
            simp only [hiff, h, true_and]
          · rw [if_pos h, if_neg (fun hc ↦ h (hiff.mp hc).1)]

/-! ## The search -/

/-- The slot of a record with key `k`. -/
def cdbHit (f : Bytes) (k : CStr) (hp : CdbHp) : Bool :=
  hp.h == sdbHash k && decide (keyAt f hp.p = k)

/-- The outcome of a search: nothing, or the record of a slot. -/
def Sought (c : Cdb) (k : CStr) : Option CdbHp → Int × CdbFind → Prop
  | none, res => res.1 = 0
  | some hp, res => res.1 = 1 ∧ res.2.dpos = hp.p + kvlsz + (k.length + 1) ∧
      cdbGetkvlen c hp.p = some (k.length + 1, res.2.dlen)

/-- The slot stands for a record of `f`. -/
def SlotOk (f : Bytes) (hp : CdbHp) : Prop :=
  ∃ r : CdbRec, r.Fits ∧ hp.h = sdbHash r.1 ∧ RecAt f hp.p r

/-- One step around a table: the walk from a slot goes on with the walk from the
next. -/
theorem prefix_rotate_next {α : Type} {T R : List α} {a : α} {i : Nat} (hi : i < T.length)
    (h : a :: R <+: T.rotate i) :
    a = T[i] ∧ R <+: T.rotate (if i + 1 = T.length then 0 else i + 1) := by
  rw [List.rotate_eq_drop_append_take (Nat.le_of_lt hi), List.drop_eq_getElem_cons hi,
    List.cons_append, List.cons_prefix_cons] at h
  refine ⟨h.1, h.2.trans ?_⟩
  split
  · next hlast =>
      rw [List.rotate_zero, List.drop_eq_nil_of_le (Nat.le_of_eq hlast.symm), List.nil_append]
      exact List.take_prefix i T
  · next hlast =>
      rw [List.rotate_eq_drop_append_take (by omega)]
      exact (List.prefix_append_right_inj _).mpr (List.take_prefix_take_left (Nat.le_succ i))

/-- At an occupied slot the loop ends with its record, or goes on. -/
theorem cdbFindLoop_occupied {c : Cdb} {f : Bytes} (hc : c.Over f) (hf : f.length < 4294967296)
    (k : CStr) {hp : CdbHp} {t : CdbFind} {o : Option CdbHp} {n : Nat}
    (hread : cdbRead c 8 t.kpos = some (cdbSlotBytes hp)) (hfree : cdbFree hp = false)
    (hok : SlotOk f hp) (hkhash : t.khash = sdbHash k)
    (hnext : ∀ t' : CdbFind, t'.khash = t.khash → t'.hpos = t.hpos → t'.hslots = t.hslots →
      t'.kpos = (if ut32 (t.kpos + 8) = ut32 (t.hpos + t.hslots * 8) then t.hpos
        else ut32 (t.kpos + 8)) →
      Sought c k o (cdbFindLoop c (k.bytesZ.take (ut32 (k.length + 1))) n t')) :
    Sought c k (if cdbHit f k hp then some hp else o)
      (cdbFindLoop c (k.bytesZ.take (ut32 (k.length + 1))) (n + 1) t) := by
  obtain ⟨r, hfits, hhash, hrec⟩ := hok
  have hle := hrec.le
  have hsize := length_recBytes r
  have hhit : cdbHit f k hp = decide (r.1 = k) := by
    rw [cdbHit, hrec.keyAt, hhash]
    by_cases hrk : r.1 = k
    · simp [hrk]
    · simp [hrk]
  have hp0 : hp.p ≠ 0 := by simpa [cdbFree] using hfree
  have hh : unle32 (cdbSlotBytes hp) = hp.h :=
    unle32_le32_append (hhash ▸ sdbHash_lt r.1) _
  have hp' : unle32 ((cdbSlotBytes hp).drop 4) = hp.p := unle32_le32 (by omega)
  have hpos4 : ut32 (hp.p + kvlsz) = hp.p + kvlsz := ut32_of_lt (by rw [kvlsz]; omega)
  rw [cdbFindLoop, hread, hhit]
  dsimp only
  rw [hh, hp', if_neg hp0, hkhash, hhash]
  by_cases hrk : r.1 = k
  · have hkb : k.bytesZ.take (ut32 (k.length + 1)) = k.bytesZ := by
      have hk := hfits.1
      rw [hrk, sdbMaxKey] at hk
      rw [ut32_of_lt (by omega), ← CStr.length_bytesZ, List.take_length]
    rw [if_pos (by simpa using hrk), if_pos (by rw [hrk]), hrec.getkvlen hc hfits]
    simp only [hkb]
    rw [if_neg (Nat.succ_ne_zero _), if_pos (by rw [hrk, CStr.length_bytesZ]), hpos4,
      cdbMatch_over hc hf (Nat.le_refl _)
        (by rw [CStr.length_bytesZ, ← hrk, kvlsz]; omega),
      if_pos (by rw [CStr.length_bytesZ, ← hrk]; exact hrec.slice_key)]
    refine ⟨rfl, ?_, ?_⟩
    · change ut32 _ = _
      rw [CStr.length_bytesZ, ut32_of_lt]
      rw [← hrk, kvlsz]
      omega
    · rw [hrec.getkvlen hc hfits, hrk]
      rfl
  · rw [if_neg (by simpa using hrk)]
    split
    · rw [hrec.getkvlen hc hfits]
      simp only
      rw [if_neg (Nat.succ_ne_zero _)]
      split
      · next hlen =>
          -- the lengths agree, so the bytes compared are the record's key
          rw [hpos4, cdbMatch_over hc hf (Nat.le_refl _) (by rw [← hlen, kvlsz]; omega), ← hlen,
            hrec.slice_key, if_neg (fun he ↦ hrk (CStr.take_bytesZ_eq he.symm).symm)]
          exact hnext _ hkhash.symm rfl rfl rfl
      · exact hnext _ hkhash.symm rfl rfl rfl
    · exact hnext _ hkhash.symm rfl rfl rfl

/-- The loop of `cdb_findnext` stops at the first hit before a free slot. -/
theorem cdbFindLoop_eq {c : Cdb} {f : Bytes} (hc : c.Over f) (hf : f.length < 4294967296)
    (k : CStr) {T : List CdbHp} {hpos : Nat}
    (hslot : ∀ (j : Nat) (hj : j < T.length), slice f (hpos + 8 * j) 8 = cdbSlotBytes T[j])
    (hend : hpos + 8 * T.length ≤ f.length)
    (hT : ∀ hp ∈ T, cdbFree hp = false → SlotOk f hp) :
    ∀ (R : List CdbHp) {i : Nat} {t : CdbFind}, i < T.length → R <+: T.rotate i →
      t.khash = sdbHash k → t.hpos = hpos → t.hslots = T.length → t.kpos = hpos + 8 * i →
      Sought c k ((R.takeWhile fun hp ↦ !cdbFree hp).find? (cdbHit f k))
        (cdbFindLoop c (k.bytesZ.take (ut32 (k.length + 1))) R.length t) := by
  intro R
  induction R with
  | nil => exact fun _ _ _ _ _ _ ↦ rfl
  | cons a R ih =>
      intro i t hi hR hkhash hhpos hhslots hkpos
      obtain ⟨rfl, hR'⟩ := prefix_rotate_next hi hR
      have hok := hT T[i] (List.getElem_mem hi)
      have hread : cdbRead c 8 t.kpos = some (cdbSlotBytes T[i]) := by
        rw [hkpos, cdbRead_over hc (by omega), hslot i hi]
      cases hfree : cdbFree T[i] with
      | true =>
          have hp0 : unle32 ((cdbSlotBytes T[i]).drop 4) = 0 := by
            have hp : T[i].p = 0 := by simpa [cdbFree] using hfree
            change unle32 (le32 T[i].p) = 0
            rw [hp]
            rfl
          rw [List.takeWhile_cons_of_neg (by simp [hfree]), List.length_cons, cdbFindLoop, hread]
          dsimp only
          rw [if_pos hp0]
          rfl
      | false =>
          rw [List.takeWhile_cons_of_pos (by simp [hfree]), List.find?_cons, List.length_cons]
          have hstep := cdbFindLoop_occupied hc hf k (n := R.length) hread hfree
            (hok hfree) hkhash fun t' h₁ h₂ h₃ h₄ ↦ ih ?_ hR' (h₁.trans hkhash) (h₂.trans hhpos)
              (h₃.trans hhslots) ?_
          · cases hhit : cdbHit f k T[i] with
            | true => rwa [hhit] at hstep
            | false => rwa [hhit] at hstep
          · split
            · exact Nat.lt_of_le_of_lt (Nat.zero_le i) hi
            · omega
          · rw [h₄, hkpos, hhpos, hhslots, ut32_of_lt (by omega), ut32_of_lt (by omega)]
            split
            · rw [if_pos (by omega)]
              omega
            · rw [if_neg (by omega)]
              omega

/-! ## Searching an image -/

theorem exists_of_mem_hpsFrom {recs : List CdbRec} {pos : Nat} {hp : CdbHp}
    (h : hp ∈ hpsFrom pos recs) : ∃ pre r post, recs = pre ++ r :: post ∧
      hp = ⟨sdbHash r.1, pos + (cdbBody pre).length⟩ := by
  induction recs generalizing pos with
  | nil => exact absurd h (by simp [hpsFrom])
  | cons r recs ih =>
      rcases List.mem_cons.mp h with rfl | h
      · exact ⟨[], r, recs, rfl, rfl⟩
      · obtain ⟨pre, r', post, rfl, rfl⟩ := ih h
        refine ⟨r :: pre, r', post, rfl, ?_⟩
        rw [cdbBody, cdbBody, List.flatMap_cons, List.length_append, Nat.add_assoc]

theorem recAt_image (pre : List CdbRec) (r : CdbRec) (post : List CdbRec) :
    RecAt (cdbImage (pre ++ r :: post)) (cdbFinalSize + (cdbBody pre).length) r := by
  obtain ⟨A, B, hf, hA⟩ := cdbImage_split pre r post
  exact ⟨A, B, hf, hA⟩

theorem slotOk_of_mem_cdbTable {recs : List CdbRec} (hfit : Fitting recs) {i : Nat} {hp : CdbHp}
    (h : hp ∈ cdbTable recs i) (hfree : cdbFree hp = false) : SlotOk (cdbImage recs) hp := by
  have hmem : hp ∈ cdbBucket recs i :=
    (build_cdbTable recs i).2.2.perm.mem_iff.mp (List.mem_filter.mpr ⟨h, by simp [hfree]⟩)
  obtain ⟨pre, r, post, rfl, rfl⟩ := exists_of_mem_hpsFrom (List.mem_filter.mp hmem).1
  exact ⟨r, hfit.fits r (by simp), rfl, recAt_image pre r post⟩

/-- The slot in `o` is that of the record in `r`. -/
def Leads (f : Bytes) : Option CdbRec → Option CdbHp → Prop
  | none, o => o = none
  | some r, o => ∃ hp, o = some hp ∧ RecAt f hp.p r

/-- Among all pairs, the first hit is the pair of the first record with the key. -/
theorem leads_find? (pre post : List CdbRec) (k : CStr) :
    Leads (cdbImage (pre ++ post)) (Keyed.lookup Prod.fst post k)
      ((hpsFrom (cdbFinalSize + (cdbBody pre).length) post).find?
        (cdbHit (cdbImage (pre ++ post)) k)) := by
  induction post generalizing pre with
  | nil => rfl
  | cons r post ih =>
      have hrec := recAt_image pre r post
      rw [Keyed.lookup, List.find?_cons, hpsFrom, List.find?_cons, cdbHit, hrec.keyAt]
      by_cases hrk : r.1 = k
      · simp only [hrk, decide_true, beq_self_eq_true, Bool.and_self]
        exact ⟨_, rfl, hrec⟩
      · simp only [hrk, decide_false, Bool.and_false]
        have h := ih (pre ++ [r])
        rw [List.append_assoc, length_cdbBody_append_singleton, ← Nat.add_assoc] at h
        exact h

/-- The two positions that the header gives for table `i`: where it begins and where
the next one does, which for the last table is the size of the file. -/
theorem cdbRead_header {recs : List CdbRec} (hfit : Fitting recs) {c : Cdb}
    (hc : c.Over (cdbImage recs)) (u : Nat) :
    ∃ buf, cdbRead c (if (u + 1) % 256 = 0 then 4 else 8) (u % 256 * 4) = some buf ∧
      unle32 buf = cdbTablePos recs (u % 256) ∧
      (if (if (u + 1) % 256 = 0 then 4 else 8) = 8 then unle32 (buf.drop 4) else c.size) =
        cdbTablePos recs (u % 256 + 1) := by
  have hi : u % 256 < 256 := Nat.mod_lt _ (by decide)
  have hsize := hfit.size
  have hbody := length_cdbBody_le recs
  have hmono := cdbTablePos_mono recs (Nat.le_of_lt hi)
  rw [length_cdbImage, cdbFinalSize] at hbody
  rw [length_cdbImage] at hsize
  have hhead := slice_header recs hi
  rw [Nat.mul_comm] at hhead
  by_cases hlast : (u + 1) % 256 = 0
  · have h255 : u % 256 + 1 = 256 := by omega
    refine ⟨le32 (cdbTablePos recs (u % 256)), ?_, unle32_le32 (by omega), ?_⟩
    · rw [if_pos hlast, cdbRead_over hc (by rw [length_cdbImage]; omega), hhead]
    · rw [if_pos hlast, if_neg (by decide), hc.size, length_cdbImage, h255]
  · have hmono' := cdbTablePos_mono recs (show u % 256 + 1 ≤ 256 by omega)
    have hnext := slice_header recs (show u % 256 + 1 < 256 by omega)
    rw [show 4 * (u % 256 + 1) = u % 256 * 4 + 4 by omega] at hnext
    refine ⟨le32 (cdbTablePos recs (u % 256)) ++ le32 (cdbTablePos recs (u % 256 + 1)), ?_,
      unle32_le32_append (by omega) _, ?_⟩
    · rw [if_neg hlast, cdbRead_over hc (by rw [length_cdbImage]; omega), slice_add _ _ 4 4, hhead,
        hnext]
    · rw [if_neg hlast, if_pos rfl]
      exact unle32_le32 (by omega)

/-- The search goes along the walk from the home of the key. -/
theorem cdbFindnext_table {recs : List CdbRec} (hfit : Fitting recs) {c : Cdb}
    (hc : c.Over (cdbImage recs)) (t : CdbFind) (k : CStr) :
    Sought c k ((Probe.walk cdbFree (cdbTable recs (sdbHash k % 256))
        (sdbHash k / 256 % (cdbTable recs (sdbHash k % 256)).length)).find?
      (cdbHit (cdbImage recs) k)) (cdbFindnext c (cdbFindstart t) (sdbHash k) k) := by
  let T := cdbTable recs (sdbHash k % 256)
  have hi : sdbHash k % 256 < 256 := Nat.mod_lt _ (by decide)
  obtain ⟨buf, hread, hpos, hnext⟩ := cdbRead_header hfit hc (sdbHash k)
  have hsucc := cdbTablePos_succ recs (sdbHash k % 256)
  have hmono := cdbTablePos_mono recs (show sdbHash k % 256 + 1 ≤ 256 from hi)
  have hlen := length_cdbImage recs
  have hsize := hfit.size
  have hslots : (cdbTablePos recs (sdbHash k % 256 + 1) - cdbTablePos recs (sdbHash k % 256)) / 8 =
      T.length := by
    rw [hsucc, Nat.add_sub_cancel_left, Nat.mul_div_cancel_left _ (by decide)]
  rw [cdbFindnext, hc.fd]
  simp only [cdbFindstart, if_true, hread, hpos, hnext, hslots]
  rw [if_neg (by omega)]
  split
  · next hnil =>
      have hT : cdbTable recs (sdbHash k % 256) = [] := List.eq_nil_of_length_eq_zero hnil
      rw [hT]
      rfl
  · next hne =>
      have hhome : sdbHash k / 256 % T.length < T.length := Nat.mod_lt _ (Nat.pos_of_ne_zero hne)
      have hend : cdbTablePos recs (sdbHash k % 256) + 8 * T.length ≤ (cdbImage recs).length := by
        rw [← hsucc, hlen]
        exact hmono
      have hloop := fun t ↦ cdbFindLoop_eq (t := t) hc hsize k
          (fun j hj ↦ slice_slot recs hi hj) hend
        (fun hp hmem hfree ↦ slotOk_of_mem_cdbTable hfit hmem hfree)
        (T.rotate (sdbHash k / 256 % T.length)) hhome (List.prefix_refl _)
      rw [List.length_rotate] at hloop
      refine hloop _ rfl rfl rfl ?_
      change ut32 _ = _
      rw [Nat.mul_comm, ut32_of_lt (by omega)]

/-- The walk from the home of a key shows the same first hit as all pairs do. -/
theorem find?_walk_cdbTable (recs : List CdbRec) (f : Bytes) (k : CStr) :
    (Probe.walk cdbFree (cdbTable recs (sdbHash k % 256))
        (sdbHash k / 256 % (cdbTable recs (sdbHash k % 256)).length)).find? (cdbHit f k) =
      (hpsFrom cdbFinalSize recs).find? (cdbHit f k) := by
  obtain ⟨-, hlen, hprobed⟩ := build_cdbTable recs (sdbHash k % 256)
  have hhit : ∀ hp, cdbHit f k hp = true → hp.h = sdbHash k := fun hp h ↦ by
    simpa using (Bool.and_eq_true_iff.mp h).1
  have hbucket : (cdbBucket recs (sdbHash k % 256)).find? (cdbHit f k) =
      (hpsFrom cdbFinalSize recs).find? (cdbHit f k) := by
    rw [cdbBucket, Bucket.bucket, List.find?_filter]
    congr 1
    funext hp
    cases h : cdbHit f k hp with
    | false => simp
    | true => simp [cdbBucketOf, hhit hp h]
  rw [← hbucket]
  by_cases hnil : (cdbBucket recs (sdbHash k % 256)).length = 0
  · rw [List.eq_nil_of_length_eq_zero (by omega : (cdbTable recs (sdbHash k % 256)).length = 0),
      List.eq_nil_of_length_eq_zero hnil]
    rfl
  · rw [hlen]
    refine hprobed.find?_walk (by rw [hlen]; exact Nat.mod_lt _ (by omega)) fun hp h ↦ ?_
    rw [cdbHome, hhit hp h]

/-- **Searching a written file**: `cdb_findnext` finds the first record with the key,
and returns 0 when there is none. -/
theorem cdbFindnext_image {recs : List CdbRec} (hfit : Fitting recs) {c : Cdb}
    (hc : c.Over (cdbImage recs)) (t : CdbFind) (k : CStr) :
    let res := cdbFindnext c (cdbFindstart t) (sdbHash k) k
    match Keyed.lookup Prod.fst recs k with
    | none => res.1 = 0
    | some r => res.1 = 1 ∧ res.2.dlen = r.2.length + 1 ∧
        slice (cdbImage recs) res.2.dpos res.2.dlen = r.2 ++ [0] := by
  intro res
  have hsought := cdbFindnext_table hfit hc t k
  have hleads := leads_find? [] recs k
  rw [List.nil_append] at hleads
  rw [find?_walk_cdbTable] at hsought
  cases hl : Keyed.lookup Prod.fst recs k with
  | none =>
      rw [hl] at hleads
      have hnone : (hpsFrom cdbFinalSize recs).find? (cdbHit (cdbImage recs) k) = none := hleads
      rw [hnone] at hsought
      exact hsought
  | some r =>
      rw [hl] at hleads
      obtain ⟨hr, rfl⟩ := Keyed.lookup_some_mem hl
      obtain ⟨hp, hsome, hrec⟩ := hleads
      have hsome : (hpsFrom cdbFinalSize recs).find? (cdbHit (cdbImage recs) r.1) = some hp := hsome
      rw [hsome] at hsought
      obtain ⟨hone, hdpos, hdlen⟩ := hsought
      have hlen : res.2.dlen = r.2.length + 1 := by
        rw [hrec.getkvlen hc (hfit.fits r hr)] at hdlen
        exact (Prod.mk.inj (Option.some.inj hdlen)).2.symm
      refine ⟨hone, hlen, ?_⟩
      rw [hlen, hdpos]
      exact hrec.slice_data

theorem cdbInit_image {recs : List CdbRec} (hfit : Fitting recs) :
    (cdbInit (some (cdbImage recs))).1 = true ∧
      (cdbInit (some (cdbImage recs))).2.Over (cdbImage recs) := by
  have hle := length_cdbBody_le recs
  rw [cdbFinalSize] at hle
  rw [cdbInit, if_pos (by omega)]
  exact ⟨rfl, rfl, rfl, ut32_of_lt hfit.size⟩

/-- What stands at a position of a file is one record only. -/
theorem RecAt.unique {f : Bytes} {pos : Nat} {r r' : CdbRec} (h : RecAt f pos r)
    (h' : RecAt f pos r') (hr : r.Fits) (hr' : r'.Fits) : r = r' := by
  have hc : Cdb.Over ⟨some f, some f, f.length⟩ f := ⟨rfl, rfl, rfl⟩
  have hlen := (h.getkvlen hc hr).symm.trans (h'.getkvlen hc hr')
  simp only [Option.some.injEq, Prod.mk.injEq, Nat.add_right_cancel_iff] at hlen
  have hkey : r.1 = r'.1 := h.keyAt.symm.trans h'.keyAt
  have hdata := h.slice_data
  rw [hlen.1, hlen.2, h'.slice_data, List.append_cancel_right_eq] at hdata
  exact Prod.ext hkey hdata.symm

theorem cdbTablePos_zero (recs : List CdbRec) :
    cdbTablePos recs 0 = cdbFinalSize + (cdbBody recs).length := by
  rw [cdbTablePos, cdbSlots]
  rfl

/-- A file holds one list of records only. -/
theorem cdbImage_injective {recs recs' : List CdbRec} (hfit : Fitting recs) (hfit' : Fitting recs')
    (h : cdbImage recs = cdbImage recs') : recs = recs' := by
  have hbody : (cdbBody recs).length = (cdbBody recs').length := by
    have hle := length_cdbBody_le recs
    have hle' := length_cdbBody_le recs'
    have hsize := hfit.size
    have hsize' := hfit'.size
    have hpos := slice_header recs (i := 0) (by decide)
    rw [h, slice_header recs' (by decide), cdbTablePos_zero, cdbTablePos_zero] at hpos
    have hun := congrArg unle32 hpos
    rw [unle32_le32 (by omega), unle32_le32 (by omega)] at hun
    omega
  -- the records are compared one by one from the first
  have key : ∀ (post pre post' : List CdbRec), recs = pre ++ post → recs' = pre ++ post' →
      post = post' := by
    intro post
    induction post with
    | nil =>
        rintro pre (_ | ⟨r, post'⟩) hrecs hrecs'
        · rfl
        · simp only [hrecs, hrecs', length_cdbBody, List.map_append, List.map_cons, List.map_nil,
            List.sum_append, List.sum_cons, List.sum_nil] at hbody
          omega
    | cons r post ih =>
        rintro pre (_ | ⟨r', post'⟩) hrecs hrecs'
        · simp only [hrecs, hrecs', length_cdbBody, List.map_append, List.map_cons, List.map_nil,
            List.sum_append, List.sum_cons, List.sum_nil] at hbody
          omega
        · have hat := recAt_image pre r post
          have hat' := recAt_image pre r' post'
          rw [← hrecs, h] at hat
          rw [← hrecs'] at hat'
          obtain rfl := hat.unique hat' (hfit.fits r (by simp [hrecs]))
            (hfit'.fits r' (by simp [hrecs']))
          rw [ih (pre ++ [r]) post' (by simp [hrecs]) (by simp [hrecs'])]
  exact key recs [] recs' rfl rfl

/-- **Round trip.**  Writing a file never hangs; and in the file it leaves when it
ends well, a search that is started anew finds exactly the keys that were added, each
with the value of its first record. -/
theorem cdbMakeFile_cdbFindnext (fd : CStr) (recs : List (CStr × CStr)) (w : World) :
    (∀ w', cdbMakeFile fd (recs.map fun r ↦ (r.1, r.2.val)) w ≠ .error .spin w') ∧
    ∀ w', cdbMakeFile fd (recs.map fun r ↦ (r.1, r.2.val)) w = .ok () w' →
      ∃ file, w'.fs fd = some file ∧ ∀ (t : CdbFind) (k : CStr),
        let res := cdbFindnext (cdbInit (some file)).2 (cdbFindstart t) (sdbHash k) k
        (res.1 = 1 ↔ ∃ r ∈ recs, r.1 = k) ∧
        (∀ pre v post, recs = pre ++ (k, v) :: post → (∀ r ∈ pre, r.1 ≠ k) →
          res.2.dlen = v.length + 1 ∧ slice file res.2.dpos res.2.dlen = v.bytesZ) ∧
        ((∀ r ∈ recs, r.1 ≠ k) → res.1 = 0) := by
  have hends := cdbMakeFile_ends fd (recs.map fun r ↦ (r.1, r.2.val)) w
  constructor
  · intro w' h
    rcases hends.of_error h with h | ⟨h, -⟩
    · exact absurd h (by decide)
    · exact absurd h (by decide)
  · intro w' h
    obtain ⟨hfs, hfit, -⟩ := hends.of_ok h
    refine ⟨_, hfs, fun t k ↦ ?_⟩
    intro res
    have hfind := cdbFindnext_image hfit (cdbInit_image hfit).2 t k
    rw [Keyed.lookup, List.find?_map] at hfind
    cases hl : recs.find? ((fun e : CdbRec ↦ decide (e.1 = k)) ∘ fun r ↦ (r.1, r.2.val)) with
    | none =>
        rw [hl] at hfind
        have hfind : res.1 = 0 := hfind
        have hnone : ∀ r ∈ recs, r.1 ≠ k := fun r hr ↦ by
          simpa using List.find?_eq_none.mp hl r hr
        refine ⟨?_, ?_, fun _ ↦ hfind⟩
        · constructor
          · exact fun h1 ↦ absurd (hfind.symm.trans h1) (by decide)
          · rintro ⟨r, hr, hrk⟩
            exact absurd hrk (hnone r hr)
        · rintro pre v post rfl -
          exact absurd rfl (hnone (k, v) (by simp))
    | some r =>
        rw [hl] at hfind
        obtain ⟨hone, hlen, hslice⟩ := hfind
        obtain ⟨hrk, pre, post, hrecs, hpre⟩ := List.find?_eq_some_iff_append.mp hl
        have hrk : r.1 = k := by simpa using hrk
        have hmem : r ∈ recs := List.mem_of_find?_eq_some hl
        refine ⟨⟨fun _ ↦ ⟨r, hmem, hrk⟩, fun _ ↦ hone⟩, ?_, fun hno ↦ absurd hrk (hno r hmem)⟩
        rintro pre' v post' rfl hpre'
        have hv : (pre' ++ (k, v) :: post').find?
            ((fun e : CdbRec ↦ decide (e.1 = k)) ∘ fun r ↦ (r.1, r.2.val)) = some (k, v) := by
          rw [List.find?_append, List.find?_eq_none.mpr fun r hr ↦ by simpa using hpre' r hr]
          simp
        obtain rfl : r = (k, v) := Option.some.inj (hl.symm.trans hv)
        exact ⟨hlen, hslice⟩

/-- Three records, two of them with the key `a`. -/
theorem cdbMakeFile_cdbFindnext_three : ∃ w' file,
    let recs := [(CStr.ofBytes [97], CStr.ofBytes [49]), (CStr.ofBytes [98], CStr.empty),
      (CStr.ofBytes [97], CStr.ofBytes [50])]
    cdbMakeFile CStr.empty (recs.map fun r ↦ (r.1, r.2.val)) .empty = .ok () w' ∧
      w'.fs CStr.empty = some file ∧ ∀ t,
      let res := cdbFindnext (cdbInit (some file)).2 (cdbFindstart t)
        (sdbHash (CStr.ofBytes [97])) (CStr.ofBytes [97])
      res.1 = 1 ∧ slice file res.2.dpos res.2.dlen = (CStr.ofBytes [49]).bytesZ := by
  have hfit : Fitting ([(CStr.ofBytes [97], CStr.ofBytes [49]), (CStr.ofBytes [98], CStr.empty),
      (CStr.ofBytes [97], CStr.ofBytes [50])].map fun r ↦ (r.1, r.2.val)) :=
    ⟨by decide, by rw [length_cdbImage_eq]; decide⟩
  obtain ⟨w', hw'⟩ := cdbMakeFile_eq_ok hfit (cdbRoom_of_length (by decide)) CStr.empty
    (w := .empty) fun _ ↦ rfl
  obtain ⟨file, hfile, hfind⟩ := (cdbMakeFile_cdbFindnext CStr.empty _ .empty).2 w' hw'
  refine ⟨w', file, hw', hfile, fun t ↦ ⟨(hfind t _).1.mpr ⟨_, List.mem_cons_self, rfl⟩, ?_⟩⟩
  exact ((hfind t _).2.1 [] _ _ rfl (by simp)).2

end SdbStore
