import Mathlib.Order.Lattice.Nat
import Mathlib.Data.Finset.Lattice.Fold
import SdbStore.Cdb.Make

/-!
# The bytes of a CDB file

`cdbImage recs` is the file that stands for a list of records, written down as a
function of the records alone.  The main results of this file connect it with the
code: `Made` is the invariant that `cdb_make_add` keeps, and when `cdb_make_finish`
returns 1 the file is the image of the records that were added.  The only other ways
to end are a failed system call and a limit that is exceeded: the probing loops end.
-/

namespace SdbStore

open Lib

/-- A record: key and data. -/
abbrev CdbRec := CStr × Bytes

/-- What `pack_kvlen` accepts. -/
def CdbRec.Fits (r : CdbRec) : Prop := r.1.length + 1 ≤ sdbMaxKey ∧ r.2.length + 1 < sdbMaxValue

instance (r : CdbRec) : Decidable r.Fits := inferInstanceAs (Decidable (_ ∧ _))

/-- The bytes of a record. -/
def recBytes (r : CdbRec) : Bytes :=
  kvlenBytes (r.1.length + 1) (r.2.length + 1) ++ (r.1.bytesZ ++ (r.2 ++ [0]))

/-- The section of the records. -/
def cdbBody (recs : List CdbRec) : Bytes := recs.flatMap recBytes

/-- The hashes and positions of records that begin at `pos`. -/
def hpsFrom (pos : Nat) : List CdbRec → List CdbHp
  | [] => []
  | r :: recs => ⟨sdbHash r.1, pos⟩ :: hpsFrom (pos + (recBytes r).length) recs

/-- The pairs of table `i`, in the order of the records. -/
def cdbBucket (recs : List CdbRec) (i : Nat) : List CdbHp :=
  Bucket.bucket cdbBucketOf (hpsFrom cdbFinalSize recs) i

/-- Hash table `i`. -/
def cdbTable (recs : List CdbRec) (i : Nat) : List CdbHp :=
  let len := (cdbBucket recs i).length * 2
  (Probe.build cdbFree (cdbHome len) ⟨0, 0⟩ len (cdbBucket recs i)).getD []

/-- The slots of the tables before table `i`. -/
def cdbSlots (recs : List CdbRec) (i : Nat) : List CdbHp :=
  (List.range i).flatMap (cdbTable recs)

/-- Where table `i` begins; the position of table 256 is the end of the file. -/
def cdbTablePos (recs : List CdbRec) (i : Nat) : Nat :=
  cdbFinalSize + (cdbBody recs).length + 8 * (cdbSlots recs i).length

/-- The positions of the first `i` tables. -/
def cdbHeader (recs : List CdbRec) (i : Nat) : Bytes :=
  (List.range i).flatMap fun j ↦ le32 (cdbTablePos recs j)

/-- The file that holds `recs`. -/
def cdbImage (recs : List CdbRec) : Bytes :=
  cdbHeader recs 256 ++ (cdbBody recs ++ (cdbSlots recs 256).flatMap cdbSlotBytes)

/-! ## Sizes -/

theorem length_recBytes (r : CdbRec) : (recBytes r).length = 6 + r.1.length + r.2.length := by
  simp only [recBytes, kvlenBytes, List.length_append, List.length_cons, List.length_nil,
    CStr.length_bytesZ]
  omega

theorem length_cdbSlotBytes (hp : CdbHp) : (cdbSlotBytes hp).length = 8 := rfl

theorem length_cdbBody (recs : List CdbRec) :
    (cdbBody recs).length = (recs.map fun r ↦ 6 + r.1.length + r.2.length).sum := by
  rw [cdbBody, List.length_flatMap]
  simp only [length_recBytes]

theorem cdbBody_append (recs recs' : List CdbRec) :
    cdbBody (recs ++ recs') = cdbBody recs ++ cdbBody recs' := List.flatMap_append

theorem length_cdbBody_append_singleton (recs : List CdbRec) (r : CdbRec) :
    (cdbBody (recs ++ [r])).length = (cdbBody recs).length + (recBytes r).length := by
  rw [cdbBody_append, List.length_append]
  simp [cdbBody]

theorem hpsFrom_append (recs recs' : List CdbRec) (pos : Nat) :
    hpsFrom pos (recs ++ recs') =
      hpsFrom pos recs ++ hpsFrom (pos + (cdbBody recs).length) recs' := by
  induction recs generalizing pos with
  | nil => rfl
  | cons r recs ih =>
      rw [List.cons_append, hpsFrom, ih, hpsFrom, List.cons_append]
      congr 3
      rw [cdbBody, cdbBody, List.flatMap_cons, List.length_append]
      omega

theorem length_hpsFrom (recs : List CdbRec) (pos : Nat) :
    (hpsFrom pos recs).length = recs.length := by
  induction recs generalizing pos with
  | nil => rfl
  | cons r recs ih => rw [hpsFrom, List.length_cons, ih, List.length_cons]

theorem pos_le_of_mem_hpsFrom {recs : List CdbRec} {pos : Nat} {hp : CdbHp}
    (h : hp ∈ hpsFrom pos recs) : pos ≤ hp.p := by
  induction recs generalizing pos with
  | nil => exact absurd h (by simp [hpsFrom])
  | cons r recs ih =>
      rcases List.mem_cons.mp h with rfl | h
      · exact Nat.le_refl _
      · exact Nat.le_trans (Nat.le_add_right _ _) (ih h)

theorem length_cdbBucket_le (recs : List CdbRec) (i : Nat) :
    (cdbBucket recs i).length ≤ recs.length := by
  rw [← length_hpsFrom recs cdbFinalSize]
  exact List.length_filter_le _ _

/-- Every pair of a bucket occupies a slot and has its home in the table. -/
theorem of_mem_cdbBucket {recs : List CdbRec} {i : Nat} {hp : CdbHp} (h : hp ∈ cdbBucket recs i) :
    cdbFree hp = false ∧
      cdbHome ((cdbBucket recs i).length * 2) hp < (cdbBucket recs i).length * 2 ∧
        cdbBucketOf hp = i := by
  have hlen := List.length_pos_of_mem h
  have hmem := List.mem_filter.mp h
  have hpos := pos_le_of_mem_hpsFrom hmem.1
  refine ⟨?_, Nat.mod_lt _ (by omega), by simpa using hmem.2⟩
  simp only [cdbFree, beq_eq_false_iff_ne, ne_eq]
  simp only [cdbFinalSize] at hpos
  omega

/-- The table is built: there is a free slot whenever one is looked for. -/
theorem build_cdbTable (recs : List CdbRec) (i : Nat) :
    Probe.build cdbFree (cdbHome ((cdbBucket recs i).length * 2)) ⟨0, 0⟩
        ((cdbBucket recs i).length * 2) (cdbBucket recs i) = some (cdbTable recs i) ∧
      (cdbTable recs i).length = (cdbBucket recs i).length * 2 ∧
      Probe.Probed cdbFree (cdbHome ((cdbBucket recs i).length * 2)) (cdbTable recs i)
        (cdbBucket recs i) := by
  have hfree : cdbFree ⟨0, 0⟩ = true := rfl
  obtain ⟨T, hT, hlen, hp⟩ := Probe.build_probed hfree
    (Nat.le_mul_of_pos_right (cdbBucket recs i).length (by decide : 0 < 2))
    fun e he ↦ ⟨(of_mem_cdbBucket he).1, (of_mem_cdbBucket he).2.1⟩
  have hTi : cdbTable recs i = T := by
    simp only [cdbTable]
    rw [hT]
    rfl
  rw [hTi]
  exact ⟨hT, hlen, hp⟩

theorem length_cdbTable (recs : List CdbRec) (i : Nat) :
    (cdbTable recs i).length = (cdbBucket recs i).length * 2 := (build_cdbTable recs i).2.1

theorem cdbSlots_succ (recs : List CdbRec) (i : Nat) :
    cdbSlots recs (i + 1) = cdbSlots recs i ++ cdbTable recs i := by
  simp [cdbSlots, List.range_succ]

theorem cdbTablePos_succ (recs : List CdbRec) (i : Nat) :
    cdbTablePos recs (i + 1) = cdbTablePos recs i + 8 * (cdbTable recs i).length := by
  rw [cdbTablePos, cdbSlots_succ, List.length_append, cdbTablePos]
  omega

theorem cdbTablePos_mono (recs : List CdbRec) {i j : Nat} (h : i ≤ j) :
    cdbTablePos recs i ≤ cdbTablePos recs j := by
  induction h with
  | refl => exact Nat.le_refl _
  | step _ ih =>
      rw [cdbTablePos_succ]
      exact Nat.le_trans ih (Nat.le_add_right _ _)

theorem cdbHeader_succ (recs : List CdbRec) (i : Nat) :
    cdbHeader recs (i + 1) = cdbHeader recs i ++ le32 (cdbTablePos recs i) := by
  simp [cdbHeader, List.range_succ]

theorem length_cdbHeader (recs : List CdbRec) (i : Nat) : (cdbHeader recs i).length = 4 * i := by
  rw [cdbHeader, length_flatMap_const _ (fun _ ↦ length_le32 _), List.length_range]

theorem length_cdbImage (recs : List CdbRec) : (cdbImage recs).length = cdbTablePos recs 256 := by
  rw [cdbImage, List.length_append, List.length_append, length_cdbHeader,
    length_flatMap_const _ length_cdbSlotBytes, cdbTablePos, cdbFinalSize]
  omega

theorem length_cdbSlots (recs : List CdbRec) : (cdbSlots recs 256).length = 2 * recs.length := by
  have hslots : ∀ i, (cdbSlots recs i).length =
      2 * Bucket.first (fun j ↦ (cdbBucket recs j).length) i := by
    intro i
    induction i with
    | zero => rfl
    | succ i ih =>
        rw [cdbSlots_succ, List.length_append, ih, length_cdbTable, Bucket.first_succ]
        omega
  have hcount : (hpsFrom cdbFinalSize recs).countP (fun hp ↦ decide (cdbBucketOf hp < 256)) =
      (hpsFrom cdbFinalSize recs).length :=
    List.countP_eq_length.mpr fun hp _ ↦ decide_eq_true (Nat.mod_lt hp.h (by decide))
  rw [hslots]
  simp only [cdbBucket]
  rw [Bucket.first_length_bucket, hcount, length_hpsFrom]

/-- The size of a file: the header, the records, and two slots for each record. -/
theorem length_cdbImage_eq (recs : List CdbRec) :
    (cdbImage recs).length = cdbFinalSize + (cdbBody recs).length + 16 * recs.length := by
  rw [length_cdbImage, cdbTablePos, length_cdbSlots]
  omega

/-! ## The order of the records

It makes no difference to where the tables begin. -/

theorem length_cdbBucket (recs : List CdbRec) (i : Nat) :
    (cdbBucket recs i).length = recs.countP fun r ↦ sdbHash r.1 % 256 == i := by
  have h : ∀ pos, (Bucket.bucket cdbBucketOf (hpsFrom pos recs) i).length =
      recs.countP fun r ↦ sdbHash r.1 % 256 == i := by
    induction recs with
    | nil => exact fun _ ↦ rfl
    | cons r recs ih =>
        intro pos
        rw [List.countP_cons, ← ih (pos + (recBytes r).length), hpsFrom, Bucket.bucket,
          Bucket.bucket, List.filter_cons, cdbBucketOf]
        split
        · rfl
        · rfl
  exact h cdbFinalSize

theorem cdbTablePos_perm {recs recs' : List CdbRec} (h : recs.Perm recs') (i : Nat) :
    cdbTablePos recs i = cdbTablePos recs' i := by
  induction i with
  | zero =>
      rw [cdbTablePos, cdbTablePos, cdbBody, cdbBody, (h.flatMap_right recBytes).length_eq]
      rfl
  | succ i ih =>
      rw [cdbTablePos_succ, cdbTablePos_succ, ih, length_cdbTable, length_cdbTable,
        length_cdbBucket, length_cdbBucket, h.countP_eq]

theorem cdbHeader_perm {recs recs' : List CdbRec} (h : recs.Perm recs') (i : Nat) :
    cdbHeader recs i = cdbHeader recs' i := by
  simp only [cdbHeader, cdbTablePos_perm h]

/-! ## The memory of the tables -/

/-- `c->memsize`: the slots of the largest table. -/
def cdbMemsize (recs : List CdbRec) : Nat :=
  max 1 ((Finset.range 256).sup fun i ↦ (cdbBucket recs i).length * 2)

/-- The limit on the memory for the tables. -/
def cdbRoom (recs : List CdbRec) : Prop :=
  cdbMemsize recs + recs.length ≤ 4294967295 / 8

theorem cdbBucket_append_singleton (recs : List CdbRec) (r : CdbRec) (i : Nat) :
    (cdbBucket (recs ++ [r]) i).length =
      (cdbBucket recs i).length + if i = sdbHash r.1 % 256 then 1 else 0 := by
  rw [cdbBucket, hpsFrom_append, Bucket.bucket, List.filter_append, List.length_append]
  congr 1
  simp only [hpsFrom, cdbBucketOf, List.filter_cons, List.filter_nil, beq_iff_eq]
  split
  · next h => rw [if_pos h.symm]; rfl
  · next h => rw [if_neg (Ne.symm h)]; rfl

/-- Only the table of the new record grows. -/
theorem cdbMemsize_append_singleton (recs : List CdbRec) (r : CdbRec) :
    cdbMemsize (recs ++ [r]) =
      max (cdbMemsize recs) ((cdbBucket (recs ++ [r]) (sdbHash r.1 % 256)).length * 2) := by
  have hle : ∀ i, (cdbBucket recs i).length * 2 ≤ (cdbBucket (recs ++ [r]) i).length * 2 := by
    intro i
    rw [cdbBucket_append_singleton]
    omega
  apply Nat.le_antisymm
  · refine max_le (le_max_of_le_left (le_max_left _ _)) (Finset.sup_le fun i hi ↦ ?_)
    by_cases h : i = sdbHash r.1 % 256
    · rw [h]
      exact le_max_right _ _
    · rw [cdbBucket_append_singleton, if_neg h]
      refine le_max_of_le_left (le_max_of_le_right ?_)
      exact Finset.le_sup (f := fun i ↦ (cdbBucket recs i).length * 2) hi
  · refine max_le (max_le_max (Nat.le_refl 1) (Finset.sup_mono_fun fun i _ ↦ hle i))
      (le_max_of_le_right ?_)
    exact Finset.le_sup (f := fun i ↦ (cdbBucket (recs ++ [r]) i).length * 2)
      (Finset.mem_range.mpr (Nat.mod_lt _ (by decide)))

/-- A bound on the number of records that is always enough. -/
theorem cdbRoom_of_length {recs : List CdbRec} (h : 3 * recs.length ≤ 536870911) :
    cdbRoom recs := by
  have hsup : ((Finset.range 256).sup fun i ↦ (cdbBucket recs i).length * 2) ≤
      recs.length * 2 :=
    Finset.sup_le fun i _ ↦ Nat.mul_le_mul_right 2 (length_cdbBucket_le recs i)
  rw [cdbRoom, cdbMemsize]
  omega

/-! ## Adding records -/

/-- The invariant of `cdb_make`: the records `recs` have been added. -/
structure Made (fd : CStr) (recs : List CdbRec) (c : CdbMake) (w : World) : Prop where
  fd_eq : c.fd = fd
  hps : c.head.reverse.flatten = hpsFrom cdbFinalSize recs
  numentries : c.numentries = recs.length
  count : ∀ i, c.count i = (cdbBucket recs i).length
  memsize : c.memsize = cdbMemsize recs
  pos : c.pos = cdbFinalSize + (cdbBody recs).length
  pos_lt : c.pos < 4294967296
  fits : ∀ r ∈ recs, r.Fits
  put : Put fd cdbFinalSize (cdbBody recs) c.b w

theorem made_start {fd : CStr} {w : World} (hw : w.fs fd = some []) :
    Ends (Made fd []) (· = .fault) (cdbMakeStart fd w) := by
  refine Ends.bind (Q := fun _ w' ↦ Put fd cdbFinalSize [] bufferInitialize w')
    (sysCall_ends rfl ⟨[], ⟨rfl, [], hw, rfl, Nat.zero_le _⟩, rfl⟩) fun _ w' hput ↦ ?_
  have hmem : cdbMemsize [] = 1 := max_eq_left (Finset.sup_le fun _ _ ↦ Nat.zero_le 1)
  exact ⟨rfl, rfl, rfl, fun _ ↦ rfl, hmem.symm, rfl, show 1024 < 4294967296 by decide,
    fun _ h ↦ (nomatch h), hput⟩

theorem flatten_hplistAdd (hp : CdbHp) (head : List (List CdbHp)) :
    (hplistAdd hp head).reverse.flatten = head.reverse.flatten ++ [hp] := by
  cases head with
  | nil => rfl
  | cons x xs =>
      rw [hplistAdd]
      split
      · simp
      · simp

/-- Why `cdb_make_add` does not return 1. -/
def AddStops (recs : List CdbRec) (r : CdbRec) (e : Stop) : Prop :=
  e = .fault ∨ e = .refused ∧
    ¬ (r.Fits ∧ cdbFinalSize + (cdbBody (recs ++ [r])).length < 4294967296)

theorem cdbMakeAddbegin_ends {fd : CStr} {recs : List CdbRec} {c : CdbMake} {w : World}
    (h : Made fd recs c w) (r : CdbRec) :
    Ends (fun c' w' ↦ r.Fits ∧ c' = { c with b := c'.b } ∧ Put fd cdbFinalSize (cdbBody recs ++
        kvlenBytes (r.1.length + 1) (r.2.length + 1)) c'.b w') (AddStops recs r)
      (cdbMakeAddbegin c (r.1.length + 1) (r.2.length + 1) w) := by
  obtain rfl := h.fd_eq
  rw [cdbMakeAddbegin]
  by_cases hfits : r.Fits
  · rw [packKvlen, if_neg (Nat.not_lt.mpr hfits.1), if_neg (Nat.not_le.mpr hfits.2)]
    refine Ends.bind (h.put.putalign (.inl rfl)) fun b w' hb ↦ ?_
    exact ⟨hfits, rfl, hb⟩
  · have hnone : packKvlen (r.1.length + 1) (r.2.length + 1) = none := by
      rw [packKvlen]
      split
      · rfl
      · next hk =>
          refine if_pos (Nat.not_lt.mp fun hv ↦ hfits ⟨Nat.not_lt.mp hk, hv⟩)
    rw [hnone]
    exact .inr ⟨rfl, fun hc ↦ hfits hc.1⟩

/-- **`cdb_make_add`** adds its record, or fails on a system call or a limit. -/
theorem Made.add {fd : CStr} {recs : List CdbRec} {c : CdbMake} {w : World}
    (h : Made fd recs c w) (r : CdbRec) :
    Ends (Made fd (recs ++ [r])) (AddStops recs r) (cdbMakeAdd c r.1 r.2 w) := by
  rw [cdbMakeAdd]
  refine (cdbMakeAddbegin_ends h r).bind ?_
  rintro c₁ w₁ ⟨hfits, hc₁, hput₁⟩
  obtain rfl := h.fd_eq
  rw [hc₁]
  refine Ends.bind (hput₁.putalign (.inl rfl)) fun b₂ w₂ hput₂ ↦ ?_
  refine Ends.bind (hput₂.putalign (.inl rfl)) fun b₃ w₃ hput₃ ↦ ?_
  have hpos := h.pos
  have hbody := length_cdbBody_append_singleton recs r
  have hlen : kvlsz + (r.1.length + 1) + (r.2.length + 1) = (recBytes r).length := by
    rw [length_recBytes, kvlsz]
    omega
  rw [cdbMakeAddend]
  simp only [hlen]
  refine incpos_ends h.pos_lt ?_ (fun hroom ↦ ?_) fun hroom ↦ .inr ⟨rfl, fun hc ↦ hroom ?_⟩
  · have hf := hfits
    simp only [CdbRec.Fits, sdbMaxKey, sdbMaxValue] at hf
    rw [length_recBytes]
    omega
  · have hcount : ∀ i, Function.update c.count (sdbHash r.1 % 256)
        (c.count (sdbHash r.1 % 256) + 1) i = (cdbBucket (recs ++ [r]) i).length := by
      intro i
      rw [cdbBucket_append_singleton, Function.update_apply, ← h.count i]
      split
      · next hi => rw [hi]
      · rfl
    have hnum : c.numentries + 1 = (recs ++ [r]).length := by
      rw [h.numentries, List.length_append]
      rfl
    refine ⟨rfl, ?_, hnum, hcount, ?_, ?_, hroom, ?_, ?_⟩
    · change (hplistAdd _ c.head).reverse.flatten = _
      rw [flatten_hplistAdd, h.hps, hpsFrom_append, ← hpos]
      rfl
    · rw [cdbMemsize_append_singleton, ← hcount, ← h.memsize]
      dsimp only
      split
      · omega
      · omega
    · change c.pos + _ = _
      omega
    · intro r' hr'
      rcases List.mem_append.mp hr' with hr' | hr'
      · exact h.fits r' hr'
      · rw [List.mem_singleton.mp hr']
        exact hfits
    · have hone : cdbBody [r] = recBytes r := List.append_nil _
      rw [cdbBody_append, hone, recBytes, ← List.append_assoc, ← List.append_assoc]
      exact hput₃
  · change c.pos + _ < _
    omega

/-! ## Finishing -/

theorem foldl_foldr_flatten {α β : Type} (f : α → β → β) (xs : List (List α)) (b : β) :
    xs.foldl (fun b x ↦ x.foldr f b) b = xs.reverse.flatten.foldr f b := by
  induction xs generalizing b with
  | nil => rfl
  | cons x xs ih =>
      rw [List.foldl_cons, ih, List.reverse_cons, List.flatten_append, List.foldr_append]
      simp

/-- The counting sort of `cdb_make_finish` leaves the pairs of each table in the order
of the records. -/
theorem Made.split {fd : CStr} {recs : List CdbRec} {c : CdbMake} {w : World}
    (h : Made fd recs c w) (i : Nat) :
    (List.range (c.count i)).map (fun u ↦ (cdbSplit c).2 ((cdbSplit c).1 i + u)) =
      cdbBucket recs i := by
  rw [cdbSplit, foldl_foldr_flatten, h.hps]
  exact Bucket.section_foldr _ _ h.count i

/-- The state of the loop over the tables before round `i`. -/
structure Tabled (c₀ : CdbMake) (recs : List CdbRec) (i : Nat) (st : CdbMake × Bytes)
    (w : World) : Prop where
  fd : st.1.fd = c₀.fd
  count : st.1.count = c₀.count
  pos : st.1.pos = cdbTablePos recs i
  pos_lt : st.1.pos < 4294967296
  final : st.2 = cdbHeader recs i
  put : Put c₀.fd cdbFinalSize (cdbBody recs ++ (cdbSlots recs i).flatMap cdbSlotBytes) st.1.b w

/-- Why `cdb_make_finish` does not return 1. -/
def FinishStops (recs : List CdbRec) (e : Stop) : Prop :=
  e = .fault ∨ e = .refused ∧
    ¬ ((cdbImage recs).length < 4294967296 ∧ cdbRoom recs)

/-- Writing the slots of a table, while the file stays below 4 GiB. -/
theorem putSlots_ends {c₀ : CdbMake} {recs : List CdbRec} {c : CdbMake} {X : Bytes}
    {w : World} {T : List CdbHp} (hfd : c.fd = c₀.fd) (hpos : c.pos < 4294967296)
    (hput : Put c₀.fd cdbFinalSize X c.b w)
    (hle : c.pos + 8 * T.length ≤ cdbTablePos recs 256) :
    Ends (fun c' w' ↦ c'.fd = c₀.fd ∧ c'.count = c.count ∧ c'.pos = c.pos + 8 * T.length ∧
        c'.pos < 4294967296 ∧ Put c₀.fd cdbFinalSize (X ++ T.flatMap cdbSlotBytes) c'.b w')
      (FinishStops recs) (T.foldlM cdbMakePutSlot c w) := by
  refine Ends.foldlM (I := fun pre (c' : CdbMake) w' ↦ c'.fd = c₀.fd ∧ c'.count = c.count ∧
    c'.pos = c.pos + 8 * pre.length ∧ c'.pos < 4294967296 ∧
    Put c₀.fd cdbFinalSize (X ++ pre.flatMap cdbSlotBytes) c'.b w') ?_
    ⟨hfd, rfl, rfl, hpos, by simpa using hput⟩
  rintro pre hp post c' w' rfl ⟨hfd', hcount', hpos', hlt', hput'⟩
  rw [← hfd'] at hput'
  refine Ends.bind (hput'.putalign (.inl rfl)) fun b w'' hb ↦ ?_
  simp only [List.length_append, List.length_cons] at hle
  refine incpos_ends hlt' (by decide) (fun hroom ↦ ?_) fun hroom ↦ .inr ⟨rfl, fun hc ↦ hroom ?_⟩
  · refine ⟨hfd', hcount', ?_, hroom, ?_⟩
    · change c'.pos + 8 = _
      rw [List.length_append, List.length_singleton]
      omega
    · rw [List.flatMap_append, ← List.append_assoc, ← hfd']
      simpa using hb
  · have := hc.1
    rw [length_cdbImage] at this
    change c'.pos + 8 < _
    omega

theorem cdbMakeTable_ends {fd : CStr} {recs : List CdbRec} {c₀ : CdbMake} {w₀ : World}
    (h₀ : Made fd recs c₀ w₀) {i : Nat} (hi : i < 256) {st : CdbMake × Bytes} {w : World}
    (h : Tabled c₀ recs i st w) :
    Ends (Tabled c₀ recs (i + 1)) (FinishStops recs) (cdbMakeTable (cdbSplit c₀) st i w) := by
  have hbuild := (build_cdbTable recs i).1
  have hcount : st.1.count i = (cdbBucket recs i).length := by rw [h.count, h₀.count]
  have hsplit := h₀.split i
  rw [h₀.count] at hsplit
  have hend : st.1.pos + 8 * (cdbTable recs i).length = cdbTablePos recs (i + 1) := by
    rw [cdbTablePos_succ, h.pos]
  rw [cdbMakeTable]
  simp only [hcount, hsplit, hbuild]
  refine Ends.bind (putSlots_ends h.fd h.pos_lt h.put (hend ▸ cdbTablePos_mono recs hi)) ?_
  rintro c w' ⟨hfd, hcount', hpos, hlt, hput⟩
  refine ⟨hfd, hcount'.trans h.count, hpos.trans hend, hlt, ?_, ?_⟩
  · change st.2 ++ le32 st.1.pos = _
    rw [cdbHeader_succ, h.final, h.pos]
  · rw [cdbSlots_succ, List.flatMap_append, ← List.append_assoc]
    exact hput

/-- **`cdb_make_finish`** leaves the image of the records, or fails on a system call
or a limit. -/
theorem Made.finish {fd : CStr} {recs : List CdbRec} {c : CdbMake} {w : World}
    (h : Made fd recs c w) :
    Ends (fun _ w' ↦ w'.fs fd = some (cdbImage recs) ∧ (cdbImage recs).length < 4294967296 ∧
        cdbRoom recs)
      (FinishStops recs) (cdbMakeFinish c w) := by
  obtain rfl := h.fd_eq
  rw [cdbMakeFinish, h.memsize, h.numentries]
  by_cases hroom : cdbRoom recs
  swap
  · rw [if_pos (Nat.not_le.mp hroom)]
    exact .inr ⟨rfl, fun hc ↦ hroom hc.2⟩
  · rw [if_neg (Nat.not_lt.mpr hroom)]
    refine Ends.bind (Q := Tabled c recs 256) ?_ fun st w₁ h₁ ↦ ?_
    · refine Ends.foldlM_range (fun i st w' hi hI ↦ cdbMakeTable_ends h hi hI) ?_
      refine ⟨rfl, rfl, h.pos, h.pos_lt, rfl, ?_⟩
      simpa [cdbSlots] using h.put
    obtain ⟨W, hW, hX⟩ := h₁.put
    refine Ends.bind (hW.flush (.inl rfl)) ?_
    rintro b w₂ ⟨rfl, h₂⟩
    rw [hX] at h₂
    obtain ⟨f, hf, hdrop, -⟩ := h₂.bytes
    refine Ends.bind (Q := fun _ w₃ ↦ w₃.off = 0 ∧ w₃.fs c.fd = some f)
      (sysCall_ends (.inl rfl) ⟨rfl, hf⟩) ?_
    rintro _ w₃ ⟨hoff, hf₃⟩
    have hhead : (cdbHeader recs 256).length = cdbFinalSize := by
      rw [length_cdbHeader]
      rfl
    refine Ends.bind (Q := fun _ w₄ ↦ w₄.fs c.fd = some (cdbImage recs)) ?_ fun _ w₄ h₄ ↦ ?_
    · refine Ends.bind (Q := fun _ w₄ ↦ w₄ = w₃) (by exact rfl) fun _ w₄ hw₄ ↦ ?_
      subst hw₄
      refine Ends.bind (Q := fun _ w₅ ↦ w₅.fs c.fd = some (cdbImage recs)) ?_ fun _ w₅ h₅ ↦ ?_
      · refine sysCall_ends (.inl rfl) ?_
        simp only [setFile_fs, if_true, hf₃, hoff, Option.getD_some]
        rw [writeAt_zero, h₁.final, hhead, hdrop, cdbImage]
      · exact h₅
    · exact ⟨h₄, by rw [length_cdbImage, ← h₁.pos]; exact h₁.pos_lt, hroom⟩

/-! ## Whole files -/

/-- Records that make a file: each of them fits, and so does their number. -/
structure Fitting (recs : List CdbRec) : Prop where
  fits : ∀ r ∈ recs, r.Fits
  size : (cdbImage recs).length < 4294967296

theorem length_cdbBody_le (recs : List CdbRec) :
    cdbFinalSize + (cdbBody recs).length ≤ (cdbImage recs).length := by
  rw [length_cdbImage, cdbTablePos]
  exact Nat.le_add_right _ _

/-- A file is written as the image of its records unless a system call fails or a
limit is exceeded. -/
theorem cdbMakeFile_ends (fd : CStr) (recs : List CdbRec) (w : World) :
    Ends (fun _ w' ↦ w'.fs fd = some (cdbImage recs) ∧ Fitting recs ∧ cdbRoom recs)
      (fun e ↦ e = .fault ∨ e = .refused ∧ ¬ (Fitting recs ∧ cdbRoom recs))
      (cdbMakeFile fd recs w) := by
  refine Ends.bind (Q := fun _ w' ↦ w'.fs fd = some []) (sysCall_ends (.inl rfl) (if_pos rfl))
    fun _ w₁ h₁ ↦ ?_
  refine Ends.bind ((made_start h₁).mono (fun _ _ h ↦ h) fun _ he ↦ .inl he) fun c w₂ h₂ ↦ ?_
  refine Ends.bind (Q := Made fd recs) (Ends.foldlM (I := Made fd) ?_ h₂) fun c w₃ h₃ ↦ ?_
  · rintro pre r post c w rfl hI
    refine (hI.add r).mono (fun _ _ h ↦ h) ?_
    rintro e (he | ⟨he, hno⟩)
    · exact .inl he
    · refine .inr ⟨he, fun hc ↦ hno ⟨hc.1.fits r (by simp), ?_⟩⟩
      have hle := length_cdbBody_le (pre ++ r :: post)
      have hsub : (cdbBody (pre ++ [r])).length ≤ (cdbBody (pre ++ r :: post)).length := by
        rw [show pre ++ r :: post = pre ++ [r] ++ post by simp, cdbBody_append _ post,
          List.length_append]
        exact Nat.le_add_right _ _
      have := hc.1.size
      omega
  · refine h₃.finish.mono (fun _ _ h ↦ ⟨h.1, ⟨h₃.fits, h.2.1⟩, h.2.2⟩) ?_
    rintro e (he | ⟨he, hno⟩)
    · exact .inl he
    · exact .inr ⟨he, fun hc ↦ hno ⟨hc.1.size, hc.2⟩⟩

/-- Without faults, whatever fits is written. -/
theorem cdbMakeFile_eq_ok {recs : List CdbRec} (hfit : Fitting recs) (hroom : cdbRoom recs)
    (fd : CStr) {w : World} (hw : ∀ j, w.fails j = false) :
    ∃ w', cdbMakeFile fd recs w = .ok () w' := by
  cases h : cdbMakeFile fd recs w with
  | ok u w' => exact ⟨w', rfl⟩
  | error e w' =>
      rcases (cdbMakeFile_ends fd recs w).of_error h with rfl | ⟨-, hno⟩
      · exact absurd h ((cdbMakeFile_failStop fd recs).not_error hw)
      · exact absurd ⟨hfit, hroom⟩ hno

end SdbStore
