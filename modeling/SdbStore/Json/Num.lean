import SdbStore.Json.Splice

/-!
# Numbers in a flat object

A number is set as the text of its `ut64` and read back with `rangstr_int`: a number that is not
negative comes back as it is.
-/

namespace SdbStore.Json

open Lib

/-! ## The functions -/

/-- `sdb_json_num_set`. -/
def sdbJsonNumSet (s : Sdb) (w : World) (k p : CStr) (v : Int) (cas : Nat) :
    Option (Bool × Sdb × World) :=
  sdbJsonSet s w k p (CStr.ofBytes (sdbItoa (UInt64.ofInt v) 10)) cas

/-- What `sdb_json_num_get` reads in the text of a key. -/
def jsonNum (v : Option CStr) (p : CStr) : Option Int :=
  match v with
  | none => some 0
  | some v => (jsonGet v.val p.val).map rangstrInt

/-- `sdb_json_num_get`. -/
def sdbJsonNumGet (s : Sdb) (w : World) (k p : CStr) : Option Int := jsonNum (sdbGet s w k) p

/-- `sdb_json_num_inc` and `sdb_json_num_dec`, with the number that `next` makes of the one that is
read. -/
def sdbJsonNumStep (next : Int → Int) (s : Sdb) (w : World) (k p : CStr) (cas : Nat) :
    Option (Int × Sdb × World) :=
  let r := sdbConstGetLen s w k
  (jsonNum r.1.value p).bind fun cur ↦
    if cas ≠ 0 ∧ r.1.cas ≠ cas then some (0, r.2)
    else (sdbJsonNumSet r.2.1 r.2.2 k p (wrapInt (next cur)) cas).map fun x ↦ (wrapInt (next cur),
      x.2)

/-- `sdb_json_num_inc`. -/
def sdbJsonNumInc (s : Sdb) (w : World) (k p : CStr) (n : Int) (cas : Nat) :
    Option (Int × Sdb × World) :=
  sdbJsonNumStep (fun cur ↦ cur + n) s w k p cas

/-- `sdb_json_num_dec`. -/
def sdbJsonNumDec (s : Sdb) (w : World) (k p : CStr) (n : Int) (cas : Nat) :
    Option (Int × Sdb × World) :=
  sdbJsonNumStep (fun cur ↦ cur - n) s w k p cas

/-- The decimal text of a number. -/
def decimal (n : Int) : Bytes := if n < 0 then 45 :: digits 10 n.natAbs else digits 10 n.natAbs

/-! ## Digits -/

theorem head?_digits {n : Nat} (h : n ≠ 0) : (digits 10 n).head? ≠ some 48 := by
  induction n using Nat.strongRecOn with
  | ind n ih =>
      rcases Nat.lt_or_ge n 10 with hlt | hge
      · rw [digits_of_lt hlt, List.head?_cons]
        intro hzero
        exact h ((digitByte_spec n (by omega)).2.2.2.2.2 (Option.some.inj hzero))
      · rw [digits_of_le (by decide) hge, List.head?_append_of_ne_nil _ (digits_ne_nil _)]
        exact ih (n / 10) (by omega) (by omega)

theorem isInt_digits (n : Nat) : IsInt (digits 10 n) := by
  by_cases h : n = 0
  · rw [h]
    exact .inl rfl
  · exact .inr ⟨⟨digits_ne_nil n, fun c hc ↦ isDigit_of_mem_digits hc⟩, head?_digits h⟩

/-- The digits of a number as a value. -/
def numberOf (n : Nat) : Value :=
  .word ⟨digits 10 n, .inl
    ⟨[], digits 10 n, [], [], List.mem_cons_self, isInt_digits n, .inl rfl, .inl rfl, by simp⟩⟩

theorem isString_digits (n : Nat) : isString (digits 10 n) = false := by
  have hany : (digits 10 n).any (fun c ↦ c < 48 || 57 < c) = false := by
    refine List.any_eq_false.mpr fun c hc ↦ ?_
    have hdigit := isDigit_of_mem_digits hc
    rw [isDigit, Bool.and_eq_true, decide_eq_true_iff, decide_eq_true_iff] at hdigit
    rw [Bool.or_eq_true, not_or, decide_eq_true_iff, decide_eq_true_iff, UInt8.not_lt, UInt8.not_lt]
    exact hdigit
  rw [isString, hany, Bool.and_false]

theorem sdbItoa_ofInt {n : Int} (h : 0 ≤ n) (h' : n < 2147483648) :
    sdbItoa (UInt64.ofInt n) 10 = digits 10 n.natAbs := by
  have hnat : (UInt64.ofInt n).toNat = n.natAbs := by
    rw [UInt64.ofInt, UInt64.toNat_ofNat']
    omega
  rw [sdbItoa]
  split
  · next hzero =>
      rw [hzero] at hnat
      rw [← hnat]
      rfl
  · rw [if_pos (by decide), hnat]

/-- A number is read from its digits. -/
theorem rangstrInt_holds {rj : Rangstr} {n : Nat} (hn : n < 2147483648) {t s : Bytes}
    (h : rj.Holds (numberOf n) t s) : rangstrInt rj = n := by
  have hdrop := h.drop
  exact rangstrInt_of_drop h.path hn hdrop h.len

/-! ## Setting -/

/-- Where a number comes back. -/
structure Doc.TakesNumber (d : Doc) (name : List Piece) (n : Int) : Prop where
  nonneg : 0 ≤ n
  plain : d.root.plain = true ∧ name.all Piece.plain = true
  spelled : ∀ m ∈ strText name :: d.names, ∀ c ∈ m, c ≠ 46 ∧ c ≠ 91
  kind : ∀ s, d.root.lookup [.name (strText name)] ≠ some (.string s)
  fresh : d.root.lookup [.name (strText name)] = none →
    d.before.val = [] ∧ ∀ ws, d.root = .noMembers ws → ws.val = []
  short : ∀ u : Value, u.text = decimal n → (d.put name u).text.length < 0xffffff

section Number

variable {st : Sdb × World} (hm : st.1.Memory) {k p x : CStr} (hx : sdbGet st.1 st.2 k = some x)
  {d : Doc} (hd : x.val = d.text) (hflat : d.Flat) {name : List Piece}
  (hname : name.all Piece.isChar = true) (hp : p.val = strText name) {n : Int}
  (hn : n < 2147483648) (htakes : d.TakesNumber name n)
include hm hx hd hflat hname hp hn htakes

/-- What is read when a number has been set. -/
theorem sdbJsonNumSet_get :
    ∃ st' : Sdb × World, sdbJsonNumSet st.1 st.2 k p n 0 = some (true, st') ∧
      sdbJsonGet st'.1 st'.2 k p = some (some (decimal n)) ∧
        sdbJsonNumGet st'.1 st'.2 k p = some n := by
  have hnat : ((n.natAbs : Nat) : Int) = n := Int.natAbs_of_nonneg htakes.nonneg
  have hdecimal : decimal n = digits 10 n.natAbs := if_neg (not_lt.mpr htakes.nonneg)
  have hitoa := sdbItoa_ofInt htakes.nonneg hn
  have hval : (CStr.ofBytes (sdbItoa (UInt64.ofInt n) 10)).val = digits 10 n.natAbs := by
    rw [hitoa, CStr.val_ofBytes fun h ↦ by cases isDigit_of_mem_digits h]
  have hvne : CStr.ofBytes (sdbItoa (UInt64.ofInt n) 10) ≠ CStr.empty := fun h ↦ by
    have hnil := hval
    rw [h] at hnil
    exact digits_ne_nil _ hnil.symm
  have hquotes : quotesOf (digits 10 n.natAbs) = [] := by
    rw [quotesOf, isString_digits]
    rfl
  have hfits : d.Fits name (CStr.ofBytes (sdbItoa (UInt64.ofInt n) 10)).val
      (numberOf n.natAbs) := by
    rw [hval]
    refine ⟨⟨htakes.plain.1, htakes.plain.2, rfl⟩, htakes.spelled,
      fun s hs ↦ absurd hs (htakes.kind s), htakes.fresh, htakes.short _ hdecimal.symm,
      .inl (isInt_digits _), rfl, ?_⟩
    rw [hquotes, List.nil_append, List.append_nil]
    rfl
  obtain ⟨y, hy, hset, hget⟩ := sdbJsonSet_value hm hx hd hflat hname hp hvne hfits
  have hobject := Doc.isObject_of_flat hflat
  have hobject' := Doc.isObject_of_flat (Doc.flat_put hflat hname hfits.flat)
  have hplain' : (d.put name (numberOf n.natAbs)).root.plain = true :=
    Node.plain_put name _ hfits.plain.1 hfits.plain.2.1 rfl
  have hspelled := Doc.Fits.name_spelled hname hfits
  have hlt := Doc.Fits.length_name hflat hfits
  have hshort := hfits.short
  have hchild := Node.child_put name (numberOf n.natAbs) d.container hobject.1 hobject.2
  refine ⟨_, hset, ?_, ?_⟩
  · rw [sdbJsonGet_some hget hy, hp,
      sdbJsonGetStr_name (by omega) hplain' hobject' hspelled (by omega)]
    change some (((d.root.put name (numberOf n.natAbs)).child _).map Place.value |>.map
        Node.content) = _
    rw [hchild, hdecimal]
    rfl
  · obtain ⟨z, hz, hvalue⟩ := Option.map_eq_some_iff.mp hchild
    have hholds := holds_child hplain' (d.put name (numberOf n.natAbs)).before
        (d.put name (numberOf n.natAbs)).after.val
      (by change (d.put name (numberOf n.natAbs)).text.length < _; omega) hz
    rw [hvalue] at hholds
    have hread := rangstrInt_holds (by omega) hholds
    rw [hnat] at hread
    rw [sdbJsonNumGet, hget, jsonNum, hy, hp,
      jsonGet_name (by omega) hplain' hspelled hobject' (by omega)]
    change some (rangstrInt
        (((d.root.put name (numberOf n.natAbs)).child _).map _ |>.getD rangstrNull)) = _
    rw [hz, Option.map_some, Option.getD_some, Doc.range]
    exact congrArg some hread

/-- One more or less. -/
theorem sdbJsonNumStep_get {next : Int → Int} {old : Int}
    (hold : sdbJsonNumGet st.1 st.2 k p = some old) (hnext : next old = n) :
    ∃ st' : Sdb × World, sdbJsonNumStep next st.1 st.2 k p 0 = some (n, st') ∧
      sdbJsonNumGet st'.1 st'.2 k p = some n := by
  obtain ⟨hcell, hne⟩ := Cell.of_some hm hx
  obtain ⟨c, hget, -⟩ := hcell.get
  obtain ⟨st', hset, -, hnum⟩ := sdbJsonNumSet_get hm hx hd hflat hname hp hn htakes
  rw [sdbJsonNumGet, hx] at hold
  have hwrap : wrapInt n = n := wrapInt_of_lt htakes.nonneg hn
  refine ⟨st', ?_, hnum⟩
  rw [sdbJsonNumStep, hget, readAs_of_ne hne]
  simp only [hold, Option.bind_some, ne_eq, not_true_eq_false, false_and, if_false, hnext, hwrap,
    hset, Option.map_some]

end Number

/-- **Numbers.**  A number that is set is read, as a text and as a number, and so is one that is
counted up or down to. -/
theorem sdbJsonNum_get {st : Sdb × World} (hm : st.1.Memory) {k p x : CStr}
    (hx : sdbGet st.1 st.2 k = some x) {d : Doc} (hd : x.val = d.text) (hflat : d.Flat)
    {name : List Piece} (hname : name.all Piece.isChar = true) (hp : p.val = strText name) {n : Int}
    (hn : -2147483648 ≤ n ∧ n < 2147483648) (htakes : d.TakesNumber name n) :
    (∃ st' : Sdb × World, sdbJsonNumSet st.1 st.2 k p n 0 = some (true, st') ∧
      sdbJsonGet st'.1 st'.2 k p = some (some (decimal n)) ∧
        sdbJsonNumGet st'.1 st'.2 k p = some n) ∧
    ∀ old m : Int, sdbJsonNumGet st.1 st.2 k p = some old →
      (old + m = n → ∃ st' : Sdb × World, sdbJsonNumInc st.1 st.2 k p m 0 = some (n, st') ∧
        sdbJsonNumGet st'.1 st'.2 k p = some n) ∧
      (old - m = n → ∃ st' : Sdb × World, sdbJsonNumDec st.1 st.2 k p m 0 = some (n, st') ∧
        sdbJsonNumGet st'.1 st'.2 k p = some n) :=
  ⟨sdbJsonNumSet_get hm hx hd hflat hname hp hn.2 htakes, fun _ _ hold ↦
    ⟨fun hsum ↦ sdbJsonNumStep_get hm hx hd hflat hname hp hn.2 htakes hold hsum,
      fun hsum ↦ sdbJsonNumStep_get hm hx hd hflat hname hp hn.2 htakes hold hsum⟩⟩

/-- The number 2 in the middle of three members. -/
theorem takesNumber_flatMembers : flatMembers.TakesNumber [.char 'b' plain_b] 2 where
  nonneg := by decide
  plain := by decide
  spelled := by decide +kernel
  kind := fun s hs ↦ by cases hs
  fresh := fun h ↦ by cases h
  short := fun u hu ↦ by
    rw [Doc.text_put child_flatMembers, hu]
    decide

/-- The member gets the number 2, and is counted up and down to it. -/
theorem sdbJsonNum_get_flatMembers :
    (∃ st' : Sdb × World, sdbJsonNumSet (memDoc flatMembers).1 (memDoc flatMembers).2
      (CStr.ofBytes [107])
        (CStr.ofBytes [98]) 2 0 = some (true, st') ∧
      sdbJsonGet st'.1 st'.2 (CStr.ofBytes [107]) (CStr.ofBytes [98]) = some (some (decimal 2)) ∧
      sdbJsonNumGet st'.1 st'.2 (CStr.ofBytes [107]) (CStr.ofBytes [98]) = some 2) ∧
    ∀ old m : Int, sdbJsonNumGet (memDoc flatMembers).1 (memDoc flatMembers).2 (CStr.ofBytes [107])
        (CStr.ofBytes [98]) = some old →
      (old + m = 2 → ∃ st' : Sdb × World, sdbJsonNumInc (memDoc flatMembers).1
        (memDoc flatMembers).2
          (CStr.ofBytes [107]) (CStr.ofBytes [98]) m 0 = some (2, st') ∧
        sdbJsonNumGet st'.1 st'.2 (CStr.ofBytes [107]) (CStr.ofBytes [98]) = some 2) ∧
      (old - m = 2 → ∃ st' : Sdb × World, sdbJsonNumDec (memDoc flatMembers).1
        (memDoc flatMembers).2
          (CStr.ofBytes [107]) (CStr.ofBytes [98]) m 0 = some (2, st') ∧
        sdbJsonNumGet st'.1 st'.2 (CStr.ofBytes [107]) (CStr.ofBytes [98]) = some 2) :=
  @sdbJsonNum_get (memDoc flatMembers) (memory_memWith (by decide) fun v hv ↦ by cases hv; decide)
    (CStr.ofBytes [107]) (CStr.ofBytes [98]) (CStr.ofBytes flatMembers.text)
    (by decide +kernel) flatMembers (by decide)
    flat_flatMembers [.char 'b' plain_b] (by decide) (by decide) 2
      (by decide) takesNumber_flatMembers

/-- The text of -1 is that of 2 ^ 64 - 1. -/
theorem not_sdbJsonNum_get :
    (sdbJsonNumSet (memDoc oneMember).1 (memDoc oneMember).2 (CStr.ofBytes [107])
      (CStr.ofBytes [97]) (-1) 0).map
      (fun r ↦ (r.1, decide (sdbJsonGet r.2.1 r.2.2 (CStr.ofBytes [107]) (CStr.ofBytes [97]) =
        some (some (decimal (-1)))))) = some (true, false) := by
  decide +kernel

end SdbStore.Json
