import SdbStore.Json.Find
import SdbStore.Json.Values

/-!
# Looking up in well-formed JSON

`json_find` is called with the text from an array or an object on, up to the end of the whole
document.  What is behind it closes the brackets around it, and its tokens come first.
-/

namespace SdbStore.Json

open Lib

/-! ## The loops over the entries -/

/-- The two entries of a token. -/
def entry (x : Nat × Nat) : Nat × Nat := (x.1, x.2 - x.1)

theorem findElement_eq {l : List (Nat × Nat)} (hpos : ∀ x ∈ l, 0 < x.1) {k : Nat} (hk : 0 < k)
    {n : Int} (hn : 0 ≤ n) :
    findElement (entries l ++ List.replicate k 0) n = some (l[n.toNat]?.map entry) := by
  induction l generalizing n with
  | nil =>
      obtain ⟨k, rfl⟩ := Nat.exists_eq_succ_of_ne_zero hk.ne'
      exact findElement_zero (List.replicate k 0) n
  | cons x l ih =>
      have hx : x.1 ≠ 0 := (hpos x List.mem_cons_self).ne'
      have hcons : entries (x :: l) ++ List.replicate k 0 =
        x.1 :: (x.2 - x.1) :: (entries l ++ List.replicate k 0) := rfl
      rw [hcons, findElement, if_neg hx]
      by_cases h0 : 0 < n
      · have hsucc : n.toNat = (n - 1).toNat + 1 := by omega
        rw [if_pos h0, ih (fun y hy ↦ hpos y (List.mem_cons_of_mem _ hy)) (by omega), hsucc,
          List.getElem?_cons_succ]
      · have hzero : n.toNat = 0 := by omega
        rw [if_neg h0, hzero, List.getElem?_cons_zero]
        rfl

/-- What is behind the name that is found is not looked at. -/
theorem findMember_of_memberOf {differs : Nat → Nat → Bool} {l : List (Nat × Nat)}
    (hpos : ∀ x ∈ l, 0 < x.1) {y : Nat × Nat}
    (hy : memberOf (fun x ↦ !differs x.1 (x.2 - x.1)) l = some y) (res : List Nat) :
    findMember differs (entries l ++ res) = some (some (entry y)) := by
  induction l using List.twoStepInduction with
  | nil => cases hy
  | singleton x => cases hy
  | cons_cons x z l ih _ =>
      have hx : x.1 ≠ 0 := (hpos x List.mem_cons_self).ne'
      have hcons : entries (x :: z :: l) ++ res =
        x.1 :: (x.2 - x.1) :: z.1 :: (z.2 - z.1) :: (entries l ++ res) := rfl
      rw [hcons, findMember, if_neg hx]
      rw [memberOf] at hy
      cases hd : differs x.1 (x.2 - x.1) with
      | true =>
          rw [hd, Bool.not_true, if_neg Bool.false_ne_true] at hy
          rw [if_pos rfl]
          exact ih (fun w hw ↦ hpos w (List.mem_cons_of_mem _ (List.mem_cons_of_mem _ hw))) hy
      | false =>
          rw [hd, Bool.not_false, if_pos rfl] at hy
          cases hy
          rw [if_neg Bool.false_ne_true]
          rfl

/-- No name is found. -/
theorem findMember_of_differs {differs : Nat → Nat → Bool} {l : List (Nat × Nat)}
    (hpos : ∀ x ∈ l, 0 < x.1) {k : Nat} (hall : ∀ i, (hi : 2 * i < l.length) →
      differs l[2 * i].1 (l[2 * i].2 - l[2 * i].1)) (hk : 0 < k)
    (hodd : l.length % 2 = 1 → 2 < k) :
    findMember differs (entries l ++ List.replicate k 0) = some none := by
  induction l using List.twoStepInduction with
  | nil =>
      obtain ⟨k, rfl⟩ := Nat.exists_eq_succ_of_ne_zero hk.ne'
      exact findMember_zero differs (List.replicate k 0)
  | singleton x =>
      have hx : x.1 ≠ 0 := (hpos x List.mem_cons_self).ne'
      have hdiffers : differs x.1 (x.2 - x.1) = true := hall 0 Nat.one_pos
      have hlt := hodd (by rw [List.length_singleton])
      obtain ⟨k, rfl⟩ := Nat.exists_eq_add_of_lt hlt
      have hcons : entries [x] ++ List.replicate (2 + k + 1) 0 =
          x.1 :: (x.2 - x.1) :: 0 :: 0 :: 0 :: List.replicate k 0 := by
        rw [show 2 + k + 1 = k + 3 by omega]
        rfl
      rw [hcons, findMember, if_neg hx, if_pos hdiffers, findMember_zero]
  | cons_cons x y l ih _ =>
      have hx : x.1 ≠ 0 := (hpos x List.mem_cons_self).ne'
      have hdiffers : differs x.1 (x.2 - x.1) = true := hall 0 (by rw [List.length_cons]; omega)
      have hcons : entries (x :: y :: l) ++ List.replicate k 0 =
        x.1 :: (x.2 - x.1) :: y.1 :: (y.2 - y.1) :: (entries l ++ List.replicate k 0) := rfl
      rw [hcons, findMember, if_neg hx, if_pos hdiffers]
      refine ih (fun w hw ↦ hpos w (List.mem_cons_of_mem _ (List.mem_cons_of_mem _ hw)))
        (fun i hi ↦ hall (i + 1) (by rw [List.length_cons, List.length_cons]; omega)) fun h ↦ hodd
          ?_
      rw [List.length_cons, List.length_cons]
      omega

/-! ## `json_find` through the tokens -/

section Find

variable {s : Bytes} (hlength : s.length < 2147483648)
include hlength

theorem resText_of_lt : resText s = s := by
  rw [resText, ut32_of_lt (by omega)]
  exact List.take_length

/-- There is a zero behind the entries of the tokens. -/
theorem length_rootTokens_lt : 2 * (rootTokens s).length < resSize s := by
  have hsize := resSize_of_lt (s := s) (by rw [ut32_of_lt (by omega)]; exact hlength)
  have hedges := length_edges_start s
  have htokens : (rootTokens s).length = _ := length_pairs (edges s 0 ⟨.gostruct, 0, 0⟩)
  rw [ut32_of_lt (by omega)] at hsize
  split at hsize <;> omega

/-- The entries with the zeros behind them. -/
theorem jsonFind_of_closed (hclosed : Closed s) (rs : Rangstr) : jsonFind s rs =
    (if s.headD 0 = 91 then
      if rangstrInt rs < 0 then some rangstrNull
      else (findElement (entries (rootTokens s) ++
        List.replicate (resSize s - 2 * (rootTokens s).length) 0)
        (rangstrInt rs)).map (rangstrOf s)
    else (findMember (fun f l ↦ rangstrCmp rs (rangstrNews s f l))
      (entries (rootTokens s) ++ List.replicate (resSize s - 2 * (rootTokens s).length) 0)).map
        (rangstrOf s)) := by
  have hout := sdbJs0n_snd_of_closed hclosed
  have hret := (sdbJs0n_fst_le_zero_iff s).mpr hclosed
  have hlt := length_rootTokens_lt hlength
  rw [jsonFind, resText_of_lt hlength, hout, length_entries, if_neg (by omega), if_neg hret]

theorem jsonFind_of_not_closed (hclosed : ¬ Closed s) (rs : Rangstr) :
    jsonFind s rs = some rangstrNull := by
  have hret : 0 < (sdbJs0n s).1 := by
    by_contra hno
    exact hclosed ((sdbJs0n_fst_le_zero_iff s).mp hno)
  have hwrites := length_sdbJs0n s
  have hsize := resSize_of_lt (s := s) (by rw [ut32_of_lt (by omega)]; exact hlength)
  rw [ut32_of_lt (by omega)] at hsize
  rw [jsonFind, resText_of_lt hlength, if_neg (by split at hsize <;> omega), if_pos hret]

/-- An element. -/
theorem jsonFind_element (hclosed : Closed s) (harray : s.headD 0 = 91) {rs : Rangstr}
    (hn : 0 ≤ rangstrInt rs) :
    jsonFind s rs = some (rangstrOf s ((rootTokens s)[(rangstrInt rs).toNat]?.map entry)) := by
  have hlt := length_rootTokens_lt hlength
  rw [jsonFind_of_closed hlength hclosed, if_pos harray, if_neg (by omega),
    findElement_eq (fun x hx ↦ pos_of_mem_rootTokens hx) (by omega) hn, Option.map_some]

end Find

/-! ## Names -/

/-- The bytes of a range. -/
def Rangstr.bytes (rs : Rangstr) : Bytes := (rangstrStr rs).take (rs.t - rs.f)

/-- A component of a path. -/
structure Rangstr.Comp (rs : Rangstr) (name : Bytes) : Prop where
  le : rs.f ≤ rs.t
  length : rs.t < 2147483648
  inside : rs.t - rs.f ≤ (rangstrStr rs).length
  bytes : rs.bytes = name

theorem wrapInt_of_lt {n : Int} (h : 0 ≤ n) (h' : n < 2147483648) : wrapInt n = n := by
  rw [wrapInt, Int.bmod_def]
  omega

/-- Names are compared byte by byte. -/
theorem rangstrCmp_eq {rs : Rangstr} {name : Bytes} (hrs : rs.Comp name) {s : Bytes}
    (hs : s.length < 2147483648) {x : Nat × Nat} (hx : x.1 ≤ x.2 ∧ x.2 ≤ s.length) :
    rangstrCmp rs (rangstrNews s x.1 (x.2 - x.1)) = decide (slice s x ≠ name) := by
  obtain ⟨hle, hlt, hinside, rfl⟩ := hrs
  have hnews : rangstrNews s x.1 (x.2 - x.1) = ⟨1, x.1, x.2, some s⟩ := by
    rw [rangstrNews, ut32_of_lt (by omega), Nat.add_sub_cancel' hx.1]
  have hstr : rangstrStr ⟨1, x.1, x.2, some s⟩ = s.drop x.1 := rfl
  have hla : wrapInt (rs.t - rs.f) = ((rs.t - rs.f : Nat) : Int) := by
    rw [wrapInt_of_lt (by omega) (by omega)]
    omega
  have hlb : wrapInt (x.2 - x.1) = ((x.2 - x.1 : Nat) : Int) := by
    rw [wrapInt_of_lt (by omega) (by omega)]
    omega
  have hlbz : wrapInt (s.drop x.1).length = ((s.length - x.1 : Nat) : Int) := by
    rw [List.length_drop]
    exact wrapInt_of_lt (by omega) (by omega)
  have hmod : ((rs.t - rs.f : Nat) : Int) % 18446744073709551616 = ((rs.t - rs.f : Nat) : Int) := by
    omega
  have hlength : rs.bytes.length = rs.t - rs.f := by
    rw [Rangstr.bytes, List.length_take]
    omega
  have hslice : (slice s x).length = x.2 - x.1 := by
    rw [slice, List.length_take, List.length_drop]
    omega
  rw [hnews, rangstrCmp]
  simp only [hstr, hlbz, hla, hlb, hmod, Int.toNat_natCast]
  rw [if_neg (by omega)]
  by_cases heq : rs.t - rs.f = x.2 - x.1
  · have hne : ¬ (((rs.t - rs.f : Nat) : Int) ≠ ((x.2 - x.1 : Nat) : Int)) := by omega
    rw [decide_eq_false hne, Bool.false_or, heq]
    refine decide_eq_decide.mpr (not_congr ?_)
    rw [Rangstr.bytes, heq]
    exact eq_comm
  · have hne : ((rs.t - rs.f : Nat) : Int) ≠ ((x.2 - x.1 : Nat) : Int) := by omega
    rw [decide_eq_true hne, Bool.true_or, eq_comm, decide_eq_true_iff]
    intro hno
    exact heq (by rw [← hlength, ← hslice, hno])

theorem memberOf_congr {found found' : Nat × Nat → Bool} {l : List (Nat × Nat)}
    (h : ∀ x ∈ l, found x = found' x) :
    memberOf found l = memberOf found' l := by
  induction l using List.twoStepInduction with
  | nil => rfl
  | singleton x => rfl
  | cons_cons x y l ih _ =>
      rw [memberOf, memberOf, h x List.mem_cons_self,
        ih fun z hz ↦ h z (List.mem_cons_of_mem _ (List.mem_cons_of_mem _ hz))]

theorem mem_of_memberOf {found : Nat × Nat → Bool} {l : List (Nat × Nat)} {y : Nat × Nat}
    (h : memberOf found l = some y) : y ∈ l := by
  induction l using List.twoStepInduction with
  | nil => cases h
  | singleton x => cases h
  | cons_cons x z l ih _ =>
      rw [memberOf] at h
      split at h
      · cases h
        exact List.mem_cons_of_mem _ List.mem_cons_self
      · exact List.mem_cons_of_mem _ (List.mem_cons_of_mem _ (ih h))

section Names

variable {s : Bytes} (hlength : s.length < 2147483648)
include hlength

/-- A token as a range. -/
theorem rangstrOf_entry {y : Nat × Nat} (hy : y ∈ rootTokens s) :
    rangstrOf s (some (entry y)) = ⟨1, y.1, y.2, some s⟩ := by
  obtain ⟨hle, hend⟩ := rootTokens_bounds hy
  change rangstrNews s y.1 (y.2 - y.1) = _
  rw [rangstrNews, ut32_of_lt (by omega), Nat.add_sub_cancel' hle]

theorem jsonFind_elem (hclosed : Closed s) (harray : s.headD 0 = 91) {rs : Rangstr}
    (hn : 0 ≤ rangstrInt rs) {y : Nat × Nat}
    (hy : (rootTokens s)[(rangstrInt rs).toNat]? = some y) :
    jsonFind s rs = some ⟨1, y.1, y.2, some s⟩ := by
  rw [jsonFind_element hlength hclosed harray hn, hy, Option.map_some,
    rangstrOf_entry hlength (List.mem_of_getElem? hy)]

/-- There are no more names looked at than up to the one that is found. -/
theorem jsonFind_member (hclosed : Closed s) (hobject : s.headD 0 ≠ 91) {rs : Rangstr}
    {name : Bytes} (hrs : rs.Comp name) {l r : List (Nat × Nat)} (hl : rootTokens s = l ++ r)
    {y : Nat × Nat} (hy : memberOf (fun x ↦ slice s x = name) l = some y) :
    jsonFind s rs = some ⟨1, y.1, y.2, some s⟩ := by
  have hmem : ∀ x ∈ l, x ∈ rootTokens s := fun x hx ↦ hl ▸ List.mem_append_left _ hx
  have hfound : memberOf (fun x ↦ !rangstrCmp rs (rangstrNews s x.1 (x.2 - x.1))) l = some y := by
    rw [← hy]
    refine memberOf_congr fun x hx ↦ ?_
    rw [rangstrCmp_eq hrs hlength (rootTokens_bounds (hmem x hx)), ← decide_not, decide_eq_decide]
    exact not_not
  have hentries : entries (l ++ r) = entries l ++ entries r := List.flatMap_append
  rw [jsonFind_of_closed hlength hclosed, if_neg hobject, hl, hentries, List.append_assoc,
    findMember_of_memberOf (fun x hx ↦ pos_of_mem_rootTokens (hmem x hx)) hfound, Option.map_some,
    rangstrOf_entry hlength (hmem y (mem_of_memberOf hy))]

/-- No name is the one looked for. -/
theorem jsonFind_nothing (hclosed : Closed s) (hobject : s.headD 0 ≠ 91) {rs : Rangstr}
    {name : Bytes} (hrs : rs.Comp name)
    (hall : ∀ i, (hi : 2 * i < (rootTokens s).length) → slice s (rootTokens s)[2 * i] ≠ name)
    (hodd : (rootTokens s).length % 2 = 1 → 2 * (rootTokens s).length + 2 < resSize s) :
    jsonFind s rs = some rangstrNull := by
  have hlt := length_rootTokens_lt hlength
  have hdiffers : ∀ i, (hi : 2 * i < (rootTokens s).length) → rangstrCmp rs
      (rangstrNews s (rootTokens s)[2 * i].1 ((rootTokens s)[2 * i].2 - (rootTokens s)[2 * i].1)) =
        true := by
    intro i hi
    rw [rangstrCmp_eq hrs hlength (rootTokens_bounds (List.getElem_mem hi))]
    exact decide_eq_true (hall i hi)
  rw [jsonFind_of_closed hlength hclosed, if_neg hobject,
    findMember_of_differs (fun x hx ↦ pos_of_mem_rootTokens hx)
    hdiffers (by omega) (fun h ↦ by have := hodd h; omega)]
  rfl

end Names

/-! ## In a document -/

/-- The brackets around a value are closed behind it. -/
def Closes (t : Bytes) : Prop := ∃ k : Nat, ∀ d, lexAll t (between d) = some (between (d - k))

theorem Blanks.closesNone (ws : Blanks) : Closes ws.val := by
  refine ⟨0, fun d ↦ ?_⟩
  have h := (ws.passes d [] 0 trivial).1
  rw [List.append_nil] at h
  rw [h, lexAll, Int.natCast_zero, Int.sub_zero]

/-- Behind an element or a member. -/
theorem Place.Within.closes {x : Place} {s t : Bytes} (h : x.Within s) (ht : Closes t) :
    Closes (x.after ++ t) := by
  obtain ⟨k, hk⟩ := ht
  refine ⟨k + 1, fun d ↦ ?_⟩
  obtain ⟨es, hes⟩ := h.passes d
  rw [(hes t 0 trivial).1, hk]
  refine congrArg (fun d ↦ some (between d)) ?_
  omega

theorem pairs_unpair (l : List (Nat × Nat)) (r : List Nat) :
    pairs (unpair l ++ r) = l ++ pairs r := by
  induction l with
  | nil => rfl
  | cons x l ih => exact congrArg (x :: ·) ih

section Container

variable {v : Value} (hv : v.isContainer = true) (hplain : v.plain = true) (ws : Blanks) (t : Bytes)
include hv hplain

/-- Going over blanks and the value. -/
theorem container_passes :
    lexAll (ws.val ++ (v.text ++ t)) (between 0) = lexAll t (between 0) ∧
      edges (ws.val ++ (v.text ++ t)) 0 (between 0) =
        unpair (v.inner ws.val.length) ++ edges t (ws.val.length + v.text.length) (between 0) := by
  obtain ⟨hlex, hedges⟩ := ws.passes 0 (v.text ++ t) 0 trivial
  obtain ⟨hlex', hedges'⟩ := Node.passes hplain 0 t ws.val.length (Node.ends_container hv t)
  rw [Nat.zero_add] at hedges
  rw [Node.edges_zero hv] at hedges'
  exact ⟨hlex.trans hlex', by rw [hedges, List.nil_append, hedges']; rfl⟩

theorem closed_container (ht : Closes t) : Closed (ws.val ++ (v.text ++ t)) := by
  obtain ⟨k, hk⟩ := ht
  refine ⟨between (0 - k), ?_, ?_⟩
  · rw [(container_passes hv hplain ws t).1, hk]
  · change (0 : Int) - k ≤ 0
    omega

/-- The tokens of the value come first. -/
theorem rootTokens_container :
    ∃ r, rootTokens (ws.val ++ (v.text ++ t)) = v.inner ws.val.length ++ r := by
  refine ⟨pairs (edges t (ws.val.length + v.text.length) (between 0)), ?_⟩
  rw [rootTokens, (container_passes hv hplain ws t).2, pairs_unpair]

end Container

/-- What is looked for. -/
def Rangstr.Looks (rs : Rangstr) : Step → Prop
  | .name s => rs.Comp s
  | .index n => rangstrInt rs = n

theorem Node.child_within {v : Value} (hplain : v.plain = true) {step : Step} {x : Place}
    (hx : v.child step = some x) : x.Within v.text := by
  cases v with
  | word w => cases hx
  | string s => cases hx
  | noElems ws => cases hx
  | noMembers ws => cases hx
  | array es =>
      cases step with
      | name s => cases hx
      | index n =>
          obtain ⟨y, hy, rfl⟩ := Option.map_eq_some_iff.mp hx
          exact (Node.elemAt_spec (show es.plain = true from hplain) hy).1.behind [91]
  | object ms =>
      cases step with
      | index n => cases hx
      | name s =>
          obtain ⟨y, hy, rfl⟩ := Option.map_eq_some_iff.mp hx
          exact (Node.memberAt_within (show ms.plain = true from hplain) hy).behind [123]

theorem Node.isContainer_of_child {v : Value} {step : Step} {x : Place}
    (hx : v.child step = some x) :
    v.isContainer = true := by
  cases v with
  | word w => cases hx
  | string s => cases hx
  | _ => rfl

theorem Blanks.headD_ne_bracket (ws : Blanks) (t : Bytes) : (ws.val ++ 123 :: t).headD 0 ≠ 91 := by
  obtain ⟨val, hblank⟩ := ws
  cases val with
  | nil => exact (by decide : (123 : UInt8) ≠ 91)
  | cons c val =>
      have hc := hblank c List.mem_cons_self
      rintro rfl
      cases hc

/-- The contents of a value in its place, in a text in which `cur` bytes are in front of the array
or the object. -/
def Place.range (x : Place) (cur : Nat) (s : Bytes) : Rangstr :=
  ⟨1, cur + x.before.length + x.value.quote,
    cur + x.before.length + x.value.quote + x.value.content.length, some s⟩

/-- The range of a value behind an opening bracket. -/
theorem rangeOf_behind (x : Place) (cur : Nat) (c : UInt8) (s : Bytes) :
    (⟨1, (x.value.token (cur + 1 + x.before.length)).1,
      (x.value.token (cur + 1 + x.before.length)).2, some s⟩ : Rangstr) =
        (x.behind [c]).range cur s := by
  have hlength : (x.behind [c]).before.length = x.before.length + 1 := by
    rw [Place.behind, List.length_append, List.length_singleton, Nat.add_comm]
  rw [Place.range, hlength, Nat.add_assoc cur 1, Nat.add_comm 1]
  rfl

/-- **A step.**  The element or the member that a step leads to is found. -/
theorem jsonFind_child {v : Value} (hplain : v.plain = true) {ws : Blanks} {t : Bytes}
    (ht : Closes t) (hlength : (ws.val ++ (v.text ++ t)).length < 2147483648) {rs : Rangstr}
    {step : Step} (hrs : rs.Looks step) (hws : ∀ es, v = .array es → ws.val = []) {x : Place}
    (hx : v.child step = some x) :
    jsonFind (ws.val ++ (v.text ++ t)) rs =
      some (x.range ws.val.length (ws.val ++ (v.text ++ t))) := by
  have hv := Node.isContainer_of_child hx
  have hclosed := closed_container hv hplain ws t ht
  obtain ⟨r, hroot⟩ := rootTokens_container hv hplain ws t
  cases v with
  | word w => cases hx
  | string s => cases hx
  | noElems ws => cases hx
  | noMembers ws => cases hx
  | array es =>
      cases step with
      | name s => cases hx
      | index n =>
          obtain ⟨y, hy, rfl⟩ := Option.map_eq_some_iff.mp hx
          have hnil := hws es rfl
          have hn : rangstrInt rs = n := hrs
          have htoken := (Node.elemAt_spec (show es.plain = true from hplain) hy).2
              (ws.val.length + 1)
          have hget : (rootTokens
              (ws.val ++ (Node.text (.array es) ++ t)))[(rangstrInt rs).toNat]? =
                some (y.value.token (ws.val.length + 1 + y.before.length)) := by
            rw [hroot, hn, Int.toNat_natCast]
            exact (List.getElem?_append_left (List.getElem?_eq_some_iff.mp htoken).1).trans htoken
          have harray : (ws.val ++ (Node.text (.array es) ++ t)).headD 0 = 91 := by
            rw [hnil]
            rfl
          rw [jsonFind_elem hlength hclosed harray (by rw [hn]; exact Int.natCast_nonneg n) hget]
          exact congrArg some (rangeOf_behind y ws.val.length 91 _)
  | object ms =>
      cases step with
      | index n => cases hx
      | name s =>
          obtain ⟨y, hy, rfl⟩ := Option.map_eq_some_iff.mp hx
          have hdrop : (ws.val ++ (Node.text (.object ms) ++ t)).drop (ws.val.length + 1) =
              ms.text ++ t := by
            rw [← List.drop_drop, List.drop_left]
            rfl
          have hmember := Node.memberOf_tokens rfl s hdrop
          rw [hy, Option.map_some] at hmember
          rw [jsonFind_member hlength hclosed (ws.headD_ne_bracket _) hrs hroot hmember]
          exact congrArg some (rangeOf_behind y ws.val.length 123 _)

end SdbStore.Json
