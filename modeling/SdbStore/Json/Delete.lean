import SdbStore.Json.Erase
import SdbStore.Json.Splice

/-!
# Deleting a member

The name is searched for backwards in the text from the object around the value on, but the text is
cut as if that were the whole document.  The comma in front of the member goes always, and the one
behind it too.  So what is left is right if the member is one of the root, and the first or the last
one there.
-/

namespace SdbStore.Json

open Lib

/-! ## The name -/

section Findkey

variable {pre s : Bytes} (hpre : pre ≠ []) (hs : 34 ∉ s) (r : Bytes)
include hpre hs

/-- Back over the bytes of the name. -/
theorem findkeyQuote_name {j : Nat} (hj : j ≤ s.length) :
    findkeyQuote (pre ++ 34 :: (s ++ r)) (pre.length + j) = some pre.length := by
  induction j with
  | zero =>
      obtain ⟨i, hi⟩ := Nat.exists_eq_add_one_of_ne_zero (List.length_pos_iff.mpr hpre).ne'
      have hbyte : (pre ++ 34 :: (s ++ r)).getD (i + 1) 0 = 34 := by
        rw [getD_eq_headD_drop, ← hi, List.drop_left]
        rfl
      rw [Nat.add_zero, hi, findkeyQuote, if_pos hbyte]
  | succ j ih =>
      have hbyte : (pre ++ 34 :: (s ++ r)).getD (pre.length + j + 1) 0 = s[j] := by
        rw [getD_eq_headD_drop, Nat.add_assoc, ← List.drop_drop, List.drop_left,
          List.drop_succ_cons, List.drop_append, List.drop_eq_getElem_cons hj]
        rfl
      have hne : ¬ s[j] = 34 := fun h ↦ hs (h ▸ List.getElem_mem hj)
      rw [← Nat.add_assoc, findkeyQuote, hbyte, if_neg hne]
      exact ih (Nat.le_of_succ_le hj)

/-- From the value on. -/
theorem findkey_name {quote : Nat} (hquote : quote ≤ 1)
    (hlength : pre.length + s.length + 2 < 2147483648) :
    findkey (pre ++ 34 :: (s ++ 34 :: 58 :: r)) ((pre.length + s.length + 3 + quote : Nat) - 2) =
      some pre.length := by
  have hint : (wrapInt (((pre.length + s.length + 3 + quote : Nat) : Int) - 2)).toNat =
      pre.length + s.length + 1 + quote := by
    rw [wrapInt_of_lt (by omega) (by omega)]
    omega
  have hname : findkeyLoop (pre ++ 34 :: (s ++ 34 :: 58 :: r)) (pre.length + s.length + 1) =
      some pre.length := by
    have hbyte : (pre ++ 34 :: (s ++ 34 :: 58 :: r)).getD (pre.length + s.length + 1) 0 = 34 := by
      rw [getD_eq_headD_drop, Nat.add_assoc, ← List.drop_drop, List.drop_left, List.drop_succ_cons,
        List.drop_left]
      rfl
    rw [findkeyLoop, if_pos hbyte]
    exact findkeyQuote_name hpre hs _ le_rfl
  rw [findkey, hint]
  rcases Nat.le_one_iff_eq_zero_or_eq_one.mp hquote with rfl | rfl
  · exact hname
  · have hbyte : ¬ (pre ++ 34 :: (s ++ 34 :: 58 :: r)).getD (pre.length + s.length + 1 + 1) 0 =
        34 := by
      rw [getD_eq_headD_drop, Nat.add_assoc, Nat.add_assoc, ← List.drop_drop, List.drop_left,
        Nat.add_comm s.length, Nat.add_assoc, Nat.add_comm 1, List.drop_succ_cons, Nat.add_comm 1,
        ← List.drop_drop, List.drop_left]
      exact (by decide : ¬ (58 : UInt8) = 34)
    rw [findkeyLoop, if_neg hbyte]
    exact hname

end Findkey

/-! ## What is left of the text -/

/-- The text from an object on, with one of its values. -/
def aroundText (pre s : Bytes) (v : Value) (post : Bytes) : Bytes :=
  123 :: pre ++ 34 :: (s ++ 34 :: 58 :: (v.text ++ post))

/-- **The cut.**  It is right if nothing is in front of the object. -/
theorem jsonRemove_eq (front : Bytes) {pre s post : Bytes} (hs : 34 ∉ s) {v : Value}
    (hpost : post.headD 0 ≠ 34) (hlength : (aroundText pre s v post).length < 2147483648) :
    jsonRemove (front ++ aroundText pre s v post) front.length (aroundText pre s v post)
      (pre.length + s.length + 4 + v.quote)
      (pre.length + s.length + 4 + v.quote + v.content.length) =
      (front ++ aroundText pre s v post).take (max 1 pre.length) ++
      (if post.length ≠ 1 then post.drop 1 else post) := by
  have hquote : v.quote ≤ 1 := by
    cases v with
    | string s => exact le_rfl
    | _ => exact Nat.zero_le _
  have hlen : (aroundText pre s v post).length =
      pre.length + s.length + 4 + (v.text.length + post.length) := by
    rw [aroundText]
    simp only [List.length_append, List.length_cons]
    omega
  have hkey := findkey_name (List.cons_ne_nil 123 pre) hs (v.text ++ post) hquote
      (by rw [List.length_cons]; omega)
  have hfrom : (pre.length + s.length + 4 + v.quote : Nat) =
      (123 :: pre).length + s.length + 3 + v.quote := by
    rw [List.length_cons]
    omega
  have hvalue : (aroundText pre s v post).drop (pre.length + s.length + 4) = v.text ++ post := by
    have hsplit : aroundText pre s v post =
        (123 :: pre ++ 34 :: (s ++ [34, 58])) ++ (v.text ++ post) := by
      rw [aroundText]
      simp only [List.append_assoc, List.cons_append, List.nil_append]
    rw [hsplit]
    refine List.drop_left' ?_
    simp only [List.length_append, List.length_cons, List.length_nil]
    omega
  have hrest : dropQuote ((front ++ aroundText pre s v post).drop
      (front.length + (pre.length + s.length + 4 + v.quote + v.content.length))) = post := by
    rw [← List.drop_drop, List.drop_left, ← List.drop_drop, ← List.drop_drop, hvalue]
    rcases v.drop_quote post with hdrop | hdrop
    · rw [hdrop, List.drop_left]
      exact if_neg hpost
    · rw [hdrop, List.drop_left]
      rfl
  have hbegin : (max 1 ((123 :: pre).length - 1 : Int)).toNat = max 1 pre.length := by
    rw [List.length_cons]
    omega
  rw [← aroundText, ← hfrom] at hkey
  rw [jsonRemove, hkey, Option.map_some, Option.getD_some, hrest]
  change _ ++ _ = _
  rw [← hbegin]
  rfl

/-! ## The object around the member -/

/-- The member of an object that is behind the text `front`: where it is found, and the text with
and without it.  What is behind the object is `back`. -/
structure Around (ms : Node .members) (s pre : Bytes) (x : Place) (front back all without : Bytes)
    (rj : Rangstr) : Prop where
  commas : x.Commas ms.names s pre (ms.dropText s)
  stops : Stops x.after
  all : all = front ++ aroundText pre s x.value (x.after ++ back)
  without : without = front ++ 123 :: (ms.dropText s ++ back)
  range : rj = ⟨1, pre.length + s.length + 4 + x.value.quote,
    pre.length + s.length + 4 + x.value.quote + x.value.content.length,
    some (aroundText pre s x.value (x.after ++ back))⟩

theorem Node.erase_cons {s : Step} {p : List Step} (hp : p ≠ []) {v : Value} {x : Place}
    (hx : v.child s = some x) :
    v.erase (s :: p) = v.setChild s (x.value.erase p) := by
  obtain ⟨s', p, rfl⟩ := List.exists_cons_of_ne_nil hp
  cases s with
  | name n =>
      rw [Node.erase, hx]
      exact fun _ _ h ↦ by cases h
  | index n =>
      rw [Node.erase, hx]
      exact fun _ _ h ↦ by cases h

theorem Stops.ne_nil {t : Bytes} (h : Stops t) : t ≠ [] := by
  rintro rfl
  exact h

theorem Node.before_ne_nil {v : Value} {s : Step} {x : Place} (hx : v.child s = some x) :
    x.before ≠ [] := by
  cases v with
  | array es =>
      cases s with
      | name n => cases hx
      | index n =>
          obtain ⟨y, hy, rfl⟩ := Option.map_eq_some_iff.mp hx
          exact List.cons_ne_nil _ _
  | object ms =>
      cases s with
      | index n => cases hx
      | name n =>
          obtain ⟨y, hy, rfl⟩ := Option.map_eq_some_iff.mp hx
          exact List.cons_ne_nil _ _
  | _ => cases hx

/-- **Where the member is.**  Nothing is in front of its object if that is the root. -/
theorem Reached.around {v : Value} {t s : Bytes} {path : List Step} {rj : Rangstr}
    (h : Reached v t s path rj) (hplain : v.plain = true) (hstrip : v.strip = v)
    (hs : s = v.text ++ t) {q : List Step} {name : Bytes} (hpath : path = q ++ [.name name]) :
    ∃ ms pre x front back, Around ms name pre x front back (v.text ++ t)
      ((v.erase path).text ++ t) rj ∧ ((q = [] ∧ v = .object ms ∧ front = [] ∧ back = t) ∨
        (q ≠ [] ∧ front ≠ [] ∧ back ≠ [])) := by
  induction h generalizing q with
  | @last ws v t step x hx =>
      have hq : q = [] ∧ step = .name name := by
        cases q with
        | nil => exact ⟨rfl, (List.cons.inj hpath).1⟩
        | cons s q =>
            exact absurd (List.cons.inj hpath).2.symm
              (List.append_ne_nil_of_right_ne_nil _ (List.cons_ne_nil _ _))
      obtain ⟨rfl, rfl⟩ := hq
      have hws : ws.val = [] := by
        have hlen := congrArg List.length hs
        rw [List.length_append] at hlen
        exact List.eq_nil_of_length_eq_zero (by omega)
      cases v with
      | object ms =>
          obtain ⟨y, hy, rfl⟩ := Option.map_eq_some_iff.mp hx
          obtain ⟨pre, hcommas⟩ := Node.commas (Node.object.inj hstrip) hy
          have hin := Node.memberAt_within (show ms.plain = true from hplain) hy
          have htext : Node.text (.object ms) ++ t =
              aroundText pre name y.value (y.after ++ t) := by
            rw [Node.text, hin.text, hcommas.before, aroundText]
            simp only [List.append_assoc, List.cons_append, List.nil_append]
          refine ⟨ms, pre, y, [], t, ⟨hcommas, hin.stops, htext, ?_, ?_⟩, .inl ⟨rfl, rfl, rfl, rfl⟩⟩
          · rw [Node.erase, Node.text_eraseMember]
            rfl
          · have hlen : (y.behind [123]).before.length = pre.length + name.length + 4 := by
              rw [Place.behind, hcommas.before]
              simp only [List.length_append, List.length_cons, List.length_nil]
              omega
            rw [Place.range, hlen, hws, List.nil_append, htext, List.length_nil, Nat.zero_add]
            rfl
      | _ => cases hx
  | @down v t s step p x rj hx h ih =>
      have hin := Node.child_within hplain hx
      have hp := h.ne_nil
      obtain ⟨s', q, rfl⟩ : ∃ s' q', q = s' :: q' := by
        cases q with
        | nil => exact absurd (List.cons.inj hpath).2 hp
        | cons s q => exact ⟨s, q, rfl⟩
      obtain ⟨ms, pre, y, front, back, haround, hwhere⟩ :=
        ih hin.plain (Node.strip_child hstrip hx) rfl (List.cons.inj hpath).2
      refine ⟨ms, pre, y, x.before ++ front, back,
        ⟨haround.commas, haround.stops, ?_, ?_, haround.range⟩,
        .inr ⟨List.cons_ne_nil _ _, List.append_ne_nil_of_left_ne_nil (Node.before_ne_nil hx) _,
          ?_⟩⟩
      · rw [hin.text, List.append_assoc, List.append_assoc, haround.all, List.append_assoc]
      · rw [Node.erase_cons hp hx, Node.text_setChild hx, List.append_assoc, List.append_assoc,
          haround.without, List.append_assoc]
      · rcases hwhere with ⟨-, -, -, rfl⟩ | ⟨-, -, hback⟩
        · exact List.append_ne_nil_of_left_ne_nil hin.stops.ne_nil _
        · exact hback

/-! ## Deleting -/

section Around

variable {ms : Node .members} {s pre : Bytes} {x : Place} {front back all without : Bytes}
  {rj : Rangstr} (h : Around ms s pre x front back all without rj)
include h

/-- What is stored. -/
theorem Around.remove (hs : 34 ∉ s) (hlength : all.length < 2147483648) :
    jsonRemove all front.length (aroundText pre s x.value (x.after ++ back)) rj.f rj.t =
      all.take (max 1 pre.length) ++ (if (x.after ++ back).length ≠ 1 then (x.after ++ back).drop 1
        else x.after ++ back) := by
  have hpost := h.stops.headD_ne_quote back
  have hshort : (aroundText pre s x.value (x.after ++ back)).length < 2147483648 := by
    rw [h.all, List.length_append] at hlength
    omega
  rw [h.all, h.range]
  exact jsonRemove_eq front hs hpost hshort

theorem Around.length_le (hs : 34 ∉ s) (hlength : all.length < 2147483648) :
    (jsonRemove all front.length (aroundText pre s x.value (x.after ++ back)) rj.f rj.t).length ≤
      max 1 pre.length + (if x.after.length + back.length = 1 then 1
        else x.after.length + back.length - 1) := by
  rw [h.remove hs hlength, List.length_append, List.length_take]
  split
  · next hne =>
      rw [List.length_append] at hne
      rw [List.length_drop, List.length_append, if_neg hne]
      omega
  · next heq =>
      rw [not_not, List.length_append] at heq
      rw [List.length_append, if_pos heq]
      omega

/-- The bytes of what is stored are bytes of the document. -/
theorem Around.zero_notMem_remove (hs : 34 ∉ s) (hlength : all.length < 2147483648)
    (hzero : (0 : UInt8) ∉ all) :
    0 ∉ jsonRemove all front.length (aroundText pre s x.value (x.after ++ back)) rj.f rj.t := by
  have hback : (0 : UInt8) ∉ x.after ++ back := by
    rw [h.all, aroundText] at hzero
    simp only [List.mem_cons, List.mem_append, not_or] at hzero
    rw [List.mem_append, not_or]
    tauto
  rw [h.remove hs hlength, List.mem_append, not_or]
  refine ⟨fun hmem ↦ hzero (List.mem_of_mem_take hmem), fun hmem ↦ ?_⟩
  split at hmem
  · exact hback (List.mem_of_mem_drop hmem)
  · exact hback hmem

theorem Around.remove_ne_nil (hs : 34 ∉ s) (hlength : all.length < 2147483648) :
    jsonRemove all front.length (aroundText pre s x.value (x.after ++ back)) rj.f rj.t ≠ [] := by
  have hpos : 0 < max 1 pre.length := by omega
  rw [h.remove hs hlength]
  refine List.append_ne_nil_of_left_ne_nil (fun hnil ↦ ?_) _
  have hall : all = [] := (List.take_eq_nil_iff.mp hnil).resolve_left hpos.ne'
  rw [h.all, aroundText] at hall
  exact List.cons_ne_nil _ _ (List.append_eq_nil_iff.mp hall).2

/-- What is stored is not longer than the document. -/
theorem Around.length_remove_le (hs : 34 ∉ s) (hlength : all.length < 2147483648) :
    (jsonRemove all front.length (aroundText pre s x.value (x.after ++ back)) rj.f rj.t).length ≤
      all.length := by
  have hle := h.length_le hs hlength
  have hall := congrArg List.length h.all
  rw [aroundText] at hall
  simp only [List.length_append, List.length_cons] at hall
  split at hle
  · omega
  · omega

/-- The call stores what is left of the text, and it is read back. -/
theorem Around.stores (hs : 34 ∉ s) {st : Sdb × World} (hm : st.1.Memory) {k path val : CStr}
    (hval : sdbGet st.1 st.2 k = some val) (hall : val.val = all)
    (hget : jsonGet all path.val = some rj) :
    ∃ (st' : Sdb × World) (y : CStr), sdbJsonSet st.1 st.2 k path CStr.empty 0 = some (true, st') ∧
      sdbGet st'.1 st'.2 k = some y ∧
      y.val =
        jsonRemove all front.length (aroundText pre s x.value (x.after ++ back)) rj.f rj.t := by
  obtain ⟨hcell, hne⟩ := Cell.of_some hm hval
  have hdoc := hcell.length_lt
  rw [CStr.length, hall] at hdoc
  have hlength : all.length < 2147483648 := by omega
  have hzero := h.zero_notMem_remove hs hlength (hall ▸ val.property)
  have hle := h.length_remove_le hs hlength
  have hnil := h.remove_ne_nil hs hlength
  obtain ⟨z, hz⟩ : ∃ z, jsonRemove all front.length
    (aroundText pre s x.value (x.after ++ back)) rj.f rj.t = z := ⟨_, rfl⟩
  rw [hz] at hzero hle hnil
  have hzval : (CStr.ofBytes z).val = z := CStr.val_ofBytes hzero
  have hset : sdbJsonSet st.1 st.2 k path CStr.empty 0 =
      some (true, (sdbSetInternal st.1 st.2 k (CStr.ofBytes z) true 0).2) := by
    obtain ⟨c, hconst, -⟩ := hcell.get
    have hbase : val.length - (aroundText pre s x.value (x.after ++ back)).length =
        front.length := by
      rw [CStr.length, hall, h.all, List.length_append, Nat.add_sub_cancel]
    have hrange : rj.p = some (aroundText pre s x.value (x.after ++ back)) := by
      rw [h.range]
    rw [sdbJsonSet, hconst, readAs_of_ne hne]
    simp only [ne_eq, not_true_eq_false, false_and, if_false, hall, hget, Option.bind_some,
      hrange, if_true, hbase, hz]
    rfl
  have hcell' := hcell.write (y := CStr.ofBytes z)
    (by rw [CStr.length, hzval]; exact Nat.lt_of_le_of_lt hle hdoc) true (.inl rfl)
  refine ⟨_, CStr.ofBytes z, hset, ?_, hzval.trans hz.symm⟩
  rw [hcell'.sdbGet, readAs_of_ne]
  intro hempty
  rw [hempty] at hzval
  exact hnil hzval.symm

/-- How long the right text is. -/
theorem Around.length_without : without.length =
    front.length + 1 + (ms.dropText s).length + back.length := by
  rw [h.without]
  simp only [List.length_append, List.length_cons]
  omega

/-- At the root, and with one comma. -/
theorem Around.remove_root (hs : 34 ∉ s) (hlength : all.length < 2147483648) (hfront : front = [])
    (hback : back = []) (hend : ms.names.idxOf s = 0 ∨ ms.names.idxOf s + 1 = ms.names.length) :
    jsonRemove all front.length
      (aroundText pre s x.value (x.after ++ back)) rj.f rj.t = without := by
  subst hfront hback
  have hall : ∃ r, all = 123 :: (pre ++ r) := by
    rw [h.all, aroundText]
    exact ⟨_, rfl⟩
  obtain ⟨r, hall⟩ := hall
  rw [h.remove hs hlength, h.without, hall, List.append_nil, List.append_nil, List.nil_append]
  rcases h.commas.last with ⟨hafter, -, hleft⟩ | ⟨⟨post, hafter, hpost, hleft⟩, hnotlast⟩
  · rw [hafter, hleft, if_neg (by decide)]
    rcases h.commas.first with ⟨rfl, -⟩ | ⟨⟨pre', rfl, hpre⟩, -⟩
    · rfl
    · have hpos := List.length_pos_iff.mpr hpre
      have hmax : max 1 (pre' ++ [44]).length = pre'.length + 1 := by
        rw [List.length_append, List.length_singleton]
        omega
      rw [hmax, List.take_succ_cons, List.append_assoc, List.take_left, List.dropLast_concat]
      rfl
  · have hlen : post.length + 1 ≠ 1 := by
      have hpos := List.length_pos_iff.mpr hpost
      omega
    rcases h.commas.first with ⟨rfl, -⟩ | ⟨-, hnotfirst⟩
    · rw [hafter, hleft, List.length_cons, if_pos hlen]
      rfl
    · exact absurd hend (not_or.mpr ⟨hnotfirst, hnotlast⟩)

/-- Otherwise it is too short. -/
theorem Around.remove_short (hs : 34 ∉ s) (hlength : all.length < 2147483648)
    (hwhere : (front ≠ [] ∧ back ≠ []) ∨
      (front = [] ∧ ¬ (ms.names.idxOf s = 0 ∨ ms.names.idxOf s + 1 = ms.names.length))) :
    (jsonRemove all front.length
      (aroundText pre s x.value (x.after ++ back)) rj.f rj.t).length < without.length := by
  have hle := h.length_le hs hlength
  have hwithout := h.length_without
  have hlast : (x.after.length = 1 ∧ (ms.dropText s).length = pre.length - 1 + 1) ∨
      (2 ≤ x.after.length ∧ (ms.dropText s).length = pre.length + (x.after.length - 1) ∧
        ms.names.idxOf s + 1 ≠ ms.names.length) := by
    rcases h.commas.last with ⟨hafter, -, hleft⟩ | ⟨⟨post, hafter, hpost, hleft⟩, hnotlast⟩
    · refine .inl ⟨by rw [hafter]; rfl, ?_⟩
      rw [hleft, List.length_append, List.length_dropLast]
      rfl
    · have hpos := List.length_pos_iff.mpr hpost
      refine .inr ⟨by rw [hafter, List.length_cons]; omega, ?_, hnotlast⟩
      rw [hleft, hafter, List.length_append, List.length_cons]
      omega
  rcases hwhere with ⟨hfront, hback⟩ | ⟨rfl, hmiddle⟩
  · have hfront' := List.length_pos_iff.mpr hfront
    have hback' := List.length_pos_iff.mpr hback
    rcases hlast with ⟨hafter, hleft⟩ | ⟨hafter, hleft, -⟩
    · rw [if_neg (by omega)] at hle
      omega
    · rw [if_neg (by omega)] at hle
      omega
  · obtain ⟨hnotfirst, hnotlast⟩ := not_or.mp hmiddle
    have hpre : 0 < pre.length := by
      rcases h.commas.first with ⟨-, hfirst⟩ | ⟨⟨pre', rfl, -⟩, -⟩
      · exact absurd hfirst hnotfirst
      · rw [List.length_append, List.length_singleton]
        omega
    rcases hlast with ⟨hafter, -⟩ | ⟨hafter, hleft, -⟩
    · rcases h.commas.last with ⟨-, hlast, -⟩ | ⟨⟨post, hpost, hne, -⟩, -⟩
      · exact absurd hlast hnotlast
      · have hpos := List.length_pos_iff.mpr hne
        rw [hpost, List.length_cons] at hafter
        omega
    · rw [if_neg (by omega)] at hle
      rw [List.length_nil] at hwithout
      omega

end Around

/-- A call stores the document without the member that the path leads to. -/
def Deletes (st : Sdb × World) (k path : CStr) (d : Doc) (p : List Step) : Prop :=
  ∃ st' : Sdb × World, sdbJsonSet st.1 st.2 k path CStr.empty 0 = some (true, st') ∧
    ∃ (d' : Doc) (y : CStr), sdbGet st'.1 st'.2 k = some y ∧ y.val = d'.text ∧
      d'.root.strip = d.root.erase p

/-- **Deleting.**  The member goes, and nothing else, if it is one of the root and the first or the
last one. -/
theorem sdbJsonSet_deletes_iff {st : Sdb × World} (hm : st.1.Memory) {k path x : CStr}
    (hx : sdbGet st.1 st.2 k = some x) {d : Doc} (hd : x.val = d.text) (hbefore : d.before.val = [])
    (hafter : d.after.val = []) (hstrip : d.root.strip = d.root) {s : Step} {p : List Step}
    (hpath : path.val = pathText (s :: p)) (hs : s.Spelled) (hspelled : ∀ x ∈ p, x.Spelled)
    (hlength : path.length < 2147483648) {q : List Step} {name : Bytes}
    (hname : s :: p = q ++ [.name name]) (hw : (d.root.lookup (s :: p)).isSome = true)
    (hreads : Reads d s p) :
    Deletes st k path d (s :: p) ↔ p = [] ∧
      (d.names.idxOf name = 0 ∨ d.names.idxOf name + 1 = d.names.length) := by
  have hdoc := (Cell.of_some hm hx).1.length_lt
  rw [CStr.length, hd] at hdoc
  have htext : d.text = d.root.text ++ d.after.val := by rw [Doc.text, hbefore, List.nil_append]
  obtain ⟨w, hlocate⟩ : ∃ w, d.root.locate (s :: p) d.after.val = some w := by
    rw [← Node.locate_fst (s :: p) d.root d.after.val, Option.isSome_map] at hw
    exact Option.isSome_iff_exists.mp hw
  have hplain : d.root.plain = true := by
    have h := hreads.2
    rw [hlocate] at h
    exact h.1
  rw [CStr.length, hpath] at hlength
  obtain ⟨rj, hget, hreached⟩ := jsonGet_reached (by omega) hs hspelled hlength hlocate hreads
  obtain ⟨ms, pre, y, front, back, haround, hwhere⟩ := hreached.around hplain hstrip htext hname
  rw [← htext] at haround
  have hquote : (34 : UInt8) ∉ name := by
    have hlast : Step.Spelled (.name name) := by
      have hall : ∀ x ∈ s :: p, x.Spelled := List.forall_mem_cons.mpr ⟨hs, hspelled⟩
      exact hall _ (hname ▸ List.mem_append_right _ List.mem_cons_self)
    exact fun h ↦ (hlast 34 h).2.2.1 rfl
  have hshort : d.text.length < 2147483648 := by omega
  rw [← hpath] at hget
  obtain ⟨st', z, hset, hread, hz⟩ := haround.stores hquote hm hx hd hget
  have hwithout : (d.root.erase (s :: p)).text ++ d.after.val = (d.root.erase (s :: p)).text := by
    rw [hafter, List.append_nil]
  rw [hwithout] at haround
  constructor
  · rintro ⟨st'', hset', d', y', hget', hy', hstrip'⟩
    rw [hset] at hset'
    cases hset'
    rw [hread] at hget'
    cases hget'
    by_contra hno
    have hends : (front ≠ [] ∧ back ≠ []) ∨
        (front = [] ∧ ¬ (ms.names.idxOf name = 0 ∨ ms.names.idxOf name + 1 = ms.names.length)) := by
      rcases hwhere with ⟨rfl, hroot, hfront, -⟩ | ⟨-, hfront, hback⟩
      · refine .inr ⟨hfront, fun hend ↦ hno ⟨(List.cons.inj hname).2, ?_⟩⟩
        rw [Doc.names, hroot]
        exact hend
      · exact .inl ⟨hfront, hback⟩
    have hlt := haround.remove_short hquote hshort hends
    have hstripped := Node.length_strip_le d'.root
    have hroot : d'.root.text.length ≤ d'.text.length := by
      rw [Doc.text, List.length_append, List.length_append]
      omega
    rw [hstrip'] at hstripped
    rw [← hy', hz] at hroot
    omega
  · rintro ⟨rfl, hend⟩
    have hq : q = [] := by
      have hlen := congrArg List.length hname
      rw [List.length_append, List.length_singleton, List.length_singleton] at hlen
      exact List.eq_nil_of_length_eq_zero (by omega)
    obtain ⟨-, hroot, hfront, hback⟩ := hwhere.resolve_right fun h ↦ h.1 hq
    rw [Doc.names, hroot] at hend
    have hright := haround.remove_root hquote hshort hfront (hback.trans hafter) hend
    have hstep : s = .name name := by
      rw [hq] at hname
      exact (List.cons.inj hname).1
    have herase : d.root.erase [s] = d.root.eraseMember name := by
      rw [hstep]
      rfl
    have hcontainer : (d.root.eraseMember name).isContainer = true := by
      rw [hroot, Node.eraseMember]
      split
      · rfl
      · rfl
    refine ⟨st', hset, ⟨.none, d.root.eraseMember name, .none, hcontainer⟩, z, hread, ?_, ?_⟩
    · rw [hz, hright, herase]
      exact (List.append_nil _).symm
    · rw [herase]
      exact Node.strip_eraseMember hstrip name

theorem reads_flatMembers : Reads flatMembers (.name [99]) [] := by
  have hlocate : flatMembers.root.locate [.name [99]] flatMembers.after.val =
      some (.word literalTrue, [125]) := rfl
  refine ⟨fun _ ↦ rfl, ?_⟩
  rw [hlocate]
  exact ⟨rfl, fun _ _ ↦ rfl, fun _ h ↦ absurd h List.not_mem_nil,
    fun _ h ↦ absurd h List.not_mem_nil⟩

/-- The last of three members. -/
theorem sdbJsonSet_deletes_flatMembers :
    Deletes (memDoc flatMembers) (CStr.ofBytes [107]) (CStr.ofBytes [99]) flatMembers [.name [99]] ↔
      ([] : List Step) = [] ∧
        (flatMembers.names.idxOf [99] = 0 ∨
          flatMembers.names.idxOf [99] + 1 = flatMembers.names.length) :=
  @sdbJsonSet_deletes_iff (memDoc flatMembers)
    (memory_memWith (by decide) fun v hv ↦ by cases hv; decide) (CStr.ofBytes [107])
    (CStr.ofBytes [99]) (CStr.ofBytes flatMembers.text) (by decide +kernel) flatMembers (by decide)
    rfl rfl rfl (.name [99]) [] (by decide) (List.forall_mem_singleton.mpr (by decide))
    (fun _ h ↦ absurd h List.not_mem_nil) (by decide) [] [99] rfl rfl reads_flatMembers

/-- `{"a":1,"b":1,"c":1}`. -/
def threeMembers : Doc :=
  ⟨.none, .object (.member (Name.bare [.char 'a' plain_a]) (.word one) .none
    (.member (Name.bare [.char 'b' plain_b]) (.word one) .none
      (.lastMember (Name.bare [.char 'c' plain_c]) (.word one) .none))), .none, rfl⟩

/-- The member between the others goes with both commas. -/
theorem not_sdbJsonSet_deletes :
    ¬ Deletes (memDoc threeMembers) (CStr.ofBytes [107]) (CStr.ofBytes [98]) threeMembers
      [.name [98]] := by
  rintro ⟨st', hset, d', y, hget, hy, hstrip⟩
  have hlength : ((sdbJsonSet (memDoc threeMembers).1 (memDoc threeMembers).2 (CStr.ofBytes [107])
      (CStr.ofBytes [98])
      CStr.empty 0).map fun r ↦ (sdbGet r.2.1 r.2.2 (CStr.ofBytes [107])).map CStr.length) =
        some (some 12) := by
    decide +kernel
  have herase : (threeMembers.root.erase [.name [98]]).text.length = 13 := by decide
  rw [hset, Option.map_some, hget, Option.map_some] at hlength
  have hy' : y.val.length = 12 := Option.some.inj (Option.some.inj hlength)
  have hle := Node.length_strip_le d'.root
  rw [hstrip, herase] at hle
  rw [hy, Doc.text, List.length_append, List.length_append] at hy'
  omega

end SdbStore.Json
