import Mathlib.Data.List.Nodup
import Mathlib.Data.List.Perm.Basic
import Mathlib.Tactic.Common

/-!
# Lists of entries with distinct keys

A list of entries whose keys are pairwise distinct is a finite map.  What it maps a
key to does not depend on the order of the entries, so a data structure that keeps
its entries in some order of its own is described by the entries up to permutation.
-/

namespace SdbStore.Lib.Keyed

universe u v

variable {E : Type u} {K : Type v} [DecidableEq K] (key : E → K)

/-- The entry with key `k`. -/
def lookup (l : List E) (k : K) : Option E := l.find? fun e ↦ decide (key e = k)

/-- The keys are pairwise distinct. -/
def Distinct (l : List E) : Prop := (l.map key).Nodup

/-- The entries with other keys. -/
def erase (l : List E) (k : K) : List E := l.filter fun e ↦ decide (key e ≠ k)

variable {key} {l l' : List E} {k : K} {e : E}

theorem mem_erase : e ∈ erase key l k ↔ e ∈ l ∧ key e ≠ k := by
  simp [erase]

variable (key) in
theorem lookup_cons (e : E) (l : List E) (k : K) :
    lookup key (e :: l) k = if key e = k then some e else lookup key l k := by
  rw [lookup, List.find?_cons]
  by_cases h : key e = k
  · rw [if_pos h, decide_eq_true h]
  · rw [if_neg h, decide_eq_false h]
    rfl

variable (key) in
theorem lookup_append (l l' : List E) (k : K) :
    lookup key (l ++ l') k = (lookup key l k).or (lookup key l' k) :=
  List.find?_append

theorem lookup_eq_none_iff : lookup key l k = none ↔ ∀ e ∈ l, key e ≠ k := by
  simp [lookup]

variable (key) in
theorem lookup_isSome_of_mem (he : e ∈ l) : (lookup key l (key e)).isSome := by
  rw [Option.isSome_iff_ne_none, ne_eq, lookup_eq_none_iff]
  exact fun h ↦ h e he rfl

theorem lookup_some_mem (h : lookup key l k = some e) : e ∈ l ∧ key e = k :=
  ⟨List.mem_of_find?_eq_some h, by simpa using List.find?_some h⟩

omit [DecidableEq K] in
theorem Distinct.eq_of_key_eq (hl : Distinct key l) {e' : E} (he : e ∈ l) (he' : e' ∈ l)
    (hk : key e = key e') : e = e' :=
  List.inj_on_of_nodup_map hl he he' hk

theorem Distinct.lookup_eq_some_iff (hl : Distinct key l) :
    lookup key l k = some e ↔ e ∈ l ∧ key e = k := by
  constructor
  · exact lookup_some_mem
  · rintro ⟨he, rfl⟩
    obtain ⟨e', he'⟩ := Option.isSome_iff_exists.mp (lookup_isSome_of_mem key he)
    obtain ⟨hmem, hkey⟩ := lookup_some_mem he'
    rw [he', hl.eq_of_key_eq hmem he hkey]

/-- With distinct keys, the entries with key `k` are at most one. -/
theorem Distinct.filter_eq (hl : Distinct key l) (k : K) :
    l.filter (fun e ↦ decide (key e = k)) = (lookup key l k).toList := by
  induction l with
  | nil => rfl
  | cons e l ih =>
      obtain ⟨hnot, hl⟩ := List.nodup_cons.mp hl
      rw [lookup_cons, List.filter_cons]
      by_cases hk : key e = k
      · have hnone : lookup key l k = none :=
          lookup_eq_none_iff.mpr fun e' he' h ↦ hnot (hk.trans h.symm ▸ List.mem_map_of_mem he')
        rw [if_pos (by simpa using hk), if_pos hk, ih hl, hnone]
        rfl
      · rw [if_neg (by simpa using hk), if_neg hk, ih hl]

/-- The lookup is the first of the entries with key `k`. -/
theorem head?_filter (l : List E) (k : K) :
    (l.filter fun e ↦ decide (key e = k)).head? = lookup key l k := by
  rw [List.head?_filter]
  rfl

/-- Selecting by key commutes with a partial map that keeps keys. -/
theorem filter_filterMap {F : Type u} {key' : F → K} {f : E → Option F}
    (hf : ∀ e b, f e = some b → key' b = key e) (l : List E) (k : K) :
    (l.filterMap f).filter (fun b ↦ decide (key' b = k)) =
      (l.filter fun e ↦ decide (key e = k)).filterMap f := by
  induction l with
  | nil => rfl
  | cons e l ih =>
      rw [List.filterMap_cons, List.filter_cons]
      cases hb : f e with
      | none =>
          dsimp only
          rw [ih]
          split
          · rw [List.filterMap_cons, hb]
          · rfl
      | some b =>
          dsimp only
          rw [List.filter_cons, ih, hf e b hb]
          split
          · rw [List.filterMap_cons, hb]
          · rfl

omit [DecidableEq K] in
theorem Distinct.perm (hl : Distinct key l) (hp : l.Perm l') : Distinct key l' :=
  (hp.map key).nodup_iff.mp hl

theorem Distinct.erase (hl : Distinct key l) (k : K) : Distinct key (erase key l k) :=
  List.Nodup.sublist (List.filter_sublist.map key) hl

theorem Distinct.cons_erase (hl : Distinct key l) (e : E) :
    Distinct key (e :: Keyed.erase key l (key e)) := by
  rw [Distinct, List.map_cons, List.nodup_cons]
  refine ⟨?_, hl.erase (key e)⟩
  rw [List.mem_map]
  rintro ⟨x, hx, hxe⟩
  exact (mem_erase.mp hx).2 hxe

/-- Lookup does not see the order of the entries. -/
theorem Distinct.lookup_perm (hl : Distinct key l) (hp : l.Perm l') (k : K) :
    lookup key l k = lookup key l' k := by
  apply Option.ext
  intro e
  rw [hl.lookup_eq_some_iff, (hl.perm hp).lookup_eq_some_iff, hp.mem_iff]

/-- Entries that are looked up alike are the same up to their order. -/
theorem Distinct.perm_of_lookup (hl : Distinct key l) (hl' : Distinct key l')
    (h : ∀ k, lookup key l k = lookup key l' k) : l.Perm l' := by
  refine (List.perm_ext_iff_of_nodup (List.Nodup.of_map key hl) (List.Nodup.of_map key hl')).mpr ?_
  intro e
  have he := h (key e)
  constructor
  · intro hmem
    rw [hl.lookup_eq_some_iff.mpr ⟨hmem, rfl⟩] at he
    exact (lookup_some_mem he.symm).1
  · intro hmem
    rw [hl'.lookup_eq_some_iff.mpr ⟨hmem, rfl⟩] at he
    exact (lookup_some_mem he).1

theorem lookup_erase (l : List E) (k k' : K) :
    lookup key (erase key l k) k' = if k' = k then none else lookup key l k' := by
  by_cases h : k' = k
  · subst h
    rw [if_pos rfl, lookup_eq_none_iff]
    exact fun e he ↦ (mem_erase.mp he).2
  · rw [if_neg h, lookup, erase, List.find?_filter]
    congr 1
    funext e
    by_cases he : key e = k'
    · simp [he, h]
    · simp [he]

theorem lookup_cons_erase (l : List E) (e : E) (k : K) :
    lookup key (e :: erase key l (key e)) k = if k = key e then some e else lookup key l k := by
  rw [lookup, List.find?_cons]
  by_cases h : k = key e
  · subst h
    simp
  · rw [if_neg h, show decide (key e = k) = false by simp [Ne.symm h]]
    change lookup key (erase key l (key e)) k = _
    rw [lookup_erase, if_neg h]

/-- An entry with a new key is erased from nothing. -/
theorem erase_of_lookup_none (h : lookup key l k = none) : erase key l k = l := by
  rw [erase, List.filter_eq_self]
  exact fun e he ↦ by simpa using lookup_eq_none_iff.mp h e he

/-- Replacing the entry with key `k` where it stands, up to the order. -/
theorem Distinct.replace_perm {a b : List E} {x : E} (hl : Distinct key (a ++ x :: b))
    (hk : key x = key e) : (a ++ e :: b).Perm (e :: Keyed.erase key (a ++ x :: b) (key e)) := by
  refine List.perm_middle.trans (List.Perm.cons e (List.Perm.of_eq ?_))
  have hx : ∀ y ∈ a ++ b, key y ≠ key e := by
    intro y hy hye
    have hn := (hl.perm List.perm_middle)
    rw [Distinct, List.map_cons, List.nodup_cons] at hn
    exact hn.1 (List.mem_map.mpr ⟨y, hy, hye.trans hk.symm⟩)
  rw [Keyed.erase, List.filter_append, List.filter_cons_of_neg (by simp [hk]), ← List.filter_append,
    eq_comm, List.filter_eq_self]
  exact fun y hy ↦ by simpa using hx y hy

omit [DecidableEq K] in
theorem exists_of_getElem? {i : Nat} (h : l[i]? = some e) :
    ∃ a b, l = a ++ e :: b ∧ a.length = i := by
  obtain ⟨hi, rfl⟩ := List.getElem?_eq_some_iff.mp h
  refine ⟨l.take i, l.drop (i + 1), ?_, List.length_take_of_le (Nat.le_of_lt hi)⟩
  rw [← List.drop_eq_getElem_cons hi, List.take_append_drop]

/-- An entry is changed where it stands, and keeps its key. -/
theorem Distinct.lookup_modify (hl : Distinct key l) {i : Nat} (hi : l[i]? = some e) {f : E → E}
    (hf : key (f e) = key e) (k : K) :
    lookup key (l.modify i f) k = if k = key e then some (f e) else lookup key l k := by
  obtain ⟨a, b, rfl, rfl⟩ := exists_of_getElem? hi
  have hmodify : (a ++ e :: b).modify a.length f = a ++ f e :: b := by
    rw [List.modify_eq_take_cons_drop (by simp)]
    simp
  have hperm := hl.replace_perm (e := f e) hf.symm
  rw [hmodify, ((hl.cons_erase (f e)).perm hperm.symm).lookup_perm hperm, lookup_cons_erase, hf]

/-- An entry is taken out where it stands. -/
theorem Distinct.lookup_eraseIdx (hl : Distinct key l) {i : Nat} (hi : l[i]? = some e) (k : K) :
    lookup key (l.eraseIdx i) k = if k = key e then none else lookup key l k := by
  obtain ⟨a, b, rfl, rfl⟩ := exists_of_getElem? hi
  have herase : (a ++ e :: b).eraseIdx a.length = a ++ b := by
    rw [List.eraseIdx_append_of_length_le (Nat.le_refl _), Nat.sub_self, List.eraseIdx_zero,
      List.tail_cons]
  have hd := hl.perm List.perm_middle
  rw [herase, hl.lookup_perm List.perm_middle, lookup_cons]
  by_cases hk : k = key e
  · rw [if_pos hk, lookup_eq_none_iff, hk]
    intro x hx hxe
    exact (List.nodup_cons.mp hd).1 (hxe ▸ List.mem_map_of_mem hx)
  · rw [if_neg hk, if_neg (Ne.symm hk)]

omit [DecidableEq K] in
/-- Blocks whose elements carry the key of their block have nothing in common. -/
theorem nodup_flatMap_of_key {α : Type u} {β : Type v} {name : α → K} {l : List α}
    (hl : (l.map name).Nodup) {f : α → List β} (hf : ∀ a ∈ l, (f a).Nodup) (tag : β → K)
    (htag : ∀ a ∈ l, ∀ x ∈ f a, tag x = name a) : (l.flatMap f).Nodup := by
  rw [List.nodup_flatMap]
  refine ⟨hf, (List.pairwise_map.mp hl).imp_of_mem ?_⟩
  intro a b ha hb hne x hx hx'
  exact hne ((htag a ha x hx).symm.trans (htag b hb x hx'))

end SdbStore.Lib.Keyed
