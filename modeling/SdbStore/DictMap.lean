import SdbStore.Lib.Simulation
import SdbStore.Dict
import Mathlib.Data.Finmap

/-!
# The integer dictionary is a finite map

The operations of `dict.c` are compared with those on a finite map from keys other than 0, along
every run of a dictionary whose table has a size from 1 to 2^31.  A dictionary of size 0 takes no
entries, and in a larger one the index of a bucket, an `int`, may be negative.
-/

namespace SdbStore

open Lib

variable {U : Type}

/-- A key. -/
abbrev DictKey := { k : UInt64 // k ≠ 0 }

/-- The operations on a dictionary. -/
inductive DictCall (U : Type) where
  | set (k : DictKey) (v : UInt64) (u : Option U)
  | add (k : DictKey) (v : UInt64) (u : Option U)
  | del (k : DictKey)
  | get (k : DictKey)
  | getu (k : DictKey)

/-- What an operation returns. -/
inductive DictResult (U : Type) where
  | ret (ok : Bool)
  | deleted (ok : Bool) (freed : List (Option U))
  | value (v : UInt64)
  | pointer (u : Option U)
deriving DecidableEq

/-- An operation on a dictionary, if it does not leave the memory of the dictionary. -/
def dictCall (m : Dict U) : DictCall U → Option (DictResult U × Dict U)
  | .set k v u => (dictSet m k v u).map fun r ↦ (.ret r.1, r.2)
  | .add k v u => (dictAdd m k v u).map fun r ↦ (.ret r.1, r.2)
  | .del k => (dictDel m k).map fun r ↦ (.deleted r.1 r.2.1, r.2.2)
  | .get k => (dictGet m k).map fun v ↦ (.value v, m)
  | .getu k => (dictGetu m k).map fun u ↦ (.pointer u, m)

/-- A step of a run; `none` for one that has no result. -/
def dictStep (m : Dict U) (c : DictCall U) : Option (DictResult U) × Dict U :=
  match dictCall m c with
  | some (r, m') => (some r, m')
  | none => (none, m)

/-- What a dictionary is for: a finite map. -/
abbrev DictMap (U : Type) := Finmap fun _ : UInt64 ↦ UInt64 × Option U

/-- An operation on the map; `f` tells whether deleted values are freed. -/
def dictSpec (f : Bool) (a : DictMap U) : DictCall U → Option (DictResult U) × DictMap U
  | .set k v u => (some (.ret true), a.insert k.val (v, u))
  | .add k v u =>
      if k.val ∈ a then (some (.ret false), a) else (some (.ret true), a.insert k.val (v, u))
  | .del k =>
      match a.lookup k.val with
      | none => (some (.deleted false []), a)
      | some (_, u) => (some (.deleted true (if f then [u] else [])), a.erase k.val)
  | .get k => (some (.value ((a.lookup k.val).elim 0 Prod.fst)), a)
  | .getu k => (some (.pointer ((a.lookup k.val).elim none Prod.snd)), a)

/-- An operation that may put a new entry into a bucket finds room for it. -/
def Dict.Allowed (m : Dict U) : DictCall U → Prop
  | .set k _ _ => m.Room k
  | .add k _ _ => m.Room k
  | .del _ => True
  | .get _ => True
  | .getu _ => True

instance Dict.decidableAllowed (m : Dict U) : (c : DictCall U) → Decidable (m.Allowed c)
  | .set k _ _ => m.decidableRoom k
  | .add k _ _ => m.decidableRoom k
  | .del _ => .isTrue trivial
  | .get _ => .isTrue trivial
  | .getu _ => .isTrue trivial

/-! ## Refinement -/

/-- The dictionary has the entries of the map. -/
structure Dict.Represents (m : Dict U) (a : DictMap U) : Prop where
  wf : m.WF
  lookup : ∀ k, a.lookup k = (Keyed.lookup Dictkv.k m.entries k).map fun kv ↦ (kv.v, kv.u)

theorem dictInit_wf {size : UInt32} (hpos : size ≠ 0) (hsize : size.toNat ≤ 2 ^ 31) (f : Bool) :
    (dictInit size f : Dict U).WF where
  ht := by
    have htoHt : (dictInit size f : Dict U).toHt = internalHtNew size.toNat 0 := by
      simp [Dict.toHt, dictInit, internalHtNew, liveKvs]
    rw [htoHt]
    exact internalHtNew_wf (UInt32.pos_iff_ne_zero.mpr hpos) 0
  size := hsize
  sentinel arr harr := by
    cases List.eq_of_mem_replicate harr

theorem entries_dictInit (size : UInt32) (f : Bool) : (dictInit size f : Dict U).entries = [] := by
  simp [Dict.entries, Dict.toHt, dictInit, liveKvs, Ht.toList]

/-- A new dictionary is empty. -/
theorem represents_dictInit {size : UInt32} (hpos : size ≠ 0) (hsize : size.toNat ≤ 2 ^ 31)
    (f : Bool) : (dictInit size f : Dict U).Represents ∅ where
  wf := dictInit_wf hpos hsize f
  lookup k := by
    rw [entries_dictInit, Finmap.lookup_empty]
    rfl

/-- What `dict_foreach` visits, with a callback that returns 0: the entries of the map, and each key
once. -/
def Dict.Visits (m : Dict U) (a : DictMap U) : Prop :=
  ∃ entries : List (Dictkv U), (entries.map Dictkv.k).Nodup ∧
    (∀ kv, kv ∈ entries ↔ a.lookup kv.k = some (kv.v, kv.u)) ∧
    ∀ {σ : Type} (cb : σ → Dictkv U → Int × σ), (∀ user kv, (cb user kv).1 = 0) → ∀ user,
      dictForeach m cb user = some (entries.foldl (fun user kv ↦ (cb user kv).2) user)

/-- What `dict_stats` counts in the buckets: the keys of the map. -/
def Dict.Counts (m : Dict U) (a : DictMap U) : Prop :=
  ∃ counts : Nat → Nat,
    (∀ nb < m.size.toNat, dictStats m (UInt32.ofNat nb) = some (counts nb)) ∧
    ((List.range m.size.toNat).map counts).sum = a.keys.card

section Refine

variable {m : Dict U} {a : DictMap U} (hr : m.Represents a)
include hr

theorem Dict.Represents.mem_iff (k : UInt64) : k ∈ a ↔ ∃ kv ∈ m.entries, kv.k = k := by
  have hne : k ∈ a ↔ Keyed.lookup Dictkv.k m.entries k ≠ none := by
    rw [← Finmap.lookup_isSome, hr.lookup, Option.isSome_map, Option.isSome_iff_ne_none]
  rw [hne, Ne, Keyed.lookup_eq_none_iff]
  push Not
  exact Iff.rfl

theorem Dict.Represents.getr (k : UInt64) :
    dictGetr m k = some (Keyed.lookup Dictkv.k m.entries k) := by
  rw [dictGetr_eq hr.wf, htFindKv_eq dictOpt_lawful hr.wf.ht]
  rfl

theorem Dict.Represents.set {k : UInt64} (hk : k ≠ 0) (v : UInt64) (u : Option U)
    (hroom : m.Room k) :
    ∃ m', dictSet m k v u = some (true, m') ∧ m'.f = m.f ∧ m'.Represents (a.insert k (v, u)) := by
  obtain ⟨m', hset, hw', hf, hperm⟩ := dictSet_spec hr.wf hk v u hroom
  refine ⟨m', hset, hf, hw', fun k' ↦ ?_⟩
  have hdistinct : Keyed.Distinct Dictkv.k m'.entries := hw'.ht.distinct
  rw [hdistinct.lookup_perm hperm, Keyed.lookup_cons_erase]
  split
  · next hk' =>
      subst hk'
      exact Finmap.lookup_insert a
  · next hk' =>
      rw [← hr.lookup]
      exact Finmap.lookup_insert_of_ne a hk'

/-- **One operation**: the dictionary answers as the map does, and has the entries of the map
again. -/
theorem Dict.Represents.step (c : DictCall U) (hallowed : m.Allowed c) :
    (dictStep m c).1 = (dictSpec m.f a c).1 ∧ (dictStep m c).2.f = m.f ∧
      (dictStep m c).2.Represents (dictSpec m.f a c).2 := by
  cases c with
  | set k v u =>
      obtain ⟨m', hset, hf, hr'⟩ := hr.set k.2 v u hallowed
      rw [dictStep, dictCall, hset]
      exact ⟨rfl, hf, hr'⟩
  | add k v u =>
      rw [dictStep, dictCall, dictAdd, hr.getr, dictSpec]
      cases hlookup : Keyed.lookup Dictkv.k m.entries k with
      | some kv =>
          have hmem : k.val ∈ a := (hr.mem_iff k).mpr ⟨kv, Keyed.lookup_some_mem hlookup⟩
          rw [if_pos hmem]
          exact ⟨rfl, rfl, hr⟩
      | none =>
          have hmem : k.val ∉ a := fun hmem ↦ by
            obtain ⟨kv, hkv, hkey⟩ := (hr.mem_iff k).mp hmem
            exact Keyed.lookup_eq_none_iff.mp hlookup kv hkv hkey
          obtain ⟨m', hset, hf, hr'⟩ := hr.set k.2 v u hallowed
          rw [if_neg hmem]
          simp only [Option.bind_eq_bind, Option.bind_some, Option.isSome_none, Bool.false_eq_true,
            if_false, hset, Option.map_some]
          exact ⟨trivial, hf, hr'⟩
  | del k =>
      rw [dictStep, dictCall, dictSpec, hr.lookup]
      rcases dictDel_spec hr.wf k.2 with ⟨hnone, hdel⟩ | ⟨e, m', hsome, hdel, hw', hf, hlist⟩
      · rw [hnone, hdel]
        exact ⟨rfl, rfl, hr⟩
      · have hr' : m'.Represents (a.erase k.val) := by
          refine ⟨hw', fun k' ↦ ?_⟩
          rw [hlist, Keyed.lookup_erase]
          split
          · next hk' =>
              subst hk'
              exact Finmap.lookup_erase k.val a
          · next hk' =>
              rw [← hr.lookup]
              exact Finmap.lookup_erase_ne hk'
        rw [hsome, hdel]
        exact ⟨rfl, hf, hr'⟩
  | get k =>
      rw [dictStep, dictCall, dictGet, hr.getr, dictSpec, hr.lookup]
      cases Keyed.lookup Dictkv.k m.entries k with
      | none => exact ⟨rfl, rfl, hr⟩
      | some kv => exact ⟨rfl, rfl, hr⟩
  | getu k =>
      rw [dictStep, dictCall, dictGetu, hr.getr, dictSpec, hr.lookup]
      cases Keyed.lookup Dictkv.k m.entries k with
      | none => exact ⟨rfl, rfl, hr⟩
      | some kv => exact ⟨rfl, rfl, hr⟩

/-- `dict_foreach`, with a callback that returns 0, calls it for the keys of the map, each once. -/
theorem Dict.Represents.visits : m.Visits a := by
  have hd : Keyed.Distinct Dictkv.k m.entries := hr.wf.ht.distinct
  refine ⟨m.entries, hd, fun kv ↦ ?_, fun cb hcb user ↦ dictForeach_eq hcb hr.wf user⟩
  rw [hr.lookup]
  constructor
  · intro hkv
    rw [hd.lookup_eq_some_iff.mpr ⟨hkv, rfl⟩]
    rfl
  · intro hlookup
    obtain ⟨e, he, heq⟩ := Option.map_eq_some_iff.mp hlookup
    obtain ⟨hmem, hkey⟩ := Keyed.lookup_some_mem he
    obtain ⟨hv, hu⟩ := Prod.mk.inj heq
    obtain ⟨k, v, u⟩ := kv
    obtain ⟨k', v', u'⟩ := e
    dsimp only at hkey hv hu
    subst hkey hv hu
    exact hmem

/-- The counts of the buckets add up to the number of keys. -/
theorem Dict.Represents.counts : m.Counts a := by
  have hd : Keyed.Distinct Dictkv.k m.entries := hr.wf.ht.distinct
  have hlength : m.table.length = m.size.toNat :=
    (List.length_map liveKvs).symm.trans hr.wf.ht.length
  have hkeys : a.keys = (m.entries.map Dictkv.k).toFinset := by
    ext k
    rw [Finmap.mem_keys, hr.mem_iff, List.mem_toFinset, List.mem_map]
  refine ⟨fun nb ↦ (liveKvs (m.table.getD nb none)).length, fun nb hnb ↦ ?_, ?_⟩
  · have hlt : nb < m.table.length := by
      rw [hlength]
      exact hnb
    have hsmall : nb < 2 ^ 32 := hnb.trans (UInt32.toNat_lt m.size)
    apply dictStats_eq hr.wf
    rw [UInt32.toNat_ofNat_of_lt' hsmall, List.getD_eq_getElem _ _ hlt]
    exact List.getElem?_eq_getElem hlt
  · have hmap : (List.range m.size.toNat).map (fun nb ↦ (liveKvs (m.table.getD nb none)).length) =
        (m.table.map liveKvs).map List.length := by
      refine List.ext_getElem (by simp [hlength]) fun nb hnb hnb' ↦ ?_
      rw [List.length_map, List.length_map] at hnb'
      rw [List.getElem_map, List.getElem_map, List.getElem_map, List.getElem_range,
        List.getD_eq_getElem _ _ hnb']
    rw [hmap, ← List.length_flatten, hkeys, List.toFinset_card_of_nodup hd, List.length_map]
    rfl

end Refine

/-! ## Runs -/

/-- The dictionary after the first `n` operations. -/
def dictAfter (m : Dict U) (calls : List (DictCall U)) (n : Nat) : Dict U :=
  stateAfter dictStep m calls n

/-- The map after the first `n` operations. -/
def dictMapAfter (f : Bool) (calls : List (DictCall U)) (n : Nat) : DictMap U :=
  stateAfter (dictSpec f) ∅ calls n

/-- The dictionary is a finite map in the whole run. -/
structure DictRefines (m : Dict U) (calls : List (DictCall U)) : Prop where
  results : (runOps dictStep m calls).1 = (runOps (dictSpec m.f) ∅ calls).1
  visits : ∀ n ≤ calls.length, (dictAfter m calls n).Visits (dictMapAfter m.f calls n)
  counts : ∀ n ≤ calls.length, (dictAfter m calls n).Counts (dictMapAfter m.f calls n)

/-- An operation that finds no room has no result, and the map has a key that the dictionary does
not have. -/
theorem not_visits_of_full {m : Dict U} {a : DictMap U} (hr : m.Represents a) {c : DictCall U}
    (hc : ¬ m.Allowed c) : ¬ (dictStep m c).2.Visits (dictSpec m.f a c).2 := by
  -- a new key, for which there is no room
  have hnew : ∀ {k : DictKey} {v : UInt64} {u : Option U}, ¬ m.Room k →
      k.val ∉ a ∧ dictSet m k v u = none ∧ ¬ m.Visits (a.insert k.val (v, u)) := by
    intro k v u hroom
    have habsent : ¬ ∃ kv ∈ m.entries, kv.k = k := fun hex ↦ hroom (.inl hex)
    refine ⟨fun hmem ↦ habsent ((hr.mem_iff k).mp hmem), dictSet_full hr.wf k.2 v u hroom, ?_⟩
    rintro ⟨entries, -, hentries, hvisits⟩
    have hlog := hvisits (fun log kv ↦ (0, kv :: log)) (fun _ _ ↦ rfl) []
    rw [dictForeach_eq (fun _ _ ↦ rfl) hr.wf, Option.some_inj] at hlog
    simp only [List.foldl_flip_cons_eq_append', List.append_nil, List.reverse_inj] at hlog
    refine habsent ⟨⟨k, v, u⟩, ?_, rfl⟩
    rw [hlog, hentries]
    exact Finmap.lookup_insert a
  cases c with
  | set k v u =>
      obtain ⟨-, hset, hvisits⟩ := hnew (v := v) (u := u) hc
      rw [dictStep, dictCall, hset]
      exact hvisits
  | add k v u =>
      obtain ⟨hmem, hset, hvisits⟩ := hnew (v := v) (u := u) hc
      have hlookup : Keyed.lookup Dictkv.k m.entries k = none :=
        Keyed.lookup_eq_none_iff.mpr fun kv hkv hkey ↦ hmem ((hr.mem_iff k).mpr ⟨kv, hkv, hkey⟩)
      rw [dictStep, dictCall, dictAdd, hr.getr, hlookup, dictSpec, if_neg hmem]
      simp only [Option.bind_eq_bind, Option.bind_some, Option.isSome_none, Bool.false_eq_true,
        if_false, hset, Option.map_none]
      exact hvisits
  | del k => exact absurd trivial hc
  | get k => exact absurd trivial hc
  | getu k => exact absurd trivial hc

theorem dictNew_of_ne {size : UInt32} (hpos : size ≠ 0) (f : Bool) :
    (dictNew size f : Dict U) = dictInit size f := by
  have hne : size.toNat ≠ 0 := fun h ↦ hpos (UInt32.toNat_inj.mp h)
  have hle : 1 ≤ size := UInt32.le_iff_toNat_le.mpr (Nat.one_le_iff_ne_zero.mpr hne)
  have hmax : max size 1 = size := by
    change (if size ≤ 1 then 1 else size) = size
    split
    · next h => exact UInt32.le_antisymm hle h
    · rfl
  rw [dictNew, hmax]

/-- **The dictionary refines a finite map**, for every size of its table from 1 to 2^31, in exactly
those runs in which no new entry makes an array too long for an `int`.  `dict_new` makes a table of
that size, and of one bucket where it is asked for none. -/
theorem dictRefines_iff {size : UInt32} (hpos : size ≠ 0) (hsize : size.toNat ≤ 2 ^ 31) (f : Bool)
    (calls : List (DictCall U)) :
    (DictRefines (dictInit size f) calls ↔
      ∀ n (hn : n < calls.length), (dictAfter (dictInit size f) calls n).Allowed calls[n]) ∧
      (dictNew size f : Dict U) = dictInit size f ∧ (dictNew 0 f : Dict U) = dictInit 1 f := by
  refine ⟨?_, dictNew_of_ne hpos f, rfl⟩
  have h0 : (dictInit size f : Dict U).f = f ∧ (dictInit size f : Dict U).Represents ∅ :=
    ⟨rfl, represents_dictInit hpos hsize f⟩
  have hgood : ∀ (m : Dict U) (a : DictMap U) (c : DictCall U), m.f = f ∧ m.Represents a →
      m.Allowed c → (dictStep m c).1 = (dictSpec f a c).1 ∧
        (dictStep m c).2.f = f ∧ (dictStep m c).2.Represents (dictSpec f a c).2 := by
    rintro m a c ⟨rfl, hr⟩ hallowed
    exact hr.step c hallowed
  have hiff := stateAfter_iff (R := fun (m : Dict U) a ↦ m.f = f ∧ m.Represents a)
    (fun m a hr ↦ hr.2.visits)
    (fun m a c hr (hc : ¬ ¬ m.Allowed c) ↦ (hgood m a c hr (not_not.mp hc)).2)
    (by
      rintro m a c ⟨rfl, hr⟩ hc
      exact not_visits_of_full hr hc) h0 calls
  constructor
  · intro href n hn
    exact not_not.mp (hiff.mp href.visits n _ (List.getElem?_eq_getElem hn))
  · intro hallowed
    have hsim : Simulates (fun (m : Dict U) a ↦ m.f = f ∧ m.Represents a) (fun m _ c ↦ m.Allowed c)
        dictStep (dictSpec f) := fun m a c hr hc ↦ hgood m a c hr hc
    have hok : ∀ n c, calls[n]? = some c → (dictAfter (dictInit size f) calls n).Allowed c := by
      intro n c hc
      obtain ⟨hn, rfl⟩ := List.getElem?_eq_some_iff.mp hc
      exact hallowed n hn
    obtain ⟨hresults, hrun⟩ := hsim.run h0 hok
    exact ⟨hresults, fun n _ ↦ (hrun n).2.visits, fun n _ ↦ (hrun n).2.counts⟩

/-- Keys that share their bucket, in a table of size 2. -/
theorem dictRefines_two :
    let calls : List (DictCall Unit) :=
      [.set ⟨0x100, by decide⟩ 1 none, .set ⟨0x200, by decide⟩ 2 none,
      .add ⟨0x500, by decide⟩ 5 none, .add ⟨0x500, by decide⟩ 6 none, .del ⟨0x200, by decide⟩,
      .get ⟨0x500, by decide⟩, .getu ⟨0x200, by decide⟩]
    ((2 : UInt32) ≠ 0 ∧ (2 : UInt32).toNat ≤ 2 ^ 31) ∧ DictRefines (dictNew 2 true) calls := by
  intro calls
  have hpos : (2 : UInt32) ≠ 0 := by decide
  have hsize : (2 : UInt32).toNat ≤ 2 ^ 31 := by decide
  obtain ⟨hrefines, hnew, -⟩ := dictRefines_iff hpos hsize true calls
  refine ⟨⟨hpos, hsize⟩, ?_⟩
  rw [hnew]
  exact hrefines.mpr (by decide)

/-- A dictionary of size 0 does not take an entry, and one of size 2^31 + 1 has a bucket with a
negative index. -/
theorem not_dictRefines :
    ¬ DictRefines (dictInit 0 false : Dict Unit) [.set ⟨1, by decide⟩ 5 none, .get ⟨1, by decide⟩] ∧
      ¬ DictRefines (dictInit 2147483649 false : Dict Unit)
        [.set ⟨2147483648, by decide⟩ 5 none, .get ⟨2147483648, by decide⟩] := by
  constructor
  · intro h
    have hhead := congrArg List.head? h.results
    exact absurd hhead (by decide)
  · intro h
    have hneg : ¬ 0 ≤ (dictBucket
        (dictInit 2147483649 false : Dict Unit) 2147483648).toInt32.toInt := by
      decide
    have hset : dictSet (dictInit 2147483649 false : Dict Unit) 2147483648 5 none = none := by
      rw [dictSet, if_neg fun h ↦ h.elim (by decide) (by decide)]
      simp only [Dict.slot, hneg, if_false]
      rfl
    have hhead := congrArg List.head? h.results
    rw [runOps, runOps] at hhead
    simp only [dictStep, dictCall, hset, Option.map_none, List.head?_cons] at hhead
    cases hhead

end SdbStore
