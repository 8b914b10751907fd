import SdbStore.Lib.Answers
import SdbStore.Memory

/-!
# A map with deadlines

What a database in memory is for when its keys have times: a map from keys to texts, in which each
text has a version and may have a deadline.  The deadline belongs to the key and not to what was
written: a write keeps it, and so does `sdb_unset`, which leaves the empty text under it.  Only
`sdb_expire_set` gives another one.

A key that has never had a text may have an entry without one, which is what the expiry calls do not
come back from (`Slot.null`).
-/

namespace SdbStore

open Lib

/-- What is known of a key. -/
inductive Slot where
  | absent
  | null
  | text (x : CStr) (version deadline : Nat)

/-- A map with deadlines, and the time. -/
structure TimedMap where
  slots : CStr → Slot
  now : Nat

/-- The calls that are made. -/
inductive TimedCall where
  | set (owned : Bool) (key val : CStr) (cas : Nat)
  | get (key : CStr)
  | expireSet (t : CdbFind) (key : CStr) (expire cas : Nat)
  | expireGet (key : CStr)
  | wait (n : Nat)

/-- What they give. -/
inductive TimedRes where
  | done
  | bool (b : Bool)
  | got (g : Got)
  | time (n : Nat)

/-- A call, if it comes back.  `sdb_unset` is `sdb_set` with the empty string. -/
def TimedCall.run (st : Sdb × World) : TimedCall → Option (TimedRes × Sdb × World)
  | .set true key val cas => some ((sdbSetOwned st.1 st.2 key val cas).map .bool id)
  | .set false key val cas => some ((sdbSet st.1 st.2 key val cas).map .bool id)
  | .get key => some ((sdbConstGetLen st.1 st.2 key).map .got id)
  | .expireSet t key expire cas =>
      (sdbExpireSet st.1 st.2 t key expire cas).map fun r ↦ r.map .bool id
  | .expireGet key => (sdbExpireGet st.1 key).map fun n ↦ (.time n, st)
  | .wait n => some (.done, st.1, { st.2 with now := st.2.now + n })

/-! ## The map -/

/-- A write that is accepted: the version that it reports, and what it leaves. -/
def Slot.write (slot : Slot) (owned : Bool) (val : CStr) (cas : Nat) : Nat × Slot :=
  match slot with
  | .text x version deadline =>
      let next := if version = 0 then 1 else ut32 (version + 1)
      if cas ≠ 0 ∧ version ≠ cas then (0, slot)
      else if val = x then (version, slot)
      else (next, .text val next deadline)
  | _ => (2, if owned ∨ val ≠ CStr.empty then .text val 2 0 else .null)

namespace TimedMap

variable (a : TimedMap)

def put (key : CStr) (slot : Slot) : TimedMap :=
  { a with slots := fun k ↦ if k = key then slot else a.slots k }

/-- Writes are made to keys and with values that are not too long. -/
def set (owned : Bool) (key val : CStr) (cas : Nat) : Bool × TimedMap :=
  if key.length ≥ 0xff ∨ val.length ≥ 0xffffff then (false, a) else
    let r := (a.slots key).write owned val cas
    (r.1 ≠ 0, a.put key r.2)

/-- The text of a key whose deadline has passed is lost when it is looked at. -/
def get (key : CStr) : Got × TimedMap :=
  match a.slots key with
  | .text x version deadline =>
      if x = CStr.empty then (.null, a)
      else if deadline ≠ 0 ∧ a.now > deadline then (.null, (a.set false key CStr.empty 0).2)
      else (⟨some x, x.length, version⟩, a)
  | _ => (.null, a)

/-- A deadline is given to a text that is not empty, whether its old one has passed or not. -/
def expireSet (key : CStr) (expire cas : Nat) : Option (Bool × TimedMap) :=
  match a.slots key with
  | .absent => some (false, a)
  | .null => none
  | .text x version _ =>
      if x ≠ CStr.empty ∧ (cas = 0 ∨ cas = version) then
        some (true, a.put key (.text x version (parseExpire a.now expire)))
      else some (false, a)

def expireGet (key : CStr) : Option Nat :=
  match a.slots key with
  | .absent => some 0
  | .null => none
  | .text x _ deadline => some (if x ≠ CStr.empty then deadline else 0)

/-- One call. -/
def call : TimedCall → Option (TimedRes × TimedMap)
  | .set owned key val cas => some ((a.set owned key val cas).map .bool id)
  | .get key => some ((a.get key).map .got id)
  | .expireSet _ key expire cas => (a.expireSet key expire cas).map fun r ↦ r.map .bool id
  | .expireGet key => (a.expireGet key).map fun n ↦ (.time n, a)
  | .wait n => some (.done, { a with now := a.now + n })

/-- The key has a text and a deadline, which is 0 when it has none. -/
def Due (k : CStr) (deadline : Nat) : Prop := ∃ x version, a.slots k = .text x version deadline

end TimedMap

section Due

variable {a a' : TimedMap} {k key : CStr} {deadline : Nat}

theorem TimedMap.put_same (slot : Slot) : (a.put k slot).slots k = slot := if_pos rfl

theorem TimedMap.put_ne (h : k ≠ key) (slot : Slot) : (a.put key slot).slots k = a.slots k :=
  if_neg h

/-- A write keeps the deadline. -/
theorem Slot.write_text (x : CStr) (version deadline : Nat) (owned : Bool) (val : CStr)
    (cas : Nat) :
    ∃ x' version', ((Slot.text x version deadline).write owned val cas).2 =
      .text x' version' deadline := by
  unfold Slot.write
  dsimp only
  split
  · exact ⟨_, _, rfl⟩
  · split
    · exact ⟨_, _, rfl⟩
    · exact ⟨_, _, rfl⟩

theorem TimedMap.Due.put {slot : Slot} (h : a.Due k deadline)
    (hslot : key = k → ∃ x version, slot = .text x version deadline) :
    (a.put key slot).Due k deadline := by
  rcases eq_or_ne k key with rfl | hk
  · rw [TimedMap.Due, put_same]
    exact hslot rfl
  · rw [TimedMap.Due, put_ne hk]
    exact h

theorem TimedMap.Due.set (h : a.Due k deadline) (owned : Bool) (key val : CStr) (cas : Nat) :
    (a.set owned key val cas).2.Due k deadline := by
  rw [TimedMap.set]
  split
  · exact h
  · refine h.put ?_
    rintro rfl
    obtain ⟨x, version, hslot⟩ := h
    rw [hslot]
    exact Slot.write_text x version deadline owned val cas

/-- What is late is not found. -/
theorem TimedMap.Due.get_value (h : a.Due k deadline) (hne : deadline ≠ 0)
    (hnow : a.now > deadline) : (a.get k).1.value = none := by
  obtain ⟨x, version, hslot⟩ := h
  rw [TimedMap.get, hslot]
  dsimp only
  split
  · rfl
  · rw [if_pos ⟨hne, hnow⟩]
    rfl

theorem TimedMap.Due.get (h : a.Due k deadline) (key : CStr) : (a.get key).2.Due k deadline := by
  rw [TimedMap.get]
  split
  · split
    · exact h
    · split
      · exact h.set false key CStr.empty 0
      · exact h
  · exact h

/-- Another deadline is given by `sdb_expire_set` only. -/
theorem TimedMap.Due.call {c : TimedCall} {r : TimedRes} (h : a.Due k deadline)
    (hrun : a.call c = some (r, a')) (hno : ∀ t expire cas, c = .expireSet t k expire cas →
      r ≠ .bool true) : a'.Due k deadline := by
  cases c with
  | set owned key val cas =>
      cases hrun
      exact h.set owned key val cas
  | get key =>
      cases hrun
      exact h.get key
  | expireSet t key expire cas =>
      obtain ⟨⟨b, a''⟩, hset, heq⟩ := Option.map_eq_some_iff.mp hrun
      cases heq
      rw [TimedMap.expireSet] at hset
      split at hset
      · cases hset
        exact h
      · cases hset
      · split at hset
        · cases hset
          refine h.put ?_
          rintro rfl
          exact absurd rfl (hno t expire cas rfl)
        · cases hset
          exact h
  | expireGet key =>
      obtain ⟨n, -, heq⟩ := Option.map_eq_some_iff.mp hrun
      cases heq
      exact h
  | wait n =>
      cases hrun
      exact h

end Due

/-! ## The database is such a map -/

/-- What an entry makes known. -/
def slotOf : Option SdbKv → Slot
  | none => .absent
  | some kv =>
      match kv.value with
      | none => .null
      | some v => .text v kv.cas kv.expire

/-- A database in memory stands for a map. -/
structure StandsFor (st : Sdb × World) (a : TimedMap) : Prop where
  memory : st.1.Memory
  timed : st.1.Timed
  slots : ∀ k, a.slots k = slotOf (sdbHtFindKvp st.1 k)
  now : a.now = st.2.now

/-- What a write does to an entry is what it does to the map. -/
theorem setEntry_slot (e : Option SdbKv) {key val : CStr}
    (hlen : ¬ (key.length ≥ 0xff ∨ val.length ≥ 0xffffff)) (owned : Bool) (cas : Nat) :
    ((setEntry e (-1) key val owned cas).1, slotOf (setEntry e (-1) key val owned cas).2) =
    (slotOf e).write owned val cas := by
  have hnew : slotOf (some (newEntry key val owned)) =
      if owned ∨ val ≠ CStr.empty then .text val 2 0 else .null := by
    rw [slotOf, newEntry]
    cases owned with
    | true => rfl
    | false =>
        rcases eq_or_ne val CStr.empty with rfl | hval
        · rfl
        · simp [hval]
  rw [setEntry.eq_def, if_neg hlen]
  cases e with
  | none => exact congrArg (Prod.mk 2) hnew
  | some kv =>
      cases hv : kv.value with
      | none =>
          simp only [hv, slotOf]
          exact congrArg (Prod.mk 2) hnew
      | some old =>
          simp only [hv, slotOf, Slot.write, nextcas]
          rw [if_pos (by decide)]
          split
          · simp only [hv]
          · split
            · simp only [hv]
            · rfl

section StandsFor

variable {st : Sdb × World} {a : TimedMap} (h : StandsFor st a)
include h

theorem StandsFor.set (owned : Bool) (key val : CStr) (cas : Nat) :
    decide ((sdbSetInternal st.1 st.2 key val owned cas).1 ≠ 0) = (a.set owned key val cas).1 ∧
      StandsFor (sdbSetInternal st.1 st.2 key val owned cas).2 (a.set owned key val cas).2 := by
  by_cases hlen : key.length ≥ 0xff ∨ val.length ≥ 0xffffff
  · have hset : sdbSetInternal st.1 st.2 key val owned cas = (0, st) := if_pos hlen
    have hmap : a.set owned key val cas = (false, a) := if_pos hlen
    rw [hset, hmap]
    exact ⟨rfl, h⟩
  · have hspec := h.memory.wrote st.2 key val owned cas
    have hslot := setEntry_slot (sdbHtFindKvp st.1 key) hlen owned cas
    rw [← h.slots] at hslot
    have hmap : a.set owned key val cas = (decide (((a.slots key).write owned val cas).1 ≠ 0),
        a.put key ((a.slots key).write owned val cas).2) := if_neg hlen
    rw [hmap, ← hslot, hspec.ret]
    refine ⟨rfl, h.memory.setInternal st.2 key val owned cas,
      tableInv_timed.set h.timed st.2 key val owned cas, fun k ↦ ?_, ?_⟩
    · rw [hspec.find]
      rcases eq_or_ne k key with rfl | hk
      · rw [if_pos rfl]
        exact TimedMap.put_same _
      · rw [if_neg hk]
        exact (TimedMap.put_ne hk _).trans (h.slots k)
    · rw [now_sdbSetInternal]
      exact h.now

theorem StandsFor.get (key : CStr) : (sdbConstGetLen st.1 st.2 key).1 = (a.get key).1 ∧
    StandsFor (sdbConstGetLen st.1 st.2 key).2 (a.get key).2 := by
  have hslot := h.slots key
  unfold sdbConstGetLen TimedMap.get
  cases hf : sdbHtFindKvp st.1 key with
  | none =>
      rw [hf] at hslot
      rw [hslot]
      exact ⟨sdbGetDisk_bare h.memory.bare key, h⟩
  | some kv =>
      rw [hf] at hslot
      cases hv : kv.value with
      | none =>
          simp only [slotOf, hv] at hslot
          simp only [hslot, hv]
          exact ⟨trivial, h⟩
      | some v =>
          simp only [slotOf, hv] at hslot
          simp only [hslot, hv]
          have hlate : (st.1.timestamped = true ∧ kv.expire ≠ 0 ∧ st.2.now > kv.expire) ↔
              (kv.expire ≠ 0 ∧ a.now > kv.expire) := by
            rw [h.now]
            constructor
            · exact fun hlate ↦ hlate.2
            · exact fun hlate ↦ ⟨h.timed.stamped key kv hf hlate.1, hlate⟩
          rw [if_congr hlate rfl rfl]
          split
          · exact ⟨rfl, h⟩
          · split
            · exact ⟨rfl, (h.set false key CStr.empty 0).2⟩
            · exact ⟨rfl, h⟩

/-- The answers of the expiry calls. -/
theorem StandsFor.expireSet (t : CdbFind) (key : CStr) (expire cas : Nat) :
    SameAnswer StandsFor (sdbExpireSet st.1 st.2 t key expire cas)
      (a.expireSet key expire cas) := by
  have hslot := h.slots key
  have hs : Sdb.Memory { st.1 with timestamped := true } :=
    ⟨h.memory.wf, ⟨h.memory.bare.1, h.memory.bare.2⟩, h.memory.key, h.memory.value⟩
  have hsame : StandsFor ({ st.1 with timestamped := true }, st.2) a :=
    ⟨hs, h.timed.stamp, h.slots, h.now⟩
  have hfd : st.1.fd = none := h.memory.bare.fd
  have hfind : sdbHtFindKvp { st.1 with timestamped := true } key = sdbHtFindKvp st.1 key := rfl
  unfold sdbExpireSet TimedMap.expireSet
  simp only [hfind]
  cases hf : sdbHtFindKvp st.1 key with
  | none =>
      rw [hf] at hslot
      simp only [hslot]
      rw [if_pos hfd]
      exact .some ⟨rfl, hsame⟩
  | some kv =>
      rw [hf] at hslot
      cases hv : kv.value with
      | none =>
          simp only [slotOf, hv] at hslot
          simp only [hslot, sdbExpireSetKv, hv]
          exact .none
      | some v =>
          simp only [slotOf, hv] at hslot
          simp only [hslot]
          have hkv : sdbHtFindKvp { st.1 with timestamped := true } key = some kv := hf
          by_cases hok : v ≠ CStr.empty ∧ (cas = 0 ∨ cas = kv.cas)
          · obtain ⟨s, hr⟩ : ∃ s, sdbExpireSetKv
              { st.1 with timestamped := true } st.2 kv expire cas = some (true, s, st.2) := by
              simp only [sdbExpireSetKv, hv]
              exact ⟨_, if_pos hok⟩
            obtain ⟨-, -, -, -, hall⟩ := sdbExpireSetKv_spec hs.wf hkv hr
            rw [hr, if_pos hok]
            refine .some ⟨rfl, hs.expireSetKv hkv hr, h.timed.stamp.expireSetKv rfl hkv hr,
              fun k ↦ ?_, h.now⟩
            rw [hall]
            rcases eq_or_ne k key with rfl | hk
            · rw [if_pos ⟨rfl, rfl⟩, h.now]
              refine (TimedMap.put_same _).trans ?_
              simp only [slotOf, hv]
            · rw [if_neg fun hkey ↦ hk hkey.1]
              exact (TimedMap.put_ne hk _).trans (h.slots k)
          · simp only [sdbExpireSetKv, hv]
            rw [if_neg hok, if_neg hok]
            exact .some ⟨rfl, hsame⟩

theorem StandsFor.expireGet (key : CStr) : sdbExpireGet st.1 key = a.expireGet key := by
  rw [sdbExpireGet, TimedMap.expireGet, h.slots]
  cases sdbHtFindKvp st.1 key with
  | none => rfl
  | some kv =>
      cases hv : kv.value with
      | none => simp only [slotOf, hv]
      | some v => simp only [slotOf, hv]

end StandsFor

/-- One call of the database is one of the map. -/
theorem timedCall_answersAs : AnswersAs StandsFor TimedCall.run TimedMap.call := by
  intro st a c h
  cases c with
  | set owned key val cas =>
      have hset := h.set owned key val cas
      cases owned with
      | true => exact .some ⟨congrArg TimedRes.bool hset.1, hset.2⟩
      | false => exact .some ⟨congrArg TimedRes.bool hset.1, hset.2⟩
  | get key => exact .some ⟨congrArg TimedRes.got (h.get key).1, (h.get key).2⟩
  | expireSet t key expire cas => exact (h.expireSet t key expire cas).map TimedRes.bool
  | expireGet key =>
      rw [TimedCall.run, TimedMap.call, h.expireGet]
      cases a.expireGet key with
      | none => exact .none
      | some n => exact .some ⟨rfl, h⟩
  | wait n => exact .some ⟨rfl, h.memory, h.timed, h.slots, congrArg (· + n) h.now⟩

/-- The map that a database in memory stands for. -/
def mapOf (st : Sdb × World) : TimedMap := ⟨fun k ↦ slotOf (sdbHtFindKvp st.1 k), st.2.now⟩

section Runs

variable {st st' : Sdb × World} (hm : st.1.Memory) (ht : st.1.Timed)
include hm ht

theorem standsFor_mapOf : StandsFor st (mapOf st) := ⟨hm, ht, fun _ ↦ rfl, rfl⟩

/-- A database in memory whose keys have times is a map with deadlines: every run comes back exactly
if it does on the map, with the same answers, and ends in what stands for the map. -/
theorem timed_refines (calls : List TimedCall) :
    SameAnswer StandsFor (runAll TimedCall.run st calls) (runAll TimedMap.call (mapOf st) calls) :=
  timedCall_answersAs.run (standsFor_mapOf hm ht) calls

omit hm ht in
/-- What a run ends in stands for a map again. -/
theorem StandsFor.runAll {a : TimedMap} (h : StandsFor st a) {calls : List TimedCall}
    {rs : List TimedRes} (hrun : runAll TimedCall.run st calls = some (rs, st')) :
    ∃ a', StandsFor st' a' := by
  obtain ⟨t, -, -, h'⟩ := (timedCall_answersAs.run h calls).exists_some hrun
  exact ⟨t.2, h'⟩

/-- Whatever is written to a key, also after it was unset, its time stays until `sdb_expire_set` has
given it another, and after that time it is not found. -/
theorem timed_due {k : CStr} {kv : SdbKv} (hf : sdbHtFindKvp st.1 k = some kv)
    (hv : kv.value ≠ none) {calls : List TimedCall} {rs : List TimedRes}
    (hrun : runAll TimedCall.run st calls = some (rs, st'))
    (hno : ∀ t expire cas, (.expireSet t k expire cas, .bool true) ∉ calls.zip rs) :
    ∃ kv', sdbHtFindKvp st'.1 k = some kv' ∧ kv'.expire = kv.expire ∧
      (kv.expire ≠ 0 → st'.2.now > kv.expire → sdbGet st'.1 st'.2 k = none) := by
  obtain ⟨⟨_, a'⟩, hmap, rfl, h⟩ := (timed_refines hm ht calls).exists_some hrun
  have hdue : (mapOf st).Due k kv.expire := by
    obtain ⟨v, hv⟩ := Option.ne_none_iff_exists'.mp hv
    refine ⟨v, kv.cas, ?_⟩
    simp only [mapOf, hf, slotOf, hv]
  have hend : a'.Due k kv.expire := by
    refine runAll_keeps (P := (TimedMap.Due · k kv.expire))
      (Q := fun c r ↦ ∀ t expire cas, c = .expireSet t k expire cas → r ≠ .bool true)
      (fun _ _ _ _ h hok hcall ↦ h.call hcall hok) hmap ?_ hdue
    rintro ⟨c, r⟩ hp t expire cas rfl rfl
    exact hno t expire cas hp
  have hslot := hend
  obtain ⟨x, version, hslot⟩ := hslot
  rw [h.slots] at hslot
  cases hf' : sdbHtFindKvp st'.1 k with
  | none =>
      rw [hf'] at hslot
      cases hslot
  | some kv' =>
      refine ⟨kv', rfl, ?_, fun hne hnow ↦ ?_⟩
      · cases hv' : kv'.value with
        | none =>
            simp only [hf', slotOf, hv'] at hslot
            cases hslot
        | some v =>
            simp only [hf', slotOf, hv'] at hslot
            injection hslot
      · rw [sdbGet, (h.get k).1]
        refine hend.get_value hne ?_
        rw [h.now]
        exact hnow

end Runs

theorem standsFor_new0 (w : World) : StandsFor (sdbNew0, w) (mapOf (sdbNew0, w)) := by
  have hnone := sdbHtFindKvp_of_htNew (show sdbNew0.ht = htNew from rfl)
  refine standsFor_mapOf Sdb.Memory.new0 ⟨Sdb.Memory.new0.wf, fun k kv hk ↦ ?_, fun k kv hk ↦ ?_⟩
  · rw [hnone] at hk
    cases hk
  · rw [hnone] at hk
    cases hk

/-- The key `a` is set to `1` and gets a time, which passes. -/
def lateCalls : List TimedCall :=
  [.set false (CStr.ofBytes [97]) (CStr.ofBytes [49]) 0, .expireSet .zero (CStr.ofBytes [97]) 100 0,
    .wait 101]

/-- They come back, as they do on the map. -/
theorem timed_refines_late : (runAll TimedCall.run (sdbNew0, .empty) lateCalls).isSome ∧
    SameAnswer StandsFor (runAll TimedCall.run (sdbNew0, .empty) lateCalls)
      (runAll TimedMap.call (mapOf (sdbNew0, .empty)) lateCalls) := by
  have h := standsFor_new0 .empty
  exact ⟨rfl, timed_refines h.memory h.timed lateCalls⟩

/-- It is set again, looked at, and set once more. -/
def laterCalls : List TimedCall :=
  [.set false (CStr.ofBytes [97]) (CStr.ofBytes [50]) 0, .get (CStr.ofBytes [97]),
    .set false (CStr.ofBytes [97]) (CStr.ofBytes [51]) 0]

/-- It is not found after them either. -/
theorem timed_due_late : ∃ st, runAll TimedCall.run (sdbNew0, .empty) lateCalls =
      some ([.bool true, .bool true, .done], st) ∧
    ∃ st', runAll TimedCall.run st laterCalls = some ([.bool true, .got .null, .bool true], st') ∧
      sdbGet st'.1 st'.2 (CStr.ofBytes [97]) = none := by
  have hlate : runAll TimedCall.run (sdbNew0, .empty) lateCalls =
      some ([.bool true, .bool true, .done], _) := rfl
  obtain ⟨_, h⟩ := (standsFor_new0 .empty).runAll hlate
  refine ⟨_, hlate, _, rfl, ?_⟩
  obtain ⟨kv, -, -, hget⟩ := timed_due h.memory h.timed (k := CStr.ofBytes [97])
    (show _ = some ⟨CStr.ofBytes [97], some (CStr.ofBytes [49]), 2, 100⟩ by decide)
    (Option.some_ne_none _) (show runAll TimedCall.run _ laterCalls =
      some ([.bool true, .got .null, .bool true], _) from rfl)
    (fun _ _ _ ↦ by simp [laterCalls])
  exact hget (by decide) (by decide)

end SdbStore
