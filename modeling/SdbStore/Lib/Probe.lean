import Mathlib.Data.List.Rotate
import Mathlib.Data.List.Count
import Mathlib.Data.List.TakeWhile
import Mathlib.Data.Nat.Find
import Mathlib.Tactic.Common

/-!
# Open addressing with linear probing

A table is a list of slots, some of them free.  An entry has a *home* slot; it is
put into the first free slot met when walking from home around the table.  The
*walk* from a slot is what such a search sees: the occupied slots up to the first
free one.

The invariant `Probed` says what a sequence of insertions leaves behind, and it is
all a lookup needs: the occupied slots are the inserted entries, and the walk from
any slot `h` shows the entries with home `h` in the order of insertion.  So a
search from home finds the entry that was inserted first, whatever other entries
have been met on the way.

The second half says when slot `0` is occupied.  It depends on the homes alone:
the table is `Crowded` when some entry is at home there, or when for some `j` more
than `j` entries have their home among the last `j` slots, so that one of them has
to wrap around.
-/

namespace SdbStore.Lib.Probe

universe u

variable {α : Type u} (free : α → Bool) (home : α → Nat)

/-- The first free slot from `i` on, walking around the table for at most the given
number of slots. -/
def probe (T : List α) : Nat → Nat → Option Nat
  | 0, _ => none
  | n + 1, i =>
      match T[i]? with
      | none => none
      | some a => if free a then some i else probe T n (if i + 1 = T.length then 0 else i + 1)

/-- The occupied slots met from `h` on. -/
def walk (T : List α) (h : Nat) : List α := (T.rotate h).takeWhile (fun a ↦ !free a)

/-- Put an entry into the first free slot from its home. -/
def insert (T : List α) (e : α) : Option (List α) :=
  (probe free T T.length (home e)).map fun i ↦ T.set i e

variable {free home}

/-! ## Rotations of a table -/

/-- The slot `i` splits every rotation of the table, and filling it changes nothing
else. -/
theorem rotate_split (T : List α) {i h : Nat} (hi : i < T.length) (hh : h < T.length) (e : α) :
    ∃ P Q, T.rotate h = P ++ T[i] :: Q ∧ (T.set i e).rotate h = P ++ e :: Q ∧
      (h + P.length) % T.length = i := by
  rw [List.rotate_eq_drop_append_take (Nat.le_of_lt hh),
    List.rotate_eq_drop_append_take (by simpa using Nat.le_of_lt hh)]
  have hcons : T.drop i = T[i] :: T.drop (i + 1) := List.drop_eq_getElem_cons hi
  have hTi : T = T.take i ++ T[i] :: T.drop (i + 1) := by
    rw [← hcons, List.take_append_drop]
  have hset : T.set i e = T.take i ++ e :: T.drop (i + 1) := by
    rw [List.set_eq_take_append_cons_drop, if_pos hi]
  have hlen : (T.take i).length = i := by rw [List.length_take]; omega
  by_cases hle : h ≤ i
  · -- the slot lies after the cut
    refine ⟨(T.take i).drop h, T.drop (i + 1) ++ T.take h, ?_, ?_, ?_⟩
    · conv_lhs => rw [hTi, List.drop_append_of_le_length (by omega),
        List.take_append_of_le_length (by omega)]
      rw [List.take_take, Nat.min_eq_left hle, List.append_assoc, List.cons_append]
    · rw [hset, List.drop_append_of_le_length (by omega),
        List.take_append_of_le_length (by omega), List.take_take, Nat.min_eq_left hle,
        List.append_assoc, List.cons_append]
    · rw [List.length_drop, hlen, Nat.add_sub_cancel' hle, Nat.mod_eq_of_lt hi]
  · -- the slot lies before the cut
    have hlt : i < h := Nat.lt_of_not_le hle
    refine ⟨T.drop h ++ T.take i, (T.drop (i + 1)).take (h - i - 1), ?_, ?_, ?_⟩
    · have htake : T.take h = T.take i ++ T[i] :: (T.drop (i + 1)).take (h - i - 1) := by
        conv_lhs => rw [hTi, List.take_append, hlen]
        rw [List.take_of_length_le (by omega),
          show h - i = (h - i - 1) + 1 by omega, List.take_succ_cons]
        rfl
      rw [htake, List.append_assoc]
    · have htake : (T.set i e).take h = T.take i ++ e :: (T.drop (i + 1)).take (h - i - 1) := by
        rw [hset, List.take_append, hlen, List.take_of_length_le (by omega),
          show h - i = (h - i - 1) + 1 by omega, List.take_succ_cons]
        rfl
      have hdrop : (T.set i e).drop h = T.drop h := by
        rw [List.drop_set_of_lt hlt]
      rw [htake, hdrop, List.append_assoc]
    · rw [List.length_append, List.length_drop, hlen,
        show h + (T.length - h + i) = i + T.length by omega, Nat.add_mod_right,
        Nat.mod_eq_of_lt hi]

/-- If the walk from `i` is `A` and then a free slot, the probe ends there. -/
theorem probe_eq {T : List α} {f : α} (hf : free f = true) :
    ∀ {A B : List α} {n i : Nat}, i < T.length → T.rotate i = A ++ f :: B →
      (∀ a ∈ A, free a = false) → A.length < n →
      probe free T n i = some ((i + A.length) % T.length) := by
  intro A
  induction A with
  | nil =>
      intro B n i hi hrot _ hn
      obtain ⟨m, rfl⟩ : ∃ m, n = m + 1 := ⟨n - 1, by simp at hn; omega⟩
      have hhd : T[i]? = some f := by
        rw [← List.head?_rotate hi, hrot]
        rfl
      rw [probe, hhd]
      simp [hf, Nat.mod_eq_of_lt hi]
  | cons a A ih =>
      intro B n i hi hrot hA hn
      obtain ⟨m, rfl⟩ : ∃ m, n = m + 1 := ⟨n - 1, by simp at hn; omega⟩
      have hhd : T[i]? = some a := by
        rw [← List.head?_rotate hi, hrot]
        rfl
      have ha : free a = false := hA a (by simp)
      have hnext : (if i + 1 = T.length then 0 else i + 1) = (i + 1) % T.length := by
        split
        · next h => rw [h, Nat.mod_self]
        · rw [Nat.mod_eq_of_lt (by omega)]
      have hrot' : T.rotate ((i + 1) % T.length) = A ++ f :: (B ++ [a]) := by
        rw [List.rotate_mod, ← List.rotate_rotate, hrot]
        simp
      have hrec := ih (n := m) (Nat.mod_lt _ (by omega)) hrot'
        (fun b hb ↦ hA b (by simp [hb])) (by simp at hn; omega)
      rw [probe, hhd]
      simp only [ha, Bool.false_eq_true, if_false]
      rw [hnext, hrec, Nat.mod_add_mod, List.length_cons,
        show i + 1 + A.length = i + (A.length + 1) by omega]

theorem free_of_mem_walk {T : List α} {h : Nat} {a : α} (ha : a ∈ walk free T h) :
    free a = false := by
  have hp := List.mem_takeWhile_imp (p := fun a ↦ !free a) ha
  simpa using hp

/-! ## What insertions leave behind -/

variable (free home)

/-- The table `T` is what inserting `es` one after another leaves. -/
structure Probed (T es : List α) : Prop where
  /-- The occupied slots hold the inserted entries. -/
  perm : (T.filter fun a ↦ !free a).Perm es
  /-- The walk from `h` shows the entries with home `h` in the order of insertion. -/
  order : ∀ h < T.length,
    (walk free T h).filter (fun a ↦ home a == h) = es.filter (fun a ↦ home a == h)

variable {free home} {T es : List α}

variable (home) in
theorem probed_replicate {f : α} (hf : free f = true) (n : Nat) :
    Probed free home (List.replicate n f) [] where
  perm := by simp [hf]
  order h _ := by
    simp only [walk, List.rotate_replicate]
    cases n <;> simp [List.replicate_succ, hf]

/-- Outside the walk from `h` no entry has its home at `h`. -/
theorem Probed.filter_outside (hT : Probed free home T es) {h : Nat} (hh : h < T.length)
    {B : List α} (hrot : T.rotate h = walk free T h ++ B) :
    (B.filter fun a ↦ !free a).filter (fun a ↦ home a == h) = [] := by
  have hwalk : (walk free T h).filter (fun a ↦ !free a) = walk free T h := by
    rw [List.filter_eq_self]
    exact fun a ha ↦ by simp [free_of_mem_walk ha]
  have hperm : ((T.rotate h).filter fun a ↦ !free a).Perm es :=
    ((List.rotate_perm T h).filter _).trans hT.perm
  have hlen := (hperm.filter fun a ↦ home a == h).length_eq
  rw [hrot, List.filter_append, List.filter_append, hwalk, hT.order h hh,
    List.length_append] at hlen
  exact List.eq_nil_of_length_eq_zero (by omega)

/-- A table with fewer entries than slots has a free slot in every rotation. -/
theorem Probed.exists_free (hT : Probed free home T es) (hlt : es.length < T.length) (h : Nat) :
    ∃ f B, free f = true ∧ T.rotate h = walk free T h ++ f :: B := by
  have hdrop : (T.rotate h).dropWhile (fun a ↦ !free a) ≠ [] := by
    intro hnil
    rw [List.dropWhile_eq_nil_iff] at hnil
    have hall : T.filter (fun a ↦ !free a) = T := by
      rw [List.filter_eq_self]
      exact fun a ha ↦ hnil a (List.mem_rotate.mpr ha)
    have hlen := hT.perm.length_eq
    rw [hall] at hlen
    omega
  obtain ⟨f, B, hfB⟩ := List.exists_cons_of_ne_nil hdrop
  refine ⟨f, B, ?_, ?_⟩
  · have hhead := List.head_dropWhile_not (fun a ↦ !free a) hdrop
    simp only [hfB, List.head_cons] at hhead
    simpa using hhead
  · rw [walk, ← hfB, List.takeWhile_append_dropWhile]

/-- Filling a free slot `i` that the walk from home reaches: the invariant for one
more entry. -/
theorem Probed.set (hT : Probed free home T es) {e : α} (he : free e = false)
    {i : Nat} (hi : i < T.length) (hfree : free T[i] = true)
    (hreach : ∀ P Q, home e < T.length → T.rotate (home e) = P ++ T[i] :: Q →
      (home e + P.length) % T.length = i → ∀ a ∈ P, free a = false) :
    Probed free home (T.set i e) (es ++ [e]) where
  perm := by
    obtain ⟨P, Q, hP, hP', -⟩ := rotate_split T hi (by omega : 0 < T.length) e
    rw [List.rotate_zero] at hP hP'
    have hperm := hT.perm
    rw [hP'] at *
    rw [hP] at hperm
    rw [List.filter_append, List.filter_cons_of_neg (by simp [hfree])] at hperm
    rw [List.filter_append, List.filter_cons_of_pos (by simp [he])]
    refine List.perm_middle.trans ?_
    rw [← List.filter_append] at hperm ⊢
    exact (hperm.cons e).trans (List.perm_append_singleton e es).symm
  order := by
    intro h hh
    rw [List.length_set] at hh
    obtain ⟨P, Q, hP, hP', hidx⟩ := rotate_split T hi hh e
    have hold : walk free T h = P.takeWhile fun a ↦ !free a := by
      rw [walk, hP, List.takeWhile_append]
      split
      · rw [List.takeWhile_cons_of_neg (by simp [hfree]), List.append_nil]
        next hall => exact (List.takeWhile_prefix _).eq_of_length hall |>.symm
      · rfl
    by_cases hall : ∀ a ∈ P, free a = false
    · -- the walk from `h` ends at slot `i`: the new entry comes next, and what follows it
      -- has other homes
      have hPw : P.takeWhile (fun a ↦ !free a) = P := by
        rw [List.takeWhile_eq_self_iff]
        exact fun a ha ↦ by simp [hall a ha]
      have hout := hT.filter_outside hh (B := T[i] :: Q) (by rw [hold, hPw, hP])
      rw [List.filter_cons_of_neg (by simp [hfree])] at hout
      have hQ : (Q.takeWhile fun a ↦ !free a).filter (fun a ↦ home a == h) = [] := by
        rw [List.filter_eq_nil_iff] at hout ⊢
        intro a ha
        refine hout a (List.mem_filter.mpr ⟨(List.takeWhile_sublist _).mem ha, ?_⟩)
        exact List.mem_takeWhile_imp (p := fun a ↦ !free a) ha
      have hord := hT.order h hh
      rw [hold, hPw] at hord
      rw [walk, hP', List.takeWhile_append_of_pos (fun a ha ↦ by simp [hall a ha]),
        List.takeWhile_cons_of_pos (by simp [he]), List.filter_append, hord]
      rw [List.filter_cons, hQ, List.filter_append, List.filter_cons, List.filter_nil]
    · -- the walk from `h` ends before slot `i`, and the new entry has another home
      have hne : home e ≠ h := by
        rintro rfl
        exact hall (hreach P Q hh hP hidx)
      have hnew : walk free (T.set i e) h = P.takeWhile fun a ↦ !free a := by
        rw [walk, hP', List.takeWhile_append]
        split
        · next hlen =>
            exfalso
            apply hall
            intro a ha
            rw [← (List.takeWhile_prefix (fun a ↦ !free a)).eq_of_length hlen] at ha
            simpa using List.mem_takeWhile_imp ha
        · rfl
      rw [hnew, ← hold, hT.order h hh, List.filter_append]
      simp [hne]

/-- **Insertion.**  With a slot to spare the probe ends, and the table is what it
was with the new entry behind the others. -/
theorem Probed.insert (hT : Probed free home T es) (hlt : es.length < T.length) {e : α}
    (he : free e = false) (hhome : home e < T.length) :
    ∃ i, ∃ hi : i < T.length, free T[i] = true ∧ insert free home T e = some (T.set i e) ∧
      i = (home e + (walk free T (home e)).length) % T.length ∧
      Probed free home (T.set i e) (es ++ [e]) := by
  obtain ⟨f, B, hf, hrot⟩ := hT.exists_free hlt (home e)
  have hwalk : ∀ a ∈ walk free T (home e), free a = false := fun a ha ↦ free_of_mem_walk ha
  have hlen : (walk free T (home e)).length < T.length := by
    have h := congrArg List.length hrot
    rw [List.length_rotate, List.length_append, List.length_cons] at h
    omega
  have hprobe := probe_eq hf hhome hrot hwalk hlen
  have hi : (home e + (walk free T (home e)).length) % T.length < T.length :=
    Nat.mod_lt _ (by omega)
  have hTi : T[(home e + (walk free T (home e)).length) % T.length] = f := by
    have hg : (T.rotate (home e))[(walk free T (home e)).length]? = some f := by
      rw [hrot, List.getElem?_append_right (Nat.le_refl _)]
      simp
    rw [List.getElem?_rotate hlen, Nat.add_comm, List.getElem?_eq_getElem hi] at hg
    exact Option.some.inj hg
  refine ⟨_, hi, by rw [hTi]; exact hf, ?_, rfl, ?_⟩
  · rw [Probe.insert, hprobe, Option.map_some]
  · refine hT.set he hi (by rw [hTi]; exact hf) ?_
    intro P Q _ hPQ hidx a ha
    -- the free slot reached from home is the one the walk ends at, so `P` is the walk
    have hPlt : P.length < T.length := by
      have h := congrArg List.length hPQ
      rw [List.length_rotate, List.length_append, List.length_cons] at h
      omega
    have hPlen : P.length = (walk free T (home e)).length := by
      rw [Nat.add_mod, Nat.add_mod (home e)] at hidx
      rw [Nat.mod_eq_of_lt hhome, Nat.mod_eq_of_lt hPlt, Nat.mod_eq_of_lt hlen] at hidx
      have h1 : ∀ x, x < T.length → (home e + x) % T.length =
          if home e + x < T.length then home e + x else home e + x - T.length := by
        intro x hx
        split
        · next h => exact Nat.mod_eq_of_lt h
        · next h => rw [Nat.mod_eq_sub_mod (by omega), Nat.mod_eq_of_lt (by omega)]
      rw [h1 _ hPlt, h1 _ hlen] at hidx
      split at hidx <;> split at hidx <;> omega
    have hpre : P = walk free T (home e) := by
      have happ := hPQ.symm.trans hrot
      exact List.append_inj_left happ hPlen
    rw [hpre] at ha
    exact hwalk a ha

/-! ## Building a table and searching it -/

variable (free home) in
/-- The table of `n` slots that inserting `es` into free slots `f` builds. -/
def build (f : α) (n : Nat) (es : List α) : Option (List α) :=
  es.foldlM (Probe.insert free home) (List.replicate n f)

theorem Probed.foldlM_insert : ∀ (es' : List α) {pre T : List α}, Probed free home T pre →
    pre.length + es'.length ≤ T.length → (∀ e ∈ es', free e = false ∧ home e < T.length) →
    ∃ T', es'.foldlM (Probe.insert free home) T = some T' ∧ T'.length = T.length ∧
      Probed free home T' (pre ++ es') := by
  intro es'
  induction es' with
  | nil => exact fun hT _ _ ↦ ⟨_, rfl, rfl, by simpa using hT⟩
  | cons e es' ih =>
      intro pre T hT hlen hes
      obtain ⟨he, hhome⟩ := hes e (by simp)
      obtain ⟨i, hi, -, hins, -, hT'⟩ := hT.insert (by simp at hlen; omega) he hhome
      obtain ⟨T', hfold, hlen', hprobed⟩ := ih hT' (by simp at hlen ⊢; omega)
        (fun x hx ↦ by simpa using hes x (by simp [hx]))
      refine ⟨T', ?_, by simpa using hlen', by simpa using hprobed⟩
      rw [List.foldlM_cons, hins]
      exact hfold

/-- A table with room for its entries can be built: every probe ends. -/
theorem build_probed {f : α} (hf : free f = true) {n : Nat} {es : List α} (hlen : es.length ≤ n)
    (hes : ∀ e ∈ es, free e = false ∧ home e < n) :
    ∃ T, build free home f n es = some T ∧ T.length = n ∧ Probed free home T es := by
  obtain ⟨T, hT, hn, hp⟩ := (probed_replicate home hf n).foldlM_insert es
    (by simpa using hlen) (by simpa using hes)
  exact ⟨T, hT, by simpa using hn, by simpa using hp⟩

/-- **Lookup.**  Searching the walk from `h` for something that only entries with
home `h` can be finds the one inserted first. -/
theorem Probed.find?_walk (hT : Probed free home T es) {h : Nat} (hh : h < T.length)
    {p : α → Bool} (hp : ∀ a, p a = true → home a = h) :
    (walk free T h).find? p = es.find? p := by
  have key : ∀ l : List α, (l.filter fun a ↦ home a == h).find? p = l.find? p := by
    intro l
    rw [List.find?_filter]
    congr 1
    funext a
    by_cases ha : p a = true
    · simp [ha, hp a ha]
    · simp [ha]
  rw [← key, hT.order h hh, key]

/-! ## Slot zero -/

/-- What is occupied at the beginning ends at a free slot. -/
theorem takeWhile_append_free {f : α} (hf : free f = true) (X Y : List α) :
    (X ++ f :: Y).takeWhile (fun a ↦ !free a) = X.takeWhile fun a ↦ !free a := by
  rw [List.takeWhile_append]
  split
  · rw [List.takeWhile_cons_of_neg (by simp [hf]), List.append_nil]
    next hall => exact (List.takeWhile_prefix _).eq_of_length hall |>.symm
  · rfl

/-- Behind a free slot of the rotation from `h` no entry has its home at `h`. -/
theorem Probed.home_ne_of_behind (hT : Probed free home T es) {h : Nat} (hh : h < T.length)
    {X Y : List α} {f a : α} (hf : free f = true) (hrot : T.rotate h = X ++ f :: Y)
    (ha : a ∈ Y) (hocc : free a = false) : home a ≠ h := by
  intro hah
  have hwalk : walk free T h = X.takeWhile fun a ↦ !free a := by
    rw [walk, hrot, takeWhile_append_free hf]
  have hout := hT.filter_outside hh (B := X.dropWhile (fun a ↦ !free a) ++ f :: Y) (by
    rw [hwalk, hrot, ← List.append_assoc, List.takeWhile_append_dropWhile])
  rw [List.filter_eq_nil_iff] at hout
  refine hout a (List.mem_filter.mpr ⟨?_, by simp [hocc]⟩) (by simp [hah])
  simp [ha]

variable (home) in
/-- Some entry has to be put into slot `0` of a table of `n` slots: one that is at
home there, or one that the last `j` slots, for some `j`, cannot hold. -/
def crowded (n : Nat) (es : List α) : Bool :=
  es.any (fun e ↦ home e == 0) ||
    (List.range n).any fun j ↦ j < es.countP fun e ↦ n - j ≤ home e

theorem crowded_iff {n : Nat} {es : List α} : crowded home n es = true ↔
    (∃ e ∈ es, home e = 0) ∨ ∃ j < n, j < es.countP fun e ↦ n - j ≤ home e := by
  simp [crowded]

/-- The occupied slots count like the inserted entries. -/
theorem Probed.countP_eq (hT : Probed free home T es) (p : α → Bool) :
    T.countP (fun a ↦ !free a && p a) = es.countP p := by
  rw [← hT.perm.countP_eq p, List.countP_filter]
  congr 1
  funext a
  exact Bool.and_comm _ _

/-- While slot `0` is free no entry had to go there. -/
theorem Probed.not_crowded (hT : Probed free home T es) (hes : ∀ e ∈ es, home e < T.length)
    {f : α} {U : List α} (hTU : T = f :: U) (hf : free f = true) :
    crowded home T.length es = false := by
  rw [Bool.eq_false_iff, ne_eq, crowded_iff]
  have hmem : ∀ a, a ∈ T → free a = false → a ∈ es := fun a ha hfa ↦
    hT.perm.mem_iff.mp (List.mem_filter.mpr ⟨ha, by simp [hfa]⟩)
  rintro (⟨e, he, h0⟩ | ⟨j, hj, hcount⟩)
  · have hpos : 0 < T.length := by rw [hTU]; simp
    have hord := hT.order 0 hpos
    rw [walk, List.rotate_zero, hTU, List.takeWhile_cons_of_neg (by simp [hf]),
      List.filter_nil] at hord
    have hin : e ∈ es.filter fun a ↦ home a == 0 := List.mem_filter.mpr ⟨he, by simp [h0]⟩
    rw [← hord] at hin
    exact absurd hin (by simp)
  · -- an entry with home among the last `j` slots lies there, so there are at most `j`
    have htake : (T.take (T.length - j)).countP
        (fun a ↦ !free a && decide (T.length - j ≤ home a)) = 0 := by
      rw [List.countP_eq_zero]
      intro a ha hcon
      rw [Bool.and_eq_true, Bool.not_eq_true', decide_eq_true_eq] at hcon
      obtain ⟨hocc, hle⟩ := hcon
      have hlt : home a < T.length := hes a (hmem a ((List.take_sublist _ _).mem ha) hocc)
      have hUtake : T.take (home a) = f :: U.take (home a - 1) := by
        rw [hTU, show home a = home a - 1 + 1 by omega, List.take_succ_cons]
        rfl
      refine hT.home_ne_of_behind hlt hf (X := T.drop (home a)) (Y := U.take (home a - 1))
        (a := a) ?_ ?_ hocc rfl
      · rw [List.rotate_eq_drop_append_take (Nat.le_of_lt hlt), hUtake]
      · have hmemtake : a ∈ T.take (home a) :=
          (List.take_prefix_take_left hle).mem ha
        rw [hUtake, List.mem_cons] at hmemtake
        rcases hmemtake with rfl | hmemU
        · exact absurd hf (by simp [hocc])
        · exact hmemU
    have hdrop : (T.drop (T.length - j)).countP
        (fun a ↦ !free a && decide (T.length - j ≤ home a)) ≤ j := by
      refine le_trans (List.countP_le_length) ?_
      rw [List.length_drop]
      omega
    have hsum := hT.countP_eq fun a ↦ decide (T.length - j ≤ home a)
    rw [← List.take_append_drop (T.length - j) T, List.countP_append] at hsum
    rw [List.take_append_drop] at hsum
    omega

section Wrap

variable {f : α} {U : List α} (hTU : T = f :: U) (hf : free f = true) {h : Nat} (hh : h < T.length)
include hTU hf hh

/-- A walk that comes round to slot `0`, which is free, has found everything behind it occupied. -/
theorem occupied_of_wrap (h0 : h ≠ 0) (hzero : (h + (walk free T h).length) % T.length = 0) :
    ∀ a ∈ T.drop h, free a = false := by
  have hcut : T.take h = f :: U.take (h - 1) := by
    rw [hTU, show h = h - 1 + 1 by omega, List.take_succ_cons]
    rfl
  have hwalk : walk free T h = (T.drop h).takeWhile fun a ↦ !free a := by
    rw [walk, List.rotate_eq_drop_append_take (Nat.le_of_lt hh), hcut, takeWhile_append_free hf]
  have hwlen : (walk free T h).length ≤ T.length - h := by
    rw [hwalk, ← List.length_drop]
    exact (List.takeWhile_sublist _).length_le
  have hfull : (walk free T h).length = T.length - h := by
    by_contra hne
    rw [Nat.mod_eq_of_lt (by omega)] at hzero
    omega
  rw [hwalk, ← List.length_drop] at hfull
  have heq := (List.takeWhile_prefix (fun a ↦ !free a)).eq_of_length hfull
  intro a ha
  rw [← heq] at ha
  simpa using List.mem_takeWhile_imp (p := fun a ↦ !free a) ha

/-- The longest occupied run at the end of the table has a free slot in front of it. -/
theorem exists_run (hocc : ∀ a ∈ T.drop h, free a = false) :
    ∃ c g, 0 < c ∧ c ≤ h ∧ (∀ a ∈ T.drop c, free a = false) ∧ T.drop (c - 1) = g :: T.drop c ∧
      free g = true := by
  have hex : ∃ c, ∀ a ∈ T.drop c, free a = false := ⟨h, hocc⟩
  obtain ⟨c, hc, hmin⟩ : ∃ c, (∀ a ∈ T.drop c, free a = false) ∧
      ∀ d < c, ¬ ∀ a ∈ T.drop d, free a = false := by
    classical
    exact ⟨Nat.find hex, Nat.find_spec hex, fun d hd ↦ Nat.find_min hex hd⟩
  have hcle : c ≤ h := by
    by_contra hlt
    exact hmin _ (by omega) hocc
  have hcpos : 0 < c := by
    rcases Nat.eq_zero_or_pos c with rfl | h
    · have := hc f (by rw [List.drop_zero, hTU]; simp)
      exact absurd hf (by simp [this])
    · exact h
  have hlt : c - 1 < T.length := by omega
  have hcons : T.drop (c - 1) = T[c - 1] :: T.drop c := by
    rw [List.drop_eq_getElem_cons hlt, Nat.sub_add_cancel hcpos]
  refine ⟨c, T[c - 1], hcpos, hcle, hc, hcons, ?_⟩
  by_contra hne
  refine hmin (c - 1) (by omega) ?_
  intro a ha
  rw [hcons, List.mem_cons] at ha
  rcases ha with rfl | ha
  · simpa using hne
  · exact hc a ha

end Wrap

/-- No entry of an occupied run at the end comes from a slot in front of it. -/
theorem Probed.le_home_of_run (hT : Probed free home T es) {c : Nat} {g : α} (hcpos : 0 < c)
    (hclen : c ≤ T.length) (hc : ∀ a ∈ T.drop c, free a = false)
    (hg : T.drop (c - 1) = g :: T.drop c) (hgfree : free g = true) :
    ∀ a ∈ T.drop c, c ≤ home a := by
  intro a ha
  by_contra hlt
  have hlt' : home a < c := Nat.lt_of_not_le hlt
  refine hT.home_ne_of_behind (h := home a) (by omega) hgfree
    (X := (T.drop (home a)).take (c - 1 - home a)) (Y := T.drop c ++ T.take (home a))
    (a := a) ?_ (by simp [ha]) (hc a ha) rfl
  rw [List.rotate_eq_drop_append_take (by omega), ← List.cons_append, ← hg, ← List.append_assoc]
  congr 1
  conv_lhs => rw [← List.take_append_drop (c - 1 - home a) (T.drop (home a))]
  rw [List.drop_drop, show home a + (c - 1 - home a) = c - 1 by omega]

/-- An entry that is put into slot `0` had to go there. -/
theorem Probed.crowded_of_wrap (hT : Probed free home T es) {e f : α} {U : List α}
    (hTU : T = f :: U) (hf : free f = true) (hhome : home e < T.length)
    (hzero : (home e + (walk free T (home e)).length) % T.length = 0) :
    crowded home T.length (es ++ [e]) = true := by
  rw [crowded_iff]
  by_cases h0 : home e = 0
  · exact .inl ⟨e, by simp, h0⟩
  · obtain ⟨c, g, hcpos, hcle, hc, hg, hgfree⟩ :=
      exists_run hTU hf hhome (occupied_of_wrap hTU hf hhome h0 hzero)
    have hhomes := hT.le_home_of_run hcpos (by omega) hc hg hgfree
    refine .inr ⟨T.length - c, by omega, ?_⟩
    have hsum := hT.countP_eq fun a ↦ decide (c ≤ home a)
    have hrun : (T.drop c).countP (fun a ↦ !free a && decide (c ≤ home a)) = T.length - c := by
      rw [← List.length_drop, List.countP_eq_length]
      intro a ha
      simp [hc a ha, hhomes a ha]
    have hge : T.length - c ≤ es.countP fun a ↦ decide (c ≤ home a) := by
      rw [← hsum, ← hrun]
      exact (List.drop_sublist c T).countP_le
    rw [List.countP_append, show T.length - (T.length - c) = c by omega]
    simp only [List.countP_singleton, hcle, decide_true, if_true]
    omega

/-- Once slot `0` is taken, later insertions leave it. -/
theorem Probed.head_foldlM_of_occupied {e : α} : ∀ (es' : List α) {pre T T' : List α},
    Probed free home T pre → free e = false → pre.length + es'.length ≤ T.length →
    (∀ x ∈ es', free x = false ∧ home x < T.length) → T.head? = some e →
    es'.foldlM (Probe.insert free home) T = some T' → T'.head? = some e := by
  intro es'
  induction es' with
  | nil =>
      intro pre T T' _ _ _ _ hhead hfold
      cases hfold
      exact hhead
  | cons x es' ih =>
      intro pre T T' hT he hlen hes hhead hfold
      obtain ⟨hx, hhome⟩ := hes x (by simp)
      obtain ⟨k, hk, hkfree, hins, -, hT'⟩ := hT.insert (by simp at hlen; omega) hx hhome
      rw [List.foldlM_cons, hins] at hfold
      refine ih hT' he (by simp at hlen ⊢; omega)
        (fun y hy ↦ by simpa using hes y (by simp [hy])) ?_ hfold
      cases T with
      | nil => exact absurd hhead (by simp)
      | cons t ts =>
          cases k with
          | zero =>
              have hte : t = e := by simpa using hhead
              subst hte
              exact absurd hkfree (by simp [he])
          | succ k => simpa using hhead

variable (home) in
/-- The entry that has to go to slot `0` first, looking at the homes alone. -/
def firstCrowding (n : Nat) : List α → List α → Option α
  | _, [] => none
  | pre, e :: es =>
      if crowded home n (pre ++ [e]) then some e else firstCrowding n (pre ++ [e]) es

/-- **Slot zero.**  Inserting `es'` into a table whose slot `0` is free leaves there
the first entry that had to go there. -/
theorem Probed.head_foldlM : ∀ (es' : List α) {pre T T' : List α} {f : α} {U : List α},
    Probed free home T pre → T = f :: U → free f = true → (∀ e ∈ pre, home e < T.length) →
    pre.length + es'.length ≤ T.length →
    (∀ e ∈ es', free e = false ∧ home e < T.length) →
    es'.foldlM (Probe.insert free home) T = some T' →
    T'.head? = some ((firstCrowding home T.length pre es').getD f) := by
  intro es'
  induction es' with
  | nil =>
      intro pre T T' f U _ hTU _ _ _ _ hfold
      cases hfold
      rw [hTU]
      rfl
  | cons e es' ih =>
      intro pre T T' f U hT hTU hf hpre hlen hes hfold
      obtain ⟨he, hhome⟩ := hes e (by simp)
      obtain ⟨i, hi, hfree, hins, hidx, hT'⟩ := hT.insert (by simp at hlen; omega) he hhome
      rw [List.foldlM_cons, hins] at hfold
      have hfold' : es'.foldlM (Probe.insert free home) (T.set i e) = some T' := hfold
      have hpre' : ∀ x ∈ pre ++ [e], home x < T.length := by
        intro x hx
        rcases List.mem_append.mp hx with h | h
        · exact hpre x h
        · rw [List.mem_singleton] at h
          rw [h]
          exact hhome
      have hes' : ∀ x ∈ es', free x = false ∧ home x < (T.set i e).length := fun x hx ↦ by
        simpa using hes x (by simp [hx])
      rw [firstCrowding]
      cases i with
      | zero =>
          rw [if_pos (hT.crowded_of_wrap hTU hf hhome hidx.symm), Option.getD_some]
          exact hT'.head_foldlM_of_occupied es' he (by simp at hlen ⊢; omega) hes'
            (by rw [hTU]; rfl)
            hfold'
      | succ k =>
          have hset : T.set (k + 1) e = f :: U.set k e := by rw [hTU]; rfl
          have hnc := hT'.not_crowded (by simpa using hpre') hset hf
          rw [List.length_set] at hnc
          rw [if_neg (by rw [hnc]; simp)]
          have := ih hT' hset hf (by simpa using hpre') (by simp at hlen ⊢; omega) hes' hfold'
          rwa [List.length_set] at this

theorem head_build {f : α} (hf : free f = true) {n : Nat} (hn : 0 < n) {es T : List α}
    (hlen : es.length ≤ n) (hes : ∀ e ∈ es, free e = false ∧ home e < n)
    (hT : build free home f n es = some T) :
    T.head? = some ((firstCrowding home n [] es).getD f) := by
  obtain ⟨m, rfl⟩ : ∃ m, n = m + 1 := ⟨n - 1, by omega⟩
  have h := (probed_replicate home hf (m + 1)).head_foldlM es (f := f)
    (U := List.replicate m f) rfl hf (by simp) (by simpa using hlen) (by simpa using hes) hT
  simpa using h

theorem mem_of_firstCrowding {n : Nat} {pre es : List α} {e : α}
    (h : firstCrowding home n pre es = some e) : e ∈ es := by
  induction es generalizing pre with
  | nil => cases h
  | cons x es ih =>
      rw [firstCrowding] at h
      split at h
      · exact Option.some.inj h ▸ List.mem_cons_self
      · exact List.mem_cons_of_mem _ (ih h)

variable (home) in
/-- Which entry goes to slot `0` depends on the homes only. -/
theorem firstCrowding_map {β : Type u} (g : β → α) (n : Nat) (pre es : List β) :
    firstCrowding home n (pre.map g) (es.map g) =
      (firstCrowding (home ∘ g) n pre es).map g := by
  induction es generalizing pre with
  | nil => rfl
  | cons e es ih =>
      have hcrowded : crowded home n (pre.map g ++ [g e]) = crowded (home ∘ g) n (pre ++ [e]) := by
        rw [show pre.map g ++ [g e] = (pre ++ [e]).map g by simp]
        simp only [crowded, List.any_map, List.countP_map]
        rfl
      have ih := ih (pre ++ [e])
      rw [List.map_append, List.map_cons, List.map_nil] at ih
      rw [List.map_cons, firstCrowding, firstCrowding, hcrowded, ih]
      split
      · rfl
      · rfl

end SdbStore.Lib.Probe
