import Mathlib.Data.List.Perm.Basic
import SdbStore.Lib.Simulation

/-!
# Sets that are kept as lists

A set is changed by calls that add and remove.  What is in it is what was added and not removed
since (`Member`), and a list that appends what is new and erases what is removed holds exactly that,
each of it once (`lists_stateAfter`).
-/

namespace SdbStore.Lib

universe u

variable {α : Type u}

/-- A call that changes a set. -/
inductive SetOp (α : Type u) where
  | add (v : α)
  | remove (v : α)

/-- `v` was added, and not removed since. -/
def Member (hist : List (SetOp α)) (v : α) : Prop :=
  ∃ before since, hist = before ++ .add v :: since ∧ .remove v ∉ since

/-- The call does not change the set. -/
def SetOp.Idle (hist : List (SetOp α)) : SetOp α → Prop
  | .add v => Member hist v
  | .remove v => ¬ Member hist v

theorem not_member_nil (v : α) : ¬ Member [] v := by
  rintro ⟨before, since, h, -⟩
  exact absurd h.symm (List.append_ne_nil_of_right_ne_nil _ (List.cons_ne_nil _ _))

/-- What one more call does to what is in the set. -/
theorem member_concat {hist : List (SetOp α)} {op : SetOp α} {v : α} :
    Member (hist ++ [op]) v ↔ op = .add v ∨ (Member hist v ∧ op ≠ .remove v) := by
  constructor
  · rintro ⟨before, since, h, hsince⟩
    rcases List.eq_nil_or_concat since with rfl | ⟨since, last, rfl⟩
    · exact .inl (List.cons.inj (List.append_inj' h rfl).2).1
    · rw [List.concat_eq_append] at h hsince
      rw [← List.cons_append, ← List.append_assoc] at h
      obtain ⟨hhist, hlast⟩ := List.append_inj' h rfl
      obtain rfl := (List.cons.inj hlast).1
      rw [List.mem_append, List.mem_singleton, not_or] at hsince
      exact .inr ⟨⟨before, since, hhist, hsince.1⟩, fun h ↦ hsince.2 h.symm⟩
  · rintro (rfl | ⟨⟨before, since, rfl, hsince⟩, hop⟩)
    · exact ⟨hist, [], rfl, List.not_mem_nil⟩
    · refine ⟨before, since ++ [op], by simp, fun h ↦ ?_⟩
      rcases List.mem_append.mp h with h | h
      · exact hsince h
      · exact hop (List.mem_singleton.mp h).symm

variable [DecidableEq α]

/-- A call on a list: whether it changes something, and the list after it. -/
def SetOp.apply (L : List α) : SetOp α → Bool × List α
  | .add v => if v ∈ L then (false, L) else (true, L ++ [v])
  | .remove v => if v ∈ L then (true, L.erase v) else (false, L)

/-- The list holds what is in the set, each of it once. -/
structure Lists (hist : List (SetOp α)) (L : List α) : Prop where
  nodup : L.Nodup
  mem : ∀ v, v ∈ L ↔ Member hist v

omit [DecidableEq α] in
theorem Lists.nil : Lists ([] : List (SetOp α)) [] :=
  ⟨List.nodup_nil, fun v ↦ iff_of_false List.not_mem_nil (not_member_nil v)⟩

section Apply

variable {hist : List (SetOp α)} {L : List α} (h : Lists hist L)
include h

theorem Lists.apply (op : SetOp α) : Lists (hist ++ [op]) (op.apply L).2 := by
  cases op with
  | add v =>
      rw [SetOp.apply]
      split
      · next hv =>
          refine ⟨h.nodup, fun u ↦ ?_⟩
          rw [member_concat, h.mem]
          constructor
          · exact fun hu ↦ .inr ⟨hu, by simp⟩
          · rintro (heq | ⟨hu, -⟩)
            · cases heq
              exact (h.mem v).mp hv
            · exact hu
      · next hv =>
          refine ⟨List.nodup_append.mpr ⟨h.nodup, by simp, ?_⟩, fun u ↦ ?_⟩
          · rintro a ha b hb rfl
            exact hv (List.mem_singleton.mp hb ▸ ha)
          · rw [member_concat, List.mem_append, List.mem_singleton, h.mem, SetOp.add.injEq, eq_comm,
              or_comm]
            simp
  | remove v =>
      rw [SetOp.apply]
      have hmem : ∀ u, Member (hist ++ [.remove v]) u ↔ Member hist u ∧ u ≠ v := fun u ↦ by
        rw [member_concat]
        simp [eq_comm]
      split
      · refine ⟨h.nodup.erase v, fun u ↦ ?_⟩
        rw [h.nodup.mem_erase_iff, hmem, h.mem, and_comm]
      · next hv =>
          refine ⟨h.nodup, fun u ↦ ?_⟩
          rw [hmem, ← h.mem]
          exact ⟨fun hu ↦ ⟨hu, fun hno ↦ hv (hno ▸ hu)⟩, And.left⟩

theorem Lists.idle_iff (op : SetOp α) : (op.apply L).1 = false ↔ op.Idle hist := by
  cases op with
  | add v =>
      rw [SetOp.apply, SetOp.Idle, ← h.mem]
      split
      · next hv => simp [hv]
      · next hv => simp [hv]
  | remove v =>
      rw [SetOp.apply, SetOp.Idle, ← h.mem]
      split
      · next hv => simp [hv]
      · next hv => simp [hv]

end Apply

/-- **The list of a run** holds what was added and not removed since. -/
theorem lists_stateAfter (ops : List (SetOp α)) {n : Nat} (hn : n ≤ ops.length) :
    Lists (ops.take n) (stateAfter SetOp.apply [] ops n) := by
  let rel (n : Nat) (_ L : List α) : Prop := Lists (ops.take n) L
  refine @stateAfter_counted _ _ _ _ rel SetOp.apply SetOp.apply [] [] ops Lists.nil
    (fun n op hop h ↦ ?_) n hn
  unfold rel
  rw [List.take_add_one, hop]
  exact h.apply op

/-! ## Sets of other values -/

/-- The call with another value. -/
def SetOp.map {β : Type u} (f : α → β) : SetOp α → SetOp β
  | .add v => .add (f v)
  | .remove v => .remove (f v)

/-- A call does the same to the list of other values, if they stay different. -/
theorem SetOp.apply_map {β : Type u} [DecidableEq β] {f : α → β} (hf : Function.Injective f)
    (op : SetOp α) (L : List α) :
    (op.map f).apply (L.map f) = ((op.apply L).1, (op.apply L).2.map f) := by
  cases op with
  | add v =>
      rw [SetOp.map, SetOp.apply, SetOp.apply]
      by_cases hv : v ∈ L
      · rw [if_pos hv, if_pos (List.mem_map_of_mem hv)]
      · rw [if_neg hv, if_neg (fun h ↦ hv ((List.mem_map_of_injective hf).mp h)), List.map_append]
        rfl
  | remove v =>
      rw [SetOp.map, SetOp.apply, SetOp.apply]
      by_cases hv : v ∈ L
      · rw [if_pos hv, if_pos (List.mem_map_of_mem hv), List.map_erase hf]
      · rw [if_neg hv, if_neg (fun h ↦ hv ((List.mem_map_of_injective hf).mp h))]

end SdbStore.Lib
