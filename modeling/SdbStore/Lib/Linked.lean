import Mathlib.Data.List.Nodup
import Mathlib.Logic.Function.Basic
import Mathlib.Tactic.Common

/-!
# Doubly linked lists

A list whose nodes know the node behind them and the node in front of them.  `z` stands for no
node, and behind the last node there is none; what is in front of the first node, say `z` again as
the place where the beginning of the list is kept, is a parameter.

`Linked.push`, `Linked.insert` and `Linked.remove` are the ways in which such a list changes: two
links are written, and the links of all other nodes stay.  Where only one direction is right, the
list is `Forward` or `Backward`.
-/

namespace SdbStore.Lib

universe u

variable {α : Type u}

/-- The nodes of the list come one after another behind `x`. -/
def Linked (next prev : α → Option α) (z : α) : α → List α → Prop
  | x, [] => next x = some z
  | x, y :: l => next x = some y ∧ prev y = some x ∧ Linked next prev z y l

variable {next prev next' prev' : α → Option α} {z x y : α} {l l₁ l₂ : List α}

/-- The node in front of the rest of a list. -/
def lastOf (x : α) (l : List α) : α := l.getLast?.getD x

@[simp] theorem lastOf_nil (x : α) : lastOf x [] = x := rfl

@[simp] theorem lastOf_cons (x y : α) (l : List α) : lastOf x (y :: l) = lastOf y l := by
  rw [lastOf, lastOf, List.getLast?_cons]
  rfl

theorem lastOf_concat (x y : α) (l : List α) : lastOf x (l ++ [y]) = y := by
  rw [lastOf, List.getLast?_concat]
  rfl

theorem lastOf_append_cons (x y : α) (l₁ l₂ : List α) :
    lastOf x (l₁ ++ y :: l₂) = lastOf y l₂ := by
  rw [lastOf, List.getLast?_append, List.getLast?_cons]
  rfl

theorem lastOf_mem (x : α) (l : List α) : lastOf x l ∈ x :: l := by
  induction l generalizing x with
  | nil => exact List.mem_cons_self
  | cons y l ih =>
      rw [lastOf_cons]
      exact List.mem_cons_of_mem x (ih y)

/-- Only the links of its nodes matter. -/
theorem Linked.congr (h : Linked next prev z x l) (hnext : ∀ y ∈ x :: l, next' y = next y)
    (hprev : ∀ y ∈ l, prev' y = prev y) : Linked next' prev' z x l := by
  induction l generalizing x with
  | nil => exact (hnext x List.mem_cons_self).trans h
  | cons y l ih =>
      obtain ⟨hxy, hyx, h⟩ := h
      refine ⟨(hnext x List.mem_cons_self).trans hxy, (hprev y List.mem_cons_self).trans hyx,
        ih h (fun w hw ↦ hnext w (List.mem_cons_of_mem x hw))
          fun w hw ↦ hprev w (List.mem_cons_of_mem y hw)⟩

/-- The links of a node. -/
theorem Linked.at_node (h : Linked next prev z x (l₁ ++ y :: l₂)) :
    next y = some (l₂.headD z) ∧ prev y = some (lastOf x l₁) := by
  induction l₁ generalizing x with
  | nil =>
      obtain ⟨-, hyx, h⟩ := h
      refine ⟨?_, hyx⟩
      cases l₂ with
      | nil => exact h
      | cons w l₂ => exact h.1
  | cons w l₁ ih =>
      rw [lastOf_cons]
      exact ih h.2.2

/-- The link of the last of the first nodes. -/
theorem Linked.at_last (h : Linked next prev z x (l₁ ++ l₂)) :
    next (lastOf x l₁) = some (l₂.headD z) := by
  induction l₁ generalizing x with
  | nil =>
      cases l₂ with
      | nil => exact h
      | cons y l₂ => exact h.1
  | cons y l₁ ih =>
      rw [lastOf_cons]
      exact ih h.2.2

theorem Linked.head (h : Linked next prev z x l) : next x = some (l.headD z) := by
  cases l with
  | nil => exact h
  | cons y l => exact h.1

/-- The links leave no choice. -/
theorem Linked.unique (h : Linked next prev z x l₁) (h' : Linked next prev z x l₂) (h₁ : z ∉ l₁)
    (h₂ : z ∉ l₂) : l₁ = l₂ := by
  induction l₁ generalizing x l₂ with
  | nil =>
      cases l₂ with
      | nil => rfl
      | cons y l₂ =>
          obtain rfl := Option.some.inj (Eq.trans (Eq.symm h) h'.1)
          exact absurd List.mem_cons_self h₂
  | cons y l₁ ih =>
      cases l₂ with
      | nil =>
          obtain rfl := Option.some.inj (Eq.trans (Eq.symm h') h.1)
          exact absurd List.mem_cons_self h₁
      | cons w l₂ =>
          obtain rfl := Option.some.inj (h.1.symm.trans h'.1)
          rw [ih h.2.2 h'.2.2 (fun hz ↦ h₁ (List.mem_cons_of_mem _ hz)) fun hz ↦
            h₂ (List.mem_cons_of_mem _ hz)]

/-- A node is put in front of a list. -/
theorem Linked.push (h : Linked next prev z x l) (hx : next' x = some y) (hy : prev' y = some x)
    (hyl : next' y = some (l.headD z)) (hhead : ∀ w ∈ l.head?, prev' w = some y)
    (hnext : ∀ w ∈ l, next' w = next w) (hprev : ∀ w ∈ l.tail, prev' w = prev w) :
    Linked next' prev' z x (y :: l) := by
  refine ⟨hx, hy, ?_⟩
  cases l with
  | nil => exact hyl
  | cons w l =>
      exact ⟨hyl, hhead w rfl, h.2.2.congr hnext hprev⟩

/-- A node is taken out of a list. -/
theorem Linked.remove (h : Linked next prev z x (l₁ ++ y :: l₂))
    (hlast : next' (lastOf x l₁) = some (l₂.headD z))
    (hhead : ∀ w ∈ l₂.head?, prev' w = some (lastOf x l₁))
    (hnext : ∀ w ∈ x :: l₁ ++ l₂, w ≠ lastOf x l₁ → next' w = next w)
    (hprev : ∀ w ∈ l₁ ++ l₂, w ∉ l₂.head? → prev' w = prev w)
    (hnodup : (x :: l₁ ++ l₂).Nodup) : Linked next' prev' z x (l₁ ++ l₂) := by
  induction l₁ generalizing x with
  | nil =>
      cases l₂ with
      | nil => exact hlast
      | cons w l₂ =>
          obtain ⟨-, -, -, -, h⟩ := h
          have hw : ∀ v ∈ l₂, v ≠ w := by
            rintro v hv rfl
            exact (List.nodup_cons.mp (List.nodup_cons.mp hnodup).2).1 hv
          have hx : ∀ v ∈ w :: l₂, v ≠ x := by
            rintro v hv rfl
            exact (List.nodup_cons.mp hnodup).1 hv
          refine ⟨hlast, hhead w rfl, h.congr (fun v hv ↦ ?_) fun v hv ↦ ?_⟩
          · exact hnext v (List.mem_cons_of_mem x hv) (hx v hv)
          · exact hprev v (List.mem_cons_of_mem w hv) fun hvw ↦ hw v hv (Option.some.inj hvw).symm
  | cons w l₁ ih =>
      obtain ⟨hxw, hwx, h⟩ := h
      rw [lastOf_cons] at hlast hhead hnext
      have hnodup' : (w :: l₁ ++ l₂).Nodup := (List.nodup_cons.mp hnodup).2
      have hxlast : x ≠ lastOf w l₁ := by
        rintro rfl
        exact (List.nodup_cons.mp hnodup).1 (List.mem_append_left _ (lastOf_mem w l₁))
      have hwhead : w ∉ l₂.head? := by
        intro hw
        exact (List.nodup_cons.mp hnodup').1 (List.mem_append_right _ (List.mem_of_mem_head? hw))
      refine ⟨(hnext x List.mem_cons_self hxlast).trans hxw,
        (hprev w List.mem_cons_self hwhead).trans hwx,
        ih h hlast hhead (fun v hv ↦ hnext v (List.mem_cons_of_mem x hv))
          (fun v hv ↦ hprev v (List.mem_cons_of_mem w hv)) hnodup'⟩

/-- A node is put into a list. -/
theorem Linked.insert (h : Linked next prev z x (l₁ ++ l₂)) (hlast : next' (lastOf x l₁) = some y)
    (hy : prev' y = some (lastOf x l₁)) (hyl : next' y = some (l₂.headD z))
    (hhead : ∀ w ∈ l₂.head?, prev' w = some y)
    (hnext : ∀ w ∈ x :: l₁ ++ l₂, w ≠ lastOf x l₁ → next' w = next w)
    (hprev : ∀ w ∈ l₁ ++ l₂, w ∉ l₂.head? → prev' w = prev w)
    (hnodup : (x :: l₁ ++ l₂).Nodup) : Linked next' prev' z x (l₁ ++ y :: l₂) := by
  induction l₁ generalizing x with
  | nil =>
      refine h.push hlast hy hyl hhead (fun w hw ↦ ?_) fun w hw ↦ ?_
      · refine hnext w (List.mem_cons_of_mem x hw) ?_
        rintro rfl
        exact (List.nodup_cons.mp hnodup).1 hw
      · refine hprev w (List.mem_of_mem_tail hw) fun hwhead ↦ ?_
        cases l₂ with
        | nil => cases hw
        | cons v l₂ =>
            obtain rfl := Option.some.inj hwhead
            exact (List.nodup_cons.mp (List.nodup_cons.mp hnodup).2).1 hw
  | cons w l₁ ih =>
      obtain ⟨hxw, hwx, h⟩ := h
      rw [lastOf_cons] at hlast hy hnext
      have hnodup' : (w :: l₁ ++ l₂).Nodup := (List.nodup_cons.mp hnodup).2
      have hxlast : x ≠ lastOf w l₁ := by
        rintro rfl
        exact (List.nodup_cons.mp hnodup).1 (List.mem_append_left _ (lastOf_mem w l₁))
      have hwhead : w ∉ l₂.head? := by
        intro hw
        exact (List.nodup_cons.mp hnodup').1 (List.mem_append_right _ (List.mem_of_mem_head? hw))
      refine ⟨(hnext x List.mem_cons_self hxlast).trans hxw,
        (hprev w List.mem_cons_self hwhead).trans hwx,
        ih h hlast hy (fun v hv ↦ hnext v (List.mem_cons_of_mem x hv))
          (fun v hv ↦ hprev v (List.mem_cons_of_mem w hv)) hnodup'⟩

/-! ## One direction -/

/-- Every node knows the node behind it. -/
def Forward (next : α → Option α) (z : α) : List α → Prop
  | [] => True
  | y :: l => next y = some (l.headD z) ∧ Forward next z l

/-- Every node knows the node in front of it; in front of the first one there is `x`. -/
def Backward (prev : α → Option α) : α → List α → Prop
  | _, [] => True
  | x, y :: l => prev y = some x ∧ Backward prev y l

theorem linked_iff : Linked next prev z x l ↔ Forward next z (x :: l) ∧ Backward prev x l := by
  induction l generalizing x with
  | nil => exact ⟨fun h ↦ ⟨⟨h, trivial⟩, trivial⟩, fun h ↦ h.1.1⟩
  | cons y l ih =>
      rw [Linked, ih, Forward, Backward]
      exact ⟨fun ⟨hx, hy, hf, hb⟩ ↦ ⟨⟨hx, hf⟩, hy, hb⟩, fun ⟨⟨hx, hf⟩, hy, hb⟩ ↦ ⟨hx, hy, hf, hb⟩⟩

theorem forward_append :
    Forward next z (l₁ ++ l₂) ↔ Forward next (l₂.headD z) l₁ ∧ Forward next z l₂ := by
  induction l₁ with
  | nil => exact (and_iff_right trivial).symm
  | cons y l₁ ih =>
      rw [List.cons_append, Forward, Forward, ih, and_assoc]
      have hhead : (l₁ ++ l₂).headD z = l₁.headD (l₂.headD z) := by
        cases l₁ with
        | nil => rfl
        | cons w l₁ => rfl
      rw [hhead]

theorem backward_append :
    Backward prev x (l₁ ++ l₂) ↔ Backward prev x l₁ ∧ Backward prev (lastOf x l₁) l₂ := by
  induction l₁ generalizing x with
  | nil => exact (and_iff_right trivial).symm
  | cons y l₁ ih =>
      rw [List.cons_append, Backward, Backward, ih, lastOf_cons, and_assoc]

theorem Forward.congr (h : Forward next z l) (hnext : ∀ y ∈ l, next' y = next y) :
    Forward next' z l := by
  induction l with
  | nil => trivial
  | cons y l ih =>
      exact ⟨(hnext y List.mem_cons_self).trans h.1,
        ih h.2 fun w hw ↦ hnext w (List.mem_cons_of_mem y hw)⟩

theorem Backward.congr (h : Backward prev x l) (hprev : ∀ y ∈ l, prev' y = prev y) :
    Backward prev' x l := by
  induction l generalizing x with
  | nil => trivial
  | cons y l ih =>
      exact ⟨(hprev y List.mem_cons_self).trans h.1,
        ih h.2 fun w hw ↦ hprev w (List.mem_cons_of_mem y hw)⟩

/-- Behind the last node there is nothing. -/
theorem Forward.at_last (h : Forward next z (x :: l)) : next (lastOf x l) = some z := by
  induction l generalizing x with
  | nil => exact h.1
  | cons y l ih =>
      rw [lastOf_cons]
      exact ih h.2

/-- The link of the last node is written. -/
theorem Forward.setLast (h : Forward next z (x :: l)) (hlast : next' (lastOf x l) = some y)
    (hnext : ∀ w ∈ x :: l, w ≠ lastOf x l → next' w = next w) (hnodup : (x :: l).Nodup) :
    Forward next' y (x :: l) := by
  induction l generalizing x with
  | nil => exact ⟨hlast, trivial⟩
  | cons w l ih =>
      rw [lastOf_cons] at hlast hnext
      obtain ⟨hx, h⟩ := h
      have hxlast : x ≠ lastOf w l := by
        rintro rfl
        exact (List.nodup_cons.mp hnodup).1 (lastOf_mem w l)
      exact ⟨(hnext x List.mem_cons_self hxlast).trans hx,
        ih h hlast (fun v hv ↦ hnext v (List.mem_cons_of_mem x hv)) (List.nodup_cons.mp hnodup).2⟩

end SdbStore.Lib
