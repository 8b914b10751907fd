import SdbStore.CStr
import SdbStore.Lib.Simulation
import Mathlib.Data.List.Nodup

/-!
# Hooks

`s->hooks` is one list in which each callback is followed by the user pointer that it is registered
with.  The loops over it tell the two apart by their places, and they end at the first element that
is `NULL`.  A user pointer may be `NULL`: what stands behind it is not seen any more.

`hooksServe_iff` says when the list does what it is for, which is to be a registry: a callback is
registered at most once, and a call goes to all of them in order.
-/

namespace SdbStore

open Lib

/-- The elements of `s->hooks`, callbacks and user pointers in turn; the list itself is `NULL` at
first. -/
abbrev Hooks (α : Type) := Option (List (Option α))

/-- One call of a callback: its user pointer, the key and the value. -/
structure HookCall (α : Type) where
  hook : α
  user : Option α
  key : CStr
  val : Option CStr
deriving DecidableEq

variable {α : Type} [DecidableEq α]

/-! ## The source -/

/-- The loop of `sdb_hook`: whether the callback is found. -/
def hookLoop (cb : α) : Nat → List (Option α) → Bool
  | i, some hook :: l => if i % 2 = 0 ∧ hook = cb then true else hookLoop cb (i + 1) l
  | _, _ => false

/-- `sdb_hook`. -/
def sdbHook (hooks : Hooks α) (cb user : Option α) : Bool × Hooks α :=
  match cb with
  | none => (false, hooks)
  | some cb =>
      match hooks with
      | some l => if hookLoop cb 0 l then (false, hooks) else (true, some (l ++ [some cb, user]))
      | none => (true, some [some cb, user])

/-- The loop of `sdb_unhook`: the list without the callback and the element behind it, if the
callback is found. -/
def unhookLoop (h : α) : Nat → List (Option α) → Option (List (Option α))
  | i, some hook :: l =>
      if i % 2 = 0 ∧ hook = h then some (l.drop 1)
      else (unhookLoop h (i + 1) l).map (some hook :: ·)
  | _, _ => none

/-- `sdb_unhook`. -/
def sdbUnhook (hooks : Hooks α) (h : α) : Bool × Hooks α :=
  match hooks.bind (unhookLoop h 0) with
  | some l => (true, some l)
  | none => (false, hooks)

omit [DecidableEq α] in
/-- The loop of `sdb_hook_call`: the calls that it makes, and the counter at its end. -/
def hookCallLoop (k v : Option CStr) : Nat → List (Option α) → List (HookCall α) × Nat
  | i, some hook :: l =>
      let r := hookCallLoop k v (i + 1) l
      match k, l with
      | some k, u :: _ => (if i % 2 = 0 then ⟨hook, u, k, v⟩ :: r.1 else r.1, r.2)
      | _, _ => r
  | i, _ => ([], i)

omit [DecidableEq α] in
/-- `sdb_hook_call`: the calls that it makes, and what it returns. -/
def sdbHookCall (hooks : Hooks α) (k v : Option CStr) : List (HookCall α) × Nat :=
  let r := hookCallLoop k v 0 (hooks.getD [])
  (r.1, r.2 / 2)

/-! ## Registries -/

/-- The callbacks that are registered, in order, with their user pointers. -/
abbrev Registry (α : Type) := List (α × Option α)

/-- The two calls. -/
inductive HookOp (α : Type) where
  | hook (cb : α) (user : Option α)
  | unhook (cb : α)

/-- One call. -/
def HookOp.run (hooks : Hooks α) : HookOp α → Bool × Hooks α
  | .hook cb user => sdbHook hooks (some cb) user
  | .unhook cb => sdbUnhook hooks cb

/-- What it means for a registry. -/
def HookOp.spec (reg : Registry α) : HookOp α → Bool × Registry α
  | .hook cb user => if cb ∈ reg.map Prod.fst then (false, reg) else (true, reg ++ [(cb, user)])
  | .unhook cb =>
      if cb ∈ reg.map Prod.fst then (true, reg.filter fun p ↦ p.1 ≠ cb) else (false, reg)

/-- A call goes to every callback of the registry once, in order and with the user pointer that it
was registered with, and no other callback is refused. -/
def HooksServe (hooks : Hooks α) (reg : Registry α) : Prop :=
  (∀ k v, (sdbHookCall hooks (some k) v).1 = reg.map fun p ↦ ⟨p.1, p.2, k, v⟩) ∧
    ∀ cb user, (sdbHook hooks (some cb) user).1 = false ↔ cb ∈ reg.map Prod.fst

/-- A callback that is not registered yet comes behind a user pointer that is `NULL`. -/
def Buried (reg : Registry α) : HookOp α → Prop
  | .hook cb _ => cb ∉ reg.map Prod.fst ∧ ∃ p ∈ reg, p.2 = none
  | .unhook _ => False

/-! ## The list of a registry -/

/-- The list of a registry. -/
def interleave (reg : Registry α) : List (Option α) := reg.flatMap fun p ↦ [some p.1, p.2]

omit [DecidableEq α] in
theorem interleave_cons (p : α × Option α) (reg : Registry α) :
    interleave (p :: reg) = some p.1 :: p.2 :: interleave reg := rfl

/-- All user pointers but the last one are there. -/
def Shown (reg : Registry α) : Prop := reg.Pairwise fun p _ ↦ p.2 ≠ none

omit [DecidableEq α] in
theorem Shown.of_ne_none {p : α × Option α} {reg : Registry α} (h : Shown (p :: reg))
    (hreg : reg ≠ []) : p.2 ≠ none :=
  (List.pairwise_cons.mp h).1 _ (List.head_mem hreg)

omit [DecidableEq α] in
theorem shown_append {reg : Registry α} (h : Shown reg) (p : α × Option α) :
    Shown (reg ++ [p]) ↔ ∀ q ∈ reg, q.2 ≠ none := by
  rw [Shown, List.pairwise_append]
  constructor
  · exact fun happ q hq ↦ happ.2.2 q hq p (List.mem_singleton_self p)
  · exact fun hall ↦ ⟨h, List.pairwise_singleton _ _, fun q hq _ _ ↦ hall q hq⟩

section Loops

variable {reg : Registry α}

theorem hookLoop_interleave (h : Shown reg) (cb : α) {i : Nat} (hi : i % 2 = 0) :
    hookLoop cb i (interleave reg) = decide (cb ∈ reg.map Prod.fst) := by
  induction reg generalizing i with
  | nil => rfl
  | cons p reg ih =>
      obtain ⟨hook, user⟩ := p
      rw [interleave_cons, hookLoop]
      by_cases hcb : hook = cb
      · rw [if_pos ⟨hi, hcb⟩]
        simp [hcb]
      · rw [if_neg fun hc ↦ hcb hc.2]
        have hmem : cb ∈ ((hook, user) :: reg).map Prod.fst ↔ cb ∈ reg.map Prod.fst := by
          simp [Ne.symm hcb]
        rw [decide_eq_decide.mpr hmem]
        cases reg with
        | nil =>
            -- nothing stands behind the last user pointer
            cases user with
            | none => rfl
            | some u => exact if_neg fun hc ↦ by omega
        | cons q reg =>
            obtain ⟨u, rfl⟩ := Option.ne_none_iff_exists'.mp (h.of_ne_none (List.cons_ne_nil q reg))
            rw [hookLoop, if_neg fun hc ↦ by omega]
            exact ih h.of_cons (by omega)

theorem unhookLoop_interleave (h : Shown reg) (hn : (reg.map Prod.fst).Nodup) (cb : α) {i : Nat}
    (hi : i % 2 = 0) : unhookLoop cb i (interleave reg) =
      if cb ∈ reg.map Prod.fst then some (interleave (reg.filter fun p ↦ p.1 ≠ cb)) else none := by
  induction reg generalizing i with
  | nil => rfl
  | cons p reg ih =>
      obtain ⟨hook, user⟩ := p
      obtain ⟨hout, hrestn⟩ := List.nodup_cons.mp hn
      rw [interleave_cons, unhookLoop]
      by_cases hcb : hook = cb
      · rw [if_pos ⟨hi, hcb⟩, if_pos (by simp [hcb])]
        have hrest : reg.filter (fun p ↦ p.1 ≠ cb) = reg := by
          refine List.filter_eq_self.mpr fun q hq ↦ decide_eq_true fun hqc ↦ hout ?_
          change hook ∈ reg.map Prod.fst
          rw [hcb, ← hqc]
          exact List.mem_map_of_mem hq
        rw [List.filter_cons_of_neg (by simp [hcb]), hrest]
        rfl
      · rw [if_neg fun hc ↦ hcb hc.2, List.filter_cons_of_pos (by simp [hcb])]
        have hmem : cb ∈ ((hook, user) :: reg).map Prod.fst ↔ cb ∈ reg.map Prod.fst := by
          simp [Ne.symm hcb]
        simp only [hmem]
        cases reg with
        | nil =>
            cases user with
            | none => rfl
            | some u =>
                rw [unhookLoop, if_neg fun hc ↦ by omega]
                rfl
        | cons q reg =>
            obtain ⟨u, rfl⟩ := Option.ne_none_iff_exists'.mp (h.of_ne_none (List.cons_ne_nil q reg))
            rw [unhookLoop, if_neg fun hc ↦ by omega, ih h.of_cons hrestn (by omega)]
            split
            · rfl
            · rfl

omit [DecidableEq α] in
theorem hookCallLoop_interleave (h : Shown reg) (k : CStr) (v : Option CStr) {i : Nat}
    (hi : i % 2 = 0) :
    (hookCallLoop (some k) v i (interleave reg)).1 = reg.map fun p ↦ ⟨p.1, p.2, k, v⟩ := by
  induction reg generalizing i with
  | nil => rfl
  | cons p reg ih =>
      obtain ⟨hook, user⟩ := p
      rw [interleave_cons, hookCallLoop]
      dsimp only
      rw [if_pos hi, List.map_cons]
      congr 1
      cases reg with
      | nil =>
          cases user with
          | none => rfl
          | some u => rfl
      | cons q reg =>
          obtain ⟨u, rfl⟩ := Option.ne_none_iff_exists'.mp (h.of_ne_none (List.cons_ne_nil q reg))
          rw [interleave_cons, hookCallLoop]
          dsimp only
          rw [if_neg (by omega), ← interleave_cons]
          exact ih h.of_cons (by omega)

omit [DecidableEq α] in
/-- The calls end at the first user pointer that is `NULL`. -/
theorem length_hookCallLoop_le (k : CStr) (v : Option CStr) {i : Nat} (hi : i % 2 = 0)
    (h : ¬ Shown reg) :
    (hookCallLoop (some k) v i (interleave reg)).1.length < reg.length := by
  induction reg generalizing i with
  | nil => exact absurd List.Pairwise.nil h
  | cons p reg ih =>
      obtain ⟨hook, user⟩ := p
      rw [interleave_cons, hookCallLoop]
      dsimp only
      rw [if_pos hi, List.length_cons, List.length_cons]
      refine Nat.succ_lt_succ ?_
      cases user with
      | none =>
          have hne : reg ≠ [] := by
            rintro rfl
            exact h (List.pairwise_singleton _ _)
          exact List.length_pos_iff.mpr hne
      | some u =>
          have hrest : ¬ Shown reg := fun hno ↦
            h (List.pairwise_cons.mpr ⟨fun _ _ ↦ Option.some_ne_none u, hno⟩)
          cases reg with
          | nil => exact absurd List.Pairwise.nil hrest
          | cons q reg =>
              rw [interleave_cons, hookCallLoop]
              dsimp only
              rw [if_neg (by omega), ← interleave_cons]
              exact ih (by omega) hrest

end Loops

/-! ## Runs -/

/-- The list is that of the registry, in which no callback stands twice. -/
structure Registers (hooks : Hooks α) (reg : Registry α) : Prop where
  list : hooks.getD [] = interleave reg
  nodup : (reg.map Prod.fst).Nodup

section Step

variable {hooks : Hooks α} {reg : Registry α}

theorem sdbHook_eq (cb : α) (user : Option α) : sdbHook hooks (some cb) user =
    if hookLoop cb 0 (hooks.getD []) then (false, hooks)
    else (true, some (hooks.getD [] ++ [some cb, user])) := by
  cases hooks with
  | none => rfl
  | some l => rfl

/-- **One call** does to the list what it means for the registry, as long as all callbacks are
shown. -/
theorem Registers.step (h : Registers hooks reg) (hs : Shown reg) (op : HookOp α) :
    (op.run hooks).1 = (op.spec reg).1 ∧ Registers (op.run hooks).2 (op.spec reg).2 := by
  cases op with
  | hook cb user =>
      rw [HookOp.run, HookOp.spec, sdbHook_eq, h.list, hookLoop_interleave hs cb rfl]
      by_cases hcb : cb ∈ reg.map Prod.fst
      · rw [if_pos (decide_eq_true hcb), if_pos hcb]
        exact ⟨rfl, h⟩
      · rw [if_neg (by simpa using hcb), if_neg hcb]
        refine ⟨rfl, ?_, ?_⟩
        · have happend : interleave (reg ++ [(cb, user)]) = interleave reg ++ [some cb, user] :=
            List.flatMap_append
          exact happend.symm
        · rw [List.map_append]
          refine List.nodup_append.mpr ⟨h.nodup, List.nodup_singleton _, fun a ha b hb hab ↦ hcb ?_⟩
          rwa [← show b = cb from List.mem_singleton.mp hb, ← hab]
  | unhook cb =>
      have hloop : hooks.bind (unhookLoop cb 0) = unhookLoop cb 0 (interleave reg) := by
        rw [← h.list]
        cases hooks with
        | none => rfl
        | some l => rfl
      rw [HookOp.run, HookOp.spec, sdbUnhook, hloop, unhookLoop_interleave hs h.nodup cb rfl]
      by_cases hcb : cb ∈ reg.map Prod.fst
      · rw [if_pos hcb, if_pos hcb]
        exact ⟨rfl, rfl, h.nodup.sublist (List.filter_sublist.map _)⟩
      · rw [if_neg hcb, if_neg hcb]
        exact ⟨rfl, h⟩

/-- All callbacks stay shown unless one is buried. -/
theorem shown_spec_iff (hs : Shown reg) (op : HookOp α) :
    Shown (op.spec reg).2 ↔ ¬ Buried reg op := by
  cases op with
  | hook cb user =>
      rw [HookOp.spec, Buried]
      by_cases hcb : cb ∈ reg.map Prod.fst
      · rw [if_pos hcb]
        exact iff_of_true hs fun hno ↦ hno.1 hcb
      · rw [if_neg hcb, shown_append hs]
        constructor
        · rintro hall ⟨-, p, hp, hnone⟩
          exact hall p hp hnone
        · exact fun hno p hp hnone ↦ hno ⟨hcb, p, hp, hnone⟩
  | unhook cb =>
      refine iff_of_true ?_ id
      rw [HookOp.spec]
      split
      · exact hs.sublist List.filter_sublist
      · exact hs

/-- The list of a registry serves it if and only if all callbacks are shown. -/
theorem Registers.serve_iff (h : Registers hooks reg) : HooksServe hooks reg ↔ Shown reg := by
  constructor
  · intro hserve
    by_contra hs
    have hlt := length_hookCallLoop_le (i := 0) CStr.empty none rfl hs
    have hcalls := congrArg List.length (hserve.1 CStr.empty none)
    rw [sdbHookCall, h.list, List.length_map] at hcalls
    exact absurd hcalls (Nat.ne_of_lt hlt)
  · intro hs
    refine ⟨fun k v ↦ ?_, fun cb user ↦ ?_⟩
    · rw [sdbHookCall, h.list]
      exact hookCallLoop_interleave hs k v rfl
    · have hstep := (h.step hs (.hook cb user)).1
      rw [HookOp.run, HookOp.spec] at hstep
      rw [hstep]
      split
      · next hcb => exact iff_of_true rfl hcb
      · next hcb => exact iff_of_false Bool.noConfusion hcb

end Step

/-- **Hooks.**  In a run from an empty list, the callbacks that are registered are called, and no
others are refused, in every state if and only if no callback is ever buried. -/
theorem hooksServe_iff (ops : List (HookOp α)) :
    (∀ n ≤ ops.length, HooksServe (stateAfter HookOp.run none ops n)
      (stateAfter HookOp.spec [] ops n)) ↔ ∀ n op, ops[n]? = some op →
        ¬ Buried (stateAfter HookOp.spec [] ops n) op := by
  refine stateAfter_iff (R := fun hooks reg ↦ Registers hooks reg ∧ Shown reg)
    (fun hooks reg h ↦ h.1.serve_iff.mpr h.2) (fun hooks reg op h (hno : ¬ Buried reg op) ↦ ?_)
    (fun hooks reg op h hb hserve ↦ ?_) (a := []) ⟨⟨rfl, List.nodup_nil⟩, .nil⟩ ops
  · exact ⟨(h.1.step h.2 op).2, (shown_spec_iff h.2 op).mpr hno⟩
  · exact (shown_spec_iff h.2 op).mp ((h.1.step h.2 op).2.serve_iff.mp hserve) hb

/-- A second callback behind one without a user pointer is not called. -/
theorem not_hooksServe_null :
    ¬ HooksServe (stateAfter HookOp.run none [.hook 1 none, .hook 2 (some 7)] 2)
    (stateAfter HookOp.spec [] [.hook 1 none, .hook 2 (some 7)] 2) := by
  intro h
  exact absurd (h.1 CStr.empty none) (by decide)

end SdbStore
