import SdbStore.Json.Js0n

/-!
# The offsets that are written

`edges` are the offsets where the tokens directly inside of the outermost brackets begin and end, in
their order.  A token begins where none is open and ends where one is, so that they alternate, and
`sdb_js0n` writes of each second one how far it is from the one before.
-/

namespace SdbStore.Json

open Lib

/-- A token directly inside of the outermost brackets has begun and has not ended. -/
def inside (q : Lexer) : Bool := (q.depth = 1 && q.go ≠ .gostruct) || 2 ≤ q.depth

/-- The offset that begins or ends a token, where `marks` says that there is one. -/
def edge (c : UInt8) (cur : Nat) (q : Lexer) : Nat :=
  match q.go with
  | .gostruct => if closes c || c = 34 then cur + 1 else cur
  | .gobare => if q.depth = 1 then cur else cur + 1
  | _ => cur

/-- Up to a byte that is refused. -/
def edges : Bytes → Nat → Lexer → List Nat
  | [], _, _ => []
  | c :: s, cur, q =>
      match lex 2 c q with
      | none => []
      | some q' => (if marks c q then [edge c cur q] else []) ++ edges s (cur + 1) q'

/-- Where the tokeniser is behind the bytes; `none` if it refuses one. -/
def lexAll : Bytes → Lexer → Option Lexer
  | [], q => some q
  | c :: s, q => (lex 2 c q).bind (lexAll s)

/-- The ends become lengths. -/
def offsets : List Nat → List Nat
  | [] => []
  | [b] => [b]
  | b :: e :: l => b :: (e - b) :: offsets l

/-- What is written when a token has begun at `b`. -/
def offsetsFrom (b : Nat) : List Nat → List Nat
  | [] => []
  | e :: l => (e - b) :: offsets l

/-! ## Tokens begin and end in turn -/

/-- What a closing bracket is not. -/
theorem not_of_closes {c : UInt8} (h : closes c = true) :
    isBlank c = false ∧ c ≠ 58 ∧ c ≠ 44 ∧ c ≠ 34 ∧ opens c = false ∧ startsBare c = false := by
  rw [closes, Bool.or_eq_true, decide_eq_true_iff, decide_eq_true_iff] at h
  rcases h with rfl | rfl
  · decide
  · decide

/-- `marks` and `lex` agree on what is a token. -/
theorem inside_lex {c : UInt8} {q q' : Lexer} (h : lex 2 c q = some q') :
    inside q' = (inside q ^^ marks c q) := by
  obtain ⟨go, depth, remain⟩ := q
  have hidle := @of_idle c
  have hclose := @not_of_closes c
  cases go with
  | gostruct =>
      simp only [lex] at h
      split_ifs at h
      all_goals cases h; grind [marks, inside]
  | gobare =>
      simp only [lex] at h
      split_ifs at h
      all_goals cases h; grind [marks, inside]
  | gostring =>
      simp only [lex] at h
      split_ifs at h
      all_goals cases h; grind [marks, inside]
  | goutf8 =>
      simp only [lex] at h
      split_ifs at h
      all_goals cases h; grind [marks, inside]
  | goesc =>
      simp only [lex] at h
      split_ifs at h
      cases h
      grind [marks, inside]

theorem written_eq {c : UInt8} {q : Lexer} (hmarks : marks c q = true) (cur prev : Nat) :
    written c cur prev q = if inside q then edge c cur q - prev else edge c cur q := by
  obtain ⟨go, depth, remain⟩ := q
  have hclose := @not_of_closes c
  cases go with
  | gostruct => grind [written, edge, marks, inside]
  | gobare => grind [written, edge, marks, inside]
  | gostring => grind [written, edge, marks, inside]
  | goutf8 => cases hmarks
  | goesc => cases hmarks

/-! ## What `sdb_js0n` returns and writes -/

theorem offsets_cons (b : Nat) (l : List Nat) : offsets (b :: l) = b :: offsetsFrom b l := by
  cases l with
  | nil => rfl
  | cons e l => rfl

theorem edges_of_some {c : UInt8} {q q' : Lexer} (h : lex 2 c q = some q') (s : Bytes) (cur : Nat) :
    edges (c :: s) cur q = (if marks c q then [edge c cur q] else []) ++ edges s (cur + 1) q' := by
  rw [edges, h]

theorem edges_of_none {c : UInt8} {q : Lexer} (h : lex 2 c q = none) (s : Bytes) (cur : Nat) :
    edges (c :: s) cur q = [] := by
  rw [edges, h]

theorem lexAll_of_some {c : UInt8} {q q' : Lexer} (h : lex 2 c q = some q') (s : Bytes) :
    lexAll (c :: s) q = lexAll s q' := by
  rw [lexAll, h, Option.bind_some]

theorem lexAll_of_none {c : UInt8} {q : Lexer} (h : lex 2 c q = none) (s : Bytes) :
    lexAll (c :: s) q = none := by
  rw [lexAll, h, Option.bind_none]

theorem js0nLoop_fst (s : Bytes) (cur : Nat) (st : Js0n Go) :
    (js0nLoop (lexStep 2) s cur st).1 = ((lexAll s st.lexer).map Lexer.depth).getD 1 := by
  induction s generalizing cur st with
  | nil => rfl
  | cons c s ih =>
      cases h : lex 2 c st.lexer with
      | none => rw [js0nLoop_of_none h, lexAll_of_none h, Option.map_none, Option.getD_none]
      | some q => rw [js0nLoop_of_some h, lexAll_of_some h, ih, lexer_next]

theorem js0nLoop_snd (s : Bytes) (cur : Nat) (st : Js0n Go) :
    (js0nLoop (lexStep 2) s cur st).2 = st.out ++
      (if inside st.lexer then offsetsFrom st.prev (edges s cur st.lexer)
        else offsets (edges s cur st.lexer)) := by
  induction s generalizing cur st with
  | nil =>
      rw [js0nLoop, edges, offsets, offsetsFrom, ite_self, List.append_nil]
  | cons c s ih =>
      cases h : lex 2 c st.lexer with
      | none =>
          rw [js0nLoop_of_none h, edges_of_none h, offsetsFrom, offsets, ite_self, List.append_nil]
      | some q =>
          have hinside := inside_lex h
          rw [js0nLoop_of_some h, edges_of_some h, ih, lexer_next]
          cases hmarks : marks c st.lexer with
          | false =>
              rw [hmarks, Bool.xor_false] at hinside
              rw [next_of_not_marks hmarks, hinside, if_neg Bool.false_ne_true, List.nil_append]
          | true =>
              have hwritten := written_eq hmarks cur st.prev
              rw [hmarks, Bool.xor_true] at hinside
              rw [Js0n.next, if_pos hmarks, hinside, if_pos rfl, List.singleton_append,
                List.append_assoc, hwritten]
              cases inside st.lexer with
              | true => rfl
              | false =>
                  refine congrArg (st.out ++ ·) ?_
                  exact (offsets_cons (edge c cur st.lexer) (edges s (cur + 1) q)).symm

/-- `sdb_js0n`: what it returns and what it writes. -/
theorem sdbJs0n_eq (s : Bytes) :
    sdbJs0n s = (((lexAll s ⟨.gostruct, 0, 0⟩).map Lexer.depth).getD 1,
      offsets (edges s 0 ⟨.gostruct, 0, 0⟩)) := by
  rw [sdbJs0n, js0nLoop_js0nStep]
  exact Prod.ext (js0nLoop_fst s 0 _) (js0nLoop_snd s 0 _)

/-! ## How many there are -/

theorem length_offsets (l : List Nat) : (offsets l).length = l.length := by
  induction l using offsets.induct with
  | case1 => rfl
  | case2 b => rfl
  | case3 b e l ih =>
      rw [offsets, List.length_cons, List.length_cons, ih, List.length_cons, List.length_cons]

theorem length_edges_le (s : Bytes) (cur : Nat) (q : Lexer) :
    (edges s cur q).length ≤ s.length := by
  induction s generalizing cur q with
  | nil => exact le_rfl
  | cons c s ih =>
      cases h : lex 2 c q with
      | none => rw [edges_of_none h]; exact Nat.zero_le _
      | some q' =>
          have hle := ih (cur + 1) q'
          rw [edges_of_some h, List.length_append, List.length_cons]
          split
          · rw [List.length_singleton]
            omega
          · rw [List.length_nil]
            omega

theorem edge_bounds (c : UInt8) (cur : Nat) (q : Lexer) :
    cur ≤ edge c cur q ∧ edge c cur q ≤ cur + 1 := by
  rw [edge]
  split
  · split <;> omega
  · split <;> omega
  · omega

theorem le_of_mem_edges {s : Bytes} {cur : Nat} {q : Lexer} {e : Nat} (h : e ∈ edges s cur q) :
    cur ≤ e := by
  induction s generalizing cur q with
  | nil => exact absurd h List.not_mem_nil
  | cons c s ih =>
      cases hlex : lex 2 c q with
      | none =>
          rw [edges_of_none hlex] at h
          exact absurd h List.not_mem_nil
      | some q' =>
          rw [edges_of_some hlex, List.mem_append] at h
          rcases h with h | h
          · split at h
            · rw [List.mem_singleton.mp h]
              exact (edge_bounds c cur q).1
            · exact absurd h List.not_mem_nil
          · exact Nat.le_of_succ_le (ih h)

theorem mem_edges_le {s : Bytes} {cur : Nat} {q : Lexer} {e : Nat} (h : e ∈ edges s cur q) :
    e ≤ cur + s.length := by
  induction s generalizing cur q with
  | nil => exact absurd h List.not_mem_nil
  | cons c s ih =>
      have hbounds := edge_bounds c cur q
      cases hlex : lex 2 c q with
      | none =>
          rw [edges_of_none hlex] at h
          exact absurd h List.not_mem_nil
      | some q' =>
          rw [edges_of_some hlex, List.mem_append] at h
          rw [List.length_cons]
          rcases h with h | h
          · split at h
            · rw [List.mem_singleton.mp h]
              omega
            · exact absurd h List.not_mem_nil
          · have hle := ih h
            omega

/-- A token does not end in front of where it begins. -/
theorem pairwise_edges (s : Bytes) (cur : Nat) (q : Lexer) : (edges s cur q).Pairwise (· ≤ ·) := by
  induction s generalizing cur q with
  | nil => exact .nil
  | cons c s ih =>
      have hbounds := edge_bounds c cur q
      cases hlex : lex 2 c q with
      | none =>
          rw [edges_of_none hlex]
          exact .nil
      | some q' =>
          rw [edges_of_some hlex]
          split
          · rw [List.singleton_append, List.pairwise_cons]
            exact ⟨fun e he ↦ hbounds.2.trans (le_of_mem_edges he), ih (cur + 1) q'⟩
          · exact ih (cur + 1) q'

/-- The first byte is outside of all brackets. -/
theorem edges_cons (c : UInt8) (s : Bytes) (remain : Int) :
    edges (c :: s) 0 ⟨.gostruct, 0, remain⟩ =
      ((lex 2 c ⟨.gostruct, 0, remain⟩).map (edges s 1)).getD [] := by
  have hmarks : marks c ⟨.gostruct, 0, remain⟩ = false := rfl
  rw [edges, hmarks]
  cases lex 2 c ⟨.gostruct, 0, remain⟩ with
  | none => rfl
  | some q => rfl

theorem length_edges_start (s : Bytes) : (edges s 0 ⟨.gostruct, 0, 0⟩).length ≤ s.length - 1 := by
  cases s with
  | nil => exact le_rfl
  | cons c s =>
      rw [edges_cons]
      cases lex 2 c ⟨.gostruct, 0, 0⟩ with
      | none => exact Nat.zero_le _
      | some q => exact length_edges_le s 1 q

theorem pos_of_mem_edges_start {s : Bytes} {e : Nat} (h : e ∈ edges s 0 ⟨.gostruct, 0, 0⟩) :
    0 < e := by
  cases s with
  | nil => exact absurd h List.not_mem_nil
  | cons c s =>
      rw [edges_cons] at h
      cases hlex : lex 2 c ⟨.gostruct, 0, 0⟩ with
      | none =>
          rw [hlex] at h
          exact absurd h List.not_mem_nil
      | some q =>
          rw [hlex] at h
          exact le_of_mem_edges h

/-- An even number, when all tokens have ended. -/
theorem inside_lexAll {s : Bytes} {cur : Nat} {q q' : Lexer} (h : lexAll s q = some q') :
    inside q' = (inside q ^^ decide ((edges s cur q).length % 2 = 1)) := by
  induction s generalizing cur q with
  | nil =>
      cases h
      rw [edges]
      exact (Bool.xor_false _).symm
  | cons c s ih =>
      cases hlex : lex 2 c q with
      | none =>
          rw [lexAll_of_none hlex] at h
          cases h
      | some q'' =>
          rw [lexAll_of_some hlex] at h
          rw [@ih (cur + 1) _ h, inside_lex hlex, edges_of_some hlex, List.length_append]
          cases marks c q with
          | false =>
              rw [Bool.xor_false, if_neg Bool.false_ne_true, List.length_nil, Nat.zero_add]
          | true =>
              rw [if_pos rfl, List.length_singleton, Bool.xor_assoc]
              refine congrArg (inside q ^^ ·) ?_
              rw [Bool.true_xor, ← decide_not]
              refine decide_eq_decide.mpr ?_
              omega

end SdbStore.Json
