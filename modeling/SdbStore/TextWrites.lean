import SdbStore.Branch
import SdbStore.TextSave

/-!
# Saving a text to a descriptor that can fail

What `sdb_text_save_fd` does when its calls of `write` write less than they are given, or nothing.
`Answers` says what the calls return, and `Output` keeps, besides what has been written, for which
place of the text each call was and the lists of namespaces that have been freed.
-/

namespace SdbStore.Fd

open Lib

/-! ## The code -/

/-- What the calls of `write` return, by their number and the number of bytes: `none` is `-1`. -/
abbrev Answers := Nat → Nat → Option Nat

/-- What a `write` is for. -/
inductive Piece
  | path
  | pair
  | separator
deriving DecidableEq

/-- A call of `write` for the database at a path. -/
structure Written where
  path : List CStr
  piece : Piece
  ok : Bool
deriving DecidableEq

/-- What has been done. -/
structure Output where
  out : Bytes
  log : List Written
  freed : List Ref

/-- A function that writes, and says whether it could. -/
abbrev Step := Output → Bool × Output

/-- `&&`. -/
def Step.and (f g : Step) : Step := fun o ↦
  let r := f o
  if r.1 then g r.2 else (false, r.2)

/-- The function that has nothing to write. -/
def Step.skip : Step := fun o ↦ (true, o)

section Code

variable (fd : Answers) (path : List CStr) (piece : Piece)

/-- `write (fd, buf, n) == n`. -/
def write (buf : Bytes) : Step := fun o ↦
  let n := fd o.log.length buf.length
  let ok := decide (n = some buf.length)
  (ok, { o with out := o.out ++ buf.take (n.getD 0), log := o.log ++ [⟨path, piece, ok⟩] })

/-- `escape_flush`. -/
def escapeFlush (p : Bytes) : Step := if p ≠ [] then write fd path piece p else .skip

/-- `escape_loop`: the bytes of the string that have not been written yet stand in `p`. -/
def escapeLoop (ch : UInt8) : Bytes → Bytes → Step
  | p, [] => escapeFlush fd path piece p
  | p, c :: n =>
      if c = 92 then
        ((escapeFlush fd path piece p).and (write fd path piece [92, 92])).and (escapeLoop ch [] n)
      else if c = 13 then
        ((escapeFlush fd path piece p).and (write fd path piece [92, 114])).and (escapeLoop ch [] n)
      else if c = 10 then
        ((escapeFlush fd path piece p).and (write fd path piece [92, 110])).and (escapeLoop ch [] n)
      else if ch ≠ 0 ∧ c = ch then
        ((escapeFlush fd path piece p).and (write fd path piece [92, ch])).and (escapeLoop ch [] n)
      else escapeLoop ch (p ++ [c]) n

/-- The loop of `write_path` over the tokens. -/
def writeTokens : Bool → List CStr → Step
  | _, [] => .skip
  | first, token :: tokens =>
      ((if first then .skip else write fd path .path [47]).and
        (escapeLoop fd path .path 47 [] token.val)).and
        (writeTokens false tokens)

/-- `write_path`. -/
def writePath : Step := (write fd path .path [47]).and (writeTokens fd path true path)

/-- `write_key`. -/
def writeKey (k : CStr) : Step :=
  (if k.val.head? = some 47 then write fd path .pair [92] else .skip).and
    (escapeLoop fd path .pair 61 [] k.val)

/-- `write_value`. -/
def writeValue (v : CStr) : Step := escapeLoop fd path .pair 0 [] v.val

/-- `save_kv_cb`. -/
def saveKvCb (o : Output) (k : CStr) (v : Option CStr) : Bool × Output :=
  (((writeKey fd path k).and (write fd path .pair [61])).and
    ((writeValue fd path (v.getD CStr.empty)).and (write fd path .pair [10]))) o

/-- The pairs of a database.  Nobody asks whether they could be written. -/
def textSavePairs (s : Sdb) (sort : Bool) (o : Output) : Output :=
  if sort then (sdbForeachList s true).foldl (fun o c ↦ (saveKvCb fd path o c.1 c.2).2) o
  else (sdbForeach s (saveKvCb fd path) o).2

/-- The loop of `text_save` over the namespaces `l` of `s`, with `save` for the call of itself. -/
def saveNss (sort : Bool) (s : Ref) (save : SdbNs → Step) : List SdbNs → Step
  | [], o => (true, o)
  | ns :: l, o =>
      let r := write fd path .separator [10] o
      if r.1 then saveNss sort s save l (save ns r.2).2
      -- `ls_free (l)`: without sorting, `l` is the list of the database itself
      else (false, if sort then r.2 else { r.2 with freed := r.2.freed ++ [s] })

end Code

/-- `text_save`.  It calls itself for the namespaces; `fuel` bounds the depth. -/
def textSave (fd : Answers) (h : Heap) (sort : Bool) : Nat → Ref → List CStr → Step
  | 0, _, _ => .skip
  | fuel + 1, s, path => fun o ↦
      match h[s]? with
      | none => (true, o)
      | some node =>
          let r := ((writePath fd path).and (write fd path .path [10])) o
          if r.1 then
            saveNss fd path sort s (fun ns ↦ textSave fd h sort fuel ns.sdb (path ++ [ns.name]))
              (savedNss node sort) (textSavePairs fd path node.sdb sort r.2)
          else (false, r.2)

/-- `sdb_text_save_fd`, on a descriptor to which nothing has been written. -/
def sdbTextSaveFd (fd : Answers) (h : Heap) (sort : Bool) (fuel : Nat) (s : Ref) : Bool × Output :=
  textSave fd h sort fuel s [] ⟨[], [], []⟩

/-- True means that every write succeeded, and that the whole tree has been written; nothing of the
tree has been freed. -/
def Reports (fd : Answers) (h : Heap) (sort : Bool) (fuel : Nat) (s : Ref) : Prop :=
  let r := sdbTextSaveFd fd h sort fuel s
  (r.1 = true ↔ ∀ e ∈ r.2.log, e.ok = true) ∧
  (r.1 = true → r.2.out = SdbStore.textSave h sort fuel s []) ∧ r.2.freed = []

/-! ## What a function writes -/

/-- From one state to another one, with certain calls and lists freed; the bytes are there if all
the calls succeeded. -/
structure Delta (o o' : Output) (l : List Written) (fl : List Ref) (b : Bytes) : Prop where
  log : o'.log = o.log ++ l
  freed : o'.freed = o.freed ++ fl
  out : (∀ e ∈ l, e.ok = true) → o'.out = o.out ++ b

theorem Delta.refl (o : Output) : Delta o o [] [] [] :=
  ⟨(List.append_nil _).symm, (List.append_nil _).symm, fun _ ↦ (List.append_nil _).symm⟩

theorem Delta.trans {o o' o'' : Output} {l l' : List Written} {fl fl' : List Ref} {b b' : Bytes}
    (h : Delta o o' l fl b) (h' : Delta o' o'' l' fl' b') :
    Delta o o'' (l ++ l') (fl ++ fl') (b ++ b') := by
  refine ⟨by rw [h'.log, h.log, List.append_assoc],
    by rw [h'.freed, h.freed, List.append_assoc], ?_⟩
  intro hok
  obtain ⟨hl, hl'⟩ := List.forall_mem_append.mp hok
  rw [h'.out hl', h.out hl, List.append_assoc]

/-- Where a call failed, it does not matter which bytes were to come. -/
theorem Delta.fail {o o' : Output} {l : List Written} {fl : List Ref} {b : Bytes}
    (h : Delta o o' l fl b) (hfail : ¬ ∀ e ∈ l, e.ok = true) (b' : Bytes) : Delta o o' l fl b' :=
  ⟨h.log, h.freed, fun hok ↦ absurd hok hfail⟩

/-- The function writes these bytes, for one place, and says whether it could. -/
def Writes (f : Step) (path : List CStr) (piece : Piece) (b : Bytes) : Prop :=
  ∀ o, ∃ l, Delta o (f o).2 l [] b ∧ (∀ e ∈ l, e.path = path ∧ e.piece = piece) ∧
    ((f o).1 = true ↔ ∀ e ∈ l, e.ok = true)

section Writes

variable {fd : Answers} {path : List CStr} {piece : Piece}

theorem Writes.skip : Writes .skip path piece [] := fun o ↦
  ⟨[], .refl o, fun _ he ↦ absurd he List.not_mem_nil,
    iff_of_true rfl fun _ he ↦ absurd he List.not_mem_nil⟩

theorem Writes.write (b : Bytes) : Writes (write fd path piece b) path piece b := by
  intro o
  refine ⟨[⟨path, piece, _⟩], ⟨rfl, (List.append_nil _).symm, fun hok ↦ ?_⟩, fun e he ↦ ?_, ?_⟩
  · have hn := of_decide_eq_true (hok _ List.mem_cons_self)
    change o.out ++ b.take ((fd o.log.length b.length).getD 0) = _
    rw [hn, Option.getD_some, List.take_length]
  · rw [List.mem_singleton.mp he]
    exact ⟨rfl, rfl⟩
  · rw [List.forall_mem_singleton]
    rfl

theorem Writes.and {f g : Step} {b b' : Bytes} (hf : Writes f path piece b)
    (hg : Writes g path piece b') :
    Writes (f.and g) path piece (b ++ b') := by
  intro o
  obtain ⟨l, hd, hplace, hok⟩ := hf o
  rw [Step.and]
  split
  · next htrue =>
      obtain ⟨l', hd', hplace', hok'⟩ := hg (f o).2
      refine ⟨l ++ l', hd.trans hd', List.forall_mem_append.mpr ⟨hplace, hplace'⟩, ?_⟩
      rw [List.forall_mem_append, ← hok, ← hok', and_iff_right htrue]
  · next hfalse => exact ⟨l, hd.fail (mt hok.mpr hfalse) _, hplace,
      iff_of_false Bool.false_ne_true (mt hok.mpr hfalse)⟩

theorem Writes.ite {p : Prop} [Decidable p] {f g : Step} {b b' : Bytes} (hf : Writes f path piece b)
    (hg : Writes g path piece b') :
    Writes (if p then f else g) path piece (if p then b else b') := by
  split
  · exact hf
  · exact hg

theorem Writes.escapeFlush (p : Bytes) : Writes (escapeFlush fd path piece p) path piece p := by
  rw [Fd.escapeFlush]
  split
  · exact .write p
  · next hp =>
      rw [not_not.mp hp]
      exact .skip

theorem Writes.escapeLoop (ch : UInt8) (p n : Bytes) :
    Writes (escapeLoop fd path piece ch p n) path piece (SdbStore.escapeLoop ch p n) := by
  induction n generalizing p with
  | nil => exact .escapeFlush p
  | cons c n ih =>
      rw [Fd.escapeLoop, SdbStore.escapeLoop]
      exact .ite (((Writes.escapeFlush p).and (.write _)).and (ih []))
        (.ite (((Writes.escapeFlush p).and (.write _)).and (ih []))
          (.ite (((Writes.escapeFlush p).and (.write _)).and (ih []))
            (.ite (((Writes.escapeFlush p).and (.write _)).and (ih [])) (ih _))))

theorem Writes.writeTokens (first : Bool) (tokens : List CStr) :
    Writes (writeTokens fd path first tokens) path .path (SdbStore.writeTokens first tokens) := by
  induction tokens generalizing first with
  | nil => exact .skip
  | cons token tokens ih =>
      rw [Fd.writeTokens, SdbStore.writeTokens]
      exact ((Writes.ite .skip (.write [47])).and (.escapeLoop 47 [] token.val)).and (ih false)

theorem Writes.writePath : Writes (writePath fd path) path .path (SdbStore.writePath path) :=
  (Writes.write [47]).and (.writeTokens true path)

theorem Writes.saveKvCb (k : CStr) (v : Option CStr) :
    Writes (fun o ↦ saveKvCb fd path o k v) path .pair
    (SdbStore.writeKey k ++ [61] ++ (SdbStore.writeValue (v.getD CStr.empty) ++ [10])) :=
  (((Writes.ite (.write [92]) .skip).and (.escapeLoop 61 [] k.val)).and (.write [61])).and
    ((Writes.escapeLoop 0 [] (v.getD CStr.empty).val).and (.write [10]))

/-! ## The pairs -/

theorem foreachLoop_append {σ α : Type} (step : σ → α → Bool × σ) (l l' : List α) (user : σ) :
    foreachLoop step (l ++ l') user =
      if (foreachLoop step l user).1 then foreachLoop step l' (foreachLoop step l user).2
      else (false, (foreachLoop step l user).2) := by
  induction l generalizing user with
  | nil => rfl
  | cons a l ih =>
      rw [List.cons_append, foreachLoop, foreachLoop]
      split
      · exact ih _
      · rfl

/-- `sdb_foreach` makes its calls until one of them returns false. -/
theorem sdbForeach_loop {σ : Type} (s : Sdb) (cb : SdbForeachCallback σ) (user : σ) :
    sdbForeach s cb user = foreachLoop (fun user c ↦ cb user c.1 c.2) (foreachCalls s) user := by
  have hcdb : sdbForeachCdb s cb user =
      foreachLoop (fun user c ↦ cb user c.1 c.2) (s.scan.filterMap (cdbCall s)) user := by
    refine foreachLoop_filterMap (fun user d ↦ ?_) _ user
    unfold cdbCall
    cases sdbHtFindKvp s d.key with
    | none => rfl
    | some kv =>
        dsimp only
        cases kv.value with
        | none => rfl
        | some v => rfl
  rw [foreachCalls, foreachLoop_append, ← hcdb, sdbForeach]
  split
  · refine foreachLoop_filterMap (fun user kv ↦ ?_) _ _
    unfold memCall
    cases kv.value with
    | none => rfl
    | some v =>
        dsimp only
        split
        · rfl
        · rfl
  · rfl

/-- What is written for a pair. -/
def pairLine (c : Call) : Bytes :=
  SdbStore.writeKey c.1 ++ [61] ++ SdbStore.writeValue (c.2.getD CStr.empty) ++ [10]

theorem Writes.pair (c : Call) :
    Writes (fun o ↦ Fd.saveKvCb fd path o c.1 c.2) path .pair (pairLine c) := by
  have h := @Writes.saveKvCb fd path c.1 c.2
  rwa [← List.append_assoc] at h

/-- **The pairs** are written one after another, up to the first that cannot be, or all of them. -/
theorem textSavePairs_delta (s : Sdb) (sort : Bool) (o : Output) :
    ∃ l, Delta o (Fd.textSavePairs fd path s sort o) l [] (SdbStore.textSavePairs s sort) ∧
      ∀ e ∈ l, e.path = path ∧ e.piece = .pair := by
  have hfold : ∀ (calls : List Call) (o : Output),
      ∃ l, Delta o (calls.foldl (fun o c ↦ (Fd.saveKvCb fd path o c.1 c.2).2) o) l []
        (calls.flatMap pairLine) ∧ ∀ e ∈ l, e.path = path ∧ e.piece = .pair := by
    intro calls
    induction calls with
    | nil => exact fun o ↦ ⟨[], .refl o, fun _ he ↦ absurd he List.not_mem_nil⟩
    | cons c calls ih =>
        intro o
        obtain ⟨l, hd, hplace, -⟩ := @Writes.pair fd path c o
        obtain ⟨l', hd', hplace'⟩ := ih (Fd.saveKvCb fd path o c.1 c.2).2
        exact ⟨l ++ l', hd.trans hd', List.forall_mem_append.mpr ⟨hplace, hplace'⟩⟩
  have hloop : ∀ (calls : List Call) (o : Output),
      ∃ l, Delta o (foreachLoop (fun o c ↦ Fd.saveKvCb fd path o c.1 c.2) calls o).2 l []
        (calls.flatMap pairLine) ∧ ∀ e ∈ l, e.path = path ∧ e.piece = .pair := by
    intro calls
    induction calls with
    | nil => exact fun o ↦ ⟨[], .refl o, fun _ he ↦ absurd he List.not_mem_nil⟩
    | cons c calls ih =>
        intro o
        obtain ⟨l, hd, hplace, hok⟩ := @Writes.pair fd path c o
        rw [foreachLoop]
        split
        · obtain ⟨l', hd', hplace'⟩ := ih (Fd.saveKvCb fd path o c.1 c.2).2
          exact ⟨l ++ l', hd.trans hd', List.forall_mem_append.mpr ⟨hplace, hplace'⟩⟩
        · next hfalse => exact ⟨l, hd.fail (mt hok.mpr hfalse) _, hplace⟩
  have hlines : SdbStore.textSavePairs s sort = (savedCalls s sort).flatMap pairLine :=
    textSavePairs_eq s sort
  rw [hlines, Fd.textSavePairs, savedCalls]
  split
  · exact hfold _ o
  · rw [sdbForeach_loop]
    exact hloop _ o

end Writes

/-! ## The tree -/

/-- The call for this place failed. -/
def Written.FailedAt (e : Written) (path : List CStr) (piece : Piece) : Prop :=
  e.path = path ∧ e.piece = piece ∧ e.ok = false

/-- What the loop over the namespaces of the database at a path does.  Without sorting it frees a
list at each separator that fails, at any depth. -/
structure SavedNss (sort : Bool) (path : List CStr) (o : Output) (r : Bool × Output) (b : Bytes)
    (l : List Written) (fl : List Ref) : Prop where
  delta : Delta o r.2 l fl b
  below : ∀ e ∈ l, path <+: e.path
  own : ∀ e ∈ l, e.path = path → e.piece = .separator
  result : r.1 = false ↔ ∃ e ∈ l, e.FailedAt path .separator
  freed : fl = [] ↔ (sort = true ∨ ∀ e ∈ l, e.piece = .separator → e.ok = true)

/-- What `text_save` does for the database at a path: it returns false if its own path line fails,
which ends it at once, or one of the separators of its own namespaces. -/
structure Saved (sort : Bool) (path : List CStr) (o : Output) (r : Bool × Output) (b : Bytes)
    (l : List Written) (fl : List Ref) : Prop where
  delta : Delta o r.2 l fl b
  below : ∀ e ∈ l, path <+: e.path
  result : r.1 = false ↔ ∃ e ∈ l, e.FailedAt path .path ∨ e.FailedAt path .separator
  freed : fl = [] ↔ (sort = true ∨ ∀ e ∈ l, e.piece = .separator → e.ok = true)
  atOnce : (∃ e ∈ l, e.FailedAt path .path) → ∀ e ∈ l, e.piece = .path

/-- Nothing has been written. -/
theorem Saved.nothing (sort : Bool) (path : List CStr) (o : Output) :
    Saved sort path o (true, o) [] [] [] where
  delta := .refl o
  below _ he := absurd he List.not_mem_nil
  result := iff_of_false (fun h ↦ Bool.noConfusion h) fun ⟨_, he, _⟩ ↦ absurd he List.not_mem_nil
  freed := iff_of_true rfl (.inr fun _ he ↦ absurd he List.not_mem_nil)
  atOnce _ _ he := absurd he List.not_mem_nil

theorem exists_failed {l : List Written} (h : ¬ ∀ e ∈ l, e.ok = true) : ∃ e ∈ l, e.ok = false := by
  push Not at h
  obtain ⟨e, he, hno⟩ := h
  exact ⟨e, he, Bool.eq_false_iff.mpr hno⟩

section Tree

variable {fd : Answers} {path : List CStr} {sort : Bool}

/-- A turn of the loop over the namespaces, or its end at a separator that fails. -/
theorem saveNss_spec {s : Ref} {save : SdbNs → Step} {b : SdbNs → Bytes}
    (hsave : ∀ ns o, ∃ l fl, Saved sort (path ++ [ns.name]) o (save ns o) (b ns) l fl)
    (nss : List SdbNs) (o : Output) :
    ∃ l fl, SavedNss sort path o (saveNss fd path sort s save nss o)
      (nss.flatMap fun ns ↦ 10 :: b ns) l fl := by
  induction nss generalizing o with
  | nil =>
      exact ⟨[], [], .refl o, fun _ he ↦ absurd he List.not_mem_nil,
        fun _ he ↦ absurd he List.not_mem_nil,
        iff_of_false (fun h ↦ Bool.noConfusion h) fun ⟨_, he, _⟩ ↦ absurd he List.not_mem_nil,
        iff_of_true rfl (.inr fun _ he ↦ absurd he List.not_mem_nil)⟩
  | cons ns nss ih =>
      obtain ⟨l₀, hd₀, hplace₀, hok₀⟩ := @Writes.write fd path .separator [10] o
      rw [saveNss, List.flatMap_cons]
      by_cases htrue : (write fd path .separator [10] o).1 = true
      · -- the separator is there, and the namespace is saved
        obtain ⟨l₁, fl₁, h₁⟩ := hsave ns (write fd path .separator [10] o).2
        obtain ⟨l₂, fl₂, h₂⟩ := ih (save ns (write fd path .separator [10] o).2).2
        have hok := hok₀.mp htrue
        have hbelow₁ : ∀ e ∈ l₁, e.path ≠ path := by
          intro e he heq
          have hlen := (h₁.below e he).length_le
          rw [heq, List.length_append, List.length_singleton] at hlen
          omega
        dsimp only
        rw [if_pos htrue]
        refine ⟨l₀ ++ l₁ ++ l₂, [] ++ fl₁ ++ fl₂, (hd₀.trans h₁.delta).trans h₂.delta, ?_, ?_, ?_,
          ?_⟩
        · intro e he
          rcases List.mem_append.mp he with he | he
          · rcases List.mem_append.mp he with he | he
            · rw [(hplace₀ e he).1]
            · exact (List.prefix_append _ _).trans (h₁.below e he)
          · exact h₂.below e he
        · intro e he heq
          rcases List.mem_append.mp he with he | he
          · rcases List.mem_append.mp he with he | he
            · exact (hplace₀ e he).2
            · exact absurd heq (hbelow₁ e he)
          · exact h₂.own e he heq
        · rw [h₂.result]
          constructor
          · rintro ⟨e, he, hfail⟩
            exact ⟨e, List.mem_append_right _ he, hfail⟩
          · rintro ⟨e, he, hfail⟩
            rcases List.mem_append.mp he with he | he
            · rcases List.mem_append.mp he with he | he
              · exact absurd ((hok e he).symm.trans hfail.2.2) (by decide)
              · exact absurd hfail.1 (hbelow₁ e he)
            · exact ⟨e, he, hfail⟩
        · rw [List.nil_append, List.append_eq_nil_iff, h₁.freed, h₂.freed, ← or_and_left,
            List.forall_mem_append, List.forall_mem_append, and_assoc,
            and_iff_right fun e he _ ↦ hok e he]
      · obtain ⟨e, he, hfail⟩ := exists_failed (mt hok₀.mpr htrue)
        have hfailed : e.FailedAt path .separator := ⟨(hplace₀ e he).1, (hplace₀ e he).2, hfail⟩
        dsimp only
        rw [if_neg htrue]
        refine ⟨l₀, if sort then [] else [s],
          ⟨?_, ?_, fun hok ↦ absurd (hok e he) (by rw [hfail]; decide)⟩,
          fun e he ↦ by rw [(hplace₀ e he).1], fun e he _ ↦ (hplace₀ e he).2,
          iff_of_true rfl ⟨e, he, hfailed⟩, ?_⟩
        · cases sort with
          | true => exact hd₀.log
          | false => exact hd₀.log
        · cases sort with
          | true => exact hd₀.freed
          | false => exact congrArg (· ++ [s]) (hd₀.freed.trans (List.append_nil _))
        · cases sort with
          | true => exact iff_of_true rfl (.inl rfl)
          | false =>
              refine iff_of_false (List.cons_ne_nil _ _) ?_
              rintro (h | h)
              · cases h
              · rw [h e he (hplace₀ e he).2] at hfail
                cases hfail

/-- **`text_save`**, at any depth. -/
theorem textSave_spec (fd : Answers) (h : Heap) (sort : Bool) (fuel : Nat) (s : Ref)
    (path : List CStr) (o : Output) : ∃ l fl, Saved sort path o (textSave fd h sort fuel s path o)
      (SdbStore.textSave h sort fuel s path) l fl := by
  induction fuel generalizing s path o with
  | zero => exact ⟨[], [], .nothing sort path o⟩
  | succ fuel ih =>
      unfold textSave SdbStore.textSave
      cases h[s]? with
      | none => exact ⟨[], [], .nothing sort path o⟩
      | some node =>
          have hline : Writes ((writePath fd path).and (write fd path .path [10])) path .path
              (SdbStore.writePath path ++ [10]) := Writes.writePath.and (.write [10])
          obtain ⟨l₀, hd₀, hplace₀, hok₀⟩ := hline o
          dsimp only
          by_cases htrue : ((writePath fd path).and (write fd path .path [10]) o).1 = true
          · -- the path line is there; the pairs are written as far as they can be, the namespaces
            have hok := hok₀.mp htrue
            obtain ⟨l₁, hd₁, hplace₁⟩ := @textSavePairs_delta fd path node.sdb sort
              ((writePath fd path).and (write fd path .path [10]) o).2
            obtain ⟨l₂, fl, h₂⟩ := @saveNss_spec fd path sort s _ _
              (fun ns o ↦ ih ns.sdb (path ++ [ns.name]) o) (savedNss node sort)
              (Fd.textSavePairs fd path node.sdb sort
                ((writePath fd path).and (write fd path .path [10]) o).2)
            rw [if_pos htrue]
            refine ⟨l₀ ++ l₁ ++ l₂, [] ++ [] ++ fl, (hd₀.trans hd₁).trans h₂.delta, ?_, ?_, ?_, ?_⟩
            · intro e he
              rcases List.mem_append.mp he with he | he
              · rcases List.mem_append.mp he with he | he
                · rw [(hplace₀ e he).1]
                · rw [(hplace₁ e he).1]
              · exact h₂.below e he
            · rw [h₂.result]
              constructor
              · rintro ⟨e, he, hfail⟩
                exact ⟨e, List.mem_append_right _ he, .inr hfail⟩
              · rintro ⟨e, he, hfail⟩
                rcases List.mem_append.mp he with he | he
                · rcases List.mem_append.mp he with he | he
                  · have hno : e.ok = false := hfail.elim (·.2.2) (·.2.2)
                    exact absurd ((hok e he).symm.trans hno) (by decide)
                  · have hpiece := (hplace₁ e he).2
                    rcases hfail with hfail | hfail
                    · exact absurd (hpiece.symm.trans hfail.2.1) (by decide)
                    · exact absurd (hpiece.symm.trans hfail.2.1) (by decide)
                · rcases hfail with hfail | hfail
                  · exact absurd ((h₂.own e he hfail.1).symm.trans hfail.2.1) (by decide)
                  · exact ⟨e, he, hfail⟩
            · rw [List.append_nil, List.nil_append, h₂.freed, List.forall_mem_append,
                List.forall_mem_append, and_iff_right ⟨fun e he _ ↦ hok e he, fun e he hsep ↦
                  absurd ((hplace₁ e he).2.symm.trans hsep) (by decide)⟩]
            · rintro ⟨e, he, hfail⟩
              rcases List.mem_append.mp he with he | he
              · rcases List.mem_append.mp he with he | he
                · exact absurd ((hok e he).symm.trans hfail.2.2) (by decide)
                · exact absurd ((hplace₁ e he).2.symm.trans hfail.2.1) (by decide)
              · exact absurd ((h₂.own e he hfail.1).symm.trans hfail.2.1) (by decide)
          · rw [if_neg htrue]
            obtain ⟨e, he, hfail⟩ := exists_failed (mt hok₀.mpr htrue)
            refine ⟨l₀, [], hd₀.fail (mt hok₀.mpr htrue) _, fun e he ↦ by rw [(hplace₀ e he).1],
              iff_of_true rfl ⟨e, he, .inl ⟨(hplace₀ e he).1, (hplace₀ e he).2, hfail⟩⟩,
              iff_of_true rfl ?_, fun _ e he ↦ (hplace₀ e he).2⟩
            exact .inr fun e he hsep ↦ absurd ((hplace₀ e he).2.symm.trans hsep) (by decide)

end Tree

/-- A database with a namespace. -/
def heapOneNs : Heap := [{ sdbNode0 with ns := some [⟨CStr.ofBytes [110], 0, 1⟩] }, sdbNode0]

end SdbStore.Fd
