import Mathlib.Data.Nat.Basic
import SdbStore.Lib.Runs
import SdbStore.Mcsdb.Memcache
import SdbStore.Mcsdb.Server

/-!
# Who gets the replies

The replies to a client wait in `netbuf` until the client has been dealt with, and are then written
to its descriptor.  A client that quits is given up before that: what waits for it goes to the next
one.

The invariant of the loop is `Server.Inv`; in the runs in which nothing waits for a client that
quits, everything that is written reaches the client that it was printed for (`delivered_of_run`).
-/

namespace SdbStore.Mcsdb

open Lib

/-! ## The buffer -/

/-- What has been written reached the client that it was printed for, or nobody. -/
def Out.Delivered (o : Out) : Prop := ∀ s ∈ o.sent, ∀ id, s.1 = some id → s.2.2 = id

/-- All that waits was printed for one client. -/
def Out.Owned (o : Out) (owner : Nat) : Prop := ∀ b ∈ o.netbuf, b.2 = owner

theorem Out.owned_of_nil {o : Out} (h : o.netbuf = []) (owner : Nat) : o.Owned owner := by
  rw [Out.Owned, h]
  exact fun b hb ↦ absurd hb List.not_mem_nil

theorem mem_of_netWriteAll {β : Type} {rets : List WriteRet} {buf : List β}
    {r : Bool × List β × List WriteRet} (h : netWriteAll rets buf = some r) : r.2.1 ⊆ buf := by
  fun_induction netWriteAll rets buf generalizing r with
  | case1 rets =>
      cases h
      exact List.Subset.refl _
  | case2 => cases h
  | case3 =>
      cases h
      exact List.nil_subset _
  | case4 rets b buf ih => exact ih h
  | case5 => cases h
  | case6 =>
      cases h
      exact List.nil_subset _
  | case7 rets n b buf _ _ ih =>
      obtain ⟨r', hr', rfl⟩ := Option.map_eq_some_iff.mp h
      intro x hx
      rcases List.mem_append.mp hx with hx | hx
      · exact List.mem_of_mem_take hx
      · exact List.mem_of_mem_drop (ih hr' hx)

theorem Out.Delivered.write {o : Out} (h : o.Delivered) {owner : Nat} {bs : List Tagged}
    (hbs : ∀ b ∈ bs, b.2 = owner) : (o.write (some owner) bs).Delivered := by
  intro s hs id hid
  rcases List.mem_append.mp hs with hs | hs
  · exact h s hs id hid
  · obtain ⟨b, hb, rfl⟩ := List.mem_map.mp hs
    cases hid
    exact hbs b hb

section Print

variable {o : Out} {owner : Nat}

/-- A flush to the client that everything was printed for empties the buffer. -/
theorem netFlush_spec (ho : o.Owned owner) (hd : o.Delivered) {rets : List WriteRet}
    {r : Int × Out × List WriteRet} (h : netFlush (some owner) o rets = some r) :
    r.2.1.netbuf = [] ∧ r.2.1.Delivered := by
  rw [netFlush] at h
  split at h
  · next hempty =>
      cases h
      exact ⟨hempty, hd⟩
  · obtain ⟨w, hw, h⟩ := Option.bind_eq_some_iff.mp h
    cases h
    exact ⟨rfl, hd.write fun b hb ↦ ho b (mem_of_netWriteAll hw hb)⟩

/-- One text more for the same client. -/
theorem netPrintf_spec (ho : o.Owned owner) (hd : o.Delivered) {text : Bytes}
    {rets : List WriteRet} {r : Out × List WriteRet}
    (h : netPrintf (some owner) owner text o rets = some r) : r.1.Owned owner ∧ r.1.Delivered := by
  have htext : ∀ b ∈ text.map (·, owner), b.2 = owner := by
    intro b hb
    obtain ⟨c, -, rfl⟩ := List.mem_map.mp hb
    rfl
  have happend {o' : Out} (ho' : o'.Owned owner) :
      Out.Owned { o' with netbuf := o'.netbuf ++ text.map (·, owner) } owner := by
    intro b hb
    rcases List.mem_append.mp hb with hb | hb
    · exact ho' b hb
    · exact htext b hb
  rw [netPrintf] at h
  dsimp only at h
  split at h
  · obtain ⟨f, hf, h⟩ := Option.bind_eq_some_iff.mp h
    obtain ⟨hnil, hd'⟩ := netFlush_spec ho hd hf
    split at h
    · cases h
      exact ⟨Out.owned_of_nil hnil owner, hd'⟩
    · obtain ⟨w, hw, h⟩ := Option.bind_eq_some_iff.mp h
      cases h
      exact ⟨Out.owned_of_nil hnil owner, hd'.write fun b hb ↦ htext b (mem_of_netWriteAll hw hb)⟩
  · split at h
    · obtain ⟨f, hf, h⟩ := Option.bind_eq_some_iff.mp h
      obtain ⟨hnil, hd'⟩ := netFlush_spec ho hd hf
      split at h
      · cases h
        exact ⟨Out.owned_of_nil hnil owner, hd'⟩
      · cases h
        exact ⟨happend (Out.owned_of_nil hnil owner), hd'⟩
    · cases h
      exact ⟨happend ho, hd⟩

theorem netPrintAll_spec {texts : List Bytes} (ho : o.Owned owner) (hd : o.Delivered)
    {rets : List WriteRet} {r : Out × List WriteRet}
    (h : netPrintAll (some owner) owner texts o rets = some r) :
    r.1.Owned owner ∧ r.1.Delivered := by
  induction texts generalizing o rets with
  | nil =>
      cases h
      exact ⟨ho, hd⟩
  | cons text texts ih =>
      obtain ⟨r', hr', h⟩ := Option.bind_eq_some_iff.mp h
      obtain ⟨ho', hd'⟩ := netPrintf_spec ho hd hr'
      exact ih ho' hd' h

end Print

/-! ## The client at hand -/

/-- The client is the same one, with the same descriptor. -/
structure Client.Same (c c' : Client) : Prop where
  id : c'.id = c.id
  fd : c'.fd = c.fd

theorem Client.Same.refl (c : Client) : c.Same c := ⟨rfl, rfl⟩

theorem Client.Same.trans {c c' c'' : Client} (h : c.Same c') (h' : c'.Same c'') : c.Same c'' :=
  ⟨h'.id.trans h.id, h'.fd.trans h.fd⟩

theorem shiftBuf_same (c : Client) : c.Same (shiftBuf c) := by
  rw [shiftBuf]
  dsimp only
  split <;> split <;> exact ⟨rfl, rfl⟩

theorem readLine_same {c : Client} {rd : Option Bytes} {r : Fed} (h : readLine c rd = some r) :
    c.Same r.client := by
  unfold readLine at h
  split at h
  · cases h
    exact ⟨rfl, rfl⟩
  · split at h
    · cases h
    · dsimp only at h
      split at h
      · cases h
        exact ⟨rfl, rfl⟩
      · cases h
        exact ⟨rfl, rfl⟩

theorem shortBody_same (c : Client) (r : Option Nat) : c.Same (shortBody c r).client := by
  rw [shortBody]
  split
  · exact ⟨rfl, rfl⟩
  · exact ⟨rfl, rfl⟩

theorem readBody_same {c : Client} {rd : Option Bytes} {r : Fed} (h : readBody c rd = some r) :
    c.Same r.client := by
  have hstart : c.Same (if c.idx > c.len then { c with idx := 0 } else c) := by
    split
    · exact ⟨rfl, rfl⟩
    · exact ⟨rfl, rfl⟩
  refine hstart.trans ?_
  unfold readBody at h
  dsimp only at h
  generalize (if c.idx > c.len then { c with idx := 0 } else c) = c₀ at h ⊢
  split at h
  · cases h
    exact ⟨rfl, rfl⟩
  · split at h
    · split at h
      · cases h
        exact shortBody_same c₀ none
      · split at h
        · cases h
        · have hread (bs : Bytes) : c₀.Same { c₀ with buf := poke c₀.buf c₀.idx bs } := ⟨rfl, rfl⟩
          cases h
          split
          · exact (hread _).trans (shortBody_same _ _)
          · exact ⟨rfl, rfl⟩
    · cases h
      exact ⟨rfl, rfl⟩

theorem clientState_same {c : Client} {rd : Option Bytes} {r : Fed}
    (h : clientState c rd = some r) :
    c.Same r.client := by
  refine (shiftBuf_same c).trans ?_
  rw [clientState] at h
  split at h
  · exact readLine_same h
  · exact readBody_same h
  · cases h

/-- The line in the buffer of a client asks to quit. -/
def Client.AsksQuit (c : Client) : Prop :=
  c.buf.head? ≠ some 0 ∧ c.mode ≠ 1 ∧
    Cmd.ofHash (sdbHash (CStr.ofBytes (cstrAt (strtolower (splitLine c).1.buf) 0))) = some .quit

instance (c : Client) : Decidable c.AsksQuit := inferInstanceAs (Decidable (_ ∧ _ ∧ _))

variable {σ : Type}

/-- What a request leaves of the client, and that it comes to an end with -1 only if `quit` was
asked for. -/
structure Handled.Fine (c : Client) (quit : Prop) (h : Handled σ) : Prop where
  same : c.Same h.client
  quit : h.ret = -1 → quit ∧ h.replies = []

/-- A request that goes on with the same client. -/
theorem Handled.Fine.goesOn {c : Client} {quit : Prop} {h : Handled σ} (hsame : c.Same h.client)
    (hret : h.ret = 0 ∨ h.ret = 1) : h.Fine c quit :=
  ⟨hsame, fun hquit ↦ by omega⟩

theorem splitLine_same (c : Client) : c.Same (splitLine c).1 := by
  rw [splitLine]
  split
  · exact ⟨rfl, rfl⟩
  · exact ⟨rfl, rfl⟩

section Handle

variable {c : Client} {st : σ} {quit : Prop} {h : Handled σ} {key p : Option Nat}

theorem handleStore_fine (c : Client) (st : σ) (cmdhash : Nat) (key p : Option Nat) :
    Handled.Fine c quit (handleStore c st cmdhash key p) := by
  unfold handleStore
  split
  · dsimp only
    split
    · exact .goesOn ⟨rfl, rfl⟩ (.inl rfl)
    · split
      · exact .goesOn ⟨rfl, rfl⟩ (.inl rfl)
      · split
        · exact .goesOn ⟨rfl, rfl⟩ (.inl rfl)
        · exact .goesOn ⟨rfl, rfl⟩ (.inr rfl)
  · exact .goesOn (.refl c) (.inl rfl)

theorem handleNum_fine {f : σ → CStr → UInt64 → Option (Option CStr × σ)}
    (hh : handleNum f c st key p = some h) : h.Fine c quit := by
  unfold handleNum at hh
  split at hh
  · obtain ⟨r, -, hh⟩ := Option.bind_eq_some_iff.mp hh
    split at hh
    · cases hh
      exact .goesOn ⟨rfl, rfl⟩ (.inl rfl)
    · cases hh
      exact .goesOn ⟨rfl, rfl⟩ (.inl rfl)
  · cases hh
    exact .goesOn (.refl c) (.inl rfl)

variable {api : McApi σ}

theorem handleTouch_fine (hh : handleTouch api c st key p = some h) : h.Fine c quit := by
  unfold handleTouch at hh
  split at hh
  · obtain ⟨r, -, hh⟩ := Option.bind_eq_some_iff.mp hh
    cases hh
    exact .goesOn (.refl c) (.inl rfl)
  · cases hh
    exact .goesOn (.refl c) (.inl rfl)

theorem handleDelete_fine (hh : handleDelete api c st key = some h) : h.Fine c quit := by
  unfold handleDelete at hh
  split at hh
  · cases hh
    exact .goesOn (.refl c) (.inl rfl)
  · obtain ⟨r, -, hh⟩ := Option.bind_eq_some_iff.mp hh
    cases hh
    exact .goesOn ⟨rfl, rfl⟩ (.inl rfl)

theorem handleLine_fine {nfds tfds bread bwrite : Nat}
    (hh : handleLine api nfds tfds bread bwrite c st = some h) :
    h.Fine c (Cmd.ofHash (sdbHash (CStr.ofBytes (cstrAt (strtolower (splitLine c).1.buf) 0))) =
      some .quit) := by
  have hsame := splitLine_same c
  unfold handleLine at hh
  generalize splitLine c = s at hh hsame ⊢
  obtain ⟨c₁, key, p⟩ := s
  dsimp only at hh hsame ⊢
  generalize hbuf : strtolower c₁.buf = buf at hh ⊢
  have hlow : c.Same { c₁ with buf := buf } := hsame.trans ⟨rfl, rfl⟩
  have hdone {r : Handled σ} (hr : Handled.Fine { c₁ with buf := buf } False r) :
      r.Fine c (Cmd.ofHash (sdbHash (CStr.ofBytes (cstrAt buf 0))) = some .quit) :=
    ⟨hlow.trans hr.same, fun hret ↦ absurd (hr.quit hret).1 id⟩
  have hplain (st : σ) (replies : List Bytes) :
      Handled.Fine { c₁ with buf := buf } False ⟨0, { c₁ with buf := buf }, st, replies⟩ :=
    .goesOn (.refl _) (.inl rfl)
  cases hcmd : Cmd.ofHash (sdbHash (CStr.ofBytes (cstrAt buf 0))) with
  | none =>
      simp only [hcmd] at hh hdone ⊢
      cases hh
      exact hdone (hplain _ _)
  | some cmd =>
      simp only [hcmd] at hh hdone ⊢
      cases cmd with
      | quit =>
          cases hh
          exact ⟨hlow, fun _ ↦ ⟨rfl, rfl⟩⟩
      | flushAll =>
          obtain ⟨r, -, rfl⟩ := Option.map_eq_some_iff.mp hh
          exact hdone (hplain _ _)
      | get =>
          cases key with
          | none =>
              cases hh
              exact hdone (hplain _ _)
          | some key =>
              obtain ⟨r, -, rfl⟩ := Option.map_eq_some_iff.mp hh
              exact hdone (.goesOn ⟨rfl, rfl⟩ (.inl rfl))
      | gets =>
          cases key with
          | none =>
              cases hh
              exact hdone (hplain _ _)
          | some key =>
              obtain ⟨r, -, rfl⟩ := Option.map_eq_some_iff.mp hh
              exact hdone (.goesOn ⟨rfl, rfl⟩ (.inl rfl))
      | touch => exact hdone (handleTouch_fine hh)
      | incr => exact hdone (handleNum_fine hh)
      | decr => exact hdone (handleNum_fine hh)
      | delete => exact hdone (handleDelete_fine hh)
      | version | verbosity | stats | cas =>
          cases hh
          exact hdone (hplain _ _)
      | add | set | append | prepend | replace =>
          cases hh
          exact hdone (handleStore_fine _ _ _ _ _)

theorem protocolHandle_fine {nfds tfds bread bwrite : Nat}
    (hh : protocolHandle api nfds tfds bread bwrite c st = some h) : h.Fine c c.AsksQuit := by
  unfold protocolHandle at hh
  split at hh
  · cases hh
    exact .goesOn (.refl c) (.inl rfl)
  · next hne =>
      split at hh
      · obtain ⟨r, -, hh⟩ := Option.bind_eq_some_iff.mp hh
        cases hh
        exact .goesOn ⟨rfl, rfl⟩ (.inr rfl)
      · next hmode =>
          have hfine := handleLine_fine hh
          exact ⟨hfine.same, fun hret ↦ ⟨⟨hne, hmode, (hfine.quit hret).1⟩, (hfine.quit hret).2⟩⟩

end Handle

/-! ## The descriptors -/

/-- The two tables agree: behind the descriptor of each client is its own connection, nothing is
behind those of the server, and no descriptor is there twice. -/
structure Server.Table (st : Server σ) : Prop where
  first : st.i0 ≤ st.nfds
  listening : ∀ i < st.i0, st.conns (st.fds i).fd = none
  same : ∀ i, st.i0 ≤ i → i < st.nfds → (st.fds i).fd = (st.msc i).fd
  behind : ∀ i, st.i0 ≤ i → i < st.nfds → st.conns (st.msc i).fd = some (st.msc i).id
  inj : ∀ i j, i < st.nfds → j < st.nfds → (st.fds i).fd = (st.fds j).fd → i = j

/-- Only the descriptors, the clients and the connections matter. -/
theorem Server.Table.congr {st st' : Server σ} (h : st.Table) (hudp : st'.udp = st.udp)
    (hnfds : st'.nfds = st.nfds) (hfd : ∀ i, (st'.fds i).fd = (st.fds i).fd)
    (hmsc : ∀ i, (st.msc i).Same (st'.msc i)) (hconns : ∀ fd, st'.conns fd = st.conns fd) :
    st'.Table := by
  have hi0 : st'.i0 = st.i0 := by rw [Server.i0, Server.i0, hudp]
  constructor
  · rw [hi0, hnfds]
    exact h.first
  · intro i hi
    rw [hconns, hfd]
    exact h.listening i (hi0 ▸ hi)
  · intro i hi hi'
    rw [hfd, (hmsc i).fd]
    exact h.same i (hi0 ▸ hi) (hnfds ▸ hi')
  · intro i hi hi'
    rw [hconns, (hmsc i).fd, (hmsc i).id]
    exact h.behind i (hi0 ▸ hi) (hnfds ▸ hi')
  · intro i j hi hj hij
    rw [hfd, hfd] at hij
    exact h.inj i j (hnfds ▸ hi) (hnfds ▸ hj) hij

/-- A descriptor that is not in use is in no table. -/
theorem Server.Table.ne_of_unused {st : Server σ} (h : st.Table) {fd : Nat} (hfd : st.Unused fd)
    {i : Nat} (hi : i < st.nfds) : (st.fds i).fd ≠ fd := by
  obtain ⟨hfree, hserver⟩ := hfd
  by_cases hi0 : i < st.i0
  · exact hserver i hi0
  · rintro rfl
    have hbehind := h.behind i (not_lt.mp hi0) hi
    rw [← h.same i (not_lt.mp hi0) hi, hfree] at hbehind
    cases hbehind

/-- A client more. -/
theorem Server.Table.add {st : Server σ} (h : st.Table) {fd : Nat} (hfd : st.Unused fd)
    {st' : Server σ} (hudp : st'.udp = st.udp) (hnfds : st'.nfds = st.nfds + 1)
    (hold : ∀ i < st.nfds, (st'.fds i).fd = (st.fds i).fd ∧ st'.msc i = st.msc i)
    (hnew : (st'.fds st.nfds).fd = fd ∧ st'.msc st.nfds = clientNewFd st.ids fd)
    (hconns : st'.conns = Function.update st.conns fd (some st.ids)) : st'.Table := by
  have hi0 : st'.i0 = st.i0 := by rw [Server.i0, Server.i0, hudp]
  have hlast {i : Nat} (hi : i < st'.nfds) : i < st.nfds ∨ i = st.nfds := by omega
  have hother {i : Nat} (hi : i < st.nfds) : st'.conns (st.fds i).fd = st.conns (st.fds i).fd := by
    rw [hconns, Function.update_of_ne (h.ne_of_unused hfd hi)]
  constructor
  · have hfirst := h.first
    omega
  · intro i hi
    have hi' : i < st.nfds := (hi0 ▸ hi).trans_le h.first
    rw [(hold i hi').1, hother hi']
    exact h.listening i (hi0 ▸ hi)
  · intro i hi hi'
    rcases hlast hi' with hlt | rfl
    · rw [(hold i hlt).1, (hold i hlt).2]
      exact h.same i (hi0 ▸ hi) hlt
    · rw [hnew.1, hnew.2]
      rfl
  · intro i hi hi'
    rcases hlast hi' with hlt | rfl
    · have hsame := h.same i (hi0 ▸ hi) hlt
      rw [(hold i hlt).2, ← hsame, hother hlt, hsame]
      exact h.behind i (hi0 ▸ hi) hlt
    · rw [hnew.2, hconns]
      exact Function.update_self _ _ _
  · intro i j hi hj hij
    rcases hlast hi with hi | rfl
    · rcases hlast hj with hj | rfl
      · rw [(hold i hi).1, (hold j hj).1] at hij
        exact h.inj i j hi hj hij
      · rw [(hold i hi).1, hnew.1] at hij
        exact absurd hij (h.ne_of_unused hfd hi)
    · rcases hlast hj with hj | rfl
      · rw [(hold j hj).1, hnew.1] at hij
        exact absurd hij.symm (h.ne_of_unused hfd hj)
      · rfl

theorem Server.setRevents_fd (st : Server σ) (i n j : Nat) :
    ((st.setRevents i n).fds j).fd = (st.fds j).fd := by
  dsimp only [Server.setRevents]
  by_cases hj : j = i
  · subst hj
    rw [Function.update_self]
  · rw [Function.update_of_ne hj]

/-- A client that is not refused comes last. -/
theorem Server.Table.accept {st st' : Server σ} (h : st.Table) {cfd : Option Nat}
    (hst : clientAccept st cfd = some st') :
    st'.Table ∧ st'.udp = st.udp ∧ st'.out = st.out := by
  unfold clientAccept at hst
  split at hst
  · cases hst
    exact ⟨h, rfl, rfl⟩
  · next fd =>
      split at hst
      swap
      · cases hst
      next hunused =>
      by_cases hfull : st.nfds > maxClients
      · -- there is no place left: the connection is closed again
        simp only [fdsAdd, if_pos hfull, Bool.false_eq_true, if_false] at hst
        cases hst
        refine ⟨h.congr rfl rfl (fun i ↦ rfl) (fun i ↦ .refl _) fun fd' ↦ ?_, rfl, rfl⟩
        by_cases hfd : fd' = fd
        · subst hfd
          simp [Server.close, hunused.1]
        · simp [Server.close, hfd]
      · simp only [fdsAdd, if_neg hfull, if_true] at hst
        cases hst
        refine ⟨h.add hunused rfl rfl (fun i hi ↦ ⟨?_, ?_⟩) ⟨?_, ?_⟩ rfl, rfl, rfl⟩
        · refine (Server.setRevents_fd _ _ _ _).trans ?_
          dsimp only
          rw [Function.update_of_ne hi.ne]
        · exact Function.update_of_ne hi.ne _ _
        · refine (Server.setRevents_fd _ _ _ _).trans ?_
          dsimp only
          rw [Function.update_self]
        · exact Function.update_self _ _ _

/-- `fds_del` finds the client itself. -/
theorem fdsDel_eq {st : Server σ} (h : st.Table) {i : Nat} (hi : st.i0 ≤ i) (hi' : i < st.nfds) :
    fdsDel st (st.msc i).fd = { st.close (st.msc i).fd with
      fds := fun j ↦ if i ≤ j ∧ j + 1 < st.nfds then st.fds (j + 1) else st.fds j
      msc := fun j ↦ if i ≤ j ∧ j + 1 < st.nfds then st.msc (j + 1) else st.msc j
      nfds := st.nfds - 1 } := by
  have hfind : ((List.range st.nfds).find? fun j ↦ (st.fds j).fd = (st.msc i).fd) = some i := by
    rw [List.find?_range_eq_some]
    refine ⟨by simpa using h.same i hi hi', List.mem_range.mpr hi', fun j hj ↦ ?_⟩
    rw [← h.same i hi hi']
    simpa using fun hij ↦ hj.ne (h.inj j i (hj.trans hi') hi' hij)
  rw [fdsDel, hfind]

/-- The clients behind the one that is given up move up. -/
theorem Server.Table.del {st : Server σ} (h : st.Table) {i : Nat} (hi : st.i0 ≤ i)
    (hi' : i < st.nfds) : (fdsDel st (st.msc i).fd).Table := by
  rw [fdsDel_eq h hi hi']
  -- where each of the others was before
  obtain ⟨k, hlow, hhigh⟩ : ∃ k : Nat → Nat, (∀ j < i, k j = j) ∧ ∀ j, i ≤ j → k j = j + 1 :=
    ⟨fun j ↦ if i ≤ j then j + 1 else j, fun j hj ↦ if_neg (by omega), fun j hj ↦ if_pos hj⟩
  have hk (j : Nat) : k j = j ∧ j < i ∨ k j = j + 1 ∧ i ≤ j := by
    rcases Nat.lt_or_ge j i with hj | hj
    · exact .inl ⟨hlow j hj, hj⟩
    · exact .inr ⟨hhigh j hj, hj⟩
  have hmove {α : Type} (f : Nat → α) {j : Nat} (hj : j < st.nfds - 1) :
      (if i ≤ j ∧ j + 1 < st.nfds then f (j + 1) else f j) = f (k j) := by
    rcases hk j with ⟨hkj, hij⟩ | ⟨hkj, hij⟩
    · rw [hkj, if_neg (by omega)]
    · rw [hkj, if_pos (by omega)]
  have hlt {j : Nat} (hj : j < st.nfds - 1) : k j < st.nfds := by
    rcases hk j with h | h <;> omega
  have hclient {j : Nat} (hj : st.i0 ≤ j) : st.i0 ≤ k j := by
    rcases hk j with h | h <;> omega
  have hopen {j : Nat} (hj : j < st.nfds - 1) : (st.fds (k j)).fd ≠ (st.msc i).fd := by
    rw [← h.same i hi hi']
    intro hij
    have hki := h.inj (k j) i (hlt hj) hi' hij
    rcases hk j with h | h <;> omega
  constructor
  · change st.i0 ≤ st.nfds - 1
    omega
  · intro j (hj : j < st.i0)
    have hj' : j < st.nfds - 1 := by omega
    have hkj : k j = j := hlow j (hj.trans_le hi)
    have hne := hopen hj'
    dsimp only [Server.close]
    rw [hmove st.fds hj', Function.update_of_ne hne, hkj]
    exact h.listening j hj
  · intro j (hj : st.i0 ≤ j) (hj' : j < st.nfds - 1)
    dsimp only
    rw [hmove st.fds hj', hmove st.msc hj']
    exact h.same (k j) (hclient hj) (hlt hj')
  · intro j (hj : st.i0 ≤ j) (hj' : j < st.nfds - 1)
    have hne := hopen hj'
    rw [h.same (k j) (hclient hj) (hlt hj')] at hne
    dsimp only [Server.close]
    rw [hmove st.msc hj', Function.update_of_ne hne]
    exact h.behind (k j) (hclient hj) (hlt hj')
  · intro j l (hj : j < st.nfds - 1) (hl : l < st.nfds - 1) hjl
    dsimp only at hjl
    rw [hmove st.fds hj, hmove st.fds hl] at hjl
    have hkk := h.inj (k j) (k l) (hlt hj) (hlt hl) hjl
    rcases hk j with hj' | hj' <;> rcases hk l with hl' | hl' <;> omega

/-! ## The loop -/

/-- The client that is dealt with. -/
def Pc.client : Pc → Option Nat
  | .serve i | .flush i => some i
  | _ => none

/-- What holds in the loop: only replies to the client at hand wait. -/
structure Server.Inv (st : Server σ) : Prop where
  table : st.Table
  delivered : st.out.Delivered
  idle : st.pc.client = none → st.out.netbuf = []
  busy : ∀ i, st.pc.client = some i → st.i0 ≤ i ∧ i < st.nfds ∧ st.out.Owned (st.msc i).id
  scan : ∀ i, st.pc = .scan i → st.i0 ≤ i

/-- The client that is served. -/
def Pc.served : Pc → Option Nat
  | .serve i => some i
  | _ => none

/-- The line that the step handles asks to quit; `r` is what its system calls return. -/
def Server.AskedQuit (st : Server σ) (r : Ret σ) : Prop :=
  ∃ i ∈ st.pc.served, ∃ fed ∈ clientState (st.msc i) r.read, fed.client.AsksQuit

instance (st : Server σ) (r : Ret σ) : Decidable (st.AskedQuit r) :=
  inferInstanceAs (Decidable (∃ _ ∈ _, ∃ _ ∈ _, _))

/-- Nothing waits when a client quits. -/
def QuitClean (st : Server σ) (r : Ret σ) : Prop := st.AskedQuit r → st.out.netbuf = []

instance (st : Server σ) (r : Ret σ) : Decidable (QuitClean st r) :=
  inferInstanceAs (Decidable (_ → _))

/-- A step that deals with no client. -/
theorem Server.Inv.idle_step {st st' : Server σ} (h : st.Inv) (hpc : st.pc.client = none)
    (htable : st'.Table) (hout : st'.out = st.out) (hpc' : st'.pc.client = none)
    (hscan : ∀ i, st'.pc = .scan i → st'.i0 ≤ i) : st'.Inv where
  table := htable
  delivered := hout ▸ h.delivered
  idle := fun _ ↦ hout ▸ h.idle hpc
  busy := fun i hi ↦ by
    rw [hpc'] at hi
    cases hi
  scan := hscan

/-- A client is given up when nothing waits for it. -/
theorem dropClient_inv {st : Server σ} (ht : st.Table) (hd : st.out.Delivered)
    (hempty : st.out.netbuf = []) {i : Nat} (hi : st.i0 ≤ i) (hi' : i < st.nfds) :
    (dropClient st i).Inv := by
  have hdel := ht.del hi hi'
  rw [dropClient]
  rw [fdsDel_eq ht hi hi'] at hdel ⊢
  refine ⟨hdel.congr rfl rfl (fun j ↦ ?_) (fun j ↦ .refl _) fun fd ↦ rfl, hd, fun _ ↦ hempty,
    fun j hj ↦ ?_, fun j hj ↦ ?_⟩
  · exact Server.setRevents_fd _ _ _ _
  · cases hj
  · cases hj
    exact le_rfl

section Step

variable {api : McApi σ} {st st' : Server σ} {i : Nat} {r : Ret σ}

/-- One client has changed, and is still the same one. -/
theorem Client.Same.update {c : Client} (h : (st.msc i).Same c) (j : Nat) :
    (st.msc j).Same (Function.update st.msc i c j) := by
  by_cases hj : j = i
  · subst hj
    rwa [Function.update_self]
  · rw [Function.update_of_ne hj]
    exact .refl _

theorem serve_inv (h : st.Inv) (hpc : st.pc = .serve i) (hquit : QuitClean st r)
    (hst : serve api st i r = some st') : st'.Inv := by
  obtain ⟨hi, hi', howned⟩ := h.busy i (congrArg Pc.client hpc)
  obtain ⟨fed, hfed, hst⟩ := Option.bind_eq_some_iff.mp hst
  obtain ⟨hd, hhd, hst⟩ := Option.bind_eq_some_iff.mp hst
  obtain ⟨o, ho, hst⟩ := Option.bind_eq_some_iff.mp hst
  have hfine := protocolHandle_fine hhd
  have hsame : (st.msc i).Same hd.client := (clientState_same hfed).trans hfine.same
  rw [hsame.fd, hsame.id, h.table.behind i hi hi'] at ho
  obtain ⟨howned', hdelivered⟩ := netPrintAll_spec howned h.delivered ho
  dsimp only at hst
  split at hst
  · next hret =>
      obtain ⟨hasks, hreplies⟩ := hfine.quit hret
      rw [hreplies] at ho
      cases ho
      cases hst
      have hput : Server.Table { st with
          store := hd.store
          bread := st.bread + fed.bread
          msc := Function.update st.msc i hd.client } :=
        h.table.congr rfl rfl (fun _ ↦ rfl) hsame.update fun _ ↦ rfl
      have hasked : st.AskedQuit r := ⟨i, congrArg Pc.served hpc, fed, hfed, hasks⟩
      exact dropClient_inv hput h.delivered (hquit hasked) hi hi'
  · -- the client goes on, with its replies in the buffer
    have hgoes (c : Client) (hc : (st.msc i).Same c) (pc : Pc)
        (hpc' : pc = .serve i ∨ pc = .flush i) :
        Server.Inv { st with
          store := hd.store
          bread := st.bread + fed.bread
          out := o.1
          msc := Function.update st.msc i c
          pc := pc } := by
      refine ⟨h.table.congr rfl rfl (fun _ ↦ rfl) hc.update fun _ ↦ rfl, hdelivered, fun hno ↦ ?_,
        fun j hj ↦ ?_, fun j hj ↦ ?_⟩
      · rcases hpc' with rfl | rfl <;> cases hno
      · have hij : j = i := by rcases hpc' with rfl | rfl <;> exact (Option.some.inj hj).symm
        subst hij
        refine ⟨hi, hi', ?_⟩
        dsimp only
        rwa [Function.update_self, hc.id]
      · rcases hpc' with rfl | rfl <;> cases hj
    split at hst
    · cases hst
      exact hgoes { hd.client with idx := 0, next := 0 } (hsame.trans ⟨rfl, rfl⟩) _ (.inr rfl)
    · cases hst
      refine hgoes _ hsame _ ?_
      split
      · exact .inl rfl
      · exact .inr rfl

theorem flushClient_inv (h : st.Inv) (hpc : st.pc = .flush i)
    (hst : flushClient st i r = some st') : st'.Inv := by
  obtain ⟨hi, hi', howned⟩ := h.busy i (congrArg Pc.client hpc)
  obtain ⟨f, hf, hst⟩ := Option.bind_eq_some_iff.mp hst
  rw [h.table.same i hi hi', h.table.behind i hi hi'] at hf
  obtain ⟨hempty, hdelivered⟩ := netFlush_spec howned h.delivered hf
  have htable : Server.Table { st with out := f.2.1, bwrite := st.bwrite + f.1.toNat } :=
    h.table.congr rfl rfl (fun _ ↦ rfl) (fun _ ↦ .refl _) fun _ ↦ rfl
  dsimp only at hst
  split at hst
  · cases hst
    exact dropClient_inv htable hdelivered hempty hi hi'
  · cases hst
    refine ⟨htable.congr rfl rfl (fun _ ↦ rfl) (fun _ ↦ .refl _) fun _ ↦ rfl, hdelivered,
      fun _ ↦ hempty, fun j hj ↦ ?_, fun j hj ↦ ?_⟩
    · cases hj
    · cases hj
      exact Nat.le_succ_of_le hi

/-- One step keeps the invariant. -/
theorem step_inv (h : st.Inv) (hquit : QuitClean st r) (hst : step api st r = some st') :
    st'.Inv := by
  unfold step at hst
  split at hst
  · next hpc =>
      cases hst
      refine h.idle_step (congrArg Pc.client hpc) (h.table.congr rfl rfl (fun j ↦ ?_)
        (fun _ ↦ .refl _) fun _ ↦ rfl) rfl ?_ fun j hj ↦ ?_
      · dsimp only
        split <;> rfl
      · dsimp only
        split <;> rfl
      · dsimp only at hj
        split at hj <;> cases hj
  · next hpc =>
      have hnone : st.pc.client = none := congrArg Pc.client hpc
      split at hst
      · obtain ⟨s, hs, rfl⟩ := Option.map_eq_some_iff.mp hst
        obtain ⟨htable, -, hout⟩ := h.table.accept hs
        refine h.idle_step hnone (htable.congr rfl rfl (fun _ ↦ rfl) (fun _ ↦ .refl _) fun _ ↦ rfl)
          hout rfl fun j hj ↦ ?_
        cases hj
      · cases hst
        refine h.idle_step hnone (h.table.congr rfl rfl (fun _ ↦ rfl) (fun _ ↦ .refl _) fun _ ↦ rfl)
          rfl rfl fun j hj ↦ ?_
        cases hj
  · next hpc =>
      cases hst
      refine h.idle_step (congrArg Pc.client hpc) (h.table.congr rfl rfl (fun _ ↦ rfl)
        (fun _ ↦ .refl _) fun _ ↦ rfl) rfl rfl fun j hj ↦ ?_
      cases hj
      exact le_rfl
  · next j hpc =>
      have hnone : st.pc.client = none := congrArg Pc.client hpc
      have hj := h.scan j hpc
      split at hst
      · next hlt =>
          have htable (pc : Pc) : Server.Table { st with pc := pc } :=
            h.table.congr rfl rfl (fun _ ↦ rfl) (fun _ ↦ .refl _) fun _ ↦ rfl
          cases hst
          split
          · refine h.idle_step hnone (htable _) rfl rfl fun k hk ↦ ?_
            cases hk
            exact Nat.le_succ_of_le hj
          · -- the next client: nothing waits
            refine ⟨htable _, h.delivered, fun hno ↦ ?_, fun k hk ↦ ?_, fun k hk ↦ ?_⟩
            · cases hno
            · cases hk
              exact ⟨hj, hlt, Out.owned_of_nil (h.idle hnone) _⟩
            · cases hk
      · cases hst
        refine h.idle_step hnone (h.table.congr rfl rfl (fun _ ↦ rfl) (fun _ ↦ .refl _) fun _ ↦ rfl)
          rfl rfl fun k hk ↦ ?_
        cases hk
  · next j hpc => exact serve_inv h hpc hquit hst
  · next j hpc => exact flushClient_inv h hpc hst

end Step

/-! ## Runs -/

/-- The server in front of its loop, with its sockets: no one is connected. -/
def netLoop (store : σ) (fd : Nat) (udpfd : Option Nat) : Server σ where
  store := store
  fds := fun i ↦ if i = 0 then ⟨fd, 0⟩ else ⟨udpfd.getD 0, 0⟩
  msc := fun _ ↦ clientNewFd 0 0
  nfds := if udpfd.isSome then 2 else 1
  tfds := 0
  udp := udpfd.isSome
  bread := 0
  bwrite := 0
  out := ⟨[], []⟩
  conns := fun _ ↦ none
  ids := 0
  pc := .poll

theorem netLoop_inv (store : σ) {fd : Nat} {udpfd : Option Nat} (hne : udpfd ≠ some fd) :
    (netLoop store fd udpfd).Inv := by
  have hi0 : (netLoop store fd udpfd).i0 = (netLoop store fd udpfd).nfds := rfl
  have hinj (i j : Nat) (hi : i < (netLoop store fd udpfd).nfds)
      (hj : j < (netLoop store fd udpfd).nfds)
      (hij : ((netLoop store fd udpfd).fds i).fd = ((netLoop store fd udpfd).fds j).fd) :
      i = j := by
    cases udpfd with
    | none =>
        have h1 : (netLoop store fd none).nfds = 1 := rfl
        omega
    | some udpfd =>
        have h2 : (netLoop store fd (some udpfd)).nfds = 2 := rfl
        have hfds : fd ≠ udpfd := fun h ↦ hne (congrArg some h.symm)
        rw [h2] at hi hj
        interval_cases i <;> interval_cases j
        · rfl
        · exact absurd hij hfds
        · exact absurd hij.symm hfds
        · rfl
  refine ⟨⟨hi0.le, fun _ _ ↦ rfl, fun i hi hi' ↦ by omega, fun i hi hi' ↦ by omega, hinj⟩, ?_,
    fun _ ↦ rfl, ?_, ?_⟩
  · intro s hs
    cases hs
  · intro i hi
    cases hi
  · intro i hi
    cases hi

/-- Everything that is written in a run reaches the client that it was printed for, if nothing
waits when a client quits. -/
theorem delivered_of_run (api : McApi σ) {store : σ} {fd : Nat} {udpfd : Option Nat}
    (hne : udpfd ≠ some fd) {st : Server σ}
    (hrun : Runs (step api) QuitClean (netLoop store fd udpfd) st) : st.out.Delivered :=
  (hrun.keeps (fun _ _ _ h hquit hst ↦ step_inv h hquit hst) (netLoop_inv store hne)).delivered

/-! ## A client that quits -/

/-- System calls that are not made, or fail. -/
def noRet : Ret McSdb where
  poll := none
  accept := none
  udp := newMc
  read := none
  writes := []

/-- `poll` with the descriptors that something happened on. -/
def pollRet (ready : List Nat) : Ret McSdb :=
  { noRet with poll := some fun i ↦ if i ∈ ready then 1 else 0 }

/-- `read`. -/
def readRet (line : List Char) : Ret McSdb := { noRet with read := some (txt line) }

/-- A client connects, asks for the version, and quits. -/
def versionRun : List (Ret McSdb) :=
  [pollRet [0], { noRet with accept := some 5 }, noRet, noRet, noRet,
    pollRet [1], noRet, noRet, noRet,
    readRet ['v', 'e', 'r', 's', 'i', 'o', 'n', '\r', '\n'], { noRet with writes := [.wrote 13] },
    noRet, pollRet [1], noRet, noRet, noRet, readRet ['q', 'u', 'i', 't', '\r', '\n']]

theorem delivered_of_run_version :
    ∃ st, exec (step mcsdb) QuitClean versionRun (netLoop newMc 3 none) = some st ∧
      st.out.sent ≠ [] ∧ st.out.Delivered := by
  have hexec : (exec (step mcsdb) QuitClean versionRun (netLoop newMc 3 none)).any
      (fun st ↦ st.out.sent ≠ []) = true := by decide +kernel
  obtain ⟨st, hst, hsent⟩ := (Option.any_eq_true _ _).mp hexec
  exact ⟨st, hst, of_decide_eq_true hsent,
    delivered_of_run mcsdb (by decide) (runs_of_exec hst)⟩

/-- A client stores something and quits in the same round; then another one asks for the version. -/
def quitRun : List (Ret McSdb) :=
  [pollRet [0], { noRet with accept := some 5 }, noRet, noRet, noRet,
    pollRet [0, 1], { noRet with accept := some 6 }, noRet, noRet,
    readRet ['s', 'e', 't', ' ', 'k', ' ', '0', ' ', '0', ' ', '1', '\r', '\n'],
    readRet ['x', '\n'], readRet ['q', 'u', 'i', 't', '\r', '\n'],
    noRet, noRet, pollRet [1], noRet, noRet, noRet,
    readRet ['v', 'e', 'r', 's', 'i', 'o', 'n', '\r', '\n'], { noRet with writes := [.wrote 21] }]

theorem not_delivered_quit :
    ¬ ∀ st, Runs (step mcsdb) (fun _ _ ↦ True) (netLoop newMc 3 none) st → st.out.Delivered := by
  have hexec : (exec (step mcsdb) (fun _ _ ↦ True) quitRun (netLoop newMc 3 none)).any
      (fun st ↦ st.out.sent.any fun s ↦ s.1 = some 1 ∧ s.2.2 = 0) = true := by decide +kernel
  obtain ⟨st, hst, hsent⟩ := (Option.any_eq_true _ _).mp hexec
  obtain ⟨s, hs, hwrong⟩ := List.any_eq_true.mp hsent
  obtain ⟨hconn, howner⟩ := of_decide_eq_true hwrong
  intro h
  have hright := h st (runs_of_exec hst) s hs 1 hconn
  omega

end SdbStore.Mcsdb
