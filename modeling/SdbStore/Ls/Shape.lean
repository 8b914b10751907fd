import SdbStore.Lib.Linked
import SdbStore.Ls.Lists

/-!
# The shape of a list

A list is a ring of nodes that is closed by the list itself: the node in front of the first one and
the one behind the last one are `NULL`, which knows the first node as its next and the last node as
its previous one.  So nodes are put in and taken out in one way, wherever they are.
-/

namespace SdbStore.Ls

open Lib

variable {α κ : Type}

/-- The node behind a node. -/
def nextOf (m : Mem α κ) (list a : Nat) : Option Nat :=
  if a = 0 then (m.lists list).map SdbList.head else (m.iters a).map SdbListIter.n

/-- The node in front of a node. -/
def prevOf (m : Mem α κ) (list a : Nat) : Option Nat :=
  if a = 0 then (m.lists list).map SdbList.tail else (m.iters a).map SdbListIter.p

/-- The element of a node. -/
def dataOf (m : Mem α κ) (a : Nat) : Option α := (m.iters a).bind SdbListIter.data

/-- The addresses of some nodes. -/
abbrev addrs (ns : List (Nat × α)) : List Nat := ns.map Prod.fst

theorem addrs_append (l₁ l₂ : List (Nat × α)) : addrs (l₁ ++ l₂) = addrs l₁ ++ addrs l₂ :=
  List.map_append

@[simp] theorem addrs_nil : addrs ([] : List (Nat × α)) = [] := rfl

theorem addrs_cons (b : Nat × α) (l : List (Nat × α)) : addrs (b :: l) = b.1 :: addrs l := rfl

theorem mem_addrs {b : Nat × α} {l : List (Nat × α)} (h : b ∈ l) : b.1 ∈ addrs l :=
  List.mem_map_of_mem h

/-- The nodes of a list and their elements. -/
structure Listed (m : Mem α κ) (list : Nat) (ns : List (Nat × α)) : Prop where
  ne_zero : list ≠ 0
  links : Linked (nextOf m list) (prevOf m list) 0 0 (addrs ns)
  tail : prevOf m list 0 = some (lastOf 0 (addrs ns))
  nodup : (0 :: addrs ns).Nodup
  data : ∀ b ∈ ns, dataOf m b.1 = some b.2

/-- The node behind a node, or the first node of the list, is another one. -/
def Mem.setNext (m : Mem α κ) (list a b : Nat) : Mem α κ :=
  if a = 0 then m.modList list fun l ↦ { l with head := b }
  else m.modIter a fun i ↦ { i with n := b }

/-- The node in front of a node, or the last node of the list, is another one. -/
def Mem.setPrev (m : Mem α κ) (list a b : Nat) : Mem α κ :=
  if a = 0 then m.modList list fun l ↦ { l with tail := b }
  else m.modIter a fun i ↦ { i with p := b }

/-- A memory in which the length of a list has become less. -/
def Mem.shorten (m : Mem α κ) (list : Nat) : Mem α κ :=
  m.modList list fun l ↦ { l with length := lengthDec l.length }

/-- A memory in which the length of a list has become more. -/
def Mem.lengthen (m : Mem α κ) (list : Nat) : Mem α κ :=
  m.modList list fun l ↦ { l with length := lengthInc l.length, sorted := false }

/-- A memory in which two nodes, or `NULL`, of a list have become neighbours, and the list has lost
a node between them. -/
def Mem.unlink (m : Mem α κ) (list p n : Nat) : Mem α κ :=
  ((m.setNext list p n).setPrev list n p).shorten list

/-- A memory in which a new node has been put between two nodes, or `NULL`, of a list. -/
def Mem.insert (m : Mem α κ) (list it : Nat) (x : α) (p n : Nat) : Mem α κ :=
  (((m.newIter it ⟨some x, n, p⟩).setNext list p it).setPrev list n it).lengthen list

/-! ## Reading what has been written -/

section Fields

variable {m m' : Mem α κ} {list list' a b c : Nat}

@[simp] theorem iters_modList (f : SdbList κ → SdbList κ) : (m.modList list f).iters = m.iters :=
  rfl

@[simp] theorem lists_modIter (f : SdbListIter α → SdbListIter α) :
    (m.modIter a f).lists = m.lists := rfl

theorem iters_modIter_of_ne (f : SdbListIter α → SdbListIter α) (h : b ≠ a) :
    (m.modIter a f).iters b = m.iters b := Function.update_of_ne h _ _

theorem lists_modList_of_ne (f : SdbList κ → SdbList κ) (h : list' ≠ list) :
    (m.modList list f).lists list' = m.lists list' := Function.update_of_ne h _ _

theorem lists_modList_self (f : SdbList κ → SdbList κ) :
    (m.modList list f).lists list = (m.lists list).map f := Function.update_self _ _ _

theorem iters_modIter_self (f : SdbListIter α → SdbListIter α) :
    (m.modIter a f).iters a = (m.iters a).map f := Function.update_self _ _ _

/-- Fields of the same list are written one after the other. -/
theorem modList_modList (f g : SdbList κ → SdbList κ) :
    (m.modList list f).modList list g = m.modList list fun l ↦ g (f l) := by
  simp only [Mem.modList, Function.update_self, Function.update_idem, Option.map_map]
  rfl

theorem modList_congr {l : SdbList κ} (h : m.lists list = some l) {f g : SdbList κ → SdbList κ}
    (hfg : f l = g l) : m.modList list f = m.modList list g := by
  simp only [Mem.modList, h, Option.map_some, hfg]

theorem setIter_eq {i : SdbListIter α} (ha : a ≠ 0) (h : m.iters a = some i)
    (f : SdbListIter α → SdbListIter α) : m.setIter a f = some (m.modIter a f) := by
  rw [Mem.setIter, Mem.iter, if_neg ha, h]
  rfl

theorem setList_eq {l : SdbList κ} (ha : list ≠ 0) (h : m.lists list = some l)
    (f : SdbList κ → SdbList κ) : m.setList list f = some (m.modList list f) := by
  rw [Mem.setList, Mem.list, if_neg ha, h]
  rfl

theorem freeIter_eq {i : SdbListIter α} (ha : a ≠ 0) (h : m.iters a = some i) :
    m.freeIter a = some (m.dropIter a) := by
  rw [Mem.freeIter, Mem.iter, if_neg ha, h]
  rfl

theorem iter_eq (ha : a ≠ 0) : m.iter a = m.iters a := if_neg ha

theorem list_eq (ha : list ≠ 0) : m.list list = m.lists list := if_neg ha

end Fields

/-! ## What the changes do to the links -/

section Links

variable {m m' : Mem α κ} {list list' a b c : Nat}

@[simp] theorem nextOf_zero (m : Mem α κ) (list : Nat) :
    nextOf m list 0 = (m.lists list).map SdbList.head := if_pos rfl

@[simp] theorem prevOf_zero (m : Mem α κ) (list : Nat) :
    prevOf m list 0 = (m.lists list).map SdbList.tail := if_pos rfl

theorem nextOf_node (ha : a ≠ 0) : nextOf m list a = (m.iters a).map SdbListIter.n := if_neg ha

theorem prevOf_node (ha : a ≠ 0) : prevOf m list a = (m.iters a).map SdbListIter.p := if_neg ha

/-- Fields of a list other than its ends do not matter. -/
theorem nextOf_modList {f : SdbList κ → SdbList κ} (hf : ∀ l, (f l).head = l.head) :
    nextOf (m.modList list f) list a = nextOf m list a := by
  rw [nextOf, nextOf, lists_modList_self, Option.map_map]
  congr 2
  exact funext hf

theorem prevOf_modList {f : SdbList κ → SdbList κ} (hf : ∀ l, (f l).tail = l.tail) :
    prevOf (m.modList list f) list a = prevOf m list a := by
  rw [prevOf, prevOf, lists_modList_self, Option.map_map]
  congr 2
  exact funext hf

theorem nextOf_modIter {f : SdbListIter α → SdbListIter α} (hf : ∀ i, (f i).n = i.n) :
    nextOf (m.modIter b f) list a = nextOf m list a := by
  rw [nextOf, nextOf]
  by_cases hab : a = b
  · subst hab
    rw [iters_modIter_self, Option.map_map]
    congr 2
    exact funext hf
  · rw [iters_modIter_of_ne f hab]
    rfl

theorem prevOf_modIter {f : SdbListIter α → SdbListIter α} (hf : ∀ i, (f i).p = i.p) :
    prevOf (m.modIter b f) list a = prevOf m list a := by
  rw [prevOf, prevOf]
  by_cases hab : a = b
  · subst hab
    rw [iters_modIter_self, Option.map_map]
    congr 2
    exact funext hf
  · rw [iters_modIter_of_ne f hab]
    rfl

theorem dataOf_modIter {f : SdbListIter α → SdbListIter α} (hf : ∀ i, (f i).data = i.data) :
    dataOf (m.modIter b f) a = dataOf m a := by
  rw [dataOf, dataOf]
  by_cases hab : a = b
  · subst hab
    rw [iters_modIter_self]
    cases m.iters a with
    | none => rfl
    | some i => exact hf i
  · rw [iters_modIter_of_ne f hab]

theorem nextOf_setNext_self (h : (nextOf m list a).isSome) :
    nextOf (m.setNext list a b) list a = some b := by
  obtain ⟨c, hc⟩ := Option.isSome_iff_exists.mp h
  by_cases ha : a = 0
  · subst ha
    obtain ⟨l, hl, -⟩ := Option.map_eq_some_iff.mp ((nextOf_zero m list).symm.trans hc)
    rw [Mem.setNext, if_pos rfl, nextOf_zero, lists_modList_self, hl]
    rfl
  · obtain ⟨i, hi, -⟩ := Option.map_eq_some_iff.mp ((nextOf_node ha).symm.trans hc)
    rw [Mem.setNext, if_neg ha, nextOf_node ha, iters_modIter_self, hi]
    rfl

theorem nextOf_setNext_of_ne (h : c ≠ a) :
    nextOf (m.setNext list a b) list c = nextOf m list c := by
  rw [Mem.setNext]
  split
  · next ha =>
      have hc : c ≠ 0 := ha ▸ h
      rw [nextOf_node hc, nextOf_node hc]
      rfl
  · rw [nextOf, nextOf, iters_modIter_of_ne _ h]
    rfl

theorem prevOf_setPrev_self (h : (prevOf m list a).isSome) :
    prevOf (m.setPrev list a b) list a = some b := by
  obtain ⟨c, hc⟩ := Option.isSome_iff_exists.mp h
  by_cases ha : a = 0
  · subst ha
    obtain ⟨l, hl, -⟩ := Option.map_eq_some_iff.mp ((prevOf_zero m list).symm.trans hc)
    rw [Mem.setPrev, if_pos rfl, prevOf_zero, lists_modList_self, hl]
    rfl
  · obtain ⟨i, hi, -⟩ := Option.map_eq_some_iff.mp ((prevOf_node ha).symm.trans hc)
    rw [Mem.setPrev, if_neg ha, prevOf_node ha, iters_modIter_self, hi]
    rfl

theorem prevOf_setPrev_of_ne (h : c ≠ a) :
    prevOf (m.setPrev list a b) list c = prevOf m list c := by
  rw [Mem.setPrev]
  split
  · next ha =>
      have hc : c ≠ 0 := ha ▸ h
      rw [prevOf_node hc, prevOf_node hc]
      rfl
  · rw [prevOf, prevOf, iters_modIter_of_ne _ h]
    rfl

@[simp] theorem prevOf_setNext : prevOf (m.setNext list a b) list c = prevOf m list c := by
  rw [Mem.setNext]
  split
  · exact prevOf_modList fun _ ↦ rfl
  · exact prevOf_modIter fun _ ↦ rfl

@[simp] theorem nextOf_setPrev : nextOf (m.setPrev list a b) list c = nextOf m list c := by
  rw [Mem.setPrev]
  split
  · exact nextOf_modList fun _ ↦ rfl
  · exact nextOf_modIter fun _ ↦ rfl

@[simp] theorem dataOf_setNext : dataOf (m.setNext list a b) c = dataOf m c := by
  rw [Mem.setNext]
  split
  · rfl
  · exact dataOf_modIter fun _ ↦ rfl

@[simp] theorem dataOf_setPrev : dataOf (m.setPrev list a b) c = dataOf m c := by
  rw [Mem.setPrev]
  split
  · rfl
  · exact dataOf_modIter fun _ ↦ rfl

@[simp] theorem nextOf_shorten : nextOf (m.shorten list) list a = nextOf m list a :=
  nextOf_modList fun _ ↦ rfl

@[simp] theorem prevOf_shorten : prevOf (m.shorten list) list a = prevOf m list a :=
  prevOf_modList fun _ ↦ rfl

@[simp] theorem dataOf_shorten : dataOf (m.shorten list) a = dataOf m a := rfl

@[simp] theorem nextOf_lengthen : nextOf (m.lengthen list) list a = nextOf m list a :=
  nextOf_modList fun _ ↦ rfl

@[simp] theorem prevOf_lengthen : prevOf (m.lengthen list) list a = prevOf m list a :=
  prevOf_modList fun _ ↦ rfl

@[simp] theorem dataOf_lengthen : dataOf (m.lengthen list) a = dataOf m a := rfl

theorem iters_newIter_self (i : SdbListIter α) : (m.newIter a i).iters a = some i :=
  Function.update_self _ _ _

theorem iters_newIter_of_ne (i : SdbListIter α) (h : b ≠ a) : (m.newIter a i).iters b = m.iters b :=
  Function.update_of_ne h _ _

theorem iters_dropIter_self : (m.dropIter a).iters a = none := Function.update_self _ _ _

theorem iters_dropIter_of_ne (h : b ≠ a) : (m.dropIter a).iters b = m.iters b :=
  Function.update_of_ne h _ _

theorem nextOf_newIter_of_ne (i : SdbListIter α) (h : b ≠ a) :
    nextOf (m.newIter a i) list b = nextOf m list b := by
  rw [nextOf, nextOf, iters_newIter_of_ne i h]
  rfl

theorem prevOf_newIter_of_ne (i : SdbListIter α) (h : b ≠ a) :
    prevOf (m.newIter a i) list b = prevOf m list b := by
  rw [prevOf, prevOf, iters_newIter_of_ne i h]
  rfl

theorem dataOf_newIter_of_ne (i : SdbListIter α) (h : b ≠ a) :
    dataOf (m.newIter a i) b = dataOf m b := by
  rw [dataOf, dataOf, iters_newIter_of_ne i h]

end Links

/-! ## Lists -/

/-- Two memories with the same nodes, a few apart, and the same lists, one apart. -/
structure Frame (m m' : Mem α κ) (list : Nat) (A : List Nat) : Prop where
  iters : ∀ a, a ≠ 0 → a ∉ A → m'.iters a = m.iters a
  lists : ∀ list', list' ≠ list → m'.lists list' = m.lists list'

namespace Frame

variable {m m' m'' : Mem α κ} {list a b : Nat} {A B : List Nat}

theorem refl (m : Mem α κ) (list : Nat) (A : List Nat) : Frame m m list A :=
  ⟨fun _ _ _ ↦ rfl, fun _ _ ↦ rfl⟩

theorem trans (h : Frame m m' list A) (h' : Frame m' m'' list A) : Frame m m'' list A :=
  ⟨fun a h0 ha ↦ (h'.iters a h0 ha).trans (h.iters a h0 ha),
    fun l hl ↦ (h'.lists l hl).trans (h.lists l hl)⟩

theorem modList (f : SdbList κ → SdbList κ) : Frame m (m.modList list f) list A :=
  ⟨fun _ _ _ ↦ rfl, fun _ hl ↦ lists_modList_of_ne f hl⟩

theorem modIter (ha : a ∈ A) (f : SdbListIter α → SdbListIter α) :
    Frame m (m.modIter a f) list A :=
  ⟨fun _ _ hb ↦ iters_modIter_of_ne f fun h ↦ hb (h ▸ ha), fun _ _ ↦ rfl⟩

theorem newIter (ha : a ∈ A) (i : SdbListIter α) : Frame m (m.newIter a i) list A :=
  ⟨fun _ _ hb ↦ iters_newIter_of_ne i fun h ↦ hb (h ▸ ha), fun _ _ ↦ rfl⟩

theorem dropIter (ha : a ∈ A) : Frame m (m.dropIter a) list A :=
  ⟨fun _ _ hb ↦ iters_dropIter_of_ne fun h ↦ hb (h ▸ ha), fun _ _ ↦ rfl⟩

theorem setNext (ha : a = 0 ∨ a ∈ A) : Frame m (m.setNext list a b) list A := by
  rw [Mem.setNext]
  split
  · exact modList _
  · next h => exact modIter (ha.resolve_left h) _

theorem setPrev (ha : a = 0 ∨ a ∈ A) : Frame m (m.setPrev list a b) list A := by
  rw [Mem.setPrev]
  split
  · exact modList _
  · next h => exact modIter (ha.resolve_left h) _

end Frame

namespace Listed

variable {m m' : Mem α κ} {list list' a y : Nat} {x : α} {ns l₁ l₂ : List (Nat × α)} {A : List Nat}

theorem notMem_zero (h : Listed m list ns) : 0 ∉ addrs ns := (List.nodup_cons.mp h.nodup).1

/-- Only the list and its nodes matter. -/
theorem congr (h : Listed m list ns) (hlist : m'.lists list = m.lists list)
    (hiters : ∀ a ∈ addrs ns, m'.iters a = m.iters a) : Listed m' list ns := by
  have hprev : ∀ a ∈ 0 :: addrs ns, prevOf m' list a = prevOf m list a := by
    intro a ha
    rw [prevOf, prevOf]
    split
    · rw [hlist]
    · next h0 => rw [hiters a ((List.mem_cons.mp ha).resolve_left h0)]
  refine ⟨h.ne_zero, h.links.congr (fun a ha ↦ ?_) fun a ha ↦ hprev a (List.mem_cons_of_mem 0 ha),
    ?_, h.nodup, fun b hb ↦ ?_⟩
  · rw [nextOf, nextOf]
    split
    · rw [hlist]
    · next h0 => rw [hiters a ((List.mem_cons.mp ha).resolve_left h0)]
  · rw [hprev 0 List.mem_cons_self, h.tail]
  · rw [dataOf, hiters b.1 (mem_addrs hb)]
    exact h.data b hb

/-- A change to another list and to nodes of others. -/
theorem frame (h : Listed m list' ns) (hf : Frame m m' list A) (hne : list' ≠ list)
    (hA : ∀ a ∈ addrs ns, a ∉ A) : Listed m' list' ns := by
  refine h.congr (hf.lists list' hne) fun a ha ↦ hf.iters a ?_ (hA a ha)
  rintro rfl
  exact h.notMem_zero ha

/-- The record of a list. -/
theorem exists_list (h : Listed m list ns) : ∃ l, m.lists list = some l ∧
    l.head = (addrs ns).headD 0 ∧ l.tail = lastOf 0 (addrs ns) := by
  have htail := h.tail
  have hhead := h.links.head
  rw [prevOf_zero] at htail
  rw [nextOf_zero] at hhead
  obtain ⟨l, hl, ht⟩ := Option.map_eq_some_iff.mp htail
  rw [hl] at hhead
  exact ⟨l, hl, Option.some.inj hhead, ht⟩

/-- A node of a list. -/
theorem exists_iter (h : Listed m list (l₁ ++ (y, x) :: l₂)) :
    m.iters y = some ⟨some x, (addrs l₂).headD 0, lastOf 0 (addrs l₁)⟩ := by
  have hlinks := h.links
  have hdata := h.data (y, x) (List.mem_append_right _ List.mem_cons_self)
  have h0 : y ≠ 0 := by
    rintro rfl
    exact h.notMem_zero (mem_addrs (List.mem_append_right l₁ List.mem_cons_self))
  rw [addrs_append, addrs_cons] at hlinks
  obtain ⟨hn, hp⟩ := hlinks.at_node
  rw [nextOf_node h0] at hn
  rw [prevOf_node h0] at hp
  rw [dataOf] at hdata
  cases hi : m.iters y with
  | none =>
      rw [hi] at hn
      cases hn
  | some i =>
      rw [hi] at hn hp hdata
      obtain ⟨d, n, p⟩ := i
      obtain rfl : n = _ := Option.some.inj hn
      obtain rfl : p = _ := Option.some.inj hp
      obtain rfl : d = some x := hdata
      rfl

theorem isSome_iter (h : Listed m list ns) (ha : a ∈ addrs ns) : (m.iters a).isSome := by
  obtain ⟨⟨y, x⟩, hb, rfl⟩ := List.mem_map.mp ha
  obtain ⟨l₁, l₂, rfl⟩ := List.append_of_mem hb
  rw [h.exists_iter]
  rfl

/-- The node in front of the rest of a list knows the rest, and the rest knows it. -/
theorem at_gap (h : Listed m list (l₁ ++ l₂)) :
    nextOf m list (lastOf 0 (addrs l₁)) = some ((addrs l₂).headD 0) ∧
      prevOf m list ((addrs l₂).headD 0) = some (lastOf 0 (addrs l₁)) := by
  have hlinks := h.links
  have htail := h.tail
  rw [addrs_append] at hlinks htail
  refine ⟨hlinks.at_last, ?_⟩
  cases l₂ with
  | nil =>
      rw [addrs_nil, List.append_nil] at htail
      exact htail
  | cons b l₂ => exact hlinks.at_node.2

theorem nodup_append (h : Listed m list (l₁ ++ l₂)) : (0 :: addrs l₁ ++ addrs l₂).Nodup := by
  rw [List.cons_append, ← addrs_append]
  exact h.nodup

/-- A node of a list is taken out. -/
theorem unlink (h : Listed m list (l₁ ++ (y, x) :: l₂)) :
    Listed (m.unlink list (lastOf 0 (addrs l₁)) ((addrs l₂).headD 0)) list (l₁ ++ l₂) := by
  have hsub : (addrs (l₁ ++ l₂)).Sublist (addrs (l₁ ++ (y, x) :: l₂)) :=
    (List.Sublist.append_left (List.sublist_cons_self _ l₂) l₁).map _
  have hnodup : (0 :: addrs (l₁ ++ l₂)).Nodup := h.nodup.sublist (hsub.cons_cons 0)
  have hnodup' : (0 :: addrs l₁ ++ addrs l₂).Nodup := by
    rw [List.cons_append, ← addrs_append]
    exact hnodup
  have hnext : (nextOf m list (lastOf 0 (addrs l₁))).isSome := by
    rw [h.at_gap.1]
    rfl
  have h' : Listed m list ((l₁ ++ [(y, x)]) ++ l₂) := by
    rw [List.append_assoc]
    exact h
  have hprev : (prevOf m list ((addrs l₂).headD 0)).isSome := by
    rw [h'.at_gap.2]
    rfl
  have hprev' : prevOf (m.unlink list (lastOf 0 (addrs l₁)) ((addrs l₂).headD 0)) list
      ((addrs l₂).headD 0) = some (lastOf 0 (addrs l₁)) := by
    rw [Mem.unlink, prevOf_shorten, prevOf_setPrev_self]
    rw [prevOf_setNext]
    exact hprev
  have hlinks := h.links
  rw [addrs_append, addrs_cons] at hlinks
  refine ⟨h.ne_zero, ?_, ?_, hnodup, fun b hb ↦ ?_⟩
  · rw [addrs_append]
    refine hlinks.remove ?_ (fun w hw ↦ ?_) (fun w hw hwp ↦ ?_) (fun w hw hwn ↦ ?_) hnodup'
    · rw [Mem.unlink, nextOf_shorten, nextOf_setPrev, nextOf_setNext_self hnext]
    · have hnw : (addrs l₂).headD 0 = w := by rw [List.headD_eq_head?_getD, hw, Option.getD_some]
      rw [← hnw]
      exact hprev'
    · rw [Mem.unlink, nextOf_shorten, nextOf_setPrev, nextOf_setNext_of_ne hwp]
    · have hne : w ≠ (addrs l₂).headD 0 := by
        rintro rfl
        cases l₂ with
        | nil =>
            refine (List.nodup_cons.mp hnodup').1 ?_
            exact hw
        | cons b l₂ => exact hwn rfl
      rw [Mem.unlink, prevOf_shorten, prevOf_setPrev_of_ne hne, prevOf_setNext]
  · cases l₂ with
    | nil =>
        rw [List.append_nil]
        exact hprev'
    | cons b l₂ =>
        have hb : b.1 ≠ 0 := by
          intro hb
          refine (List.nodup_cons.mp hnodup).1 ?_
          rw [← hb]
          exact mem_addrs (List.mem_append_right l₁ List.mem_cons_self)
        have htail := h.tail
        rw [Mem.unlink, prevOf_shorten, addrs_cons, List.headD_cons, prevOf_setPrev_of_ne hb.symm,
          prevOf_setNext, htail, addrs_append, addrs_append, addrs_cons, addrs_cons,
            lastOf_append_cons,
          lastOf_append_cons, lastOf_cons]
  · rw [Mem.unlink, dataOf_shorten, dataOf_setPrev, dataOf_setNext]
    refine h.data b ?_
    rcases List.mem_append.mp hb with hb | hb
    · exact List.mem_append_left _ hb
    · exact List.mem_append_right _ (List.mem_cons_of_mem _ hb)

/-- A new node is put into a list. -/
theorem insert (h : Listed m list (l₁ ++ l₂)) (hy : y ≠ 0) (hnew : y ∉ addrs (l₁ ++ l₂)) :
    Listed (m.insert list y x (lastOf 0 (addrs l₁)) ((addrs l₂).headD 0)) list
      (l₁ ++ (y, x) :: l₂) := by
  have hnodup := h.nodup_append
  have hlast : lastOf 0 (addrs l₁) ≠ y := by
    rintro rfl
    rcases List.mem_cons.mp (lastOf_mem 0 (addrs l₁)) with h0 | hmem
    · exact hy h0
    · refine hnew ?_
      rw [addrs_append]
      exact List.mem_append_left _ hmem
  have hhead : (addrs l₂).headD 0 ≠ y := by
    cases l₂ with
    | nil => exact hy.symm
    | cons b l₂ =>
        rintro rfl
        exact hnew (mem_addrs (List.mem_append_right l₁ List.mem_cons_self))
  have hmem : ∀ {w}, w ∈ addrs l₁ ++ addrs l₂ → w ≠ y := by
    rintro w hw rfl
    rw [← addrs_append] at hw
    exact hnew hw
  have hnext : (nextOf (m.newIter y ⟨some x, (addrs l₂).headD 0, lastOf 0 (addrs l₁)⟩) list
      (lastOf 0 (addrs l₁))).isSome := by
    rw [nextOf_newIter_of_ne _ hlast, h.at_gap.1]
    rfl
  have hprev : (prevOf (m.newIter y ⟨some x, (addrs l₂).headD 0, lastOf 0 (addrs l₁)⟩) list
      ((addrs l₂).headD 0)).isSome := by
    rw [prevOf_newIter_of_ne _ hhead, h.at_gap.2]
    rfl
  have hprev' : prevOf (m.insert list y x (lastOf 0 (addrs l₁)) ((addrs l₂).headD 0)) list
      ((addrs l₂).headD 0) = some y := by
    rw [Mem.insert, prevOf_lengthen, prevOf_setPrev_self]
    rw [prevOf_setNext]
    exact hprev
  have hlinks := h.links
  rw [addrs_append] at hlinks
  have hnodupy : (0 :: addrs (l₁ ++ (y, x) :: l₂)).Nodup := by
    have hperm : (addrs (l₁ ++ (y, x) :: l₂)).Perm (y :: addrs (l₁ ++ l₂)) :=
      List.perm_middle.map Prod.fst
    have hcons : (0 :: y :: addrs (l₁ ++ l₂)).Nodup := by
      have hnod := List.nodup_cons.mp h.nodup
      refine List.nodup_cons.mpr ⟨fun h0 ↦ ?_, List.nodup_cons.mpr ⟨hnew, hnod.2⟩⟩
      rcases List.mem_cons.mp h0 with h0 | h0
      · exact hy h0.symm
      · exact hnod.1 h0
    exact (hperm.cons 0).nodup_iff.mpr hcons
  refine ⟨h.ne_zero, ?_, ?_, hnodupy, fun b hb ↦ ?_⟩
  · rw [addrs_append, addrs_cons]
    refine hlinks.insert ?_ ?_ ?_ (fun w hw ↦ ?_) (fun w hw hwp ↦ ?_) (fun w hw hwn ↦ ?_) hnodup
    · rw [Mem.insert, nextOf_lengthen, nextOf_setPrev, nextOf_setNext_self hnext]
    · rw [Mem.insert, prevOf_lengthen, prevOf_setPrev_of_ne hhead.symm, prevOf_setNext,
        prevOf_node hy, iters_newIter_self]
      rfl
    · rw [Mem.insert, nextOf_lengthen, nextOf_setPrev, nextOf_setNext_of_ne hlast.symm,
        nextOf_node hy, iters_newIter_self]
      rfl
    · have hnw : (addrs l₂).headD 0 = w := by rw [List.headD_eq_head?_getD, hw, Option.getD_some]
      rw [← hnw]
      exact hprev'
    · have hwy : w ≠ y := by
        rcases List.mem_cons.mp (List.cons_append ▸ hw) with rfl | hw
        · exact hy.symm
        · exact hmem hw
      rw [Mem.insert, nextOf_lengthen, nextOf_setPrev, nextOf_setNext_of_ne hwp,
        nextOf_newIter_of_ne _ hwy]
    · have hne : w ≠ (addrs l₂).headD 0 := by
        rintro rfl
        cases l₂ with
        | nil => exact (List.nodup_cons.mp hnodup).1 hw
        | cons b l₂ => exact hwn rfl
      rw [Mem.insert, prevOf_lengthen, prevOf_setPrev_of_ne hne, prevOf_setNext,
        prevOf_newIter_of_ne _ (hmem hw)]
  · cases l₂ with
    | nil =>
        rw [addrs_append, addrs_cons, addrs_nil, lastOf_concat]
        exact hprev'
    | cons b l₂ =>
        have hb : b.1 ≠ 0 := by
          intro hb
          refine h.notMem_zero ?_
          rw [← hb]
          exact mem_addrs (List.mem_append_right l₁ List.mem_cons_self)
        have htail := h.tail
        rw [Mem.insert, prevOf_lengthen, addrs_cons, List.headD_cons, prevOf_setPrev_of_ne hb.symm,
          prevOf_setNext, prevOf_newIter_of_ne _ hy.symm, htail, addrs_append, addrs_append,
          addrs_cons, addrs_cons, addrs_cons, lastOf_append_cons, lastOf_append_cons, lastOf_cons]
  · rcases List.mem_append.mp hb with hb | hb
    · have hby := hmem (List.mem_append_left _ (mem_addrs hb))
      rw [Mem.insert, dataOf_lengthen, dataOf_setPrev, dataOf_setNext, dataOf_newIter_of_ne _ hby]
      exact h.data b (List.mem_append_left l₂ hb)
    · rw [Mem.insert, dataOf_lengthen, dataOf_setPrev, dataOf_setNext]
      rcases List.mem_cons.mp hb with rfl | hb
      · rw [dataOf, iters_newIter_self]
        rfl
      · have hby := hmem (List.mem_append_right _ (mem_addrs hb))
        rw [dataOf_newIter_of_ne _ hby]
        exact h.data b (List.mem_append_right l₁ hb)

end Listed

end SdbStore.Ls
