import Mathlib.Data.Fintype.Card
import Myunix.Base
import Myunix.Lib.DoublyLinked

/-!
# Linked lists (`list.c`)

A list is a doubly linked chain of nodes from the heap. Each node holds a pointer and knows the list it is in. Pointers
are 32-bit words with 0 for `NULL`; `Addr` is the type of the others, so that there are fewer nodes than words.

`IsList s list ns` says that `list` is the chain of the nodes `ns`; `listInsert_ok` and `listDequeue_ok` say what the
two ends of a queue do to it.
-/

namespace Myunix.Lists

open Lib

/-- A pointer that is not `NULL`. -/
structure Addr where
  val : Word
  nonzero : val ≠ 0#32
deriving DecidableEq, Repr

/-- The pointer with this value. -/
def addrAt (v : Word) (h : v ≠ 0#32 := by decide) : Addr := ⟨v, h⟩

/-- `node_t`. -/
structure Node where
  next : Option Addr
  prev : Option Addr
  value : Option Addr
  owner : Option Addr
deriving DecidableEq, Repr

/-- `list_t`. -/
structure ListT where
  head : Option Addr
  tail : Option Addr
  length : Word
deriving DecidableEq, Repr

/-- The nodes and the lists, by their addresses. -/
structure ListMemory where
  nodes : Addr → Node
  lists : Addr → ListT

/-! ## The functions -/

/-- Change one node. -/
def ListMemory.setNode (s : ListMemory) (n : Addr) (f : Node → Node) : ListMemory :=
  { s with nodes := Function.update s.nodes n (f (s.nodes n)) }

/-- Change one list. -/
def ListMemory.setList (s : ListMemory) (l : Addr) (f : ListT → ListT) : ListMemory :=
  { s with lists := Function.update s.lists l (f (s.lists l)) }

/-- A zeroed node. -/
def emptyNode : Node := ⟨none, none, none, none⟩

/-- Memory that holds no list. -/
def noLists : ListMemory := ⟨fun _ => emptyNode, fun _ => ⟨none, none, 0#32⟩⟩

/-- `list_init` with the address that `kcalloc` returned. -/
def listInit (s : ListMemory) : Option Addr → Kernel (Addr × ListMemory)
  | none => throw .assertion
  | some list => return (list, s.setList list fun _ => ⟨none, none, 0#32⟩)

/-- `list_append`. -/
def listAppend (s : ListMemory) (list node : Addr) : Kernel ListMemory := do
  kassert ((s.nodes node).owner = none)
  let s := s.setNode node fun n => { n with owner := some list }
  if (s.lists list).length = 0#32 then
    let s := s.setList list fun l => { l with head := some node, tail := some node }
    let s := s.setNode node fun n => { n with prev := none, next := none }
    return s.setList list fun l => { l with length := l.length + 1#32 }
  else
    match (s.lists list).tail with
    | none => throw .pageFault
    | some tail =>
      let s := s.setNode tail fun n => { n with next := some node }
      let s := s.setNode node fun n => { n with prev := some tail }
      let s := s.setList list fun l => { l with tail := some node }
      return s.setList list fun l => { l with length := l.length + 1#32 }

/-- `list_insert` with the address that `kcalloc` returned for the node. -/
def listInsert (s : ListMemory) : (list v node : Option Addr) → Kernel (Addr × ListMemory)
  | some list, some v, some node => do
    let s := s.setNode node fun _ => { emptyNode with value := some v }
    let s ← listAppend s list node
    return (node, s)
  | _, _, _ => throw .assertion

/-- `list_delete`. -/
def listDelete (s : ListMemory) (list v : Addr) : Kernel ListMemory := do
  kassert ((s.nodes v).owner = some list)
  let s := if (s.lists list).head = some v then s.setList list fun l => { l with head := (s.nodes v).next } else s
  let s := if (s.lists list).tail = some v then s.setList list fun l => { l with tail := (s.nodes v).prev } else s
  let s := match (s.nodes v).prev with
    | some p => s.setNode p fun n => { n with next := (s.nodes v).next }
    | none => s
  let s := match (s.nodes v).next with
    | some p => s.setNode p fun n => { n with prev := (s.nodes v).prev }
    | none => s
  let s := s.setNode v fun n => { n with prev := none, next := none, owner := none }
  return s.setList list fun l => { l with length := l.length - 1#32 }

/-- `list_dequeue`. -/
def listDequeue (s : ListMemory) : Option Addr → Kernel (Option Addr × ListMemory)
  | none => throw .assertion
  | some list =>
    match (s.lists list).head with
    | none => throw .assertion
    | some out => do
      let s ← listDelete s list out
      return ((s.nodes out).value, s)

/-- The loop of `list_remove` from node `i`. There are fewer nodes than words, so that a walk of `fuel` rounds with as
much fuel does not end. -/
def listRemoveFrom (s : ListMemory) (list : Addr) (v : Option Addr) : Nat → Option Addr → Kernel ListMemory
  | 0, _ => throw .bounds
  | _ + 1, none => return s
  | fuel + 1, some i =>
    if (s.nodes i).value = v then listDelete s list i else listRemoveFrom s list v fuel (s.nodes i).next

/-- `list_remove`. -/
def listRemove (s : ListMemory) (list : Addr) (v : Option Addr) : Kernel ListMemory :=
  listRemoveFrom s list v 0x100000000 (s.lists list).head

/-! ## What they do -/

/-- `list` is the chain of the nodes `ns`. -/
structure IsList (s : ListMemory) (list : Addr) (ns : List Addr) : Prop where
  nodup : ns.Nodup
  head : (s.lists list).head = ns.head?
  tail : (s.lists list).tail = ns.getLast?
  length : (s.lists list).length = BitVec.ofNat 32 ns.length
  linked : DLinked (fun n => (s.nodes n).next) (fun n => (s.nodes n).prev) none ns
  owner : ∀ n ∈ ns, (s.nodes n).owner = some list

/-- The pointers in the nodes. -/
def ListMemory.values (s : ListMemory) (ns : List Addr) : List (Option Addr) := ns.map fun n => (s.nodes n).value

/-- There are fewer nodes than words. -/
theorem addr_length_lt {ns : List Addr} (h : ns.Nodup) : ns.length < 0x100000000 := by
  have hinj : Function.Injective fun n : Addr => n.val.toFin := by
    rintro ⟨a, ha⟩ ⟨b, hb⟩ hab
    have hab' : a = b := BitVec.toFin_inj.1 hab
    subst hab'
    rfl
  have hzero : (0#32).toFin ∉ ns.map fun n => n.val.toFin := by
    intro hmem
    obtain ⟨n, -, hn⟩ := List.mem_map.1 hmem
    exact n.nonzero (BitVec.toFin_inj.1 hn)
  have hcard := (List.nodup_cons.2 ⟨hzero, h.map hinj⟩).length_le_card
  rw [Fintype.card_fin, List.length_cons, List.length_map] at hcard
  exact hcard

section Queue

variable {s : ListMemory} {list node v : Addr} {ns : List Addr}

/-- A list is one chain only. -/
theorem IsList.unique {ns' : List Addr} (h : IsList s list ns) (h' : IsList s list ns') : ns = ns' :=
  h.linked.unique h'.linked (h.head.symm.trans h'.head)

theorem IsList.length_toNat (h : IsList s list ns) : (s.lists list).length.toNat = ns.length := by
  rw [h.length, BitVec.toNat_ofNat, Nat.mod_eq_of_lt (addr_length_lt h.nodup)]

theorem IsList.length_zero (h : IsList s list ns) : (s.lists list).length = 0#32 ↔ ns = [] := by
  rw [← List.length_eq_zero_iff, ← h.length_toNat]
  constructor
  · intro hz
    rw [hz]
    rfl
  · intro hz
    exact BitVec.eq_of_toNat_eq hz

/-- The values of other nodes do not change. -/
theorem values_congr {s' : ListMemory} (h : ∀ n ∈ ns, (s'.nodes n).value = (s.nodes n).value) :
    s'.values ns = s.values ns := List.map_congr_left h

/-- `s'` differs from `s` at most in `list` and in the nodes `ns`. -/
structure ChangesOnly (s : ListMemory) (list : Addr) (ns : List Addr) (s' : ListMemory) : Prop where
  nodes : ∀ n ∉ ns, s'.nodes n = s.nodes n
  lists : ∀ l, l ≠ list → s'.lists l = s.lists l

/-- Other lists stay. -/
theorem ChangesOnly.isList {s' : ListMemory} {list' : Addr} {ns' : List Addr} (h : ChangesOnly s list ns s')
    (hlist : list' ≠ list) (hns : ∀ n ∈ ns', n ∉ ns) (hl : IsList s list' ns') :
    IsList s' list' ns' ∧ s'.values ns' = s.values ns' := by
  have hnodes : ∀ n ∈ ns', s'.nodes n = s.nodes n := fun n hn => h.nodes n (hns n hn)
  have hsame := h.lists list' hlist
  refine ⟨⟨hl.nodup, ?_, ?_, ?_, ?_, fun n hn => ?_⟩, values_congr fun n hn => by rw [hnodes n hn]⟩
  · rw [hsame]
    exact hl.head
  · rw [hsame]
    exact hl.tail
  · rw [hsame]
    exact hl.length
  · exact hl.linked.congr (fun n hn => by rw [hnodes n hn]) (fun n hn => by rw [hnodes n hn])
  · rw [hnodes n hn]
    exact hl.owner n hn

/-- The nodes of an own list, and what is in them and in the others, after a change of the links. -/
structure Relinked (s : ListMemory) (list : Addr) (ns : List Addr) (s' : ListMemory) : Prop extends
    ChangesOnly s list ns s' where
  value : ∀ n, (s'.nodes n).value = (s.nodes n).value

/-- What `list_append` stores. It clears the link behind the node only when the list is empty. -/
theorem listAppend_eq (h : IsList s list ns) (howner : (s.nodes node).owner = none) : listAppend s list node = .ok {
    nodes := fun n =>
      if n = node then ⟨if ns = [] then none else (s.nodes node).next, ns.getLast?, (s.nodes node).value, some list⟩
      else if ns.getLast? = some n then { s.nodes n with next := some node }
      else s.nodes n
    lists := Function.update s.lists list ⟨(ns ++ [node]).head?, some node, (s.lists list).length + 1#32⟩ } := by
  cases hlast : ns.getLast? with
  | none =>
    obtain rfl := List.getLast?_eq_none_iff.1 hlast
    simp only [listAppend, assert_pos howner, ok_bind, ListMemory.setNode, ListMemory.setList, h.length_zero.2 rfl,
      if_pos]
    refine congrArg Except.ok (congrArg₂ ListMemory.mk (funext fun n => ?_) ?_)
    · by_cases hn : n = node
      · simp [hn]
      · simp [hn]
    · simp
  | some t =>
    have ht : t ∈ ns := List.mem_of_getLast? hlast
    have hne : ns ≠ [] := List.ne_nil_of_mem ht
    have htn : t ≠ node := by
      rintro rfl
      rw [h.owner t ht] at howner
      cases howner
    have hlength : (s.lists list).length ≠ 0#32 := fun hz => hne (h.length_zero.1 hz)
    have htail : (s.lists list).tail = some t := h.tail.trans hlast
    have hhead : (s.lists list).head = (ns ++ [node]).head? := by
      rw [h.head, List.head?_append_of_ne_nil _ hne]
    simp only [listAppend, assert_pos howner, ok_bind, ListMemory.setNode, ListMemory.setList, htail, if_neg hlength]
    refine congrArg Except.ok (congrArg₂ ListMemory.mk (funext fun n => ?_) ?_)
    · by_cases hn : n = node
      · simp [hn, htn.symm, hne]
      · by_cases hnt : n = t
        · simp [hnt, htn]
        · simp [hn, hnt, Ne.symm hnt]
    · simp [hhead]

/-- **`list_append`** adds a node without an owner and without a link at the end. -/
theorem listAppend_ok (h : IsList s list ns) (howner : (s.nodes node).owner = none)
    (hnext : ns ≠ [] → (s.nodes node).next = none) :
    ∃ s', listAppend s list node = .ok s' ∧ IsList s' list (ns ++ [node]) ∧ Relinked s list (ns ++ [node]) s' ∧
      ∀ n, n ≠ node → (s'.nodes n).owner = (s.nodes n).owner := by
  have hnode : node ∉ ns := by
    intro hn
    rw [h.owner node hn] at howner
    cases howner
  have hclear : (if ns = [] then none else (s.nodes node).next) = none := by
    split
    · rfl
    · rename_i hne
      exact hnext hne
  obtain ⟨s', hs', hnew, hothers, hlists⟩ : ∃ s', listAppend s list node = .ok s' ∧
      s'.nodes node = ⟨none, ns.getLast?, (s.nodes node).value, some list⟩ ∧
      (∀ n, n ≠ node →
        s'.nodes n = if ns.getLast? = some n then { s.nodes n with next := some node } else s.nodes n) ∧
      s'.lists = Function.update s.lists list ⟨(ns ++ [node]).head?, some node, (s.lists list).length + 1#32⟩ :=
    ⟨_, listAppend_eq h howner, (if_pos rfl).trans (by rw [hclear]), fun n hn => if_neg hn, rfl⟩
  -- of the nodes before, only the successor of the last is new
  have hkeep : ∀ n, n ≠ node → s'.nodes n = { s.nodes n with next := (s'.nodes n).next } := by
    intro n hn
    rw [hothers n hn]
    split <;> rfl
  have hne : ∀ n ∈ ns, n ≠ node := fun n hn => ne_of_mem_of_not_mem hn hnode
  refine ⟨s', hs', ⟨List.nodup_append_comm.1 (List.nodup_cons.2 ⟨hnode, h.nodup⟩), ?_, ?_, ?_, ?_, fun n hn => ?_⟩,
    ⟨⟨fun n hn => ?_, fun l hl => ?_⟩, fun n => ?_⟩, fun n hn => ?_⟩
  · rw [hlists, Function.update_self]
  · rw [hlists, Function.update_self, List.getLast?_concat]
  · rw [hlists, Function.update_self, List.length_append, List.length_singleton, BitVec.ofNat_add, ← h.length]
  · refine h.linked.extend h.nodup (fun c hc => ?_) (fun c hc hlast => ?_) (fun c hc => ?_) ?_ ?_
    · rw [hothers c (hne c (List.mem_of_getLast? hc)), if_pos hc]
    · rw [hothers c (hne c hc), if_neg hlast]
    · rw [hkeep c (hne c hc)]
    · rw [hnew]
    · rw [hnew, Option.or_none]
  · rcases List.mem_append.1 hn with hn | hn
    · rw [hkeep n (hne n hn)]
      exact h.owner n hn
    · rw [List.mem_singleton.1 hn, hnew]
  · have hn' : n ∉ ns ∧ n ≠ node := by simpa using hn
    rw [hothers n hn'.2, if_neg fun he => hn'.1 (List.mem_of_getLast? he)]
  · rw [hlists, Function.update_of_ne hl]
  · by_cases hn : n = node
    · rw [hn, hnew]
    · rw [hkeep n hn]
  · rw [hkeep n hn]

/-- What `list_delete` stores: the two ends of the list, the links around the node, and the node. -/
theorem listDelete_eq (howner : (s.nodes node).owner = some list) (hprev : (s.nodes node).prev ≠ some node)
    (hnext : (s.nodes node).next ≠ some node) : listDelete s list node = .ok {
      nodes := fun n =>
        if n = node then ⟨none, none, (s.nodes node).value, none⟩
        else { s.nodes n with
          next := if (s.nodes node).prev = some n then (s.nodes node).next else (s.nodes n).next
          prev := if (s.nodes node).next = some n then (s.nodes node).prev else (s.nodes n).prev }
      lists := Function.update s.lists list
        ⟨if (s.lists list).head = some node then (s.nodes node).next else (s.lists list).head,
          if (s.lists list).tail = some node then (s.nodes node).prev else (s.lists list).tail,
          (s.lists list).length - 1#32⟩ } := by
  -- the two ends
  generalize hu : (if (s.lists list).head = some node then
    s.setList list fun l => { l with head := (s.nodes node).next } else s) = u
  have hu' : u = ⟨s.nodes, Function.update s.lists list { s.lists list with
      head := if (s.lists list).head = some node then (s.nodes node).next else (s.lists list).head }⟩ := by
    subst hu
    split
    · rfl
    · simp
  generalize hw : (if (u.lists list).tail = some node then
    u.setList list fun l => { l with tail := (u.nodes node).prev } else u) = w
  have hw' : w = ⟨s.nodes, Function.update s.lists list { s.lists list with
      head := if (s.lists list).head = some node then (s.nodes node).next else (s.lists list).head
      tail := if (s.lists list).tail = some node then (s.nodes node).prev else (s.lists list).tail }⟩ := by
    subst hw hu'
    simp only [Function.update_self]
    split
    · simp [ListMemory.setList]
    · rfl
  simp only [listDelete, assert_pos howner, ok_bind, hu, hw]
  subst hw'
  -- the links around the node
  cases hp : (s.nodes node).prev with
  | none =>
    cases hn : (s.nodes node).next with
    | none =>
      simp only [ListMemory.setNode, ListMemory.setList, Function.update_self, Function.update_idem]
      refine congrArg Except.ok (congrArg₂ ListMemory.mk (funext fun n => ?_) rfl)
      simp only [Function.update_apply]
      clear hu hw
      split_ifs <;> simp_all
    | some q =>
      simp only [ListMemory.setNode, ListMemory.setList, Function.update_self, Function.update_idem]
      refine congrArg Except.ok (congrArg₂ ListMemory.mk (funext fun n => ?_) rfl)
      simp only [Function.update_apply]
      clear hu hw
      split_ifs <;> simp_all
  | some p =>
    have hp' : node ≠ p := fun he => hprev (hp.trans (congrArg some he.symm))
    cases hn : (s.nodes node).next with
    | none =>
      simp only [hn, ListMemory.setNode, ListMemory.setList, Function.update_self, Function.update_idem,
        Function.update_of_ne hp']
      refine congrArg Except.ok (congrArg₂ ListMemory.mk (funext fun n => ?_) rfl)
      simp only [Function.update_apply]
      clear hu hw
      split_ifs <;> simp_all
    | some q =>
      simp only [hn, ListMemory.setNode, ListMemory.setList, Function.update_self, Function.update_idem,
        Function.update_of_ne hp']
      refine congrArg Except.ok (congrArg₂ ListMemory.mk (funext fun n => ?_) rfl)
      simp only [Function.update_apply]
      clear hu hw
      split_ifs <;> simp_all

/-- **`list_delete`** takes a node out of its list, wherever it is. -/
theorem listDelete_ok (l₁ : List Addr) {l₂ : List Addr} (h : IsList s list (l₁ ++ node :: l₂)) :
    ∃ s', listDelete s list node = .ok s' ∧ IsList s' list (l₁ ++ l₂) ∧ Relinked s list (l₁ ++ node :: l₂) s' ∧
      (s'.nodes node).owner = none ∧ ∀ n, n ≠ node → (s'.nodes n).owner = (s.nodes n).owner := by
  obtain ⟨hprev, hnext⟩ := h.linked.at l₁
  rw [Option.or_none] at hprev
  obtain ⟨hnode, hnodup⟩ := List.nodup_cons.1 (List.perm_middle.nodup_iff.1 h.nodup)
  have hnode₁ : node ∉ l₁ := fun hn => hnode (List.mem_append_left l₂ hn)
  have hnode₂ : node ∉ l₂ := fun hn => hnode (List.mem_append_right l₁ hn)
  have hprev_ne : (s.nodes node).prev ≠ some node := fun he => hnode₁ (List.mem_of_getLast? (hprev.symm.trans he))
  have hnext_ne : (s.nodes node).next ≠ some node := fun he => hnode₂ (List.mem_of_head? (hnext.symm.trans he))
  have hne : ∀ n ∈ l₁ ++ l₂, n ≠ node := fun n hn => ne_of_mem_of_not_mem hn hnode
  obtain ⟨s', hs', hself, hothers, hlists⟩ : ∃ s', listDelete s list node = .ok s' ∧
      s'.nodes node = ⟨none, none, (s.nodes node).value, none⟩ ∧
      (∀ n, n ≠ node → s'.nodes n = { s.nodes n with
        next := if (s.nodes node).prev = some n then (s.nodes node).next else (s.nodes n).next
        prev := if (s.nodes node).next = some n then (s.nodes node).prev else (s.nodes n).prev }) ∧
      s'.lists = Function.update s.lists list
        ⟨if (s.lists list).head = some node then (s.nodes node).next else (s.lists list).head,
          if (s.lists list).tail = some node then (s.nodes node).prev else (s.lists list).tail,
          (s.lists list).length - 1#32⟩ :=
    ⟨_, listDelete_eq (h.owner node (by simp)) hprev_ne hnext_ne, if_pos rfl, fun n hn => if_neg hn, rfl⟩
  refine ⟨s', hs', ⟨hnodup, ?_, ?_, ?_, ?_, fun n hn => ?_⟩, ⟨⟨fun n hn => ?_, fun l hl => ?_⟩, fun n => ?_⟩, ?_,
    fun n hn => ?_⟩
  · -- the head
    rw [hlists, Function.update_self, h.head, hnext]
    cases l₁ with
    | nil => exact if_pos rfl
    | cons c l₁ =>
      have hc : some c ≠ some node := fun he => hnode₁ (Option.some.inj he ▸ List.mem_cons_self)
      exact if_neg hc
  · -- the tail
    rw [hlists, Function.update_self, h.tail, hprev, List.getLast?_append, List.getLast?_append]
    cases l₂ with
    | nil =>
      rw [List.getLast?_singleton, Option.some_or, List.getLast?_nil, Option.none_or]
      exact if_pos rfl
    | cons c l₂ =>
      have hc : (c :: l₂).getLast? ≠ some node := fun he => hnode₂ (List.mem_of_getLast? he)
      have hsome : (c :: l₂).getLast? = some ((c :: l₂).getLast (List.cons_ne_nil c l₂)) :=
        List.getLast?_eq_some_getLast (List.cons_ne_nil c l₂)
      rw [List.getLast?_cons_cons, hsome, Option.some_or, ← hsome]
      exact if_neg hc
  · have hlength : (l₁ ++ node :: l₂).length = (l₁ ++ l₂).length + 1 := List.perm_middle.length_eq
    rw [hlists, Function.update_self]
    show (s.lists list).length - 1#32 = _
    rw [h.length, hlength, BitVec.ofNat_add]
    exact BitVec.add_sub_cancel _ _
  · refine h.linked.remove h.nodup (fun c _ => nofun) (fun c hc => ?_) (fun c hc => ?_)
    · rw [hothers c (hne c hc)]
    · rw [hothers c (hne c hc)]
  · rw [hothers n (hne n hn)]
    exact h.owner n (List.perm_middle.mem_iff.2 (List.mem_cons_of_mem node hn))
  · -- a node that is not in the list is no neighbour either
    have hn₁ : l₁.getLast? ≠ some n := fun he => hn (List.mem_append_left _ (List.mem_of_getLast? he))
    have hn₂ : l₂.head? ≠ some n := fun he =>
      hn (List.mem_append_right _ (List.mem_cons_of_mem node (List.mem_of_head? he)))
    have hnn : n ≠ node := fun he => hn (he ▸ List.mem_append_right _ List.mem_cons_self)
    rw [hothers n hnn, hprev, hnext, if_neg hn₁, if_neg hn₂]
  · rw [hlists, Function.update_of_ne hl]
  · by_cases hn : n = node
    · rw [hn, hself]
    · rw [hothers n hn]
  · rw [hself]
  · rw [hothers n hn]

theorem setNode_of_ne {f : Node → Node} {n : Addr} (h : n ≠ node) : (s.setNode node f).nodes n = s.nodes n :=
  Function.update_of_ne h ..

theorem setNode_self {f : Node → Node} : (s.setNode node f).nodes node = f (s.nodes node) := Function.update_self ..

/-- A node that is not in the list. -/
theorem IsList.setNode {f : Node → Node} (h : IsList s list ns) (hnode : node ∉ ns) :
    IsList (s.setNode node f) list ns := by
  have hold : ∀ n ∈ ns, (s.setNode node f).nodes n = s.nodes n := fun n hn =>
    setNode_of_ne (ne_of_mem_of_not_mem hn hnode)
  refine ⟨h.nodup, h.head, h.tail, h.length, h.linked.congr (fun n hn => ?_) (fun n hn => ?_), fun n hn => ?_⟩
  · rw [hold n hn]
  · rw [hold n hn]
  · rw [hold n hn]
    exact h.owner n hn

/-- **`list_insert`** adds a node at the end. The heap gives a node that is not in the list. -/
theorem listInsert_ok (h : IsList s list ns) (hnode : node ∉ ns) :
    ∃ s', listInsert s (some list) (some v) (some node) = .ok (node, s') ∧ IsList s' list (ns ++ [node]) ∧
      s'.values (ns ++ [node]) = s.values ns ++ [some v] ∧ ChangesOnly s list (ns ++ [node]) s' := by
  -- the node from the heap
  generalize hu : (s.setNode node fun _ => { emptyNode with value := some v }) = u
  have hlist : IsList u list ns := hu ▸ h.setNode hnode
  have hnew : u.nodes node = { emptyNode with value := some v } := hu ▸ setNode_self
  have hold : ∀ n, n ≠ node → u.nodes n = s.nodes n := fun n hn => hu ▸ setNode_of_ne hn
  obtain ⟨s', happend, hlist, hsame, -⟩ := listAppend_ok hlist (congrArg Node.owner hnew) fun _ => congrArg Node.next hnew
  refine ⟨s', ?_, hlist, ?_, fun n hn => ?_, fun l hl => (hsame.lists l hl).trans (hu ▸ rfl)⟩
  · simp only [listInsert, hu, happend, ok_bind]
    rfl
  · rw [values_congr fun n _ => hsame.value n, ListMemory.values, List.map_append, List.map_singleton, hnew]
    exact congrArg (· ++ [some v]) (values_congr fun n hn => by rw [hold n (ne_of_mem_of_not_mem hn hnode)])
  · rw [hsame.nodes n hn, hold n fun he => hn (he ▸ List.mem_append_right ns (List.mem_singleton_self n))]

/-- **`list_dequeue`** takes the first node of a list that has one. -/
theorem listDequeue_ok (h : IsList s list (node :: ns)) :
    ∃ s', listDequeue s (some list) = .ok ((s.nodes node).value, s') ∧ IsList s' list ns ∧
      s'.values ns = s.values ns := by
  obtain ⟨s', hdelete, hlist, hsame, -⟩ := listDelete_ok [] h
  refine ⟨s', ?_, hlist, values_congr fun n _ => hsame.value n⟩
  have hhead : (s.lists list).head = some node := h.head
  simp only [listDequeue, hhead, hdelete, ok_bind, hsame.value]
  rfl

end Queue

end Myunix.Lists
