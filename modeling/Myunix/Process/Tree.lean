import Myunix.Lists
import Myunix.Process.Pid

/-!
# The tree of processes (`tree.c`, `process.c`)

Each process has a node in a tree. A node has a list of its children and a pointer to its parent, and `process_destroy`
takes a node out of its parent's list. But `tree_node_insert_child` only puts the node into the list: the pointer to the
parent stays `NULL`. `process_tree_iff` says what is left of the tree: the lists are right, no node but the root is well
formed, and `process_destroy` never returns.
-/

namespace Myunix.Process.Tree

open Lib Myunix.Lists

/-! ## The functions -/

/-- `tree_node_t`. -/
structure TreeNode where
  value : Option Addr
  children : Option Addr
  parent : Option Addr
deriving DecidableEq, Repr

/-- `process_t`, as far as the tree goes. -/
structure TreeProcess where
  pid : Word
  ptreeNode : Option Addr
deriving DecidableEq, Repr

/-- `ptree`, the processes, and what has been allocated for them. -/
structure Ptree where
  lists : ListMemory
  nodes : Addr → TreeNode
  procs : Addr → TreeProcess
  root : Addr
  pids : Pids
  /-- The processes that have been created and not destroyed. -/
  live : List Addr
  /-- The nodes of the tree; they are never freed. -/
  created : List Addr
  /-- The nodes of the lists of children that have been allocated and not freed. -/
  cells : List Addr

/-- What the heap returns in `ptree_new_node`: for the node, its list of children, and the node of its parent's list. -/
structure TreeAlloc where
  treeNode : Option Addr
  list : Option Addr
  cell : Option Addr
deriving DecidableEq, Repr

/-- `tree_node_new`. -/
def treeNodeNew (x : Ptree) (a : TreeAlloc) : Kernel (Option Addr × Ptree) :=
  match a.treeNode with
  | none => return (none, x)
  | some v => do
    let (children, lists) ← listInit x.lists a.list
    return (some v, { x with lists := lists, nodes := Function.update x.nodes v ⟨none, some children, none⟩ })

/-- `tree_node_insert_child`. -/
def treeNodeInsertChild (x : Ptree) (parent : Option Addr) (node : Addr) (a : TreeAlloc) : Kernel Ptree :=
  match parent with
  | none => throw .pageFault
  | some parent => do
    let (_, lists) ← listInsert x.lists (x.nodes parent).children (some node) a.cell
    return { x with lists := lists }

/-- `tree_node_delete_child`. -/
def treeNodeDeleteChild (x : Ptree) (parent : Option Addr) (node : Addr) : Kernel Ptree :=
  match parent with
  | none => throw .pageFault
  | some parent =>
    match (x.nodes parent).children with
    | none => throw .pageFault
    | some list => do
      let lists ← listRemove x.lists list (some node)
      return { x with lists := lists }

/-- `ptree_new_node`. -/
def ptreeNewNode (x : Ptree) (parent : Option Addr) (process : Addr) (a : TreeAlloc) : Kernel (Addr × Ptree) := do
  let (v, x) ← treeNodeNew x a
  match v, parent with
  | none, _ => throw .assertion
  | some _, none => throw .pageFault
  | some v, some parent =>
    let x := { x with nodes := Function.update x.nodes v { x.nodes v with value := some process } }
    match (x.nodes parent).value with
    | none => throw .pageFault
    | some p =>
      let x ← treeNodeInsertChild x (x.procs p).ptreeNode v a
      return (v, x)

/-- `process_clone`, as far as ids and the tree go; `child` is what the heap returned for the process. -/
def processClone (x : Ptree) (oldproc child : Addr) (a : TreeAlloc) : Kernel Ptree := do
  let x := { x with procs := Function.update x.procs child ⟨0#32, none⟩ }
  let (pid, pids) ← getPid x.pids
  let x := { x with pids := pids }
  let (v, x) ← ptreeNewNode x (x.procs oldproc).ptreeNode child a
  return { x with
    procs := Function.update x.procs child ⟨pid, some v⟩
    live := child :: x.live
    created := v :: x.created
    cells := a.cell.toList ++ x.cells }

/-- `process_destroy`, as far as ids and the tree go. -/
def processDestroy (x : Ptree) (process : Addr) : Kernel Ptree := do
  let pids ← destroyPid x.pids (x.procs process).pid
  match (x.procs process).ptreeNode with
  | none => throw .pageFault
  | some node =>
    let x ← treeNodeDeleteChild { x with pids := pids } (x.nodes node).parent node
    return { x with
      live := x.live.erase process
      cells := x.cells.filter fun c => (x.lists.nodes c).owner ≠ none }

/-- The tree after `process_init` and `process_spawn_init`: the root, with the list of its children, is the node of the
first process. -/
def ptreeStart (x : Ptree) (list init : Addr) : Ptree :=
  { x with
    lists := x.lists.setList list fun _ => ⟨none, none, 0#32⟩
    nodes := Function.update x.nodes x.root ⟨some init, some list, none⟩
    procs := Function.update x.procs init ⟨1#32, some x.root⟩
    live := [init]
    created := [x.root]
    cells := [] }

/-! ## Runs -/

/-- A process is cloned or destroyed. -/
inductive TreeOp
  | clone (oldproc child : Addr) (a : TreeAlloc)
  | destroy (process : Addr)
deriving DecidableEq, Repr

/-- Whether the operation is a clone. -/
def TreeOp.isClone : TreeOp → Bool
  | .clone .. => true
  | .destroy _ => false

/-- One operation. -/
def treeStep (x : Ptree) : TreeOp → Kernel Ptree
  | .clone oldproc child a => processClone x oldproc child a
  | .destroy process => processDestroy x process

/-- Processes that are alive are cloned and destroyed, and the heap gives out addresses that are not in use. -/
def TreeLegal (x : Ptree) : TreeOp → Prop
  | .clone oldproc child a =>
    oldproc ∈ x.live ∧ child ∉ x.live ∧ (∀ v, a.treeNode = some v → v ∉ x.created) ∧
      (∀ l, a.list = some l → ∀ n ∈ x.created, (x.nodes n).children ≠ some l) ∧ ∀ c, a.cell = some c → c ∉ x.cells
  | .destroy process => process ∈ x.live

/-- The children of `n` are `cs`. -/
def Children (x : Ptree) (n : Addr) (cs : List Addr) : Prop :=
  ∃ list cells, (x.nodes n).children = some list ∧ IsList x.lists list cells ∧ x.lists.values cells = cs.map some

/-- `n` is in the list of `q` once, and in no other one. -/
def OnlyChildOf (x : Ptree) (q n : Addr) : Prop :=
  (∃ cs, Children x q cs ∧ cs.count n = 1) ∧ ∀ q' ∈ x.created, ∀ cs, Children x q' cs → n ∈ cs → q' = q

/-- The parent of each node is the one whose list it is in. -/
def TreeWellFormed (x : Ptree) : Prop :=
  ∀ p ∈ x.live, ∀ n, (x.procs p).ptreeNode = some n → n ≠ x.root →
    ∃ q ∈ x.created, (x.nodes n).parent = some q ∧ OnlyChildOf x q n

/-- `process_destroy` takes the node of the process out of its parent's list and changes nothing else. -/
def DestroyRemoves (x : Ptree) (p : Addr) : Prop :=
  ∃ x' n q, processDestroy x p = .ok x' ∧ (x.procs p).ptreeNode = some n ∧ (x.nodes n).parent = some q ∧
    ∀ m ∈ x.created, (x'.nodes m).parent = (x.nodes m).parent ∧
      ∀ cs, Children x m cs → Children x' m (if m = q then cs.erase n else cs)

/-- What the tree is for. -/
def TreeGood (x : Ptree) : Prop :=
  TreeWellFormed x ∧ ∀ p ∈ x.live, (x.procs p).pid ≠ 1#32 →
    (∀ n, (x.procs p).ptreeNode = some n → Children x n []) → DestroyRemoves x p

/-! ## What holds -/

/-- **The invariant**: each node has its children in a list of its own, no node has a parent, and no process has been
destroyed. -/
structure TreeSound (x : Ptree) (cells cs : Addr → List Addr) : Prop where
  children : ∀ n ∈ x.created, ∃ list, (x.nodes n).children = some list ∧ IsList x.lists list (cells n) ∧
    x.lists.values (cells n) = (cs n).map some
  listsApart : ∀ n ∈ x.created, ∀ m ∈ x.created, (x.nodes n).children = (x.nodes m).children → n = m
  cellsApart : ∀ n ∈ x.created, ∀ m ∈ x.created, n ≠ m → ∀ c ∈ cells n, c ∉ cells m
  used : ∀ n ∈ x.created, ∀ c ∈ cells n, c ∈ x.cells
  parent : ∀ n ∈ x.created, (x.nodes n).parent = none
  procs : ∀ p ∈ x.live, ∃ n ∈ x.created, (x.procs p).ptreeNode = some n ∧ (x.nodes n).value = some p
  owner : ∀ n ∈ x.created, ∃ p ∈ x.live, (x.procs p).ptreeNode = some n
  nodup : x.created.Nodup
  root : x.root ∈ x.created
  known : ∀ q ∈ x.created, ∀ n ∈ cs q, n ∈ x.created
  once : ∀ n ∈ x.created, n ≠ x.root → ∃ q ∈ x.created, (cs q).count n = 1 ∧ ∀ q' ∈ x.created, n ∈ cs q' → q' = q

section Step

variable {x x' : Ptree} {cells cs : Addr → List Addr}

/-- The root alone. -/
theorem ptreeStart_sound (x : Ptree) (list init : Addr) :
    TreeSound (ptreeStart x list init) (fun _ => []) (fun _ => []) where
  children n hn := by
    rw [List.mem_singleton.1 hn]
    refine ⟨list, by simp [ptreeStart], ⟨List.nodup_nil, ?_, ?_, ?_, trivial, by simp⟩, rfl⟩
    · simp [ptreeStart, ListMemory.setList]
    · simp [ptreeStart, ListMemory.setList]
    · simp [ptreeStart, ListMemory.setList]
  listsApart n hn m hm _ := (List.mem_singleton.1 hn).trans (List.mem_singleton.1 hm).symm
  cellsApart _ _ _ _ _ c hc := absurd hc List.not_mem_nil
  used _ _ c hc := absurd hc List.not_mem_nil
  parent n hn := by
    rw [List.mem_singleton.1 hn]
    simp [ptreeStart]
  procs p hp := by
    rw [List.mem_singleton.1 hp]
    exact ⟨x.root, List.mem_singleton.2 rfl, by simp [ptreeStart], by simp [ptreeStart]⟩
  owner n hn := by
    rw [List.mem_singleton.1 hn]
    exact ⟨init, List.mem_singleton.2 rfl, by simp [ptreeStart]⟩
  nodup := List.nodup_singleton _
  root := List.mem_singleton.2 rfl
  known _ _ n hn := absurd hn List.not_mem_nil
  once n hn hroot := absurd (List.mem_singleton.1 hn) hroot

/-- No node has a parent, so `process_destroy` follows a `NULL` pointer. -/
theorem processDestroy_stops (h : TreeSound x cells cs) {p : Addr} (hp : p ∈ x.live) :
    processDestroy x p ≠ .ok x' := by
  intro hrun
  obtain ⟨n, hn, hnode, -⟩ := h.procs p hp
  simp only [processDestroy, bind_eq_ok, hnode, h.parent n hn, treeNodeDeleteChild, throw_ne_ok] at hrun
  obtain ⟨-, -, -, hfalse, -⟩ := hrun
  exact hfalse

/-! ### A new node

Of the lists of cells and of the lists of children, the one of `q` gets one entry more, and the new node `v` has an
empty one. -/

/-- The lists `f` with `d` at the end of the one of `q`, and an empty one for `v`. -/
def grown (f : Addr → List Addr) (q d v : Addr) : Addr → List Addr :=
  Function.update (Function.update f q (f q ++ [d])) v []

section Grown

variable {f : Addr → List Addr} {q d v n m : Addr} {D E : List Addr}

theorem grown_new : grown f q d v v = [] := Function.update_self ..

theorem grown_parent (hq : q ≠ v) : grown f q d v q = f q ++ [d] := by
  rw [grown, Function.update_of_ne hq, Function.update_self]

theorem grown_of_ne (hn : n ≠ v) (hnq : n ≠ q) : grown f q d v n = f n := by
  rw [grown, Function.update_of_ne hn, Function.update_of_ne hnq]

theorem mem_grown (hn : n ≠ v) : m ∈ grown f q d v n ↔ m = d ∧ n = q ∨ m ∈ f n := by
  by_cases hnq : n = q
  · subst hnq
    rw [grown_parent hn, List.mem_append, List.mem_singleton]
    tauto
  · rw [grown_of_ne hn hnq]
    tauto

theorem count_grown (hn : n ≠ v) (hm : m ≠ d) : (grown f q d v n).count m = (f n).count m := by
  by_cases hnq : n = q
  · subst hnq
    rw [grown_parent hn, List.count_append, List.count_eq_zero_of_not_mem (List.mem_singleton.not.2 hm), Nat.add_zero]
  · rw [grown_of_ne hn hnq]

/-- Only `d` is new in the lists. -/
theorem grown_known (hv : v ∉ D) (h : ∀ n ∈ D, ∀ m ∈ f n, m ∈ E) :
    ∀ n ∈ v :: D, ∀ m ∈ grown f q d v n, m ∈ d :: E := by
  intro n hn m hm
  rcases hn with _ | ⟨_, hn⟩
  · rw [grown_new] at hm
    cases hm
  · rcases (mem_grown (ne_of_mem_of_not_mem hn hv)).1 hm with ⟨rfl, -⟩ | hm
    · exact List.mem_cons_self
    · exact List.mem_cons_of_mem d (h n hn m hm)

/-- Lists without a common entry stay so. -/
theorem grown_apart (hv : v ∉ D) (hd : ∀ n ∈ D, d ∉ f n)
    (h : ∀ n ∈ D, ∀ m ∈ D, n ≠ m → ∀ c ∈ f n, c ∉ f m) :
    ∀ n ∈ v :: D, ∀ m ∈ v :: D, n ≠ m → ∀ c ∈ grown f q d v n, c ∉ grown f q d v m := by
  intro n hn m hm hnm c hc hc'
  rcases hn with _ | ⟨_, hn⟩
  · rw [grown_new] at hc
    cases hc
  rcases hm with _ | ⟨_, hm⟩
  · rw [grown_new] at hc'
    cases hc'
  rw [mem_grown (ne_of_mem_of_not_mem hn hv)] at hc
  rw [mem_grown (ne_of_mem_of_not_mem hm hv)] at hc'
  rcases hc with ⟨rfl, rfl⟩ | hc
  · rcases hc' with ⟨-, rfl⟩ | hc'
    · exact hnm rfl
    · exact hd m hm hc'
  · rcases hc' with ⟨rfl, -⟩ | hc'
    · exact hd n hn hc
    · exact h n hn m hm hnm c hc hc'

/-- The new node is in the list of `q` alone. -/
theorem grown_once_new (hq : q ∈ D) (hv : v ∉ D) (hf : ∀ n ∈ D, v ∉ f n) :
    (grown f q v v q).count v = 1 ∧ ∀ r ∈ v :: D, v ∈ grown f q v v r → r = q := by
  refine ⟨?_, fun r hr hmem => ?_⟩
  · rw [grown_parent (ne_of_mem_of_not_mem hq hv), List.count_append, List.count_eq_zero_of_not_mem (hf q hq),
      List.count_singleton_self]
  · rcases hr with _ | ⟨_, hr⟩
    · rw [grown_new] at hmem
      cases hmem
    · rcases (mem_grown (ne_of_mem_of_not_mem hr hv)).1 hmem with ⟨-, rfl⟩ | hmem
      · rfl
      · exact absurd hmem (hf r hr)

/-- An old node is in the list that it was in. -/
theorem grown_once_old (hv : v ∉ D) (hr : m ∈ D) (hn : n ≠ v) (hcount : (f m).count n = 1)
    (honly : ∀ r ∈ D, n ∈ f r → r = m) :
    (grown f q v v m).count n = 1 ∧ ∀ r ∈ v :: D, n ∈ grown f q v v r → r = m := by
  refine ⟨(count_grown (ne_of_mem_of_not_mem hr hv) hn).trans hcount, fun r hr hmem => ?_⟩
  rcases hr with _ | ⟨_, hr⟩
  · rw [grown_new] at hmem
    cases hmem
  · rcases (mem_grown (ne_of_mem_of_not_mem hr hv)).1 hmem with ⟨rfl, -⟩ | hmem
    · exact absurd rfl hn
    · exact honly r hr hmem

end Grown

/-- After the new node has been put into the list of `q`, each node has its children in its list. -/
theorem TreeSound.insert_children {q v l c list : Addr} {lists : ListMemory} {node : TreeNode} (h : TreeSound x cells cs)
    (hq : q ∈ x.created) (hv : v ∉ x.created) (hl : ∀ n ∈ x.created, (x.nodes n).children ≠ some l)
    (hc : c ∉ x.cells) (hlist : (x.nodes q).children = some list) (hnode : node.children = some l)
    (hinsert : IsList lists list (cells q ++ [c]) ∧ lists.values (cells q ++ [c]) = (cs q ++ [v]).map some)
    (hempty : IsList lists l [])
    (hothers : ∀ list' ns, list' ≠ list → list' ≠ l → (∀ n ∈ ns, n ∉ cells q ++ [c]) → IsList x.lists list' ns →
      IsList lists list' ns ∧ lists.values ns = x.lists.values ns) :
    ∀ n ∈ v :: x.created, ∃ list', (Function.update x.nodes v node n).children = some list' ∧
      IsList lists list' (grown cells q c v n) ∧
        lists.values (grown cells q c v n) = (grown cs q v v n).map some := by
  intro n hn
  rcases hn with _ | ⟨_, hn⟩
  · rw [grown_new, grown_new, Function.update_self]
    exact ⟨l, hnode, hempty, rfl⟩
  have hnv : n ≠ v := ne_of_mem_of_not_mem hn hv
  rw [Function.update_of_ne hnv]
  by_cases hnq : n = q
  · rw [hnq] at hnv
    rw [hnq, grown_parent hnv, grown_parent hnv]
    exact ⟨list, hlist, hinsert⟩
  rw [grown_of_ne hnv hnq, grown_of_ne hnv hnq]
  obtain ⟨list', hlist', hisList, hvalues⟩ := h.children n hn
  have hne : list' ≠ list := by
    rintro rfl
    exact hnq (h.listsApart n hn q hq (hlist'.trans hlist.symm))
  have hne' : list' ≠ l := by
    rintro rfl
    exact hl n hn hlist'
  have hdisj : ∀ m ∈ cells n, m ∉ cells q ++ [c] := by
    intro m hm hmem
    rcases List.mem_append.1 hmem with hmem | hmem
    · exact h.cellsApart n hn q hq hnq m hm hmem
    · rw [List.mem_singleton.1 hmem] at hm
      exact hc (h.used n hn c hm)
  obtain ⟨hisList', hvalues'⟩ := hothers list' (cells n) hne hne' hdisj hisList
  exact ⟨list', hlist', hisList', hvalues'.trans hvalues⟩

/-- The new node has a list of its own. -/
theorem TreeSound.insert_listsApart {v l : Addr} {node : TreeNode} (h : TreeSound x cells cs) (hv : v ∉ x.created)
    (hl : ∀ n ∈ x.created, (x.nodes n).children ≠ some l) (hnode : node.children = some l) :
    ∀ n ∈ v :: x.created, ∀ m ∈ v :: x.created,
      (Function.update x.nodes v node n).children = (Function.update x.nodes v node m).children → n = m := by
  have hold : ∀ n ∈ x.created, Function.update x.nodes v node n = x.nodes n :=
    fun n hn => Function.update_of_ne (ne_of_mem_of_not_mem hn hv) ..
  intro n hn m hm heq
  rcases hn with _ | ⟨_, hn⟩
  · rcases hm with _ | ⟨_, hm⟩
    · rfl
    · rw [Function.update_self, hold m hm, hnode] at heq
      exact absurd heq.symm (hl m hm)
  · rcases hm with _ | ⟨_, hm⟩
    · rw [Function.update_self, hold n hn, hnode] at heq
      exact absurd heq (hl n hn)
    · rw [hold n hn, hold m hm] at heq
      exact h.listsApart n hn m hm heq

/-- A new node `v`, with an empty list, as the last child of `q`. -/
theorem TreeSound.insert {q v l c child list : Addr} {lists : ListMemory} (h : TreeSound x cells cs) (pid : Word)
    (pids : Pids) (hq : q ∈ x.created) (hv : v ∉ x.created)
    (hl : ∀ n ∈ x.created, (x.nodes n).children ≠ some l) (hc : c ∉ x.cells) (hchild : child ∉ x.live)
    (hlist : (x.nodes q).children = some list)
    (hinsert : IsList lists list (cells q ++ [c]) ∧ lists.values (cells q ++ [c]) = (cs q ++ [v]).map some)
    (hempty : IsList lists l [])
    (hothers : ∀ list' ns, list' ≠ list → list' ≠ l → (∀ n ∈ ns, n ∉ cells q ++ [c]) → IsList x.lists list' ns →
      IsList lists list' ns ∧ lists.values ns = x.lists.values ns) :
    TreeSound
      { x with
        lists := lists
        nodes := Function.update x.nodes v ⟨some child, some l, none⟩
        pids := pids
        procs := Function.update x.procs child ⟨pid, some v⟩
        live := child :: x.live
        created := v :: x.created
        cells := c :: x.cells }
      (grown cells q c v) (grown cs q v v) := by
  have hold : ∀ n ∈ x.created, n ≠ v := fun n hn => ne_of_mem_of_not_mem hn hv
  have hlive : ∀ p ∈ x.live, p ≠ child := fun p hp => ne_of_mem_of_not_mem hp hchild
  have hvcs : ∀ n ∈ x.created, v ∉ cs n := fun n hn hmem => hv (h.known n hn v hmem)
  have hccells : ∀ n ∈ x.created, c ∉ cells n := fun n hn hmem => hc (h.used n hn c hmem)
  refine ⟨h.insert_children hq hv hl hc hlist rfl hinsert hempty hothers, h.insert_listsApart hv hl rfl,
    grown_apart hv hccells h.cellsApart, grown_known hv h.used, ?_, ?_, ?_, List.nodup_cons.2 ⟨hv, h.nodup⟩,
    List.mem_cons_of_mem v h.root, grown_known hv h.known, ?_⟩
  · intro n hn
    rcases hn with _ | ⟨_, hn⟩
    · simp
    · simp only [Function.update_of_ne (hold n hn)]
      exact h.parent n hn
  · intro p hp
    rcases hp with _ | ⟨_, hp⟩
    · exact ⟨v, List.mem_cons_self, by simp, by simp⟩
    · obtain ⟨n, hn, hnode, hvalue⟩ := h.procs p hp
      refine ⟨n, List.mem_cons_of_mem v hn, ?_, ?_⟩
      · simpa only [Function.update_of_ne (hlive p hp)] using hnode
      · simpa only [Function.update_of_ne (hold n hn)] using hvalue
  · intro n hn
    rcases hn with _ | ⟨_, hn⟩
    · exact ⟨child, List.mem_cons_self, by simp⟩
    · obtain ⟨p, hp, hnode⟩ := h.owner n hn
      refine ⟨p, List.mem_cons_of_mem child hp, ?_⟩
      simpa only [Function.update_of_ne (hlive p hp)] using hnode
  · intro n hn hroot
    rcases hn with _ | ⟨_, hn⟩
    · exact ⟨q, List.mem_cons_of_mem v hq, grown_once_new hq hv hvcs⟩
    · obtain ⟨r, hr, hcount, honly⟩ := h.once n hn hroot
      exact ⟨r, List.mem_cons_of_mem v hr, grown_once_old hv hr (hold n hn) hcount honly⟩

/-- What `ptree_new_node` does when it returns; `q` is the node of the process `p`. -/
theorem ptreeNewNode_inv {q p process v : Addr} {a : TreeAlloc}
    (hrun : ptreeNewNode x (some q) process a = .ok (v, x')) (hvalue : (x.nodes q).value = some p)
    (hptree : (x.procs p).ptreeNode = some q) (hnew : ∀ v, a.treeNode = some v → q ≠ v) :
    ∃ l c lists, a.treeNode = some v ∧ a.list = some l ∧ a.cell = some c ∧
      (∃ c', listInsert (x.lists.setList l fun _ => ⟨none, none, 0#32⟩) (x.nodes q).children (some v) (some c) =
        .ok (c', lists)) ∧
      x' = { x with lists := lists, nodes := Function.update x.nodes v ⟨some process, some l, none⟩ } := by
  simp only [ptreeNewNode, treeNodeNew, bind_eq_ok, Prod.exists] at hrun
  obtain ⟨v', x₁, hnode, hrun⟩ := hrun
  cases hv : a.treeNode with
  | none =>
    simp only [hv, pure_eq_ok, Prod.mk.injEq] at hnode
    obtain ⟨rfl, rfl⟩ := hnode
    simp at hrun
  | some w =>
    have hqw := hnew w hv
    simp only [hv, bind_eq_ok, Prod.exists, pure_eq_ok, Prod.mk.injEq] at hnode
    obtain ⟨l', lists', hinit, rfl, rfl⟩ := hnode
    cases hl : a.list with
    | none => simp [hl, listInit] at hinit
    | some l =>
      simp only [hl, listInit, pure_eq_ok, Prod.mk.injEq] at hinit
      obtain ⟨rfl, rfl⟩ := hinit
      simp only [Function.update_of_ne hqw, Function.update_self, Function.update_idem, hvalue, hptree,
        treeNodeInsertChild, bind_eq_ok, pure_eq_ok, Prod.mk.injEq] at hrun
      obtain ⟨x₂, ⟨⟨c', lists⟩, hinsert, rfl⟩, rfl, rfl⟩ := hrun
      cases hc : a.cell with
      | none => simp [hc, listInsert] at hinsert
      | some c =>
        rw [hc] at hinsert
        exact ⟨l, c, lists, rfl, rfl, rfl, ⟨c', hinsert⟩, rfl⟩

/-- **`process_clone`** puts the new node into one list, that of the process cloned. -/
theorem processClone_sound {oldproc child : Addr} {a : TreeAlloc} (h : TreeSound x cells cs)
    (hl : TreeLegal x (.clone oldproc child a)) (hrun : processClone x oldproc child a = .ok x') :
    (∃ cells' cs', TreeSound x' cells' cs') ∧ ∃ v, x'.created = v :: x.created := by
  obtain ⟨hold, hchild, hnode, hlist, hcell⟩ := hl
  obtain ⟨q, hq, hptree, hvalue⟩ := h.procs oldproc hold
  have hne : oldproc ≠ child := ne_of_mem_of_not_mem hold hchild
  simp only [processClone, bind_eq_ok, Prod.exists, Function.update_of_ne hne, hptree, pure_eq_ok] at hrun
  obtain ⟨pid, pids, -, v, x₁, hnew, rfl⟩ := hrun
  obtain ⟨l, c, lists, hv, hl, hc, ⟨c', hinsert⟩, rfl⟩ := ptreeNewNode_inv hnew hvalue
    (by simpa only [Function.update_of_ne hne] using hptree) fun v hv => ne_of_mem_of_not_mem hq (hnode v hv)
  have hv := hnode v hv
  have hl := hlist l hl
  have hc' := hcell c hc
  have hqv : q ≠ v := ne_of_mem_of_not_mem hq hv
  -- the empty list of the new node leaves the other lists alone
  have hempty : ChangesOnly x.lists l [] (x.lists.setList l fun _ => ⟨none, none, 0#32⟩) :=
    ⟨fun _ _ => rfl, fun _ hne => Function.update_of_ne hne ..⟩
  obtain ⟨list, hlists, hisList, hvalues⟩ := h.children q hq
  have hlq : list ≠ l := fun he => hl q hq (he ▸ hlists)
  obtain ⟨hisList, hvalues'⟩ := hempty.isList hlq (fun _ _ => List.not_mem_nil) hisList
  have hcq : c ∉ cells q := fun hmem => hc' (h.used q hq c hmem)
  obtain ⟨lists', hinsert', hisList', hvalues₁, hchange⟩ := listInsert_ok (v := v) hisList hcq
  rw [hlists, hinsert', Except.ok.injEq, Prod.mk.injEq] at hinsert
  obtain ⟨-, rfl⟩ := hinsert
  rw [hvalues', hvalues, ← List.map_singleton, ← List.map_append] at hvalues₁
  have hnewList : IsList lists' l [] := by
    refine (hchange.isList hlq.symm (fun _ hn => absurd hn List.not_mem_nil) ⟨List.nodup_nil, ?_, ?_, ?_, trivial, ?_⟩).1
    · simp [ListMemory.setList]
    · simp [ListMemory.setList]
    · simp [ListMemory.setList]
    · simp
  have hsound := h.insert pid pids hq hv hl hc' hchild hlists ⟨hisList', hvalues₁⟩ hnewList
    fun list₁ ns hlist₁ hl₁ hns hother => by
      obtain ⟨hother₁, hvalues₂⟩ := hempty.isList hl₁ (fun _ _ => List.not_mem_nil) hother
      obtain ⟨hother₂, hvalues₃⟩ := hchange.isList hlist₁ hns hother₁
      exact ⟨hother₂, hvalues₃.trans hvalues₂⟩
  simp only [hc, Function.update_idem, Option.toList_some, List.singleton_append]
  exact ⟨⟨_, _, hsound⟩, v, rfl⟩

end Step

section Runs

variable {x x' : Ptree} {cells cs : Addr → List Addr}

/-- **One operation** that returns is a clone, and keeps the invariant. -/
theorem treeStep_sound {op : TreeOp} (h : TreeSound x cells cs) (hl : TreeLegal x op) (hrun : treeStep x op = .ok x') :
    op.isClone = true ∧ (∃ cells' cs', TreeSound x' cells' cs') ∧ ∃ v, x'.created = v :: x.created := by
  cases op with
  | clone oldproc child a => exact ⟨rfl, processClone_sound h hl hrun⟩
  | destroy process => exact absurd hrun (processDestroy_stops h hl)

/-- A run only adds nodes. -/
theorem treeRun_sound (ops : List TreeOp) : ∀ {x : Ptree} {cells cs : Addr → List Addr}, TreeSound x cells cs →
    StepsMeet treeStep TreeLegal x ops → runSteps treeStep x ops = .ok x' →
      (∀ op ∈ ops, op.isClone = true) ∧ (∃ cells' cs', TreeSound x' cells' cs') ∧
        x'.created.length = x.created.length + ops.length := by
  induction ops with
  | nil =>
    intro x cells cs h _ hrun
    rw [runSteps, Except.ok.injEq] at hrun
    subst hrun
    exact ⟨by simp, ⟨cells, cs, h⟩, rfl⟩
  | cons op ops ih =>
    intro x cells cs h hl hrun
    rw [runSteps, bind_eq_ok] at hrun
    obtain ⟨x₁, hstep, hrest⟩ := hrun
    obtain ⟨hclone, ⟨cells₁, cs₁, h₁⟩, v, hcreated⟩ := treeStep_sound h hl.1 hstep
    obtain ⟨hclones, hsound, hlength⟩ := ih h₁ (hl.2 x₁ hstep) hrest
    refine ⟨List.forall_mem_cons.2 ⟨hclone, hclones⟩, hsound, ?_⟩
    rw [hlength, hcreated, List.length_cons, List.length_cons]
    omega

/-- A node that is not the root is not well formed. -/
theorem TreeSound.not_wellFormed (h : TreeSound x cells cs) (hlength : 1 < x.created.length) : ¬ TreeWellFormed x := by
  intro hgood
  obtain ⟨n, hn, hroot⟩ : ∃ n ∈ x.created, n ≠ x.root := by
    by_contra hall
    push Not at hall
    have hnodup := h.nodup
    rw [List.eq_replicate_of_mem hall, List.nodup_replicate] at hnodup
    omega
  obtain ⟨p, hp, hnode⟩ := h.owner n hn
  obtain ⟨q, -, hparent, -⟩ := hgood p hp n hnode hroot
  rw [h.parent n hn] at hparent
  cases hparent

/-- Each node that is not the root is in one list of children, once. -/
theorem TreeSound.onlyChild (h : TreeSound x cells cs) {n : Addr} (hn : n ∈ x.created) (hroot : n ≠ x.root) :
    ∃ q ∈ x.created, OnlyChildOf x q n := by
  obtain ⟨q, hq, hcount, honly⟩ := h.once n hn hroot
  obtain ⟨list, hlist, hisList, hvalues⟩ := h.children q hq
  refine ⟨q, hq, ⟨cs q, ⟨list, cells q, hlist, hisList, hvalues⟩, hcount⟩, fun q' hq' cs' hchildren hmem => ?_⟩
  obtain ⟨list₁, cells₁, hlist₁, hisList₁, hvalues₁⟩ := hchildren
  obtain ⟨list₂, hlist₂, hisList₂, hvalues₂⟩ := h.children q' hq'
  obtain rfl : list₁ = list₂ := Option.some_inj.1 (hlist₁.symm.trans hlist₂)
  rw [hisList₁.unique hisList₂, hvalues₂] at hvalues₁
  rw [← (Option.some_injective _).list_map hvalues₁] at hmem
  exact honly q' hq' hmem

end Runs

/-- **The process tree.** In every state of a run after `process_init` and `process_spawn_init`: each node that is not
the root is in the list of one node, once; the tree is as it should be only while no process has been cloned; and
`process_destroy` does not return for any process. -/
theorem process_tree_iff (x₀ : Ptree) (list init : Addr) (ops : List TreeOp)
    (hl : StepsMeet treeStep TreeLegal (ptreeStart x₀ list init) ops) (x : Ptree)
    (hrun : runSteps treeStep (ptreeStart x₀ list init) ops = .ok x) :
    (TreeGood x ↔ ∀ op ∈ ops, op.isClone = false) ∧
      (∀ n ∈ x.created, n ≠ x.root → ∃ q ∈ x.created, OnlyChildOf x q n) ∧
      ∀ p ∈ x.live, ∀ x', processDestroy x p ≠ .ok x' := by
  obtain ⟨hclones, ⟨cells, cs, h⟩, hlength⟩ := treeRun_sound ops (ptreeStart_sound x₀ list init) hl hrun
  refine ⟨⟨fun hgood op hop => ?_, fun hnone => ?_⟩, fun n hn hroot => h.onlyChild hn hroot,
    fun p hp x' => processDestroy_stops h hp⟩
  · refine absurd hgood.1 (h.not_wellFormed ?_)
    have hpos := List.length_pos_of_mem hop
    rw [hlength]
    simp only [ptreeStart, List.length_singleton]
    omega
  · obtain rfl : ops = [] := List.eq_nil_iff_forall_not_mem.2 fun op hop => by
      simpa [hclones op hop] using hnone op hop
    rw [runSteps, Except.ok.injEq] at hrun
    subst hrun
    have hproc : (ptreeStart x₀ list init).procs init = ⟨1#32, some x₀.root⟩ := Function.update_self ..
    refine ⟨fun p hp n hnode hroot => ?_, fun p hp hpid _ => ?_⟩
    · rw [List.mem_singleton.1 hp, hproc] at hnode
      exact absurd (Option.some_inj.1 hnode).symm hroot
    · rw [List.mem_singleton.1 hp, hproc] at hpid
      exact absurd rfl hpid

/-- Memory before `process_init`. -/
def noTree : Ptree where
  lists := noLists
  nodes := fun _ => ⟨none, none, none⟩
  procs := fun _ => ⟨0#32, none⟩
  root := addrAt 0x1000#32
  pids := ⟨1#32, ⟨fun i => if i = 0 then 3#8 else 0#8, processMaxPid⟩, []⟩
  live := []
  created := []
  cells := []

/-- The first process is cloned. -/
def oneClone : List TreeOp :=
  [.clone (addrAt 0x3000#32) (addrAt 0x4000#32)
    ⟨some (addrAt 0x5000#32), some (addrAt 0x6000#32), some (addrAt 0x7000#32)⟩]

theorem oneClone_legal :
    StepsMeet treeStep TreeLegal (ptreeStart noTree (addrAt 0x2000#32) (addrAt 0x3000#32)) oneClone :=
  stepsMeet_cons ⟨by decide, by decide, by decide, by decide, by decide⟩ rfl trivial

theorem oneClone_children : ∃ x,
    runSteps treeStep (ptreeStart noTree (addrAt 0x2000#32) (addrAt 0x3000#32)) oneClone = .ok x ∧
      ∃ q ∈ x.created, OnlyChildOf x q (addrAt 0x5000#32) :=
  ⟨_, rfl, (process_tree_iff noTree _ _ oneClone oneClone_legal _ rfl).2.1 _ (by decide) (by decide)⟩

/-- After one clone the new node has no parent, and the new process cannot be destroyed. -/
theorem oneClone_no_parent :
    StepsMeet treeStep TreeLegal (ptreeStart noTree (addrAt 0x2000#32) (addrAt 0x3000#32)) oneClone ∧
    ∃ x, runSteps treeStep (ptreeStart noTree (addrAt 0x2000#32) (addrAt 0x3000#32)) oneClone = .ok x ∧
      ¬ TreeWellFormed x ∧ processDestroy x (addrAt 0x4000#32) = .error .pageFault := by
  refine ⟨oneClone_legal, _, rfl, fun hgood => ?_, rfl⟩
  obtain ⟨q, -, hparent, -⟩ := hgood (addrAt 0x4000#32) (by decide) (addrAt 0x5000#32) rfl (by decide)
  cases hparent

end Myunix.Process.Tree
