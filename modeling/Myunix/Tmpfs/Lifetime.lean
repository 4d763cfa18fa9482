import Myunix.Fs.Open
import Myunix.Lib.Census
import Myunix.Tmpfs.DirMap

/-!
# The lifetime of objects of the temporary filesystem

An object is referenced by its directory and by the nodes made for it. A node has a count of its own; when that drops
to 0, `fs_node_free` calls the node's `close`, and `tmpfs_close` gives back the reference of the object.

`fs_node_from_tmpfs` sets `close` in the nodes of directories only, so the reference that the node of a file holds is
never given back (`fileRun_leaks`). `tree_runs_balance` says that the counts are right in every run in which no node of
a file is freed; it also leaves out the removal of directories that are not empty, where `tmpfs_destroy_object` stops.
-/

namespace Myunix.Tmpfs

open Lib Fs

/-! ## The driver -/

/-- The callbacks that `fs_node_from_tmpfs` sets in a node. -/
def tmpfsInfo (n : TmpfsNode) : NodeInfo :=
  match n.flags with
  | .directory => ⟨true, false, true, true, true, false, n.object⟩
  | .file => ⟨false, false, false, false, false, false, n.object⟩

/-- The callbacks of the filesystem. `tmpfs_open` does nothing, and there is no `readlink`. -/
def tmpfsDriver : Drivers TmpfsState where
  finddir s info name := do
    let (node, s) ← tmpfsFinddir s info.object name
    return (node.map tmpfsInfo, s)
  readlink s _ := return (-1, [], s)
  opens s _ _ := return s
  closes s info := dropReference s info.object

/-- A call on a node. -/
inductive TreeOp
  | create (p : NodePtr) (name : CString)
  | mkdir (p : NodePtr) (name : CString)
  | finddir (p : NodePtr) (name : CString)
  | unlink (p : NodePtr) (name : CString)
  | reference (p : NodePtr)
  | release (p : NodePtr)

/-- The node a call is made on. -/
def TreeOp.node : TreeOp → NodePtr
  | .create p _ => p
  | .mkdir p _ => p
  | .finddir p _ => p
  | .unlink p _ => p
  | .reference p => p
  | .release p => p

/-- `fs_create`, `fs_mkdir`, `fs_finddir`, `fs_unlink`, `fs_node_reference` and `fs_node_release`. -/
def fsCall (fs : FsState TmpfsState) : TreeOp → Kernel (FsState TmpfsState)
  | .create p name =>
    if (fs.nodes p).info.directory then do
      let driver ← tmpfsCreate fs.driver (fs.nodes p).info.object name
      return { fs with driver := driver }
    else return fs
  | .mkdir p name =>
    if (fs.nodes p).info.directory then do
      let driver ← tmpfsMkdir fs.driver (fs.nodes p).info.object name
      return { fs with driver := driver }
    else return fs
  | .finddir p name => do
    let (_, fs) ← fsFinddir tmpfsDriver fs p name
    return fs
  | .unlink p name =>
    if (fs.nodes p).info.directory then do
      let (_, driver) ← tmpfsUnlink fs.driver (fs.nodes p).info.object (some name)
      return { fs with driver := driver }
    else return fs
  | .reference p => fsNodeReference fs p
  | .release p => do
    let (_, fs) ← fsNodeRelease tmpfsDriver fs p
    return fs

/-! ## Runs -/

/-- A mounted filesystem, and the objects handed to `tmpfs_destroy_object`. -/
structure Tree where
  fs : FsState TmpfsState
  destroyed : List ObjPtr

/-- The object whose count a call decrements. -/
def dropped (fs : FsState TmpfsState) : TreeOp → Option ObjPtr
  | .unlink p name =>
    if (fs.nodes p).info.directory then
      match searchChilds fs.driver name (strlen name) (fs.driver.objs (fs.nodes p).info.object).childs with
      | .ok v => v
      | .error _ => none
    else none
  | .release p =>
    if (fs.nodes p).refcount = 1 ∧ (fs.nodes p).info.hasClose then some (fs.nodes p).info.object else none
  | .create _ _ | .mkdir _ _ | .finddir _ _ | .reference _ => none

/-- The objects that a call destroys: the count that it decrements reaches 0. -/
def destroys (fs : FsState TmpfsState) (op : TreeOp) : List ObjPtr :=
  (dropped fs op).toList.filter fun o => (fs.driver.objs o).refcount - 1 = 0

/-- One call. -/
def treeStep (x : Tree) (op : TreeOp) : Kernel Tree := do
  let fs ← fsCall x.fs op
  return ⟨fs, x.destroyed ++ destroys x.fs op⟩

/-- Calls are made on nodes that have not been freed. -/
def TreeLegal (x : Tree) (op : TreeOp) : Prop := 0 < (x.fs.nodes op.node).refcount

instance (x : Tree) (op : TreeOp) : Decidable (TreeLegal x op) :=
  inferInstanceAs (Decidable (0 < (x.fs.nodes op.node).refcount))

/-- No node of a file is freed, no directory loses its last reference while there is something in it, and no count of a
node overflows. -/
def Closes (x : Tree) (op : TreeOp) : Prop :=
  (∀ p, op = .release p → (x.fs.nodes p).refcount = 1 → (x.fs.nodes p).info.directory = true) ∧
  (∀ o, dropped x.fs op = some o → (x.fs.driver.objs o).flags = .directory →
    (x.fs.driver.objs o).refcount = 1 → (x.fs.driver.objs o).childs = []) ∧
  (∀ p, op = .reference p → (x.fs.nodes p).refcount < 0x7FFFFFFF)

/-- The object is linked in a directory. -/
def linked (s : TmpfsState) (o : ObjPtr) : Bool := (List.range s.next).any fun d => decide (o ∈ (s.objs d).childs)

/-- The number of live nodes of an object. -/
def nodesOf (fs : FsState TmpfsState) (o : ObjPtr) : Nat :=
  countBelow fs.nextNode fun p => decide (0 < (fs.nodes p).refcount ∧ (fs.nodes p).info.object = o)

/-- The references to an object. -/
def references (fs : FsState TmpfsState) (o : ObjPtr) : Nat := (if linked fs.driver o then 1 else 0) + nodesOf fs o

/-- Every object but the root has as many references as it counts. If it has none it has been destroyed, once; else its
memory has not been given back. -/
def Balanced (root : ObjPtr) (x : Tree) : Prop :=
  ∀ o, o ≠ root → o < x.fs.driver.next → (x.fs.driver.objs o).refcount = references x.fs o ∧
    (x.destroyed.count o = if references x.fs o = 0 then 1 else 0) ∧
    (x.fs.driver.objs o).live = !decide (references x.fs o = 0)

/-! ## The invariant -/

/-- The directories form a forest: an object is in at most one directory, once. -/
structure Forest (root : ObjPtr) (s : TmpfsState) : Prop where
  child : ∀ d, ∀ v ∈ (s.objs d).childs, v < s.next ∧ v ≠ root ∧ v ≠ d
  nodup : ∀ d, (s.objs d).childs.Nodup
  parent : ∀ d d' v, v ∈ (s.objs d).childs → v ∈ (s.objs d').childs → d = d'
  fresh : ∀ d, s.next ≤ d → (s.objs d).childs = []

/-- A node fits the object it was made for. -/
structure NodeFits (s : TmpfsState) (info : NodeInfo) : Prop where
  object_lt : info.object < s.next
  directory : info.directory = decide ((s.objs info.object).flags = .directory)
  callbacks : info.hasClose = info.directory ∧ info.hasFinddir = info.directory

/-- **The invariant of a mounted tree.** -/
structure TreeSound (root : ObjPtr) (x : Tree) : Prop where
  forest : Forest root x.fs.driver
  leaf : ∀ d, (x.fs.driver.objs d).flags = .file → (x.fs.driver.objs d).childs = []
  nodes : ∀ p, 0 ≤ (x.fs.nodes p).refcount ∧
    (0 < (x.fs.nodes p).refcount → p < x.fs.nextNode ∧ NodeFits x.fs.driver (x.fs.nodes p).info)
  root_lt : root < x.fs.driver.next
  root_count : (x.fs.driver.objs root).refcount + 1 = nodesOf x.fs root
  root_once : nodesOf x.fs root ≤ 1
  balanced : Balanced root x
  /-- Nothing else has been destroyed. -/
  destroyed : ∀ o, o = root ∨ x.fs.driver.next ≤ o → x.destroyed.count o = 0

section Counting

variable {fs fs' : FsState TmpfsState} {s s' : TmpfsState} {o v : ObjPtr} {p : NodePtr} {root : ObjPtr}

theorem linked_iff (hfresh : ∀ d, s.next ≤ d → (s.objs d).childs = []) :
    linked s o = true ↔ ∃ d, o ∈ (s.objs d).childs := by
  simp only [linked, List.any_eq_true, List.mem_range, decide_eq_true_eq]
  constructor
  · rintro ⟨d, -, hd⟩
    exact ⟨d, hd⟩
  · rintro ⟨d, hd⟩
    refine ⟨d, ?_, hd⟩
    by_contra hlt
    simp [hfresh d (Nat.le_of_not_lt hlt)] at hd

/-- Nodes are made and freed one at a time. -/
theorem nodesOf_new (fs : FsState TmpfsState) (info : NodeInfo) (hinfo : fs'.nextNode = fs.nextNode + 1)
    (hnodes : fs'.nodes = Function.update fs.nodes fs.nextNode ⟨info, 1⟩) (o : ObjPtr) :
    nodesOf fs' o = nodesOf fs o + if info.object = o then 1 else 0 := by
  rw [nodesOf, hinfo, countBelow_succ]
  congr 1
  · apply countBelow_congr
    intro q hq
    rw [hnodes, Function.update_of_ne (Nat.ne_of_lt hq)]
  · simp [hnodes]

theorem nodesOf_free (hp : p < fs.nextNode) (hlive : 0 < (fs.nodes p).refcount) (hnext : fs'.nextNode = fs.nextNode)
    (hnodes : fs'.nodes = Function.update fs.nodes p { fs.nodes p with refcount := 0 }) (o : ObjPtr) :
    nodesOf fs' o + (if (fs.nodes p).info.object = o then 1 else 0) = nodesOf fs o := by
  have h := countBelow_update (n := fs.nextNode) (p := p)
    (P := fun q => decide (0 < (fs.nodes q).refcount ∧ (fs.nodes q).info.object = o))
    (Q := fun q => decide (0 < (fs'.nodes q).refcount ∧ (fs'.nodes q).info.object = o)) hp
    fun q hq => by rw [hnodes, Function.update_of_ne hq]
  simp only [hnodes, Function.update_self, hlive, true_and, Int.lt_irrefl, false_and, decide_false, Bool.false_eq_true,
    if_false, Nat.add_zero, decide_eq_true_eq] at h
  rw [nodesOf, hnext, hnodes]
  exact h

/-- A count that stays positive. -/
theorem nodesOf_keep {n : Int} (hlive : 0 < (fs.nodes p).refcount) (hn : 0 < n) (hnext : fs'.nextNode = fs.nextNode)
    (hnodes : fs'.nodes = Function.update fs.nodes p { fs.nodes p with refcount := n }) (o : ObjPtr) :
    nodesOf fs' o = nodesOf fs o := by
  rw [nodesOf, hnext]
  apply countBelow_congr
  intro q _
  rcases eq_or_ne q p with rfl | hq
  · simp [hnodes, hlive, hn]
  · rw [hnodes, Function.update_of_ne hq]

/-- Only what the directories hold and which nodes are live matters to the references. -/
theorem references_congr (hs : Forest root fs.driver) (hs' : Forest root fs'.driver)
    (hlinks : (∃ d, o ∈ (fs'.driver.objs d).childs) ↔ ∃ d, o ∈ (fs.driver.objs d).childs)
    (hnodes : nodesOf fs' o = nodesOf fs o) : references fs' o = references fs o := by
  have hlinked : linked fs'.driver o = linked fs.driver o := by
    rw [Bool.eq_iff_iff, linked_iff hs'.fresh, linked_iff hs.fresh, hlinks]
  rw [references, references, hlinked, hnodes]

end Counting

/-! ## Creating and looking up -/

section Calls

variable {root : ObjPtr} {x : Tree} {p : NodePtr} {s s' : TmpfsState} {dir : ObjPtr} {name : CString}
  {info : NodeInfo}

/-- The directories after an insertion: `dir` has a new child. -/
theorem Forest.insert (h : Forest root s) (hroot : root < s.next) (hdir : dir < s.next) (hnext : s'.next = s.next + 1)
    (hself : (s'.objs dir).childs = (s.objs dir).childs ++ [s.next]) (hnew : (s'.objs s.next).childs = [])
    (hold : ∀ d, d ≠ dir → d ≠ s.next → (s'.objs d).childs = (s.objs d).childs) :
    Forest root s' ∧ ∀ d v, v ∈ (s'.objs d).childs ↔ v ∈ (s.objs d).childs ∨ d = dir ∧ v = s.next := by
  have hmem : ∀ d v, v ∈ (s'.objs d).childs ↔ v ∈ (s.objs d).childs ∨ d = dir ∧ v = s.next := by
    intro d v
    rcases eq_or_ne d dir with rfl | hd
    · simp [hself]
    · rcases eq_or_ne d s.next with rfl | hd'
      · simp [hnew, h.fresh s.next (Nat.le_refl _), hd]
      · simp [hold d hd hd', hd]
  have hnot : ∀ d, s.next ∉ (s.objs d).childs := fun d hv => Nat.lt_irrefl _ (h.child d _ hv).1
  refine ⟨⟨fun d v hv => ?_, fun d => ?_, fun d d' v hv hv' => ?_, fun d hd => ?_⟩, hmem⟩
  · rw [hnext]
    rcases (hmem d v).1 hv with hv | ⟨rfl, rfl⟩
    · obtain ⟨h1, h2, h3⟩ := h.child d v hv
      exact ⟨Nat.lt_succ_of_lt h1, h2, h3⟩
    · exact ⟨Nat.lt_succ_self _, Nat.ne_of_gt hroot, Nat.ne_of_gt hdir⟩
  · rcases eq_or_ne d dir with rfl | hne
    · rw [hself]
      exact List.nodup_append.2 ⟨h.nodup d, List.nodup_singleton _, fun a ha b hb hab => by
        rw [hab, List.mem_singleton.1 hb] at ha
        exact hnot d ha⟩
    · rcases eq_or_ne d s.next with rfl | hne'
      · rw [hnew]; exact List.nodup_nil
      · rw [hold d hne hne']; exact h.nodup d
  · rcases (hmem d v).1 hv with hv | ⟨rfl, rfl⟩
    · rcases (hmem d' v).1 hv' with hv' | ⟨rfl, rfl⟩
      · exact h.parent d d' v hv hv'
      · exact absurd hv (hnot d)
    · rcases (hmem d' s.next).1 hv' with hv' | ⟨rfl, -⟩
      · exact absurd hv' (hnot d')
      · rfl
  · rw [hnext] at hd
    have hle : s.next ≤ d := Nat.le_of_succ_le hd
    rw [hold d (Nat.ne_of_gt (Nat.lt_of_lt_of_le hdir hle)) (Nat.ne_of_gt hd)]
    exact h.fresh d hle

/-- `tmpfs_create` and `tmpfs_mkdir` add a new object with one reference, or find the name taken. -/
theorem tmpfsInsert_cases (name : CString) (flags : NodeFlags) (hdir : (s.objs dir).flags = .directory)
    (hlt : dir < s.next) :
    tmpfsInsert flags s dir name = .ok s ∨ ∃ s', tmpfsInsert flags s dir name = .ok s' ∧ s'.next = s.next + 1 ∧
      s'.objs s.next = ⟨name, flags, [], [], 1, true⟩ ∧
      s'.objs dir = { s.objs dir with childs := (s.objs dir).childs ++ [s.next] } ∧
      ∀ v, v ≠ dir → v ≠ s.next → s'.objs v = s.objs v := by
  have hne : dir ≠ s.next := Nat.ne_of_lt hlt
  cases hfind : (s.objs dir).childs.find? (fun v => decide ((s.objs v).name = name)) with
  | some v => exact .inl (by simp [tmpfsInsert, hdir, searchChilds_eq, hfind, pure, Except.pure])
  | none =>
    refine .inr ⟨((tmpfsCreateObj s name flags).2.modify s.next fun obj =>
      { obj with refcount := obj.refcount + 1 }).modify dir fun obj => { obj with childs := obj.childs ++ [s.next] },
      ?_, rfl, ?_, ?_, fun v h1 h2 => ?_⟩
    · simp only [tmpfsInsert, assert_pos hdir, searchChilds_eq, hfind, ok_bind]
      rfl
    · simp [tmpfsCreateObj, hne.symm]
    · simp [tmpfsCreateObj, hne]
    · simp [tmpfsCreateObj, h1, h2]

theorem insert_sound (h : TreeSound root x) (flags : NodeFlags) (hlive : 0 < (x.fs.nodes p).refcount)
    (hp : (x.fs.nodes p).info.directory = true) (name : CString) :
    ∃ s', tmpfsInsert flags x.fs.driver (x.fs.nodes p).info.object name = .ok s' ∧
      TreeSound root ⟨{ x.fs with driver := s' }, x.destroyed⟩ := by
  have hfits := ((h.nodes p).2 hlive).2
  have hdir : (x.fs.driver.objs (x.fs.nodes p).info.object).flags = .directory := by
    simpa [hp] using hfits.directory
  obtain hsame | ⟨s', hrun, hnext, hnew, hself, hold⟩ := tmpfsInsert_cases name flags hdir hfits.object_lt
  · exact ⟨x.fs.driver, hsame, h⟩
  · refine ⟨s', hrun, ?_⟩
    have hroot : root ≠ x.fs.driver.next := Nat.ne_of_lt h.root_lt
    obtain ⟨hforest, hmem⟩ := h.forest.insert h.root_lt hfits.object_lt hnext (by rw [hself]) (by rw [hnew])
      fun d h1 h2 => by rw [hold d h1 h2]
    have hobj : ∀ v, v ≠ x.fs.driver.next → (s'.objs v).refcount = (x.fs.driver.objs v).refcount ∧
        (s'.objs v).flags = (x.fs.driver.objs v).flags ∧ (s'.objs v).live = (x.fs.driver.objs v).live := by
      intro v hv
      rcases eq_or_ne v (x.fs.nodes p).info.object with rfl | hne
      · rw [hself]; exact ⟨rfl, rfl, rfl⟩
      · rw [hold v hne hv]; exact ⟨rfl, rfl, rfl⟩
    have hrefs : ∀ v, v ≠ x.fs.driver.next →
        references { x.fs with driver := s' } v = references x.fs v := by
      intro v hv
      refine references_congr h.forest hforest ?_ rfl
      simp only [hmem, hv, and_false, or_false]
    refine ⟨hforest, fun d hd => ?_, fun q => ⟨(h.nodes q).1, fun hq => ?_⟩, ?_, ?_, h.root_once, fun o h1 h2 => ?_,
      fun o ho => ?_⟩
    · have hd : (s'.objs d).flags = .file := hd
      show (s'.objs d).childs = []
      rcases eq_or_ne d (x.fs.nodes p).info.object with rfl | hne
      · rw [hself, hdir] at hd
        cases hd
      · rcases eq_or_ne d x.fs.driver.next with rfl | hne'
        · rw [hnew]
        · rw [hold d hne hne'] at hd ⊢
          exact h.leaf d hd
    · obtain ⟨hlt, hq⟩ := (h.nodes q).2 hq
      refine ⟨hlt, ?_, ?_, hq.callbacks⟩
      · show _ < s'.next
        rw [hnext]; exact Nat.lt_succ_of_lt hq.object_lt
      · rw [(hobj _ (Nat.ne_of_lt hq.object_lt)).2.1]; exact hq.directory
    · show root < s'.next
      rw [hnext]; exact Nat.lt_succ_of_lt h.root_lt
    · show (s'.objs root).refcount + 1 = _
      rw [(hobj root hroot).1]; exact h.root_count
    · have h2 : o < s'.next := h2
      rw [hnext] at h2
      show (s'.objs o).refcount = references { x.fs with driver := s' } o ∧ (x.destroyed.count o = _) ∧
        (s'.objs o).live = !decide (references { x.fs with driver := s' } o = 0)
      rcases Nat.lt_or_eq_of_le (Nat.le_of_lt_succ h2) with hlt | rfl
      · rw [(hobj o (Nat.ne_of_lt hlt)).1, (hobj o (Nat.ne_of_lt hlt)).2.2, hrefs o (Nat.ne_of_lt hlt)]
        exact h.balanced o h1 hlt
      · -- the new object is linked, and no node has been made for it yet
        have hlinked : linked s' x.fs.driver.next = true :=
          (linked_iff hforest.fresh).2 ⟨_, (hmem _ _).2 (.inr ⟨rfl, rfl⟩)⟩
        have hnone : nodesOf x.fs x.fs.driver.next = 0 := by
          apply countBelow_eq_zero
          intro q _
          simp only [decide_eq_false_iff_not, not_and]
          intro hq
          exact Nat.ne_of_lt ((h.nodes q).2 hq).2.object_lt
        have hone : references { x.fs with driver := s' } x.fs.driver.next = 1 := by
          show (if linked s' x.fs.driver.next then 1 else 0) + nodesOf x.fs x.fs.driver.next = 1
          rw [hlinked, hnone]; rfl
        rw [hone, hnew, if_neg Nat.one_ne_zero]
        exact ⟨rfl, h.destroyed _ (.inr (Nat.le_refl _)), rfl⟩
    · refine h.destroyed o (ho.imp_right fun ho => ?_)
      have ho : s'.next ≤ o := ho
      rw [hnext] at ho
      exact Nat.le_of_succ_le ho

/-- `tmpfs_finddir` gives the first child whose name starts with `name` a new node. -/
theorem finddir_cases (name : CString) (hfits : NodeFits s info) (hdir : info.directory = true) :
    tmpfsDriver.finddir s info name = .ok (none, s) ∨ ∃ v ∈ (s.objs info.object).childs, ∃ n : TmpfsNode,
      tmpfsDriver.finddir s info name =
        .ok (some (tmpfsInfo n), s.modify v fun obj => { obj with refcount := obj.refcount + 1 }) ∧
      n.object = v ∧ n.flags = (s.objs v).flags := by
  have hflags : (s.objs info.object).flags = .directory := by simpa [hdir] using hfits.directory
  cases hfind : (s.objs info.object).childs.find? (fun v => name.bytes.isPrefixOf (s.objs v).name.bytes) with
  | none =>
    exact .inl (by simp [tmpfsDriver, tmpfsFinddir, hflags, searchChilds_prefix, hfind, pure, Except.pure])
  | some v =>
    refine .inr ⟨v, List.mem_of_find?_eq_some hfind, (fsNodeFromTmpfs s v).1, ?_, rfl, rfl⟩
    simp [tmpfsDriver, tmpfsFinddir, hflags, searchChilds_prefix, hfind, fsNodeFromTmpfs, pure, Except.pure]

theorem tmpfsInfo_fits {n : TmpfsNode} (hlt : n.object < s.next) (hflags : n.flags = (s.objs n.object).flags) :
    (tmpfsInfo n).object = n.object ∧ NodeFits s (tmpfsInfo n) := by
  have hobject : (tmpfsInfo n).object = n.object := by
    unfold tmpfsInfo
    split <;> rfl
  refine ⟨hobject, ?_⟩
  constructor
  · rw [hobject]; exact hlt
  · rw [hobject, ← hflags]
    cases hf : n.flags <;> simp [tmpfsInfo, hf]
  · cases hf : n.flags <;> simp [tmpfsInfo, hf]

theorem NodeFits.of_eq (h : NodeFits s info) (hnext : s'.next = s.next)
    (hflags : ∀ v, (s'.objs v).flags = (s.objs v).flags) : NodeFits s' info :=
  ⟨by rw [hnext]; exact h.object_lt, by rw [hflags]; exact h.directory, h.callbacks⟩

theorem Forest.of_eq (h : Forest root s) (hnext : s'.next = s.next)
    (hchilds : ∀ v, (s'.objs v).childs = (s.objs v).childs) : Forest root s' := by
  constructor
  · intro d v hv
    rw [hchilds] at hv
    rw [hnext]; exact h.child d v hv
  · intro d
    rw [hchilds]; exact h.nodup d
  · intro d d' v hv hv'
    rw [hchilds] at hv hv'
    exact h.parent d d' v hv hv'
  · intro d hd
    rw [hnext] at hd
    rw [hchilds]; exact h.fresh d hd

/-- A new node for the object `v`, which is in a directory. -/
theorem new_sound (h : TreeSound root x) {v : ObjPtr} (hv : v ∈ (x.fs.driver.objs dir).childs) {n : TmpfsNode}
    (hobject : n.object = v) (hflags : n.flags = (x.fs.driver.objs v).flags) :
    TreeSound root ⟨(fsNodeNew { x.fs with
      driver := x.fs.driver.modify v fun obj => { obj with refcount := obj.refcount + 1 } } (tmpfsInfo n)).2,
      x.destroyed⟩ := by
  subst hobject
  obtain ⟨hlt, hroot, -⟩ := h.forest.child dir _ hv
  obtain ⟨hinfo, hfits⟩ := tmpfsInfo_fits hlt hflags
  set s₁ := x.fs.driver.modify n.object fun obj => { obj with refcount := obj.refcount + 1 } with hs₁
  set fs₁ := (fsNodeNew { x.fs with driver := s₁ } (tmpfsInfo n)).2 with hfs₁
  have hobj : ∀ w, (s₁.objs w).childs = (x.fs.driver.objs w).childs ∧ (s₁.objs w).flags = (x.fs.driver.objs w).flags ∧
      (s₁.objs w).refcount = (x.fs.driver.objs w).refcount + (if n.object = w then 1 else 0) ∧
      (s₁.objs w).live = (x.fs.driver.objs w).live := by
    intro w
    rcases eq_or_ne w n.object with rfl | hw
    · simp [hs₁]
    · simp [hs₁, hw, hw.symm]
  have hforest : Forest root s₁ := h.forest.of_eq rfl fun w => (hobj w).1
  have hnodes : ∀ w, nodesOf fs₁ w = nodesOf x.fs w + if n.object = w then 1 else 0 := by
    intro w
    rw [nodesOf_new x.fs (tmpfsInfo n) rfl rfl w, hinfo]
  have hrefs : ∀ w, references fs₁ w = references x.fs w + if n.object = w then 1 else 0 := by
    intro w
    have hlinked : linked s₁ w = linked x.fs.driver w := by
      rw [Bool.eq_iff_iff, linked_iff hforest.fresh, linked_iff h.forest.fresh]
      simp only [(hobj _).1]
    show (if linked s₁ w then 1 else 0) + nodesOf fs₁ w = _
    rw [hlinked, hnodes, references, Nat.add_assoc]
  refine ⟨hforest, fun d hd => ?_, fun q => ?_, h.root_lt, ?_, ?_, fun o h1 h2 => ?_, h.destroyed⟩
  · have hd : (s₁.objs d).flags = .file := hd
    show (s₁.objs d).childs = []
    rw [(hobj d).2.1] at hd
    rw [(hobj d).1]
    exact h.leaf d hd
  · rcases eq_or_ne q x.fs.nextNode with rfl | hq
    · have hnode : fs₁.nodes x.fs.nextNode = ⟨tmpfsInfo n, 1⟩ := Function.update_self ..
      show 0 ≤ (fs₁.nodes x.fs.nextNode).refcount ∧ _
      simp only [hnode]
      exact ⟨by decide, fun _ => ⟨Nat.lt_succ_self _, hfits.of_eq rfl fun w => (hobj w).2.1⟩⟩
    · have hnode : fs₁.nodes q = x.fs.nodes q := Function.update_of_ne hq ..
      show 0 ≤ (fs₁.nodes q).refcount ∧ _
      simp only [hnode]
      refine ⟨(h.nodes q).1, fun hpos => ?_⟩
      obtain ⟨hq', hfits'⟩ := (h.nodes q).2 hpos
      exact ⟨Nat.lt_succ_of_lt hq', hfits'.of_eq rfl fun w => (hobj w).2.1⟩
  · show (s₁.objs root).refcount + 1 = nodesOf fs₁ root
    rw [(hobj root).2.2.1, hnodes]
    simpa only [hroot, if_false, Int.add_zero, Nat.add_zero] using h.root_count
  · show nodesOf fs₁ root ≤ 1
    rw [hnodes, if_neg hroot]
    exact h.root_once
  · obtain ⟨hcount, hdestroyed, hlive⟩ := h.balanced o h1 h2
    show (s₁.objs o).refcount = references fs₁ o ∧ (x.destroyed.count o = _) ∧
      (s₁.objs o).live = !decide (references fs₁ o = 0)
    rw [(hobj o).2.2.1, (hobj o).2.2.2, hrefs o, hcount, hdestroyed, hlive]
    refine ⟨by split <;> simp, ?_⟩
    rcases eq_or_ne n.object o with rfl | ho
    · -- the object is in a directory: it has not been destroyed
      have hlinked : linked x.fs.driver n.object = true := (linked_iff h.forest.fresh).2 ⟨dir, hv⟩
      have hpos : references x.fs n.object ≠ 0 := by simp [references, hlinked]
      simp [hpos]
    · rw [if_neg ho, Nat.add_zero]
      exact ⟨rfl, rfl⟩

theorem finddir_sound (h : TreeSound root x) (hlive : 0 < (x.fs.nodes p).refcount) (name : CString) :
    ∃ fs', fsCall x.fs (.finddir p name) = .ok fs' ∧ TreeSound root ⟨fs', x.destroyed⟩ := by
  have hfits := ((h.nodes p).2 hlive).2
  by_cases hp : (x.fs.nodes p).info.directory = true
  · have hfinddir : (x.fs.nodes p).info.hasFinddir = true := hfits.callbacks.2.trans hp
    obtain hrun | ⟨v, hv, n, hrun, hobject, hflags⟩ := finddir_cases name hfits hp
    · refine ⟨x.fs, ?_, h⟩
      simp only [fsCall, fsFinddir, hp, hfinddir, and_self, if_true, hrun, ok_bind]
      rfl
    · refine ⟨_, ?_, new_sound h hv hobject hflags⟩
      simp only [fsCall, fsFinddir, hp, hfinddir, and_self, if_true, hrun, ok_bind]
      rfl
  · refine ⟨x.fs, ?_, h⟩
    simp [fsCall, fsFinddir, hp, pure, Except.pure]

/-! ## Giving references back -/

/-- The object `o` has lost a reference, and its memory if it was the last one. -/
structure Loses (o : ObjPtr) (s s' : TmpfsState) : Prop where
  next : s'.next = s.next
  flags : ∀ v, (s'.objs v).flags = (s.objs v).flags
  refcount : ∀ v, (s'.objs v).refcount = (s.objs v).refcount - if o = v then 1 else 0
  live : ∀ v, (s'.objs v).live = ((s.objs v).live && !decide (o = v ∧ (s.objs o).refcount = 1))

/-- `__refcount--` on an object that has nothing in it when it is destroyed. -/
theorem dropReference_loses {o : ObjPtr} (h : (s.objs o).refcount = 1 → (s.objs o).childs = []) :
    ∃ s', dropReference s o = .ok s' ∧ Loses o s s' ∧ ∀ v, (s'.objs v).childs = (s.objs v).childs := by
  rw [dropReference]
  by_cases hlast : (s.objs o).refcount = 1
  · have hzero : ((s.modify o fun obj => { obj with refcount := obj.refcount - 1 }).objs o).refcount = 0 := by
      simp [hlast]
    have hempty : ((s.modify o fun obj => { obj with refcount := obj.refcount - 1 }).objs o).childs.length = 0 := by
      simp [h hlast]
    have hdestroy : tmpfsDestroyObject (s.modify o fun obj => { obj with refcount := obj.refcount - 1 }) o =
        .ok ((s.modify o fun obj => { obj with refcount := obj.refcount - 1 }).modify o fun obj =>
          { obj with childs := [], block := [], live := false }) := by
      rw [tmpfsDestroyObject, assert_bind hzero]
      split
      · rfl
      · rw [assert_bind hempty]
        rfl
    refine ⟨_, (if_pos hzero).trans hdestroy, ⟨rfl, fun v => ?_, fun v => ?_, fun v => ?_⟩, fun v => ?_⟩
    · rcases eq_or_ne v o with rfl | hv
      · simp
      · simp [hv]
    · rcases eq_or_ne v o with rfl | hv
      · simp
      · simp [hv, hv.symm]
    · rcases eq_or_ne v o with rfl | hv
      · simp [hlast]
      · simp [hv, hv.symm]
    · rcases eq_or_ne v o with rfl | hv
      · simp [h hlast]
      · simp [hv]
  · refine ⟨_, if_neg ?_, ⟨rfl, fun v => ?_, fun v => ?_, fun v => ?_⟩, fun v => ?_⟩
    · simp only [modify_self]
      omega
    · rcases eq_or_ne v o with rfl | hv
      · simp
      · simp [hv]
    · rcases eq_or_ne v o with rfl | hv
      · simp
      · simp [hv, hv.symm]
    · rcases eq_or_ne v o with rfl | hv
      · simp [hlast]
      · simp [hv, hv.symm]
    · rcases eq_or_ne v o with rfl | hv
      · simp
      · simp [hv]

theorem count_destroys {op : TreeOp} {o : ObjPtr} (hdrop : dropped x.fs op = some o) (v : ObjPtr) :
    (destroys x.fs op).count v = if o = v ∧ (x.fs.driver.objs o).refcount = 1 then 1 else 0 := by
  have hone : (x.fs.driver.objs o).refcount - 1 = 0 ↔ (x.fs.driver.objs o).refcount = 1 := by omega
  rw [destroys, hdrop, Option.toList_some, List.filter_cons, List.filter_nil]
  by_cases h1 : (x.fs.driver.objs o).refcount = 1
  · simp [h1, List.count_singleton]
  · simp [hone, h1]

/-- **A reference of `o` is given back**: the counts are right again, and `o` is destroyed if it was the last one. -/
theorem balanced_drop {op : TreeOp} {o : ObjPtr} {fs' : FsState TmpfsState} (h : Balanced root x)
    (hdrop : dropped x.fs op = some o) (hloses : Loses o x.fs.driver fs'.driver)
    (hrefs : ∀ v, references fs' v + (if o = v then 1 else 0) = references x.fs v) :
    Balanced root ⟨fs', x.destroyed ++ destroys x.fs op⟩ := by
  intro v hv hlt
  have hlt : v < fs'.driver.next := hlt
  rw [hloses.next] at hlt
  obtain ⟨hcount, hdestroyed, hlive⟩ := h v hv hlt
  have hr := hrefs v
  show (fs'.driver.objs v).refcount = references fs' v ∧ ((x.destroyed ++ destroys x.fs op).count v = _) ∧
    (fs'.driver.objs v).live = !decide (references fs' v = 0)
  rw [hloses.refcount v, hloses.live v, List.count_append, count_destroys hdrop, hdestroyed, hlive]
  rcases eq_or_ne o v with rfl | hov
  · rw [if_pos rfl] at hr ⊢
    have hlast : (x.fs.driver.objs o).refcount = 1 ↔ references fs' o = 0 := by omega
    have hpos : references x.fs o ≠ 0 := by omega
    simp only [hpos, if_false, Nat.zero_add, true_and, hlast, decide_false, Bool.not_false, Bool.true_and, and_true]
    omega
  · rw [if_neg hov, Nat.add_zero] at hr
    simp only [hov, if_false, false_and, Nat.add_zero, Int.sub_zero, hr, hcount, decide_false, Bool.not_false,
      Bool.and_true, and_self]

/-- The directories once `v` is no longer in `dir`. -/
theorem Forest.erase (s' : TmpfsState) {v : ObjPtr} (h : Forest root s) (hv : v ∈ (s.objs dir).childs)
    (hnext : s'.next = s.next)
    (hself : (s'.objs dir).childs = (s.objs dir).childs.erase v)
    (hold : ∀ d, d ≠ dir → (s'.objs d).childs = (s.objs d).childs) :
    Forest root s' ∧ ∀ w, (∃ d, w ∈ (s'.objs d).childs) ↔ w ≠ v ∧ ∃ d, w ∈ (s.objs d).childs := by
  have hmem : ∀ d w, w ∈ (s'.objs d).childs ↔ w ∈ (s.objs d).childs ∧ (d = dir → w ≠ v) := by
    intro d w
    rcases eq_or_ne d dir with rfl | hd
    · rw [hself, (h.nodup d).mem_erase_iff]
      simp only [forall_true_left, and_comm]
    · simp [hold d hd, hd]
  refine ⟨⟨fun d w hw => ?_, fun d => ?_, fun d d' w hw hw' => ?_, fun d hd => ?_⟩, fun w => ?_⟩
  · rw [hnext]
    exact h.child d w ((hmem d w).1 hw).1
  · rcases eq_or_ne d dir with rfl | hd
    · rw [hself]; exact (h.nodup d).erase v
    · rw [hold d hd]; exact h.nodup d
  · exact h.parent d d' w ((hmem d w).1 hw).1 ((hmem d' w).1 hw').1
  · rw [hnext] at hd
    apply List.eq_nil_iff_forall_not_mem.2
    intro w hw
    have hold' := ((hmem d w).1 hw).1
    rw [h.fresh d hd] at hold'
    cases hold'
  · constructor
    · rintro ⟨d, hw⟩
      obtain ⟨hw, hne⟩ := (hmem d w).1 hw
      refine ⟨fun hwv => ?_, d, hw⟩
      subst hwv
      exact hne (h.parent d dir w hw hv) rfl
    · rintro ⟨hne, d, hw⟩
      exact ⟨d, (hmem d w).2 ⟨hw, fun _ => hne⟩⟩

/-- The counts once `tmpfs_unlink` has taken `v` out of `dir`. -/
theorem erase_sound {op : TreeOp} {v : ObjPtr} (h : TreeSound root x) (hv : v ∈ (x.fs.driver.objs dir).childs)
    (hdrop : dropped x.fs op = some v) (hloses : Loses v x.fs.driver s)
    (hchilds : ∀ w, (s.objs w).childs = (x.fs.driver.objs w).childs) :
    TreeSound root ⟨{ x.fs with driver := s.modify dir fun obj => { obj with childs := obj.childs.erase v } },
      x.destroyed ++ destroys x.fs op⟩ := by
  obtain ⟨hlt, hroot, -⟩ := h.forest.child dir v hv
  set s' := s.modify dir fun obj => { obj with childs := obj.childs.erase v } with hs'
  have hsame : ∀ w, (s'.objs w).flags = (s.objs w).flags ∧ (s'.objs w).refcount = (s.objs w).refcount ∧
      (s'.objs w).live = (s.objs w).live := by
    intro w
    rcases eq_or_ne w dir with rfl | hw
    · simp [hs']
    · simp [hs', hw]
  have hloses' : Loses v x.fs.driver s' := by
    constructor
    · exact hloses.next
    · exact fun w => (hsame w).1.trans (hloses.flags w)
    · exact fun w => (hsame w).2.1.trans (hloses.refcount w)
    · exact fun w => (hsame w).2.2.trans (hloses.live w)
  have hself : (s'.objs dir).childs = (x.fs.driver.objs dir).childs.erase v := by simp [hs', hchilds]
  have hold : ∀ d, d ≠ dir → (s'.objs d).childs = (x.fs.driver.objs d).childs := fun d hd => by
    simp [hs', hd, hchilds]
  obtain ⟨hforest, hlinks⟩ := h.forest.erase s' hv hloses'.next hself hold
  refine ⟨hforest, fun d hd => ?_, fun q => ⟨(h.nodes q).1, fun hq => ?_⟩, ?_, ?_, h.root_once, ?_, fun o ho => ?_⟩
  · have hd : (s'.objs d).flags = .file := hd
    have hempty := h.leaf d ((hloses'.flags d).symm.trans hd)
    show (s'.objs d).childs = []
    rcases eq_or_ne d dir with rfl | hne
    · rw [hempty] at hv
      cases hv
    · rw [hold d hne]; exact hempty
  · obtain ⟨hlt', hq⟩ := (h.nodes q).2 hq
    exact ⟨hlt', hq.of_eq hloses'.next hloses'.flags⟩
  · show root < s.next
    rw [hloses.next]; exact h.root_lt
  · show (s'.objs root).refcount + 1 = _
    rw [hloses'.refcount, if_neg hroot, Int.sub_zero]
    exact h.root_count
  · apply balanced_drop h.balanced hdrop hloses'
    intro w
    show (if linked s' w then 1 else 0) + nodesOf x.fs w + _ = (if linked x.fs.driver w then 1 else 0) + nodesOf x.fs w
    have hiff : linked s' w = true ↔ w ≠ v ∧ linked x.fs.driver w = true := by
      rw [linked_iff hforest.fresh, linked_iff h.forest.fresh, hlinks]
    rcases eq_or_ne v w with rfl | hne
    · have hwas : linked x.fs.driver v = true := (linked_iff h.forest.fresh).2 ⟨dir, hv⟩
      have hnow : ¬linked s' v = true := fun hl => (hiff.1 hl).1 rfl
      rw [if_pos rfl, if_pos hwas, if_neg hnow, Nat.zero_add, Nat.add_comm]
    · simp only [hiff, ne_eq, hne.symm, not_false_eq_true, true_and, hne, if_false, Nat.add_zero]
  · have hcount := h.destroyed o (ho.imp_right fun ho => by rw [← hloses.next]; exact ho)
    have hne : v ≠ o := by
      rintro rfl
      rcases ho with rfl | ho
      · exact hroot rfl
      · exact Nat.lt_irrefl _ (Nat.lt_of_lt_of_le hlt (Nat.le_trans (Nat.le_of_eq hloses.next.symm) ho))
    rw [List.count_append, count_destroys hdrop, hcount, if_neg fun hand => hne hand.1]

theorem unlink_sound (h : TreeSound root x) (hlive : 0 < (x.fs.nodes p).refcount)
    (hcloses : Closes x (.unlink p name)) : ∃ fs', fsCall x.fs (.unlink p name) = .ok fs' ∧
      TreeSound root ⟨fs', x.destroyed ++ destroys x.fs (.unlink p name)⟩ := by
  have hfits := ((h.nodes p).2 hlive).2
  by_cases hp : (x.fs.nodes p).info.directory = true
  · have hdir : (x.fs.driver.objs (x.fs.nodes p).info.object).flags = .directory := by
      simpa [hp] using hfits.directory
    have hsearch := searchChilds_prefix x.fs.driver name (x.fs.driver.objs (x.fs.nodes p).info.object).childs
    cases hfind : (x.fs.driver.objs (x.fs.nodes p).info.object).childs.find?
        (fun v => name.bytes.isPrefixOf (x.fs.driver.objs v).name.bytes) with
    | none =>
      rw [hfind] at hsearch
      refine ⟨x.fs, ?_, ?_⟩
      · simp [fsCall, hp, tmpfsUnlink, hdir, hsearch, pure, Except.pure]
      · rw [show destroys x.fs (.unlink p name) = [] by simp [destroys, dropped, hsearch], List.append_nil]
        exact h
    | some v =>
      rw [hfind] at hsearch
      have hv : v ∈ (x.fs.driver.objs (x.fs.nodes p).info.object).childs := List.mem_of_find?_eq_some hfind
      have hdrop : dropped x.fs (.unlink p name) = some v := by simp [dropped, hp, hsearch]
      obtain ⟨-, hroot, hne⟩ := h.forest.child _ v hv
      obtain ⟨s₁, hrun, hloses, hchilds⟩ := dropReference_loses (s := x.fs.driver) (o := v) fun hlast => by
        cases hflags : (x.fs.driver.objs v).flags with
        | file => exact h.leaf v hflags
        | directory => exact hcloses.2.1 v hdrop hflags hlast
      refine ⟨{ x.fs with driver := s₁.modify (x.fs.nodes p).info.object fun obj =>
        { obj with childs := obj.childs.erase v } }, ?_, ?_⟩
      · simp only [fsCall, hp, if_true, tmpfsUnlink, assert_pos hdir, hsearch, hrun, ok_bind]
        rfl
      · exact erase_sound h hv hdrop hloses hchilds
  · refine ⟨x.fs, ?_, ?_⟩
    · simp [fsCall, hp, pure, Except.pure]
    · rw [show destroys x.fs (.unlink p name) = [] by simp [destroys, dropped, hp], List.append_nil]
      exact h

/-- The count of a node changes and stays positive. -/
theorem keep_sound {n : Int} (h : TreeSound root x) (hlive : 0 < (x.fs.nodes p).refcount) (hn : 0 < n) :
    TreeSound root ⟨x.fs.setRefcount p n, x.destroyed⟩ := by
  have hnodes : ∀ o, nodesOf (x.fs.setRefcount p n) o = nodesOf x.fs o := nodesOf_keep hlive hn rfl rfl
  have hrefs : ∀ o, references (x.fs.setRefcount p n) o = references x.fs o := fun o =>
    references_congr h.forest h.forest Iff.rfl (hnodes o)
  refine ⟨h.forest, h.leaf, fun q => ?_, h.root_lt, h.root_count.trans (by rw [hnodes]), ?_, fun o h1 h2 => ?_,
    h.destroyed⟩
  · rcases eq_or_ne q p with rfl | hq
    · have hnode : (x.fs.setRefcount q n).nodes q = { x.fs.nodes q with refcount := n } := Function.update_self ..
      show 0 ≤ ((x.fs.setRefcount q n).nodes q).refcount ∧ _
      simp only [hnode]
      exact ⟨Int.le_of_lt hn, fun _ => (h.nodes q).2 hlive⟩
    · have hnode : (x.fs.setRefcount p n).nodes q = x.fs.nodes q := Function.update_of_ne hq ..
      show 0 ≤ ((x.fs.setRefcount p n).nodes q).refcount ∧ _
      simp only [hnode]
      exact h.nodes q
  · show nodesOf (x.fs.setRefcount p n) root ≤ 1
    rw [hnodes]; exact h.root_once
  · rw [hrefs]
    exact h.balanced o h1 h2

theorem reference_sound (h : TreeSound root x) (hlive : 0 < (x.fs.nodes p).refcount)
    (hcloses : Closes x (.reference p)) :
    ∃ fs', fsCall x.fs (.reference p) = .ok fs' ∧ TreeSound root ⟨fs', x.destroyed⟩ := by
  refine ⟨_, ?_, keep_sound (n := (x.fs.nodes p).refcount + 1) h hlive (by omega)⟩
  simp only [fsCall, fsNodeReference, assert_bind (Int.ne_of_gt hlive), gt_iff_lt, hlive, if_true,
    assert_bind (hcloses.2.2 p rfl)]
  rfl

/-- The node `p` of a directory is freed: `tmpfs_close` gives its reference back. -/
theorem free_sound {op : TreeOp} {fs' : FsState TmpfsState} (h : TreeSound root x)
    (hlive : 0 < (x.fs.nodes p).refcount) (hdrop : dropped x.fs op = some (x.fs.nodes p).info.object)
    (hnextNode : fs'.nextNode = x.fs.nextNode)
    (hnodes : fs'.nodes = Function.update x.fs.nodes p { x.fs.nodes p with refcount := 0 })
    (hloses : Loses (x.fs.nodes p).info.object x.fs.driver fs'.driver)
    (hchilds : ∀ w, (fs'.driver.objs w).childs = (x.fs.driver.objs w).childs) :
    TreeSound root ⟨fs', x.destroyed ++ destroys x.fs op⟩ := by
  obtain ⟨hp, hfits⟩ := (h.nodes p).2 hlive
  have hforest : Forest root fs'.driver := h.forest.of_eq hloses.next hchilds
  have hfree : ∀ w, nodesOf fs' w + (if (x.fs.nodes p).info.object = w then 1 else 0) = nodesOf x.fs w :=
    nodesOf_free hp hlive hnextNode hnodes
  have hroot := h.root_count
  have honce := h.root_once
  have hfreeRoot := hfree root
  refine ⟨hforest, fun d hd => ?_, fun q => ?_, ?_, ?_, ?_, ?_, fun o ho => ?_⟩
  · have hd : (fs'.driver.objs d).flags = .file := hd
    show (fs'.driver.objs d).childs = []
    rw [hchilds]
    exact h.leaf d ((hloses.flags d).symm.trans hd)
  · show 0 ≤ (fs'.nodes q).refcount ∧ (0 < (fs'.nodes q).refcount → q < fs'.nextNode ∧ _)
    rw [hnodes, hnextNode]
    rcases eq_or_ne q p with rfl | hq
    · simp
    · rw [Function.update_of_ne hq]
      refine ⟨(h.nodes q).1, fun hpos => ?_⟩
      obtain ⟨hlt, hq'⟩ := (h.nodes q).2 hpos
      exact ⟨hlt, hq'.of_eq hloses.next hloses.flags⟩
  · show root < fs'.driver.next
    rw [hloses.next]; exact h.root_lt
  · show (fs'.driver.objs root).refcount + 1 = nodesOf fs' root
    rw [hloses.refcount]
    split at hfreeRoot
    next heq =>
      rw [if_pos heq]
      omega
    next hne =>
      rw [if_neg hne]
      omega
  · show nodesOf fs' root ≤ 1
    omega
  · apply balanced_drop h.balanced hdrop hloses
    intro w
    have hlinked : linked fs'.driver w = linked x.fs.driver w := by
      rw [Bool.eq_iff_iff, linked_iff hforest.fresh, linked_iff h.forest.fresh]
      simp only [hchilds]
    rw [references, references, hlinked, Nat.add_assoc, hfree]
  · have hcount := h.destroyed o (ho.imp_right fun ho => by rw [← hloses.next]; exact ho)
    rw [List.count_append, count_destroys hdrop, hcount, if_neg]
    rintro ⟨rfl, hone⟩
    rcases ho with ho | ho
    · -- the root counts one less than its nodes, and it has one at most
      rw [ho] at hone
      omega
    · have ho : fs'.driver.next ≤ (x.fs.nodes p).info.object := ho
      rw [hloses.next] at ho
      exact Nat.lt_irrefl _ (Nat.lt_of_lt_of_le hfits.object_lt ho)

theorem release_sound (h : TreeSound root x) (hlive : 0 < (x.fs.nodes p).refcount) (hcloses : Closes x (.release p)) :
    ∃ fs', fsCall x.fs (.release p) = .ok fs' ∧
      TreeSound root ⟨fs', x.destroyed ++ destroys x.fs (.release p)⟩ := by
  obtain ⟨hp, hfits⟩ := (h.nodes p).2 hlive
  by_cases hlast : (x.fs.nodes p).refcount = 1
  · have hdirectory := hcloses.1 p rfl hlast
    have hclose : (x.fs.nodes p).info.hasClose = true := hfits.callbacks.1.trans hdirectory
    have hdrop : dropped x.fs (.release p) = some (x.fs.nodes p).info.object := by simp [dropped, hlast, hclose]
    have hdir : (x.fs.driver.objs (x.fs.nodes p).info.object).flags = .directory := by
      simpa [hdirectory] using hfits.directory
    obtain ⟨s', hrun, hloses, hchilds⟩ := dropReference_loses (hcloses.2.1 _ hdrop hdir)
    refine ⟨{ x.fs.setRefcount p 0 with
      closed := x.fs.closed ++ [p], freed := x.fs.freed ++ [p], driver := s' }, ?_, ?_⟩
    · have hfree : ((x.fs.setRefcount p 0).nodes p) = { x.fs.nodes p with refcount := 0 } := Function.update_self ..
      have hcloses' : tmpfsDriver.closes (x.fs.setRefcount p 0).driver (x.fs.nodes p).info = .ok s' := hrun
      simp only [fsCall, fsNodeRelease, fsNodeFree, gt_iff_lt, hlast, Int.zero_lt_one, if_true, Int.sub_self, hfree,
        hclose, ok_bind, hcloses']
      rfl
    · exact free_sound h hlive hdrop rfl rfl hloses hchilds
  · have hkeep := keep_sound (n := (x.fs.nodes p).refcount - 1) h hlive (by omega)
    refine ⟨x.fs.setRefcount p ((x.fs.nodes p).refcount - 1), ?_, ?_⟩
    · have hset : ((x.fs.setRefcount p ((x.fs.nodes p).refcount - 1)).nodes p) =
          { x.fs.nodes p with refcount := (x.fs.nodes p).refcount - 1 } := Function.update_self ..
      have hne : ¬(x.fs.nodes p).refcount - 1 = 0 := by omega
      simp only [fsCall, fsNodeRelease, gt_iff_lt, hlive, if_true, hset, hne, if_false]
      rfl
    · rw [show destroys x.fs (.release p) = [] by simp [destroys, dropped, hlast], List.append_nil]
      exact hkeep

/-- **Every call that meets the condition returns and keeps the invariant.** -/
theorem treeStep_sound {op : TreeOp} (h : TreeSound root x) (hlegal : TreeLegal x op) (hcloses : Closes x op) :
    ∃ x', treeStep x op = .ok x' ∧ TreeSound root x' := by
  have hstep : ∀ fs', fsCall x.fs op = .ok fs' → treeStep x op = .ok ⟨fs', x.destroyed ++ destroys x.fs op⟩ := by
    intro fs' hrun
    rw [treeStep, hrun, ok_bind]
    rfl
  have hquiet : dropped x.fs op = none → x.destroyed ++ destroys x.fs op = x.destroyed := by
    intro hnone
    rw [destroys, hnone, Option.toList_none, List.filter_nil, List.append_nil]
  have hinsert : ∀ flags p name, 0 < (x.fs.nodes p).refcount → (x.fs.nodes p).info.directory = true →
      ∃ s', tmpfsInsert flags x.fs.driver (x.fs.nodes p).info.object name = .ok s' ∧
        TreeSound root ⟨{ x.fs with driver := s' }, x.destroyed⟩ := fun flags p name hlive hp =>
    insert_sound h flags hlive hp name
  cases op with
  | create p name =>
    by_cases hp : (x.fs.nodes p).info.directory = true
    · obtain ⟨s', hrun, hsound⟩ := hinsert .file p name hlegal hp
      refine ⟨_, hstep { x.fs with driver := s' } ?_, by rw [hquiet rfl]; exact hsound⟩
      simp only [fsCall, hp, if_true, tmpfsCreate, hrun, ok_bind]
      rfl
    · exact ⟨_, hstep x.fs (by simp [fsCall, hp, pure, Except.pure]), by rw [hquiet rfl]; exact h⟩
  | mkdir p name =>
    by_cases hp : (x.fs.nodes p).info.directory = true
    · obtain ⟨s', hrun, hsound⟩ := hinsert .directory p name hlegal hp
      refine ⟨_, hstep { x.fs with driver := s' } ?_, by rw [hquiet rfl]; exact hsound⟩
      simp only [fsCall, hp, if_true, tmpfsMkdir, hrun, ok_bind]
      rfl
    · exact ⟨_, hstep x.fs (by simp [fsCall, hp, pure, Except.pure]), by rw [hquiet rfl]; exact h⟩
  | finddir p name =>
    obtain ⟨fs', hrun, hsound⟩ := finddir_sound h hlegal name
    exact ⟨_, hstep fs' hrun, by rw [hquiet rfl]; exact hsound⟩
  | unlink p name =>
    obtain ⟨fs', hrun, hsound⟩ := unlink_sound h hlegal hcloses
    exact ⟨_, hstep fs' hrun, hsound⟩
  | reference p =>
    obtain ⟨fs', hrun, hsound⟩ := reference_sound h hlegal hcloses
    exact ⟨_, hstep fs' hrun, by rw [hquiet rfl]; exact hsound⟩
  | release p =>
    obtain ⟨fs', hrun, hsound⟩ := release_sound h hlegal hcloses
    exact ⟨_, hstep fs' hrun, hsound⟩

end Calls

/-! ## Whole runs -/

/-- No objects and no nodes. -/
def emptyTree : FsState TmpfsState where
  nodes _ := ⟨⟨false, false, false, false, false, false, 0⟩, 0⟩
  nextNode := 0
  closed := []
  freed := []
  mounts _ := ⟨.empty, 0, [], 0⟩
  nextMount := 0
  rootMount := none
  driver := ⟨fun _ => ⟨.empty, .file, [], [], 0, false⟩, 0⟩

/-- The tree after `mount_tmpfs`, which makes a node for the root and opens it. -/
def mountTree : Kernel Tree := do
  let (root, driver) := mountTmpfs emptyTree.driver
  let (node, fs) := fsNodeNew { emptyTree with driver := driver } (tmpfsInfo root)
  let fs ← fsOpen tmpfsDriver fs node 0
  return ⟨fs, []⟩

/-- The root is the object 0. -/
theorem mountTree_sound : ∃ x, mountTree = .ok x ∧ TreeSound 0 x := by
  have hempty : ∀ d, ((mountTmpfs emptyTree.driver).2.objs d).childs = [] := by
    intro d
    rcases eq_or_ne d 0 with rfl | hd
    · rfl
    · simp [mountTmpfs, fsNodeFromTmpfs, tmpfsCreateObj, emptyTree, hd]
  have hchild : ∀ d v, v ∉ ((mountTmpfs emptyTree.driver).2.objs d).childs := by
    intro d v hv
    rw [hempty] at hv
    cases hv
  refine ⟨_, rfl, ⟨fun d v hv => absurd hv (hchild d v), fun d => ?_, fun d _ v hv _ => absurd hv (hchild d v),
    fun d _ => hempty d⟩, fun d _ => hempty d, fun p => ?_, Nat.one_pos, rfl, Nat.le_refl 1,
    fun o h1 h2 => absurd (Nat.lt_one_iff.1 h2) h1, fun _ _ => rfl⟩
  · exact (hempty d).symm ▸ List.nodup_nil
  · rcases eq_or_ne p 0 with rfl | hp
    · exact ⟨by decide, fun _ => ⟨Nat.one_pos, Nat.one_pos, rfl, rfl, rfl⟩⟩
    · have hfree : ∀ a b : FsNode, (Function.update (Function.update emptyTree.nodes 0 a) 0 b p).refcount = 0 := by
        intro a b
        rw [Function.update_of_ne hp, Function.update_of_ne hp]
        rfl
      exact ⟨Int.le_of_eq (hfree _ _).symm, fun hpos => absurd (hfree _ _) (Int.ne_of_gt hpos)⟩

/-- **The counts of the objects are right in every run** in which no node of a file is freed and no directory is
destroyed that is not empty: every call returns, and every object is destroyed once, when its last reference goes. -/
theorem tree_runs_balance (ops : List TreeOp) {x₀ : Tree} (hmount : mountTree = .ok x₀)
    (h : StepsMeet treeStep (fun x op => TreeLegal x op ∧ Closes x op) x₀ ops) :
    ∃ x, runSteps treeStep x₀ ops = .ok x ∧ Balanced 0 x := by
  obtain ⟨x₁, hx₁, hsound⟩ := mountTree_sound
  obtain rfl : x₁ = x₀ := Except.ok.inj (hx₁.symm.trans hmount)
  obtain ⟨x, hrun, hx⟩ := runSteps_inv (I := fun _ x => TreeSound 0 x)
    (fun _ x op hx hok => treeStep_sound hx hok.1 hok.2) ops [] hsound h
  exact ⟨x, hrun, hx.balanced⟩

/-- A directory is made, looked up twice and removed while it is in use; then its nodes are released. -/
def directoryRun : List TreeOp :=
  [.mkdir 0 nameA, .finddir 0 nameA, .finddir 0 nameA, .reference 1, .unlink 0 nameA, .release 1, .release 2, .release 1]

theorem directoryRun_balances : ∃ x₀ x, mountTree = .ok x₀ ∧ runSteps treeStep x₀ directoryRun = .ok x ∧
    Balanced 0 x ∧ x.destroyed = [1] := by
  obtain ⟨x, hrun, hx⟩ := tree_runs_balance directoryRun rfl (by
    refine stepsMeet_cons ⟨by decide, ⟨by rintro p ⟨⟩, by rintro o ⟨⟩, by rintro p ⟨⟩⟩⟩ rfl ?_
    refine stepsMeet_cons ⟨by decide, ⟨by rintro p ⟨⟩, by rintro o ⟨⟩, by rintro p ⟨⟩⟩⟩ rfl ?_
    refine stepsMeet_cons ⟨by decide, ⟨by rintro p ⟨⟩, by rintro o ⟨⟩, by rintro p ⟨⟩⟩⟩ rfl ?_
    refine stepsMeet_cons ⟨by decide, ⟨by rintro p ⟨⟩, by rintro o ⟨⟩, by rintro p ⟨⟩; decide⟩⟩ rfl ?_
    refine stepsMeet_cons ⟨by decide, ⟨by rintro p ⟨⟩, by rintro o ⟨⟩ _ _; rfl, by rintro p ⟨⟩⟩⟩ rfl ?_
    refine stepsMeet_cons ⟨by decide, ⟨by rintro p ⟨⟩ _; rfl, by rintro o ⟨⟩, by rintro p ⟨⟩⟩⟩ rfl ?_
    refine stepsMeet_cons ⟨by decide, ⟨by rintro p ⟨⟩ _; rfl, by rintro o ⟨⟩ _ _; rfl, by rintro p ⟨⟩⟩⟩ rfl ?_
    exact stepsMeet_cons ⟨by decide, ⟨by rintro p ⟨⟩ _; rfl, by rintro o ⟨⟩ _ _; rfl, by rintro p ⟨⟩⟩⟩ rfl trivial)
  have hdestroyed := congrArg (Except.map Tree.destroyed) hrun
  exact ⟨_, x, rfl, hrun, hx, (Except.ok.inj hdestroyed).symm⟩

/-- A file is made, looked up, closed and removed. -/
def fileRun : List TreeOp := [.create 0 nameA, .finddir 0 nameA, .release 1, .unlink 0 nameA]

/-- Nothing refers to the file any more; it still counts one reference, and it has not been destroyed. -/
theorem fileRun_leaks : ∃ x₀ x, mountTree = .ok x₀ ∧ StepsMeet treeStep TreeLegal x₀ fileRun ∧
    runSteps treeStep x₀ fileRun = .ok x ∧ references x.fs 1 = 0 ∧ (x.fs.driver.objs 1).refcount = 1 ∧
    x.destroyed = [] ∧ ¬Balanced 0 x := by
  refine ⟨_, _, rfl, ?_, rfl, by decide, rfl, rfl, fun h => ?_⟩
  · apply stepsMeet_cons (by decide) rfl
    apply stepsMeet_cons (by decide) rfl
    apply stepsMeet_cons (by decide) rfl
    exact stepsMeet_cons (by decide) rfl trivial
  · have hcount := (h 1 (by decide) (by decide)).1
    revert hcount
    decide

end Myunix.Tmpfs
