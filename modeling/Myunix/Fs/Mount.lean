import Myunix.CString

/-!
# Nodes and the mount graph (`fs.c`)

A node (`fs_node_t`) carries a reference count and what its driver put into it; its callbacks belong to the driver, and
the driver's own data is a state `σ` that the rest does not look into. A negative count marks a node that is never
freed. Mounts (`fs_mount_t`) form a graph below `fs_root_mount`; each has a list of submounts, told apart by one path
element.

Signed overflow of a count is undefined; the debug build stops there, and so does the model.
-/

namespace Myunix.Fs

open Lib

/-- `fs_node_t *`. -/
abbrev NodePtr := Nat

/-- `fs_mount_t *`. -/
abbrev MountPtr := Nat

/-- What a driver puts into a node: the two flags that path lookup tests, which of its callbacks are set, and the
driver's object. -/
structure NodeInfo where
  directory : Bool
  symlink : Bool
  hasOpen : Bool
  hasClose : Bool
  hasFinddir : Bool
  hasReadlink : Bool
  object : Nat
deriving DecidableEq, Repr

/-- `fs_node_t`. -/
structure FsNode where
  info : NodeInfo
  refcount : Int
deriving DecidableEq, Repr

/-- `fs_mount_t`. -/
structure FsMount where
  element : CString
  node : NodePtr
  mounts : List MountPtr
  refcount : Int
deriving DecidableEq

/-- Nodes and mounts; pointers from `nextNode` and `nextMount` on are not allocated. `closed` logs the nodes whose close
callback ran and `freed` those that were freed. -/
structure FsState (σ : Type) where
  nodes : NodePtr → FsNode
  nextNode : Nat
  closed : List NodePtr
  freed : List NodePtr
  mounts : MountPtr → FsMount
  nextMount : Nat
  rootMount : Option MountPtr
  driver : σ

variable {σ : Type}

/-! ## Nodes -/

/-- Change the count of a node. -/
def FsState.setRefcount (s : FsState σ) (p : NodePtr) (n : Int) : FsState σ :=
  { s with nodes := Function.update s.nodes p { s.nodes p with refcount := n } }

/-- `fs_node_reference`. -/
def fsNodeReference (s : FsState σ) (p : NodePtr) : Kernel (FsState σ) := do
  kassert ((s.nodes p).refcount ≠ 0)
  if (s.nodes p).refcount > 0 then
    -- signed overflow
    kassert ((s.nodes p).refcount < 0x7FFFFFFF)
    return s.setRefcount p ((s.nodes p).refcount + 1)
  else return s

/-! ## Mounts -/

/-- Change one mount. -/
def FsState.modifyMount (s : FsState σ) (m : MountPtr) (f : FsMount → FsMount) : FsState σ :=
  { s with mounts := Function.update s.mounts m (f (s.mounts m)) }

/-- `fs_mount_new`, with the element and the node that its callers store. -/
def fsMountNew (s : FsState σ) (element : CString) (node : NodePtr) : MountPtr × FsState σ :=
  (s.nextMount,
    { s with
      mounts := Function.update s.mounts s.nextMount ⟨element, node, [], 1⟩
      nextMount := s.nextMount + 1 })

/-- `fs_mount_reference`. -/
def fsMountReference (s : FsState σ) (m : MountPtr) : FsState σ :=
  if (s.mounts m).refcount > 0 then s.modifyMount m fun mount => { mount with refcount := mount.refcount + 1 } else s

/-- `fs_mount_release`; `fs_mount_free` zeroes the mount. -/
def fsMountRelease (s : FsState σ) (m : MountPtr) : Kernel (FsState σ) := do
  kassert ((s.mounts m).refcount ≠ 0)
  if (s.mounts m).refcount > 0 then
    if (s.mounts m).refcount - 1 = 0 then
      kassert ((s.mounts m).mounts.length = 0)
      return s.modifyMount m fun _ => ⟨⟨[], by simp⟩, 0, [], 0⟩
    else return s.modifyMount m fun mount => { mount with refcount := mount.refcount - 1 }
  else return s

/-- The element of the root mount, `"/"`. -/
def rootElement : CString := ⟨[0x2F], by decide⟩

/-- `fs_mount_root`. -/
def fsMountRoot (s : FsState σ) (node : NodePtr) : Kernel (FsState σ) := do
  kassert (s.rootMount = none)
  let (mount, s) := fsMountNew s rootElement node
  let s ← fsNodeReference s node
  return { s with rootMount := some mount }

/-- `fs_mount_submount`. -/
def fsMountSubmount (s : FsState σ) (parent : MountPtr) (node : NodePtr) (pathElement : CString) :
    Kernel (MountPtr × FsState σ) := do
  let (mount, s) := fsMountNew s pathElement node
  let s ← fsNodeReference s node
  let s := fsMountReference s mount
  return (mount, s.modifyMount parent fun m => { m with mounts := m.mounts ++ [mount] })

/-- The search loop of `findmount`. -/
def findmountIn (s : FsState σ) (subpath : CString) : List MountPtr → Kernel (Option MountPtr)
  | [] => .ok none
  | m :: ms => do
    let r ← memcmp (s.mounts m).element.mem subpath.mem (strlen subpath + 1)
    if r = 0 then return some m else findmountIn s subpath ms

/-- `findmount`. -/
def findmount (s : FsState σ) (parent : MountPtr) (subpath : CString) : Kernel (Option MountPtr) :=
  findmountIn s subpath (s.mounts parent).mounts

/-- `walk_mount_graph`: the mount reached and the elements left in the list. -/
def walkMountGraph (s : FsState σ) : List CString → MountPtr → Kernel (MountPtr × List CString)
  | [], mount => .ok (mount, [])
  | e :: elements, mount => do
    match ← findmount s mount e with
    | none => return (mount, e :: elements)
    | some newMount => walkMountGraph s elements newMount

/-! ## Paths -/

/-- The bytes up to the next `/` (`path_element_size` of them). -/
def pathElement (path : List Byte) : List Byte := path.takeWhile (· ≠ 0x2F)

theorem pathElement_nonzero {path : List Byte} (h : (0 : Byte) ∉ path) : (0 : Byte) ∉ pathElement path :=
  fun hm => h ((List.takeWhile_sublist _).subset hm)

/-- The loop of `tokenize_path_list` over what is left of the path; `fuel` bounds the number of rounds. -/
def tokenizeFrom : Nat → (path : List Byte) → (0 : Byte) ∉ path → List CString
  | 0, _, _ => []
  | _ + 1, [], _ => []
  | fuel + 1, c :: path, h =>
    let s : CString := ⟨pathElement (c :: path), pathElement_nonzero h⟩
    let rest := tokenizeFrom fuel ((c :: path).drop (strlen s + 1)) fun hm => h (List.mem_of_mem_drop hm)
    if strlen s = 0 then rest else s :: rest

/-- `tokenize_path_list`. -/
def tokenizePathList (path : CString) : List CString := tokenizeFrom path.bytes.length path.bytes path.nonzero

/-- The branch of `kmount` that adds the mount. -/
def mountBelow (s : FsState σ) (parent1 : MountPtr) (node : NodePtr) (mountElement : CString) :
    Kernel (Bool × FsState σ) := do
  let (submount, s) ← fsMountSubmount s parent1 node mountElement
  kassert ((s.mounts submount).refcount = 2)
  let s ← fsMountRelease s submount
  return (true, s)

/-- `kmount`. -/
def kmount (s : FsState σ) (path : CString) (node : NodePtr) : Kernel (Bool × FsState σ) := do
  let elements := tokenizePathList path
  match elements.getLast?, s.rootMount with
  | none, _ => return (false, s)
  | some _, none => throw .assertion
  | some mountElement, some root => do
    let (parent1, elements) ← walkMountGraph s elements root
    match elements with
    | [] => return (false, s)
    | [_] => mountBelow s parent1 node mountElement
    | _ :: _ :: _ => throw .assertion

end Myunix.Fs
