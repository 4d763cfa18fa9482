import Myunix.CString

/-!
# Directories of the temporary filesystem (`tmpfs.c`)

Objects (`struct tmpfs_object`) live in a heap; a directory's `childs` list holds pointers to its entries in insertion
order. The four directory operations search that list with `memcmp` over the name they are given: `tmpfs_create` and
`tmpfs_mkdir` over its bytes and the terminator, `tmpfs_finddir` and `tmpfs_unlink` over its bytes alone.
-/

namespace Myunix.Tmpfs

open Lib

/-- `struct tmpfs_object *`. -/
abbrev ObjPtr := Nat

/-- The `enum fs_node_flags` values that objects of this filesystem have. -/
inductive NodeFlags
  | file
  | directory
deriving DecidableEq, Repr

/-- `struct tmpfs_object`, with `childs` for a directory and `block` for a file; `live` is cleared by `kfree`. -/
structure TmpfsObject where
  name : CString
  flags : NodeFlags
  childs : List ObjPtr
  block : List Byte
  refcount : Int
  live : Bool

/-- The object heap; pointers from `next` on are not allocated. -/
structure TmpfsState where
  objs : ObjPtr → TmpfsObject
  next : ObjPtr

/-- The `fs_node_t` made for an object. -/
structure TmpfsNode where
  name : List Byte
  flags : NodeFlags
  object : ObjPtr
deriving DecidableEq

/-- Change one object. -/
def TmpfsState.modify (s : TmpfsState) (o : ObjPtr) (f : TmpfsObject → TmpfsObject) : TmpfsState :=
  { s with objs := Function.update s.objs o (f (s.objs o)) }

/-- `tmpfs_create_obj`: a new object with no children, no data and no references. -/
def tmpfsCreateObj (s : TmpfsState) (name : CString) (flags : NodeFlags) : ObjPtr × TmpfsState :=
  (s.next, ⟨Function.update s.objs s.next ⟨name, flags, [], [], 0, true⟩, s.next + 1⟩)

/-- `tmpfs_destroy_object`. -/
def tmpfsDestroyObject (s : TmpfsState) (o : ObjPtr) : Kernel TmpfsState := do
  kassert ((s.objs o).refcount = 0)
  match (s.objs o).flags with
  | .file => pure ⟨⟩
  | .directory => kassert ((s.objs o).childs.length = 0)
  return s.modify o fun obj => { obj with childs := [], block := [], live := false }

/-- `obj->__refcount--`, and `tmpfs_destroy_object` when it reaches 0 (in `tmpfs_unlink` and `tmpfs_close`). -/
def dropReference (s : TmpfsState) (o : ObjPtr) : Kernel TmpfsState :=
  let s := s.modify o fun obj => { obj with refcount := obj.refcount - 1 }
  if (s.objs o).refcount = 0 then tmpfsDestroyObject s o else .ok s

/-- `fs_node_from_tmpfs`: the node takes a reference; its name is cut to 255 bytes. -/
def fsNodeFromTmpfs (s : TmpfsState) (o : ObjPtr) : TmpfsNode × TmpfsState :=
  (⟨(s.objs o).name.bytes.take 255, (s.objs o).flags, o⟩, s.modify o fun obj => { obj with refcount := obj.refcount + 1 })

/-- The search loop of the directory operations: the first child whose name agrees with `name` on `len` bytes. -/
def searchChilds (s : TmpfsState) (name : CString) (len : Nat) : List ObjPtr → Kernel (Option ObjPtr)
  | [] => .ok none
  | v :: vs => do
    let r ← memcmp name.mem (s.objs v).name.mem len
    if r = 0 then return some v else searchChilds s name len vs

/-- `tmpfs_finddir`. Only a directory has a list of children. -/
def tmpfsFinddir (s : TmpfsState) (dir : ObjPtr) (name : CString) : Kernel (Option TmpfsNode × TmpfsState) := do
  kassert ((s.objs dir).flags = .directory)
  match ← searchChilds s name (strlen name) (s.objs dir).childs with
  | some v =>
    let (node, s) := fsNodeFromTmpfs s v
    return (some node, s)
  | none => return (none, s)

/-- `tmpfs_unlink`; the name may be `NULL`. -/
def tmpfsUnlink (s : TmpfsState) (dir : ObjPtr) : Option CString → Kernel (Int × TmpfsState)
  | none => .ok (-1, s)
  | some name => do
    kassert ((s.objs dir).flags = .directory)
    match ← searchChilds s name (strlen name) (s.objs dir).childs with
    | some v =>
      let s ← dropReference s v
      return (0, s.modify dir fun obj => { obj with childs := obj.childs.erase v })
    | none => return (-1, s)

/-- The common body of `tmpfs_mkdir` and `tmpfs_create`. -/
def tmpfsInsert (flags : NodeFlags) (s : TmpfsState) (dir : ObjPtr) (name : CString) : Kernel TmpfsState := do
  kassert ((s.objs dir).flags = .directory)
  match ← searchChilds s name (strlen name + 1) (s.objs dir).childs with
  | some _ => return s
  | none =>
    let (nobj, s) := tmpfsCreateObj s name flags
    let s := s.modify nobj fun obj => { obj with refcount := obj.refcount + 1 }
    return s.modify dir fun obj => { obj with childs := obj.childs ++ [nobj] }

/-- `tmpfs_mkdir`. -/
def tmpfsMkdir := tmpfsInsert .directory

/-- `tmpfs_create`. -/
def tmpfsCreate := tmpfsInsert .file

/-- The name of the root object, `"tmpfs"`. -/
def rootName : CString := ⟨[0x74, 0x6d, 0x70, 0x66, 0x73], by decide⟩

/-- `mount_tmpfs`: an immortal root directory and its node. -/
def mountTmpfs (s : TmpfsState) : TmpfsNode × TmpfsState :=
  let (root, s) := tmpfsCreateObj s rootName .directory
  fsNodeFromTmpfs (s.modify root fun obj => { obj with refcount := -1 }) root

/-! ## Calls on one directory -/

/-- A call on a directory. -/
inductive DirOp
  | create (name : CString)
  | mkdir (name : CString)
  | unlink (name : CString)
  | finddir (name : CString)

/-- What a call returns. -/
inductive DirResult
  | unit
  | code (r : Int)
  | node (n : Option TmpfsNode)

/-- One call on `dir`. -/
def dirStep (dir : ObjPtr) (s : TmpfsState) : DirOp → Kernel (DirResult × TmpfsState)
  | .create name => do return (.unit, ← tmpfsCreate s dir name)
  | .mkdir name => do return (.unit, ← tmpfsMkdir s dir name)
  | .unlink name => do
    let (r, s) ← tmpfsUnlink s dir (some name)
    return (.code r, s)
  | .finddir name => do
    let (n, s) ← tmpfsFinddir s dir name
    return (.node n, s)

end Myunix.Tmpfs
