import Myunix.Fs.Open

/-!
# Archives as filesystems (`tar.c`, `ramdisk.c`, `misc/oct2bin.c`)

The filesystem reads a ustar archive from a ramdisk. An archive is a list of headers of 512 bytes, each followed by the
data of its file; its directories are not linked to what they hold, so that every call goes through all headers. A
header is kept as the bytes that were read; `header->name` starts at 0, `fsize` at 124 and `type` at 156.

A child of a directory is looked up by its full path (`tar_lookup`). A directory is listed by what follows its name in
the names of the archive (`tar_readdir`).
-/

namespace Myunix.Tar

open Lib Fs

/-- `'/'`. -/
def slash : Byte := 0x2F

/-! ## The device -/

/-- A ramdisk. It does not reach to the end of memory, where `offset + size` would overflow. -/
structure Ramdisk where
  data : List Byte
  fits : data.length + 512 < 0x100000000

/-- `fs_read` on a ramdisk: the bytes that are copied to the buffer. -/
def ramdiskRead (device : Ramdisk) (offset size : Nat) : List Byte :=
  if offset > device.data.length then []
  else
    let size := if (offset + size) % 0x100000000 > device.data.length then device.data.length - offset else size
    (device.data.drop offset).take size

/-! ## Headers -/

/-- The loop of `oct2bin`. -/
def oct2binLoop : List Byte → Nat → Nat
  | [], r => r
  | c :: str, r =>
    if c = 0 then r
    else
      let r := r * 8 % 0x100000000
      oct2binLoop str (if 0x30 ≤ c.toInt ∧ c.toInt ≤ 0x37 then r + (c.toNat - 0x30) else r)

/-- `oct2bin(header->fsize, 12)`. -/
def fsize (header : List Byte) : Nat := oct2binLoop ((header.drop 124).take 12) 0

/-- `tar_entry_length`. -/
def tarEntryLength (header : List Byte) : Nat :=
  ((fsize header + 511) % 0x100000000 / 512 + 1) * 512 % 0x100000000

/-- `enum fs_node_flags`, as far as it is used here. -/
inductive TarFlags
  | none
  | file
  | symlink
  | directory
deriving DecidableEq, Repr

/-- `struct tar_obj`; all objects are on one device. -/
structure TarObj where
  name : CString
  offset : Nat
  flags : TarFlags
  length : Nat
deriving DecidableEq

/-- The flags for `header->type`. -/
def tarFlags (header : List Byte) : TarFlags :=
  let type := header.getD 156 0
  if type = 0 ∨ type = 0x30 then .file
  else if type = 0x32 then .symlink
  else if type = 0x35 then .directory
  else .none

/-- A part of a string. -/
def CString.take (s : CString) (n : Nat) : CString := ⟨s.bytes.take n, fun h => s.nonzero (List.mem_of_mem_take h)⟩

/-- `tar_create_obj_from_header`: a directory loses the `/` at the end of its name. -/
def tarCreateObjFromHeader (header : List Byte) (offset : Nat) : Kernel TarObj := do
  let name := CString.take (cstringAt header) 100
  let obj := TarObj.mk name offset (tarFlags header) (fsize header)
  if obj.flags = .directory then
    match name.bytes.getLast? with
    | none => throw .bounds
    | some c => if c = slash then return { obj with name := CString.take name (strlen name - 1) } else return obj
  else return obj

/-- The `fs_node_t` made for an object. -/
structure TarNode where
  name : List Byte
  object : TarObj
deriving DecidableEq

/-- `fs_node_from_tar`. The loop that copies the name ends after its first round, as a new node is zeroed. -/
def fsNodeFromTar (obj : TarObj) : TarNode := ⟨obj.name.bytes.takeWhile (· ≠ slash), obj⟩

/-- The object of `mount_tar`. -/
def rootObj : TarObj := ⟨.empty, 0, .directory, 0⟩

/-! ## Going through the headers -/

section Foreach

variable {σ ρ : Type}

/-- `tar_foreach_entry` from `ptr` on: the body goes on with a state or returns. A device has room for fewer than `fuel`
headers, so that a walk of `fuel` rounds does not end. -/
def tarForeachEntry (device : Ramdisk) (body : σ → Nat → List Byte → Kernel (σ ⊕ ρ)) :
    Nat → Nat → σ → Kernel (σ ⊕ ρ)
  | 0, _, _ => .error .bounds
  | fuel + 1, ptr, st =>
    let header := ramdiskRead device ptr 512
    if header.length = 512 then do
      match ← body st ptr header with
      | .inr r => return .inr r
      | .inl st => tarForeachEntry device body fuel ((ptr + tarEntryLength header) % 0x100000000) st
    else .ok (.inl st)

/-- The whole loop. -/
def tarForeach (device : Ramdisk) (body : σ → Nat → List Byte → Kernel (σ ⊕ ρ)) (st : σ) : Kernel (σ ⊕ ρ) :=
  tarForeachEntry device body (device.data.length / 512 + 1) 0 st

end Foreach

/-- Read a byte of a buffer. -/
def byteAt (buf : List Byte) (i : Nat) : Kernel Byte :=
  match buf[i]? with
  | some b => .ok b
  | none => .error .bounds

/-! ## Lookup -/

/-- The loop body of `tar_lookup`. -/
def lookupBody (fname : CString) (_ : PUnit) (ptr : Nat) (header : List Byte) :
    Kernel (PUnit ⊕ (Nat × List Byte)) := do
  if (← memcmp header fname.mem (strlen fname)) = 0 then
    let c ← byteAt header (strlen fname)
    if c = 0 then return .inr (ptr, header)
    else if c = slash then
      let c ← byteAt header (strlen fname + 1)
      if c = 0 then return .inr (ptr, header) else return .inl ⟨⟩
    else return .inl ⟨⟩
  else return .inl ⟨⟩

/-- `tar_lookup`: the offset of the header and the header. -/
def tarLookup (device : Ramdisk) (fname : CString) : Kernel (Option (Nat × List Byte)) := do
  if strlen fname > 100 - 2 then return none
  else
    match ← tarForeach device (lookupBody fname) ⟨⟩ with
    | .inl _ => return none
    | .inr found => return some found

theorem joined_nonzero (dir name : CString) : (0 : Byte) ∉ dir.bytes ++ slash :: name.bytes := by
  simp only [List.mem_append, List.mem_cons, not_or]
  exact ⟨dir.nonzero, by decide, name.nonzero⟩

/-- The path that `tar_finddir` builds. -/
def fullPath (dir name : CString) : CString :=
  if strlen dir ≠ 0 then ⟨dir.bytes ++ slash :: name.bytes, joined_nonzero dir name⟩ else name

/-- `tar_finddir`. -/
def tarFinddir (device : Ramdisk) (obj : TarObj) (name : CString) : Kernel (Option TarNode) := do
  match ← tarLookup device (fullPath obj.name name) with
  | none => return none
  | some (off, header) =>
    let obj2 ← tarCreateObjFromHeader header off
    return some (fsNodeFromTar obj2)

/-! ## Listing -/

/-- `struct dirent`. -/
structure Dirent where
  ino : Nat
  name : CString
deriving DecidableEq

/-- `path_element_size`. -/
def pathElementSize : List Byte → Kernel Nat
  | [] => .error .bounds
  | c :: path =>
    if c ≠ 0 ∧ c ≠ slash then do
      let n ← pathElementSize path
      return n + 1
    else .ok 0

/-- `strncpy(subname, src, 100)` into a buffer of 100 bytes. -/
def copySubname (src : List Byte) : List Byte :=
  let s := (src.takeWhile (· ≠ 0)).take 100
  s ++ List.replicate (100 - s.length) 0

/-- What `tar_readdir` makes of a name that starts with the name of the directory: the element behind it, if it is an
entry of the directory itself. -/
def entryName (fnameLen : Nat) (header : List Byte) : Kernel (Option CString) := do
  let c ← byteAt header fnameLen
  let subname := copySubname (header.drop (if c = slash then fnameLen + 1 else fnameLen))
  if (← byteAt subname 0) = 0 then return none
  else
    let plen ← pathElementSize subname
    if (← byteAt subname plen) = slash then
      if (← byteAt subname (plen + 1)) ≠ 0 then return none
      else return some (cstringAt (subname.set plen 0))
    else return some (cstringAt subname)

/-- The name of the entry for the root directory, `"./"`. -/
def dotSlash : CString := ⟨[0x2E, 0x2F], by decide⟩

/-- The loop body of `tar_readdir`, with the inode counter `j`. -/
def readdirBody (fname : CString) (i : Nat) (j : Nat) (_ : Nat) (header : List Byte) : Kernel (Nat ⊕ Dirent) := do
  if (← memcmp header dotSlash.mem 3) = 0 then return .inl j
  else if (← memcmp header fname.mem (strlen fname)) = 0 then
    match ← entryName (strlen fname) header with
    | none => return .inl j
    | some name => if j + 1 = i then return .inr ⟨i, name⟩ else return .inl (j + 1)
  else return .inl j

theorem dot_nonzero : (0 : Byte) ∉ [(0x2E : Byte)] := by decide

theorem dotdot_nonzero : (0 : Byte) ∉ [(0x2E : Byte), 0x2E] := by decide

/-- `tar_readdir`. -/
def tarReaddir (device : Ramdisk) (obj : TarObj) (i : Word) : Kernel (Option Dirent) := do
  if i = 0#32 then return some ⟨0, ⟨[0x2E], dot_nonzero⟩⟩
  else if i = 1#32 then return some ⟨1, ⟨[0x2E, 0x2E], dotdot_nonzero⟩⟩
  else
    match ← tarForeach device (readdirBody obj.name i.toNat) 1 with
    | .inl _ => return none
    | .inr v => return some v

end Myunix.Tar
