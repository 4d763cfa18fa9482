import Myunix.Fs.Mount
import Mathlib.Data.List.TakeWhile

/-!
# Opening files (`fs.c`)

`kopen` splits a path into elements, walks the mount graph with them and then asks the drivers, one `finddir` per
element. A symbolic link is resolved by a recursive search for the elements before it followed by its target, at most
ten levels deep. Every node on the way is referenced while it is in use and released after.

A driver is known by what its callbacks return (`Drivers`). As `fs.h` asks, `finddir` returns `NULL` or a node that it
got from `fs_node_new`.
-/

namespace Myunix.Fs

open Lib

variable {σ : Type}

/-- The callbacks of the mounted drivers, over their state. `finddir` gives the contents of the new node, `readlink` its
return value and the buffer. -/
structure Drivers (σ : Type) where
  finddir : σ → NodeInfo → CString → Kernel (Option NodeInfo × σ)
  readlink : σ → NodeInfo → Kernel (Int × List Byte × σ)
  opens : σ → NodeInfo → Word → Kernel σ
  closes : σ → NodeInfo → Kernel σ

/-! ## Paths -/

/-- The loop of `tokenize_path`: single NULs for runs of `/`, none in front. -/
def tokenizeLoop : List Byte → List Byte → List Byte
  | [], s => s
  | c :: path, s =>
    if c = 0x2F then tokenizeLoop path (if s ≠ [] ∧ s.getLast? ≠ some 0 then s ++ [0] else s)
    else tokenizeLoop path (s ++ [c])

/-- `tokenize_path`: the tokens, each with its NUL, and NULs up to the end of the buffer. -/
def tokenizePath (path : CString) : List Byte :=
  let s := tokenizeLoop path.bytes []
  s ++ List.replicate (strlen path + 2 - s.length) 0

/-- The string at the start of a buffer. -/
def cstringAt (s : List Byte) : CString :=
  ⟨s.takeWhile (· ≠ 0), fun h => by simpa using List.mem_takeWhile_imp h⟩

theorem cstringAt_append {t : List Byte} (rest : List Byte) (h : (0 : Byte) ∉ t) :
    (cstringAt (t ++ 0 :: rest)).bytes = t := takeWhile_nonzero rest h

/-- The tokens of such a buffer, one after the other (`while (*s != 0)`); `fuel` bounds their number. -/
def bufferTokens : Nat → List Byte → Kernel (List CString)
  | 0, _ => .ok []
  | _ + 1, [] => .error .bounds
  | fuel + 1, c :: s =>
    if c = 0 then .ok []
    else do
      let token := cstringAt (c :: s)
      let tokens ← bufferTokens fuel ((c :: s).drop (strlen token + 1))
      return token :: tokens

/-- One round of the loop of `canonicalize_path_push_path`. -/
def pushToken (elements : List CString) (token : CString) : Kernel (List CString) := do
  if token.bytes = [0x2E, 0x2E] then
    kassert (elements ≠ [])
    return elements.dropLast
  else if token.bytes = [0x2E] then return elements
  else return elements ++ [token]

/-- `canonicalize_path_push_path`: push the tokens and resolve `.` and `..`. -/
def canonicalizePathPushPath (path : CString) (elements : List CString) : Kernel (List CString) := do
  let tokens ← bufferTokens (tokenizePath path).length (tokenizePath path)
  tokens.foldlM pushToken elements

/-- `canonicalize_path_list`: a relative path is pushed onto the tokens of its parent. -/
def canonicalizePathList (parent relativePath : CString) : Kernel (List CString) := do
  let elements ←
    if strlen relativePath > 0 ∧ relativePath.bytes.head? ≠ some 0x2F then
      bufferTokens (tokenizePath parent).length (tokenizePath parent)
    else pure []
  canonicalizePathPushPath relativePath elements

/-- `copy_elements`: no element is empty. -/
def copyElements : List CString → Kernel (List CString)
  | [] => .ok []
  | e :: elements => do
    kassert (strlen e + 1 ≠ 1)
    let copied ← copyElements elements
    return e :: copied

/-! ## Nodes -/

/-- `fs_node_new`, with the contents that the driver stores. -/
def fsNodeNew (s : FsState σ) (info : NodeInfo) : NodePtr × FsState σ :=
  (s.nextNode, { s with nodes := Function.update s.nodes s.nextNode ⟨info, 1⟩, nextNode := s.nextNode + 1 })

/-- `fs_node_free`. -/
def fsNodeFree (D : Drivers σ) (s : FsState σ) (p : NodePtr) : Kernel (FsState σ) := do
  kassert ((s.nodes p).refcount = 0)
  if (s.nodes p).info.hasClose then
    let driver ← D.closes s.driver (s.nodes p).info
    return { s with closed := s.closed ++ [p], freed := s.freed ++ [p], driver := driver }
  else return { s with freed := s.freed ++ [p] }

/-- `fs_node_release`, with the pointer it leaves behind: `NULL` after the node was freed. -/
def fsNodeRelease (D : Drivers σ) (s : FsState σ) (p : NodePtr) : Kernel (Option NodePtr × FsState σ) := do
  if (s.nodes p).refcount > 0 then
    let s := s.setRefcount p ((s.nodes p).refcount - 1)
    if (s.nodes p).refcount = 0 then
      let s ← fsNodeFree D s p
      return (none, s)
    else return (some p, s)
  else return (some p, s)

/-- `fs_open`. -/
def fsOpen (D : Drivers σ) (s : FsState σ) (p : NodePtr) (flags : Word) : Kernel (FsState σ) := do
  let s ← fsNodeReference s p
  if (s.nodes p).info.hasOpen then
    let driver ← D.opens s.driver (s.nodes p).info flags
    return { s with driver := driver }
  else return s

/-- `fs_finddir`. -/
def fsFinddir (D : Drivers σ) (s : FsState σ) (p : NodePtr) (name : CString) : Kernel (Option NodePtr × FsState σ) := do
  if (s.nodes p).info.directory ∧ (s.nodes p).info.hasFinddir then
    match ← D.finddir s.driver (s.nodes p).info name with
    | (none, driver) => return (none, { s with driver := driver })
    | (some info, driver) =>
      let (node, s) := fsNodeNew { s with driver := driver } info
      return (some node, s)
  else return (none, s)

/-- `fs_readlink` into a buffer of 256 bytes. -/
def fsReadlink (D : Drivers σ) (s : FsState σ) (p : NodePtr) : Kernel (Int × List Byte × FsState σ) := do
  if (s.nodes p).info.symlink ∧ (s.nodes p).info.hasReadlink then
    let (len, buf, driver) ← D.readlink s.driver (s.nodes p).info
    return (len, buf.take 256, { s with driver := driver })
  else return (-1, [], s)

/-! ## Path lookup -/

/-- The path that a link at `node` stands for after the elements before it: its target pushed onto them. -/
def linkElements (D : Drivers σ) (s : FsState σ) (node : NodePtr) (leading : List CString) :
    Kernel (List CString × FsState σ) := do
  let (len, buf, s) ← fsReadlink D s node
  kassert (0 ≤ len)
  match buf[len.toNat]? with
  | none => throw .bounds
  | some c =>
    kassert (c = 0)
    let l ← copyElements leading
    let l ← canonicalizePathPushPath (cstringAt buf) l
    return (l, s)

/-- The loop of `findfile_recursive`, with the recursive call for a link as a parameter. `leading` are the elements
already looked up. -/
def findfileLoop (D : Drivers σ)
    (recurse : List CString → NodePtr → FsState σ → Kernel (Option NodePtr × FsState σ)) (leading : List CString) :
    List CString → NodePtr → FsState σ → Kernel (Option NodePtr × FsState σ)
  | [], node, s => .ok (some node, s)
  | element :: rest, node, s => do
    let (nextNode, s) ← fsFinddir D s node element
    let (_, s) ← fsNodeRelease D s node
    match nextNode with
    | none => return (none, s)
    | some node =>
      if (s.nodes node).info.symlink then
        let (l, s) ← linkElements D s node leading
        match s.rootMount with
        | none => throw .assertion
        | some root =>
          let (mount, l) ← walkMountGraph s l root
          let (nextNode, s) ← recurse l (s.mounts mount).node s
          let (_, s) ← fsNodeRelease D s node
          match nextNode with
          | none => return (none, s)
          | some node => findfileLoop D recurse (leading ++ [element]) rest node s
      else findfileLoop D recurse (leading ++ [element]) rest node s

/-- `findfile_recursive`, by the number of levels left of the 10. -/
def findfileRecursive (D : Drivers σ) :
    Nat → List CString → NodePtr → FsState σ → Kernel (Option NodePtr × FsState σ)
  | 0, _, _, s => .ok (none, s)
  | level + 1, elements, rootNode, s => do
    let s ← fsNodeReference s rootNode
    findfileLoop D (findfileRecursive D level) [] elements rootNode s

/-- `findfile`. -/
def findfile (D : Drivers σ) (s : FsState σ) (root relativePath : CString) : Kernel (Option NodePtr × FsState σ) := do
  let l ← canonicalizePathList root relativePath
  match s.rootMount with
  | none => throw .assertion
  | some rootMount =>
    let (mount, l) ← walkMountGraph s l rootMount
    findfileRecursive D 10 l (s.mounts mount).node s

/-- The first half of `kopen`: the node of the path, with a reference. -/
def kopenNode (D : Drivers σ) (s : FsState σ) (path : CString) : Kernel (Option NodePtr × FsState σ) := do
  if (← memcmp path.mem rootElement.mem 2) = 0 then
    match s.rootMount with
    | some root =>
      let node := (s.mounts root).node
      let s ← fsNodeReference s node
      return (some node, s)
    | none => return (none, s)
  else findfile D s rootElement path

/-- `kopen`. -/
def kopen (D : Drivers σ) (s : FsState σ) (path : CString) (flags : Word) : Kernel (Option NodePtr × FsState σ) := do
  match ← kopenNode D s path with
  | (none, s) => return (none, s)
  | (some node, s) =>
    let s ← fsOpen D s node flags
    fsNodeRelease D s node

end Myunix.Fs
