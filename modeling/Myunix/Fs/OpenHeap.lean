import Myunix.Fs.Open
import Myunix.Lib.HeapLog

/-!
# The heap blocks of path lookup (`fs.c`, `list.c`)

A path is a list on the heap: a block for the list itself, and for each element one for its string and one for its node.
`list_free` gives the nodes back, and the loops in front of it the strings, but the list itself stays. So do the strings
of the elements that `walk_mount_graph` takes out.

Here the lookup has the heap, with the blocks of the file nodes (`FsHeap`). What the drivers take and give back is a
parameter (`HeapEffects`); as in `tar.c`, `tmpfs.c` and `ramdisk.c` they do so in `finddir` and `close` only, and free
nothing but what they have taken themselves.

* `kopenHeap_erases`: without the heap it is `kopen`.
* `kopen_close_heap_iff`: only a lookup of `/` leaves the heap as it was.
-/

namespace Myunix.Fs

open Lib

variable {σ τ : Type}

/-! ## Drivers -/

/-- A driver that has `x.2` frees blocks that it owns or has just taken, and owns no others afterwards. -/
structure KeepsOwn (owns : τ → Nat → Prop) (x y : Heap × τ) : Prop where
  next : x.1.next ≤ y.1.next
  own : ∀ c, owns y.2 c → owns x.2 c ∨ x.1.next ≤ c
  freed : ∀ p ∈ y.1.freed, p ∈ x.1.freed ∨ ∃ c, p = .block c ∧ (owns x.2 c ∨ x.1.next ≤ c)

/-- What the callbacks do to the heap. `finddir` is given its result; `owns` says which blocks the drivers have. -/
structure HeapEffects (τ : Type) where
  finddir : NodeInfo → CString → Option NodeInfo → Heap × τ → Heap × τ
  closes : NodeInfo → Heap × τ → Heap × τ
  owns : τ → Nat → Prop
  finddir_keeps : ∀ info name found x, KeepsOwn owns x (finddir info name found x)
  closes_keeps : ∀ info x, KeepsOwn owns x (closes info x)

/-- The heap, the blocks of the file nodes, and what the drivers have. -/
structure FsHeap (τ : Type) where
  heap : Heap
  node : NodePtr → Nat
  own : τ

/-- A callback of a driver. -/
def FsHeap.driver (hs : FsHeap τ) (f : Heap × τ → Heap × τ) : FsHeap τ :=
  { hs with heap := (f (hs.heap, hs.own)).1, own := (f (hs.heap, hs.own)).2 }

/-! ## Paths -/

/-- An element of a path: its string, with the block of the string and that of the list's node. -/
structure Element where
  text : CString
  value : Nat
  node : Nat

/-- `list_t`. -/
structure ElementList where
  header : Nat
  elements : List Element

/-- The strings of the elements. -/
def texts (l : List Element) : List CString := l.map (·.text)

/-- `list_init`. -/
def listInit (heap : Heap) : ElementList × Heap := (⟨heap.malloc.1, []⟩, heap.malloc.2)

/-- `kmalloc` for a string, and `list_insert`. -/
def insertString (l : List Element) (s : CString) (heap : Heap) : List Element × Heap :=
  let (value, heap) := heap.malloc
  let (node, heap) := heap.malloc
  (l ++ [⟨s, value, node⟩], heap)

/-- The loop that frees the strings, and `list_free`. -/
def freeElements (l : List Element) (heap : Heap) : Heap :=
  (heap.freeAll (l.map fun e => .block e.value)).freeAll (l.map fun e => .block e.node)

/-- One round of the loop of `canonicalize_path_push_path`. -/
def pushTokenHeap (x : List Element × Heap) (token : CString) : Kernel (List Element × Heap) :=
  if token.bytes = [0x2E, 0x2E] then
    match x.1.getLast? with
    | none => throw .assertion
    | some tail => return (x.1.dropLast, (x.2.free (.block tail.value)).free (.block tail.node))
  else if token.bytes = [0x2E] then return x
  else return insertString x.1 token x.2

/-- `canonicalize_path_push_path`. -/
def canonicalizePathPushPathHeap (path : CString) (l : ElementList) (heap : Heap) : Kernel (ElementList × Heap) := do
  let (pathT, heap) := heap.malloc
  let tokens ← bufferTokens (tokenizePath path).length (tokenizePath path)
  let (elements, heap) ← tokens.foldlM pushTokenHeap (l.elements, heap)
  return ({ l with elements := elements }, heap.free (.block pathT))

/-- The part of `canonicalize_path_list` for a relative path. -/
def parentElements (parent relativePath : CString) (heap : Heap) : Kernel (List Element × Heap) :=
  if strlen relativePath > 0 ∧ relativePath.bytes.head? ≠ some 0x2F then do
    let (pT, heap) := heap.malloc
    let tokens ← bufferTokens (tokenizePath parent).length (tokenizePath parent)
    let (elements, heap) := tokens.foldl (fun x token => insertString x.1 token x.2) ([], heap)
    return (elements, heap.free (.block pT))
  else return ([], heap)

/-- `canonicalize_path_list`. -/
def canonicalizePathListHeap (parent relativePath : CString) (heap : Heap) : Kernel (ElementList × Heap) := do
  let (l, heap) := listInit heap
  let (elements, heap) ← parentElements parent relativePath heap
  canonicalizePathPushPathHeap relativePath { l with elements := elements } heap

/-- The loop of `copy_elements`. -/
def copyElementsLoop : List Element → List Element × Heap → Kernel (List Element × Heap)
  | [], x => .ok x
  | e :: rest, x => do
    kassert (strlen e.text + 1 ≠ 1)
    copyElementsLoop rest (insertString x.1 e.text x.2)

/-- `copy_elements`. -/
def copyElementsHeap (elements : List Element) (heap : Heap) : Kernel (ElementList × Heap) := do
  let (l, heap) := listInit heap
  let (copied, heap) ← copyElementsLoop elements ([], heap)
  return ({ l with elements := copied }, heap)

/-- `walk_mount_graph`: of an element that it takes out it frees the node. -/
def walkMountGraphHeap (s : FsState σ) : List Element → MountPtr → Heap → Kernel ((MountPtr × List Element) × Heap)
  | [], mount, heap => .ok ((mount, []), heap)
  | e :: elements, mount, heap => do
    match ← findmount s mount e.text with
    | none => return ((mount, e :: elements), heap)
    | some newMount => walkMountGraphHeap s elements newMount (heap.free (.block e.node))

/-! ## Nodes -/

section Lookup

variable (D : Drivers σ) (E : HeapEffects τ)

/-- `fs_node_free`. -/
def fsNodeFreeHeap (s : FsState σ) (p : NodePtr) (hs : FsHeap τ) : Kernel (FsState σ × FsHeap τ) := do
  let s' ← fsNodeFree D s p
  let hs := if (s.nodes p).info.hasClose then hs.driver (E.closes (s.nodes p).info) else hs
  return (s', { hs with heap := hs.heap.free (.block (hs.node p)) })

/-- `fs_node_release`. -/
def fsNodeReleaseHeap (s : FsState σ) (p : NodePtr) (hs : FsHeap τ) :
    Kernel ((Option NodePtr × FsState σ) × FsHeap τ) := do
  if (s.nodes p).refcount > 0 then
    let s := s.setRefcount p ((s.nodes p).refcount - 1)
    if (s.nodes p).refcount = 0 then
      let (s, hs) ← fsNodeFreeHeap D E s p hs
      return ((none, s), hs)
    else return ((some p, s), hs)
  else return ((some p, s), hs)

/-- `fs_finddir`; a node that is found has a new block. -/
def fsFinddirHeap (s : FsState σ) (p : NodePtr) (name : CString) (hs : FsHeap τ) :
    Kernel ((Option NodePtr × FsState σ) × FsHeap τ) := do
  if (s.nodes p).info.directory ∧ (s.nodes p).info.hasFinddir then
    match ← D.finddir s.driver (s.nodes p).info name with
    | (none, driver) => return ((none, { s with driver := driver }), hs.driver (E.finddir (s.nodes p).info name none))
    | (some info, driver) =>
      let (node, s') := fsNodeNew { s with driver := driver } info
      let hs := hs.driver (E.finddir (s.nodes p).info name (some info))
      let (block, heap) := hs.heap.malloc
      return ((some node, s'), { hs with heap := heap, node := Function.update hs.node node block })
  else return ((none, s), hs)

/-! ## Path lookup -/

/-- The path that a link stands for. -/
def linkElementsHeap (s : FsState σ) (node : NodePtr) (leading : List Element) (hs : FsHeap τ) :
    Kernel ((ElementList × FsState σ) × FsHeap τ) := do
  let (len, buf, s) ← fsReadlink D s node
  kassert (0 ≤ len)
  match buf[len.toNat]? with
  | none => throw .bounds
  | some c =>
    kassert (c = 0)
    let (l, heap) ← copyElementsHeap leading hs.heap
    let (l, heap) ← canonicalizePathPushPathHeap (cstringAt buf) l heap
    return ((l, s), { hs with heap := heap })

/-- The loop of `findfile_recursive`. -/
def findfileLoopHeap
    (recurse : List Element → NodePtr → FsState σ → FsHeap τ → Kernel ((Option NodePtr × FsState σ) × FsHeap τ))
    (leading : List Element) :
    List Element → NodePtr → FsState σ → FsHeap τ → Kernel ((Option NodePtr × FsState σ) × FsHeap τ)
  | [], node, s, hs => .ok ((some node, s), hs)
  | element :: rest, node, s, hs => do
    let ((nextNode, s), hs) ← fsFinddirHeap D E s node element.text hs
    let ((_, s), hs) ← fsNodeReleaseHeap D E s node hs
    match nextNode with
    | none => return ((none, s), hs)
    | some node =>
      if (s.nodes node).info.symlink then
        let ((l, s), hs) ← linkElementsHeap D s node leading hs
        match s.rootMount with
        | none => throw .assertion
        | some root =>
          let ((mount, elements), heap) ← walkMountGraphHeap s l.elements root hs.heap
          let ((nextNode, s), hs) ← recurse elements (s.mounts mount).node s { hs with heap := heap }
          let hs := { hs with heap := freeElements elements hs.heap }
          let ((_, s), hs) ← fsNodeReleaseHeap D E s node hs
          match nextNode with
          | none => return ((none, s), hs)
          | some node => findfileLoopHeap recurse (leading ++ [element]) rest node s hs
      else findfileLoopHeap recurse (leading ++ [element]) rest node s hs

/-- `findfile_recursive`. -/
def findfileRecursiveHeap :
    Nat → List Element → NodePtr → FsState σ → FsHeap τ → Kernel ((Option NodePtr × FsState σ) × FsHeap τ)
  | 0, _, _, s, hs => .ok ((none, s), hs)
  | level + 1, elements, rootNode, s, hs => do
    let s ← fsNodeReference s rootNode
    findfileLoopHeap D E (findfileRecursiveHeap level) [] elements rootNode s hs

/-- `findfile`. -/
def findfileHeap (s : FsState σ) (root relativePath : CString) (hs : FsHeap τ) :
    Kernel ((Option NodePtr × FsState σ) × FsHeap τ) := do
  let (l, heap) ← canonicalizePathListHeap root relativePath hs.heap
  match s.rootMount with
  | none => throw .assertion
  | some rootMount =>
    let ((mount, elements), heap) ← walkMountGraphHeap s l.elements rootMount heap
    let (f, hs) ← findfileRecursiveHeap D E 10 elements (s.mounts mount).node s { hs with heap := heap }
    return (f, { hs with heap := freeElements elements hs.heap })

/-- The first half of `kopen`. -/
def kopenNodeHeap (s : FsState σ) (path : CString) (hs : FsHeap τ) :
    Kernel ((Option NodePtr × FsState σ) × FsHeap τ) := do
  if (← memcmp path.mem rootElement.mem 2) = 0 then
    match s.rootMount with
    | some root =>
      let node := (s.mounts root).node
      let s ← fsNodeReference s node
      return ((some node, s), hs)
    | none => return ((none, s), hs)
  else findfileHeap D E s rootElement path hs

/-- `kopen`. -/
def kopenHeap (s : FsState σ) (path : CString) (flags : Word) (hs : FsHeap τ) :
    Kernel ((Option NodePtr × FsState σ) × FsHeap τ) := do
  match ← kopenNodeHeap D E s path hs with
  | ((none, s), hs) => return ((none, s), hs)
  | ((some node, s), hs) =>
    let s ← fsOpen D s node flags
    fsNodeReleaseHeap D E s node hs

/-- `kopen`, and `fs_close` when it returns a file. -/
def kopenClose (s : FsState σ) (path : CString) (flags : Word) (hs : FsHeap τ) : Kernel (FsState σ × FsHeap τ) := do
  match ← kopenHeap D E s path flags hs with
  | ((none, s), hs) => return (s, hs)
  | ((some f, s), hs) =>
    let ((_, s), hs) ← fsNodeReleaseHeap D E s f hs
    return (s, hs)

end Lookup

/-! ## Without the heap -/

section Erase

variable {D : Drivers σ} {E : HeapEffects τ}

@[simp] theorem texts_nil : texts [] = [] := rfl

@[simp] theorem texts_cons (e : Element) (l : List Element) : texts (e :: l) = e.text :: texts l := rfl

@[simp] theorem texts_append (l l' : List Element) : texts (l ++ l') = texts l ++ texts l' := List.map_append

@[simp] theorem texts_insertString (l : List Element) (s : CString) (heap : Heap) :
    texts (insertString l s heap).1 = texts l ++ [s] := texts_append ..

theorem pushTokenHeap_erases (x : List Element × Heap) (token : CString) :
    (pushTokenHeap x token).map (fun y => texts y.1) = pushToken (texts x.1) token := by
  unfold pushTokenHeap pushToken
  by_cases hup : token.bytes = [0x2E, 0x2E]
  · rw [if_pos hup, if_pos hup]
    cases hlast : x.1.getLast? with
    | none =>
      rw [List.getLast?_eq_none_iff] at hlast
      rw [hlast]
      rfl
    | some tail =>
      have hne : texts x.1 ≠ [] := by
        intro hnil
        rw [texts, List.map_eq_nil_iff] at hnil
        rw [hnil] at hlast
        cases hlast
      rw [assert_bind hne]
      show Except.ok (texts x.1.dropLast) = Except.ok (texts x.1).dropLast
      rw [texts, texts, List.map_dropLast]
  · rw [if_neg hup, if_neg hup]
    by_cases hdot : token.bytes = [0x2E]
    · rw [if_pos hdot, if_pos hdot]
      rfl
    · rw [if_neg hdot, if_neg hdot]
      show Except.ok (texts (insertString x.1 token x.2).1) = Except.ok (texts x.1 ++ [token])
      rw [texts_insertString]

theorem pushTokens_erases (tokens : List CString) (x : List Element × Heap) :
    (tokens.foldlM pushTokenHeap x).map (fun y => texts y.1) = tokens.foldlM pushToken (texts x.1) := by
  induction tokens generalizing x with
  | nil => rfl
  | cons token tokens ih =>
    rw [List.foldlM_cons, List.foldlM_cons]
    exact map_bind_of (pushTokenHeap_erases x token) ih

theorem canonicalizePathPushPathHeap_erases (path : CString) (l : ElementList) (heap : Heap) :
    (canonicalizePathPushPathHeap path l heap).map (fun x => texts x.1.elements) =
      canonicalizePathPushPath path (texts l.elements) := by
  unfold canonicalizePathPushPathHeap canonicalizePathPushPath
  apply map_bind_same
  intro tokens
  exact (map_bind_last fun _ => rfl).trans (pushTokens_erases tokens (l.elements, heap.malloc.2))

theorem insertStrings_texts (tokens : List CString) (x : List Element × Heap) :
    texts (tokens.foldl (fun x token => insertString x.1 token x.2) x).1 = texts x.1 ++ tokens := by
  induction tokens generalizing x with
  | nil => rw [List.append_nil]; rfl
  | cons token tokens ih => rw [List.foldl_cons, ih, texts_insertString, List.append_assoc, List.singleton_append]

theorem canonicalizePathListHeap_erases (parent relativePath : CString) (heap : Heap) :
    (canonicalizePathListHeap parent relativePath heap).map (fun x => texts x.1.elements) =
      canonicalizePathList parent relativePath := by
  unfold canonicalizePathListHeap canonicalizePathList
  have hpush : ∀ x : List Element × Heap, (canonicalizePathPushPathHeap relativePath ⟨heap.malloc.1, x.1⟩ x.2).map
      (fun y => texts y.1.elements) = canonicalizePathPushPath relativePath (texts x.1) :=
    fun x => canonicalizePathPushPathHeap_erases relativePath _ _
  dsimp only [listInit]
  unfold parentElements
  split
  · rw [bind_assoc]
    refine map_bind_same fun tokens => (hpush _).trans ?_
    rw [insertStrings_texts]
    rfl
  · exact hpush _

theorem copyElementsLoop_erases (l : List Element) (x : List Element × Heap) :
    (copyElementsLoop l x).map (fun y => texts y.1) = (copyElements (texts l)).map (texts x.1 ++ ·) := by
  induction l generalizing x with
  | nil =>
    show Except.ok (texts x.1) = Except.ok (texts x.1 ++ [])
    rw [List.append_nil]
  | cons e l ih =>
    rw [texts_cons]
    unfold copyElementsLoop copyElements
    cases kassert (strlen e.text + 1 ≠ 1) with
    | error f => rfl
    | ok _ =>
      rw [ok_bind, ok_bind, ih, texts_insertString]
      refine (map_bind_last fun copied => ?_).symm
      show Except.ok (texts x.1 ++ e.text :: copied) = Except.ok (texts x.1 ++ [e.text] ++ copied)
      rw [List.append_assoc, List.singleton_append]

theorem copyElementsHeap_erases (l : List Element) (heap : Heap) :
    (copyElementsHeap l heap).map (fun x => texts x.1.elements) = copyElements (texts l) := by
  have hid : (copyElements (texts l)).map (texts [] ++ ·) = copyElements (texts l) := by
    cases copyElements (texts l) <;> rfl
  rw [← hid, ← copyElementsLoop_erases l ([], heap.malloc.2)]
  unfold copyElementsHeap
  exact map_bind_last fun _ => rfl

theorem walkMountGraphHeap_erases (s : FsState σ) (l : List Element) (mount : MountPtr) (heap : Heap) :
    (walkMountGraphHeap s l mount heap).map (fun x => (x.1.1, texts x.1.2)) = walkMountGraph s (texts l) mount := by
  induction l generalizing mount heap with
  | nil => rfl
  | cons e l ih =>
    rw [texts_cons]
    unfold walkMountGraphHeap walkMountGraph
    apply map_bind_same
    intro found
    cases found with
    | none => rfl
    | some newMount => exact ih newMount _

theorem fsNodeFreeHeap_erases (s : FsState σ) (p : NodePtr) (hs : FsHeap τ) :
    (fsNodeFreeHeap D E s p hs).map Prod.fst = fsNodeFree D s p := by
  unfold fsNodeFreeHeap
  cases fsNodeFree D s p with
  | error e => rfl
  | ok s' => rfl

theorem fsNodeReleaseHeap_erases (s : FsState σ) (p : NodePtr) (hs : FsHeap τ) :
    (fsNodeReleaseHeap D E s p hs).map Prod.fst = fsNodeRelease D s p := by
  unfold fsNodeReleaseHeap fsNodeRelease
  split
  · dsimp only
    split
    · exact map_bind_of (fsNodeFreeHeap_erases _ p hs) fun _ => rfl
    · rfl
  · rfl

theorem fsFinddirHeap_erases (s : FsState σ) (p : NodePtr) (name : CString) (hs : FsHeap τ) :
    (fsFinddirHeap D E s p name hs).map Prod.fst = fsFinddir D s p name := by
  unfold fsFinddirHeap fsFinddir
  split
  · apply map_bind_same
    intro found
    obtain ⟨info, driver⟩ := found
    cases info <;> rfl
  · rfl

theorem linkElementsHeap_erases (s : FsState σ) (node : NodePtr) (leading : List Element) (hs : FsHeap τ) :
    (linkElementsHeap D s node leading hs).map (fun x => (texts x.1.1.elements, x.1.2)) =
      linkElements D s node (texts leading) := by
  unfold linkElementsHeap linkElements
  refine map_bind_same fun link => map_bind_same fun _ => ?_
  cases link.2.1[link.1.toNat]? with
  | none => rfl
  | some c =>
    refine map_bind_same fun _ => map_bind_of (copyElementsHeap_erases leading hs.heap) fun copied => ?_
    exact map_bind_of (canonicalizePathPushPathHeap_erases _ copied.1 copied.2) fun _ => rfl

theorem findfileLoopHeap_erases
    {recurse : List Element → NodePtr → FsState σ → FsHeap τ → Kernel ((Option NodePtr × FsState σ) × FsHeap τ)}
    {recurse' : List CString → NodePtr → FsState σ → Kernel (Option NodePtr × FsState σ)}
    (hrec : ∀ l p s hs, (recurse l p s hs).map Prod.fst = recurse' (texts l) p s) (elements leading : List Element)
    (node : NodePtr) (s : FsState σ) (hs : FsHeap τ) :
    (findfileLoopHeap D E recurse leading elements node s hs).map Prod.fst =
      findfileLoop D recurse' (texts leading) (texts elements) node s := by
  induction elements generalizing leading node s hs with
  | nil => rfl
  | cons element rest ih =>
    rw [texts_cons]
    unfold findfileLoopHeap findfileLoop
    apply map_bind_of (fsFinddirHeap_erases s node element.text hs)
    intro found
    apply map_bind_of (fsNodeReleaseHeap_erases found.1.2 node found.2)
    intro released
    cases found.1.1 with
    | none => rfl
    | some next =>
      have hrest : ∀ p s hs, (findfileLoopHeap D E recurse (leading ++ [element]) rest p s hs).map Prod.fst =
          findfileLoop D recurse' (texts leading ++ [element.text]) (texts rest) p s := by
        intro p s hs
        rw [ih (leading ++ [element]) p s hs, texts_append]
        rfl
      dsimp only
      split
      · apply map_bind_of (linkElementsHeap_erases released.1.2 next leading released.2)
        intro link
        dsimp only
        cases link.1.2.rootMount with
        | none => rfl
        | some root =>
          apply map_bind_of (walkMountGraphHeap_erases link.1.2 link.1.1.elements root link.2.heap)
          intro walked
          apply map_bind_of (hrec walked.1.2 _ link.1.2 _)
          intro target
          apply map_bind_of (fsNodeReleaseHeap_erases target.1.2 next _)
          intro released'
          cases target.1.1 with
          | none => rfl
          | some node => exact hrest node _ _
      · exact hrest next _ _

theorem findfileRecursiveHeap_erases (level : Nat) (elements : List Element) (rootNode : NodePtr) (s : FsState σ)
    (hs : FsHeap τ) : (findfileRecursiveHeap D E level elements rootNode s hs).map Prod.fst =
      findfileRecursive D level (texts elements) rootNode s := by
  induction level generalizing elements rootNode s hs with
  | zero => rfl
  | succ level ih =>
    unfold findfileRecursiveHeap findfileRecursive
    exact map_bind_same fun s => findfileLoopHeap_erases ih elements [] rootNode s hs

theorem findfileHeap_erases (s : FsState σ) (root relativePath : CString) (hs : FsHeap τ) :
    (findfileHeap D E s root relativePath hs).map Prod.fst = findfile D s root relativePath := by
  unfold findfileHeap findfile
  apply map_bind_of (canonicalizePathListHeap_erases root relativePath hs.heap)
  intro l
  cases s.rootMount with
  | none => rfl
  | some rootMount =>
    apply map_bind_of (walkMountGraphHeap_erases s l.1.elements rootMount l.2)
    intro walked
    dsimp only
    rw [← findfileRecursiveHeap_erases (E := E) 10 walked.1.2 _ s { hs with heap := walked.2 }]
    exact map_bind_last fun _ => rfl

/-- **Without the heap** the lookup is `kopen`. -/
theorem kopenHeap_erases (s : FsState σ) (path : CString) (flags : Word) (hs : FsHeap τ) :
    (kopenHeap D E s path flags hs).map Prod.fst = kopen D s path flags := by
  unfold kopenHeap kopen
  refine map_bind_of (e := Prod.fst) ?_ fun found => ?_
  · unfold kopenNodeHeap kopenNode
    apply map_bind_same
    intro c
    split
    · cases s.rootMount with
      | none => rfl
      | some root => exact map_bind_same fun _ => rfl
    · exact findfileHeap_erases s rootElement path hs
  · obtain ⟨⟨node, s⟩, hs⟩ := found
    cases node with
    | none => rfl
    | some node => exact map_bind_same fun s => fsNodeReleaseHeap_erases s node hs

end Erase

/-! ## A block that stays -/

/-- A live block that no element of a list has. -/
structure Apart (b : Nat) (l : List Element) (heap : Heap) : Prop where
  live : heap.Live b
  value : ∀ e ∈ l, e.value ≠ b
  node : ∀ e ∈ l, e.node ≠ b

section Elements

variable {b : Nat} {l l' : List Element} {heap heap' : Heap}

theorem Apart.nil (hb : heap.Live b) : Apart b [] heap := by
  refine ⟨hb, fun e he => ?_, fun e he => ?_⟩
  · cases he
  · cases he

/-- Part of the list, on a heap where the block is live too. -/
theorem Apart.subset (ha : Apart b l heap) (hsub : l' ⊆ l) (hb : heap'.Live b) : Apart b l' heap' :=
  ⟨hb, fun e he => ha.value e (hsub he), fun e he => ha.node e (hsub he)⟩

/-- A string with new blocks. -/
theorem Apart.insertString (ha : Apart b l heap) (s : CString) :
    Apart b (insertString l s heap).1 (insertString l s heap).2 := by
  refine ⟨ha.live.malloc.malloc, fun e he => ?_, fun e he => ?_⟩
  · rcases List.mem_append.1 he with he | he
    · exact ha.value e he
    · rw [List.mem_singleton.1 he]
      exact ha.live.malloc_ne
  · rcases List.mem_append.1 he with he | he
    · exact ha.node e he
    · rw [List.mem_singleton.1 he]
      exact ha.live.malloc.malloc_ne

/-- The blocks of the elements are others. -/
theorem Apart.freeElements (ha : Apart b l heap) : (freeElements l heap).Live b := by
  have hvalue : .block b ∉ l.map fun e => HeapPtr.block e.value := by
    intro hmem
    obtain ⟨e, he, heq⟩ := List.mem_map.1 hmem
    exact ha.value e he (HeapPtr.block.inj heq)
  have hnode : .block b ∉ l.map fun e => HeapPtr.block e.node := by
    intro hmem
    obtain ⟨e, he, heq⟩ := List.mem_map.1 hmem
    exact ha.node e he (HeapPtr.block.inj heq)
  exact (ha.live.freeAll hvalue).freeAll hnode

theorem Live.freeBlock {c : Nat} (hb : heap.Live b) (hne : c ≠ b) : (heap.free (.block c)).Live b :=
  hb.free fun heq => hne (HeapPtr.block.inj heq)

theorem Apart.pushToken {x y : List Element × Heap} {token : CString} (ha : Apart b x.1 x.2)
    (hrun : pushTokenHeap x token = .ok y) : Apart b y.1 y.2 := by
  unfold pushTokenHeap at hrun
  split at hrun
  · split at hrun
    · exact absurd hrun throw_ne_ok
    · rename_i tail hlast
      rw [pure_eq_ok] at hrun
      subst hrun
      have htail : tail ∈ x.1 := List.mem_of_getLast? hlast
      exact ha.subset (List.dropLast_subset x.1)
        (Live.freeBlock (Live.freeBlock ha.live (ha.value tail htail)) (ha.node tail htail))
  · split at hrun
    · rw [pure_eq_ok] at hrun
      rw [← hrun]
      exact ha
    · rw [pure_eq_ok] at hrun
      rw [← hrun]
      exact ha.insertString token

theorem Apart.pushTokens {tokens : List CString} {x y : List Element × Heap} (ha : Apart b x.1 x.2)
    (hrun : tokens.foldlM pushTokenHeap x = .ok y) : Apart b y.1 y.2 := by
  induction tokens generalizing x with
  | nil =>
    rw [List.foldlM_nil, pure_eq_ok] at hrun
    rw [← hrun]
    exact ha
  | cons token tokens ih =>
    rw [List.foldlM_cons, bind_eq_ok] at hrun
    obtain ⟨x', hpush, hrun⟩ := hrun
    exact ih (ha.pushToken hpush) hrun

theorem Apart.pushPath {path : CString} {l l' : ElementList} (ha : Apart b l.elements heap)
    (hrun : canonicalizePathPushPathHeap path l heap = .ok (l', heap')) : Apart b l'.elements heap' := by
  simp only [canonicalizePathPushPathHeap, bind_eq_ok, pure_eq_ok, Prod.mk.injEq] at hrun
  obtain ⟨tokens, -, x, hpush, rfl, rfl⟩ := hrun
  have hx : Apart b x.1 x.2 := Apart.pushTokens (x := (l.elements, heap.malloc.2))
    (ha.subset (List.Subset.refl _) ha.live.malloc) hpush
  exact hx.subset (List.Subset.refl _) (Live.freeBlock hx.live ha.live.malloc_ne)

theorem Apart.insertStrings (tokens : List CString) {x : List Element × Heap} (ha : Apart b x.1 x.2) :
    Apart b (tokens.foldl (fun x token => Fs.insertString x.1 token x.2) x).1
      (tokens.foldl (fun x token => Fs.insertString x.1 token x.2) x).2 := by
  induction tokens generalizing x with
  | nil => exact ha
  | cons token tokens ih => exact ih (ha.insertString token)

theorem parentElements_apart {parent relativePath : CString} (hb : heap.Live b)
    (hrun : parentElements parent relativePath heap = .ok (l, heap')) : Apart b l heap' := by
  unfold parentElements at hrun
  split at hrun
  · simp only [bind_eq_ok, pure_eq_ok, Prod.mk.injEq] at hrun
    obtain ⟨tokens, -, rfl, rfl⟩ := hrun
    have hx := Apart.insertStrings tokens (x := ([], heap.malloc.2)) (Apart.nil hb.malloc)
    exact hx.subset (List.Subset.refl _) (Live.freeBlock hx.live hb.malloc_ne)
  · rw [pure_eq_ok, Prod.mk.injEq] at hrun
    obtain ⟨rfl, rfl⟩ := hrun
    exact Apart.nil hb

/-- The block of the list itself is none of its elements'. -/
theorem canonicalizePathListHeap_header {parent relativePath : CString} {l : ElementList}
    (hfreed : ∀ c, .block c ∈ heap.freed → c < heap.next)
    (hrun : canonicalizePathListHeap parent relativePath heap = .ok (l, heap')) :
    Apart heap.next l.elements heap' := by
  simp only [canonicalizePathListHeap, bind_eq_ok] at hrun
  obtain ⟨x, hparent, hpush⟩ := hrun
  exact (parentElements_apart (Heap.live_malloc hfreed) hparent).pushPath (l := ⟨_, x.1⟩) hpush

theorem Apart.copyLoop {x y : List Element × Heap} (ha : Apart b x.1 x.2)
    (hrun : copyElementsLoop l x = .ok y) : Apart b y.1 y.2 := by
  induction l generalizing x with
  | nil =>
    rw [copyElementsLoop, Except.ok.injEq] at hrun
    rw [← hrun]
    exact ha
  | cons e l ih =>
    simp only [copyElementsLoop, bind_eq_ok] at hrun
    obtain ⟨-, -, hrun⟩ := hrun
    exact ih (ha.insertString e.text) hrun

theorem copyElementsHeap_apart {l' : ElementList} (hb : heap.Live b)
    (hrun : copyElementsHeap l heap = .ok (l', heap')) : Apart b l'.elements heap' := by
  simp only [copyElementsHeap, bind_eq_ok, pure_eq_ok, Prod.mk.injEq] at hrun
  obtain ⟨x, hcopy, rfl, rfl⟩ := hrun
  exact Apart.copyLoop (x := ([], heap.malloc.2)) (Apart.nil hb.malloc) hcopy

theorem Apart.walk {s : FsState σ} {mount mount' : MountPtr} (ha : Apart b l heap)
    (hrun : walkMountGraphHeap s l mount heap = .ok ((mount', l'), heap')) : Apart b l' heap' := by
  induction l generalizing mount heap with
  | nil =>
    simp only [walkMountGraphHeap, Except.ok.injEq, Prod.mk.injEq] at hrun
    obtain ⟨⟨-, rfl⟩, rfl⟩ := hrun
    exact ha
  | cons e l ih =>
    simp only [walkMountGraphHeap, bind_eq_ok] at hrun
    obtain ⟨found, -, hrun⟩ := hrun
    cases found with
    | none =>
      simp only [pure_eq_ok, Prod.mk.injEq] at hrun
      obtain ⟨⟨-, rfl⟩, rfl⟩ := hrun
      exact ha
    | some newMount =>
      have he : e.node ≠ b := ha.node e List.mem_cons_self
      exact ih (ha.subset (List.subset_cons_self e l) (Live.freeBlock ha.live he)) hrun

end Elements

/-- A live block that neither a node nor a driver has. -/
structure Spared (E : HeapEffects τ) (b : Nat) (hs : FsHeap τ) : Prop where
  live : hs.heap.Live b
  node : ∀ p, hs.node p ≠ b
  own : ¬ E.owns hs.own b

section Spared

variable {D : Drivers σ} {E : HeapEffects τ} {b : Nat} {s s' : FsState σ} {hs hs' : FsHeap τ} {p : NodePtr}

theorem Spared.setHeap {heap : Heap} (hb : Spared E b hs) (hlive : heap.Live b) :
    Spared E b { hs with heap := heap } := ⟨hlive, hb.node, hb.own⟩

/-- A driver that keeps to its own blocks. -/
theorem Spared.driver {f : Heap × τ → Heap × τ} (hb : Spared E b hs)
    (hf : KeepsOwn E.owns (hs.heap, hs.own) (f (hs.heap, hs.own))) : Spared E b (hs.driver f) := by
  have hnext : b < hs.heap.next := hb.live.lt
  refine ⟨⟨Nat.lt_of_lt_of_le hnext hf.next, fun hmem => ?_⟩, hb.node, fun hown => ?_⟩
  · rcases hf.freed _ hmem with hmem | ⟨c, hc, hown⟩
    · exact hb.live.notFreed hmem
    · cases hc
      rcases hown with hown | hnew
      · exact hb.own hown
      · exact Nat.not_le_of_lt hnext hnew
  · rcases hf.own b hown with hown | hnew
    · exact hb.own hown
    · exact Nat.not_le_of_lt hnext hnew

theorem Spared.nodeFree (hb : Spared E b hs) (hrun : fsNodeFreeHeap D E s p hs = .ok (s', hs')) : Spared E b hs' := by
  simp only [fsNodeFreeHeap, bind_eq_ok, pure_eq_ok, Prod.mk.injEq] at hrun
  obtain ⟨-, -, -, rfl⟩ := hrun
  split
  · have hc := hb.driver (f := E.closes (s.nodes p).info) (E.closes_keeps _ _)
    exact hc.setHeap (Live.freeBlock hc.live (hb.node p))
  · exact hb.setHeap (Live.freeBlock hb.live (hb.node p))

theorem Spared.nodeRelease {r : Option NodePtr} (hb : Spared E b hs)
    (hrun : fsNodeReleaseHeap D E s p hs = .ok ((r, s'), hs')) : Spared E b hs' := by
  unfold fsNodeReleaseHeap at hrun
  split at hrun
  · dsimp only at hrun
    split at hrun
    · simp only [bind_eq_ok, pure_eq_ok, Prod.mk.injEq] at hrun
      obtain ⟨⟨s₁, hs₁⟩, hfree, -, rfl⟩ := hrun
      exact hb.nodeFree hfree
    · simp only [pure_eq_ok, Prod.mk.injEq] at hrun
      rw [← hrun.2]
      exact hb
  · simp only [pure_eq_ok, Prod.mk.injEq] at hrun
    rw [← hrun.2]
    exact hb

theorem Spared.finddir {name : CString} {r : Option NodePtr} (hb : Spared E b hs)
    (hrun : fsFinddirHeap D E s p name hs = .ok ((r, s'), hs')) : Spared E b hs' := by
  unfold fsFinddirHeap at hrun
  split at hrun
  · simp only [bind_eq_ok] at hrun
    obtain ⟨⟨info, driver⟩, -, hrun⟩ := hrun
    have hc := hb.driver (f := E.finddir (s.nodes p).info name info) (E.finddir_keeps _ _ _ _)
    cases info with
    | none =>
      simp only [pure_eq_ok, Prod.mk.injEq] at hrun
      rw [← hrun.2]
      exact hc
    | some info =>
      simp only [pure_eq_ok, Prod.mk.injEq] at hrun
      rw [← hrun.2]
      refine ⟨hc.live.malloc, fun q => ?_, hc.own⟩
      by_cases hq : q = s.nextNode
      · rw [hq]
        exact (Function.update_self _ _ _).trans_ne hc.live.malloc_ne
      · exact (Function.update_of_ne hq _ _).trans_ne (hc.node q)
  · simp only [pure_eq_ok, Prod.mk.injEq] at hrun
    rw [← hrun.2]
    exact hb

theorem Spared.link {node : NodePtr} {leading : List Element} {l : ElementList} (hb : Spared E b hs)
    (hrun : linkElementsHeap D s node leading hs = .ok ((l, s'), hs')) :
    Spared E b hs' ∧ Apart b l.elements hs'.heap := by
  simp only [linkElementsHeap, bind_eq_ok] at hrun
  obtain ⟨⟨len, buf, s₁⟩, -, -, -, hrun⟩ := hrun
  dsimp only at hrun
  split at hrun
  · cases hrun
  · simp only [bind_eq_ok, pure_eq_ok, Prod.mk.injEq] at hrun
    obtain ⟨-, -, ⟨copied, heap₁⟩, hcopy, ⟨l', heap₂⟩, hpush, ⟨rfl, -⟩, rfl⟩ := hrun
    have ha := (copyElementsHeap_apart hb.live hcopy).pushPath hpush
    exact ⟨hb.setHeap ha.live, ha⟩

/-- What a search does to such a block, for every way it can return. -/
def Spares (E : HeapEffects τ) (b : Nat)
    (find : List Element → NodePtr → FsState σ → FsHeap τ → Kernel ((Option NodePtr × FsState σ) × FsHeap τ)) : Prop :=
  ∀ elements root s hs r s' hs', Spared E b hs → find elements root s hs = .ok ((r, s'), hs') → Spared E b hs'

theorem findfileLoopHeap_spares
    {recurse : List Element → NodePtr → FsState σ → FsHeap τ → Kernel ((Option NodePtr × FsState σ) × FsHeap τ)}
    (hrec : Spares E b recurse) (elements leading : List Element) {node : NodePtr} {r : Option NodePtr}
    (hb : Spared E b hs) (hrun : findfileLoopHeap D E recurse leading elements node s hs = .ok ((r, s'), hs')) :
    Spared E b hs' := by
  induction elements generalizing leading node s hs with
  | nil =>
    rw [findfileLoopHeap, Except.ok.injEq, Prod.mk.injEq] at hrun
    rw [← hrun.2]
    exact hb
  | cons element rest ih =>
    simp only [findfileLoopHeap, bind_eq_ok] at hrun
    obtain ⟨⟨⟨next, s₁⟩, hs₁⟩, hfind, ⟨⟨_, s₂⟩, hs₂⟩, hrel, hrun⟩ := hrun
    have hb₂ := (hb.finddir hfind).nodeRelease hrel
    cases next with
    | none =>
      simp only [pure_eq_ok, Prod.mk.injEq] at hrun
      rw [← hrun.2]
      exact hb₂
    | some node =>
      dsimp only at hrun
      split at hrun
      · -- the path of a link is a list of its own, freed after the recursive search
        simp only [bind_eq_ok] at hrun
        obtain ⟨⟨⟨l, s₃⟩, hs₃⟩, hlink, hrun⟩ := hrun
        obtain ⟨hb₃, ha₃⟩ := hb₂.link hlink
        dsimp only at hrun
        split at hrun
        · cases hrun
        · simp only [bind_eq_ok] at hrun
          obtain ⟨⟨⟨mount, elements⟩, heap₄⟩, hwalk, ⟨⟨next, s₅⟩, hs₅⟩, hrecurse, ⟨⟨_, s₆⟩, hs₆⟩, hrel', hrun⟩ := hrun
          have ha₄ := ha₃.walk hwalk
          have hb₅ := hrec _ _ _ _ _ _ _ (hb₃.setHeap ha₄.live) hrecurse
          have ha₅ := ha₄.subset (List.Subset.refl _) hb₅.live
          have hb₆ := (hb₅.setHeap ha₅.freeElements).nodeRelease hrel'
          cases next with
          | none =>
            simp only [pure_eq_ok, Prod.mk.injEq] at hrun
            rw [← hrun.2]
            exact hb₆
          | some node => exact ih (leading ++ [element]) hb₆ hrun
      · exact ih (leading ++ [element]) hb₂ hrun

theorem findfileRecursiveHeap_spares (level : Nat) : Spares E b (findfileRecursiveHeap D E level) := by
  induction level with
  | zero =>
    intro elements root s hs r s' hs' hb hrun
    rw [findfileRecursiveHeap, Except.ok.injEq, Prod.mk.injEq] at hrun
    rw [← hrun.2]
    exact hb
  | succ level ih =>
    intro elements root s hs r s' hs' hb hrun
    simp only [findfileRecursiveHeap, bind_eq_ok] at hrun
    obtain ⟨s₁, -, hrun⟩ := hrun
    exact findfileLoopHeap_spares ih elements [] hb hrun

/-- The blocks that are known were taken. -/
structure FsHeap.WF (E : HeapEffects τ) (hs : FsHeap τ) : Prop where
  freed : ∀ c, .block c ∈ hs.heap.freed → c < hs.heap.next
  node : ∀ p, hs.node p < hs.heap.next
  own : ∀ c, E.owns hs.own c → c < hs.heap.next

/-- **The block of its list outlives `findfile`**: it is the first that is taken. -/
theorem findfileHeap_spares {root relativePath : CString} {r : Option NodePtr} (hwf : hs.WF E)
    (hrun : findfileHeap D E s root relativePath hs = .ok ((r, s'), hs')) : Spared E hs.heap.next hs' := by
  simp only [findfileHeap, bind_eq_ok] at hrun
  obtain ⟨⟨l, heap₁⟩, hlist, hrun⟩ := hrun
  have ha₁ := canonicalizePathListHeap_header hwf.freed hlist
  have hb : Spared E hs.heap.next { hs with heap := heap₁ } :=
    ⟨ha₁.live, fun p => Nat.ne_of_lt (hwf.node p), fun hown => Nat.lt_irrefl _ (hwf.own _ hown)⟩
  dsimp only at hrun
  split at hrun
  · cases hrun
  · simp only [bind_eq_ok, pure_eq_ok, Prod.mk.injEq] at hrun
    obtain ⟨⟨⟨mount, elements⟩, heap₂⟩, hwalk, ⟨f, hs₃⟩, hfind, -, rfl⟩ := hrun
    have ha₂ := ha₁.walk hwalk
    have hb₃ := findfileRecursiveHeap_spares 10 _ _ _ _ _ _ _ (hb.setHeap ha₂.live) hfind
    exact hb₃.setHeap (ha₂.subset (List.Subset.refl _) hb₃.live).freeElements

/-- `kopen` and `fs_close` of another path than `/`. -/
theorem kopenClose_spares {path : CString} {flags : Word} (hwf : hs.WF E) (hpath : path ≠ rootElement)
    (hrun : kopenClose D E s path flags hs = .ok (s', hs')) : Spared E hs.heap.next hs' := by
  obtain ⟨c, hcmp, hc⟩ := CString.memcmp_eq_right path rootElement
  simp only [kopenClose, kopenHeap, kopenNodeHeap, bind_eq_ok] at hrun
  obtain ⟨⟨⟨f, s₂⟩, hs₂⟩, ⟨⟨⟨node, s₁⟩, hs₁⟩, ⟨c', hcmp', hfind⟩, hopen⟩, hclose⟩ := hrun
  obtain rfl : c = c' := Except.ok.inj (hcmp.symm.trans hcmp')
  rw [if_neg fun h => hpath (hc.1 h)] at hfind
  have hb₁ := findfileHeap_spares hwf hfind
  have hb₂ : Spared E hs.heap.next hs₂ := by
    cases node with
    | none =>
      simp only [pure_eq_ok, Prod.mk.injEq] at hopen
      rw [← hopen.2]
      exact hb₁
    | some node =>
      simp only [bind_eq_ok] at hopen
      obtain ⟨s₃, -, hrel⟩ := hopen
      exact hb₁.nodeRelease hrel
  cases f with
  | none =>
    simp only [pure_eq_ok, Prod.mk.injEq] at hclose
    rw [← hclose.2]
    exact hb₂
  | some f =>
    simp only [bind_eq_ok, pure_eq_ok, Prod.mk.injEq] at hclose
    obtain ⟨⟨⟨r, s₄⟩, hs₄⟩, hrel, -, rfl⟩ := hclose
    exact hb₂.nodeRelease hrel

end Spared

/-! ## The root -/

/-- There are more references to the node than `n`, or they are not counted. -/
def Shared (n : Nat) (s : FsState σ) (p : NodePtr) : Prop := n < (s.nodes p).refcount ∨ (s.nodes p).refcount < 0

section Root

variable {D : Drivers σ} {E : HeapEffects τ} {s s' : FsState σ} {hs hs' : FsHeap τ} {p : NodePtr} {n : Nat}

theorem setRefcount_self {k : Int} : ((s.setRefcount p k).nodes p).refcount = k := by simp [FsState.setRefcount]

theorem shared_of_reference (hrun : fsNodeReference s p = .ok s') : Shared 0 s p := by
  simp only [fsNodeReference, bind_eq_ok, assert_eq_ok] at hrun
  obtain ⟨-, hne, -⟩ := hrun
  unfold Shared
  omega

theorem Shared.reference (h : Shared n s p) (hrun : fsNodeReference s p = .ok s') : Shared (n + 1) s' p := by
  simp only [fsNodeReference, bind_eq_ok, assert_eq_ok] at hrun
  obtain ⟨-, -, hrun⟩ := hrun
  unfold Shared at h ⊢
  split at hrun
  · simp only [bind_eq_ok, assert_eq_ok, pure_eq_ok] at hrun
    obtain ⟨-, -, rfl⟩ := hrun
    rw [setRefcount_self]
    omega
  · rw [pure_eq_ok] at hrun
    subst hrun
    omega

theorem Shared.opens {flags : Word} (h : Shared n s p) (hrun : fsOpen D s p flags = .ok s') : Shared (n + 1) s' p := by
  simp only [fsOpen, bind_eq_ok] at hrun
  obtain ⟨s₁, href, hrun⟩ := hrun
  have h₁ := h.reference href
  split at hrun
  · simp only [bind_eq_ok, pure_eq_ok] at hrun
    obtain ⟨driver, -, rfl⟩ := hrun
    exact h₁
  · rw [pure_eq_ok] at hrun
    rw [← hrun]
    exact h₁

/-- The node is not freed. -/
theorem Shared.release {r : Option NodePtr} (h : Shared (n + 1) s p)
    (hrun : fsNodeReleaseHeap D E s p hs = .ok ((r, s'), hs')) : r = some p ∧ Shared n s' p ∧ hs' = hs := by
  unfold Shared at h ⊢
  unfold fsNodeReleaseHeap at hrun
  split at hrun
  · dsimp only at hrun
    rw [if_neg (by rw [setRefcount_self]; omega)] at hrun
    simp only [pure_eq_ok, Prod.mk.injEq] at hrun
    obtain ⟨⟨rfl, rfl⟩, rfl⟩ := hrun
    refine ⟨rfl, ?_, rfl⟩
    rw [setRefcount_self]
    omega
  · simp only [pure_eq_ok, Prod.mk.injEq] at hrun
    obtain ⟨⟨rfl, rfl⟩, rfl⟩ := hrun
    exact ⟨rfl, by omega, rfl⟩

/-- **A lookup of `/`** does nothing to the heap. -/
theorem kopenClose_root {flags : Word} (hrun : kopenClose D E s rootElement flags hs = .ok (s', hs')) : hs' = hs := by
  obtain ⟨c, hcmp, hc⟩ := CString.memcmp_eq_right rootElement rootElement
  simp only [kopenClose, kopenHeap, kopenNodeHeap, bind_eq_ok] at hrun
  obtain ⟨⟨⟨f, s₂⟩, hs₂⟩, ⟨⟨⟨node, s₁⟩, hs₁⟩, ⟨c', hcmp', hfind⟩, hopen⟩, hclose⟩ := hrun
  obtain rfl : c = c' := Except.ok.inj (hcmp.symm.trans hcmp')
  rw [if_pos (hc.2 rfl)] at hfind
  split at hfind
  · rename_i root hroot
    simp only [bind_eq_ok, pure_eq_ok, Prod.mk.injEq] at hfind
    obtain ⟨s₀, href, ⟨rfl, rfl⟩, rfl⟩ := hfind
    have h₁ := (shared_of_reference href).reference href
    simp only [bind_eq_ok] at hopen
    obtain ⟨s₃, hopen, hrel⟩ := hopen
    obtain ⟨rfl, h₂, rfl⟩ := (h₁.opens hopen).release hrel
    simp only [bind_eq_ok, pure_eq_ok, Prod.mk.injEq] at hclose
    obtain ⟨⟨⟨r, s₄⟩, hs₄⟩, hrel', -, rfl⟩ := hclose
    exact (h₂.release hrel').2.2
  · simp only [pure_eq_ok, Prod.mk.injEq] at hfind
    obtain ⟨⟨rfl, rfl⟩, rfl⟩ := hfind
    simp only [pure_eq_ok, Prod.mk.injEq] at hopen
    obtain ⟨⟨rfl, rfl⟩, rfl⟩ := hopen
    simp only [pure_eq_ok, Prod.mk.injEq] at hclose
    exact hclose.2.symm

end Root

/-- **`kopen` and `fs_close`** give back exactly the blocks they take if the path is `/`, and only then. -/
theorem kopen_close_heap_iff (D : Drivers σ) (E : HeapEffects τ) (s s' : FsState σ) (path : CString) (flags : Word)
    (hs hs' : FsHeap τ) (hwf : hs.WF E) (hrun : kopenClose D E s path flags hs = .ok (s', hs')) :
    Heap.Balanced hs.heap hs'.heap ↔ path = rootElement := by
  constructor
  · intro hbal
    by_contra hpath
    exact (kopenClose_spares hwf hpath hrun).live.not_balanced (Nat.le_refl _) hbal
  · rintro rfl
    rw [kopenClose_root hrun]
    exact Heap.balanced_refl hs.heap

/-! ### The blocks of `tar.c` -/

/-- `tar_finddir` takes a block for the path that it rebuilds, and with the node one for its object and one for the name
there. -/
def tarFinddirHeap (found : Option NodeInfo) (x : Heap × (Nat → Option (Nat × Nat))) :
    Heap × (Nat → Option (Nat × Nat)) :=
  let (_, heap) := x.1.malloc
  match found with
  | none => (heap, x.2)
  | some info =>
    let (obj, heap) := heap.malloc
    let (name, heap) := heap.malloc
    (heap, Function.update x.2 info.object (some (obj, name)))

/-- `tar_close`. -/
def tarCloseHeap (info : NodeInfo) (x : Heap × (Nat → Option (Nat × Nat))) : Heap × (Nat → Option (Nat × Nat)) :=
  match x.2 info.object with
  | none => x
  | some (obj, name) => ((x.1.free (.block name)).free (.block obj), Function.update x.2 info.object none)

/-- The blocks of the objects. -/
def TarOwns (own : Nat → Option (Nat × Nat)) (c : Nat) : Prop := ∃ object o, own object = some o ∧ (c = o.1 ∨ c = o.2)

theorem TarOwns.update {own : Nat → Option (Nat × Nat)} {object c : Nat} {v : Option (Nat × Nat)}
    (h : TarOwns (Function.update own object v) c) : TarOwns own c ∨ ∃ o, v = some o ∧ (c = o.1 ∨ c = o.2) := by
  obtain ⟨object', o, ho, hc⟩ := h
  by_cases hobj : object' = object
  · rw [hobj, Function.update_self] at ho
    exact Or.inr ⟨o, ho, hc⟩
  · rw [Function.update_of_ne hobj] at ho
    exact Or.inl ⟨object', o, ho, hc⟩

theorem tarFinddirHeap_keeps (found : Option NodeInfo) (x : Heap × (Nat → Option (Nat × Nat))) :
    KeepsOwn TarOwns x (tarFinddirHeap found x) := by
  cases found with
  | none => exact ⟨Nat.le_succ _, fun c hc => Or.inl hc, fun p hp => Or.inl hp⟩
  | some info =>
    refine ⟨Nat.le_add_right x.1.next 3, fun c hc => ?_, fun p hp => Or.inl hp⟩
    rcases TarOwns.update hc with hc | ⟨o, ho, hc⟩
    · exact Or.inl hc
    · cases ho
      have hnew : c = x.1.next + 1 ∨ c = x.1.next + 2 := hc
      exact Or.inr (by omega)

theorem tarCloseHeap_keeps (info : NodeInfo) (x : Heap × (Nat → Option (Nat × Nat))) :
    KeepsOwn TarOwns x (tarCloseHeap info x) := by
  unfold tarCloseHeap
  split
  · exact ⟨Nat.le_refl _, fun c hc => Or.inl hc, fun p hp => Or.inl hp⟩
  · rename_i obj name ho
    refine ⟨Nat.le_refl _, fun c hc => ?_, fun p hp => ?_⟩
    · rcases TarOwns.update hc with hc | ⟨o, ho', -⟩
      · exact Or.inl hc
      · cases ho'
    · rcases List.mem_cons.1 hp with rfl | hp
      · exact Or.inr ⟨obj, rfl, Or.inl ⟨info.object, _, ho, Or.inl rfl⟩⟩
      · rcases List.mem_cons.1 hp with rfl | hp
        · exact Or.inr ⟨name, rfl, Or.inl ⟨info.object, _, ho, Or.inr rfl⟩⟩
        · exact Or.inl hp

/-- `tar.c`, whose objects have two blocks each. -/
def tarHeapEffects : HeapEffects (Nat → Option (Nat × Nat)) where
  finddir _ _ := tarFinddirHeap
  closes := tarCloseHeap
  owns := TarOwns
  finddir_keeps _ _ := tarFinddirHeap_keeps
  closes_keeps := tarCloseHeap_keeps

/-- A driver whose directories have a link `l` to `a`, files under all other names but `n`, and a new object for each. -/
def tarDrivers : Drivers Nat where
  finddir object _ name :=
    .ok (if name.bytes = [0x6E] then none else some ⟨false, name.bytes = [0x6C], true, true, false, true, object⟩,
      object + 1)
  readlink object _ := .ok (1, [0x61, 0], object)
  opens object _ _ := .ok object
  closes object _ := .ok object

/-- The directory 1 mounted as the root, with its object 0. -/
def tarRoot : FsState Nat :=
  ⟨fun _ => ⟨⟨true, false, false, false, true, false, 0⟩, 3⟩, 10, [], [], fun _ => ⟨rootElement, 1, [], 1⟩, 1, some 0, 1⟩

/-- The blocks of the root. -/
def tarRootHeap : FsHeap (Nat → Option (Nat × Nat)) :=
  ⟨⟨3, []⟩, fun _ => 0, Function.update (fun _ => none) 0 (some (1, 2))⟩

theorem tarRootHeap_wf : tarRootHeap.WF tarHeapEffects := by
  refine ⟨fun c hc => ?_, fun _ => Nat.zero_lt_succ 2, fun c hc => ?_⟩
  · cases hc
  · rcases TarOwns.update hc with ⟨_, _, ho, -⟩ | ⟨o, ho, hc⟩
    · cases ho
    · cases ho
      show c < 3
      omega

/-- Of the 16 blocks taken for `/l` four stay: the lists of the two paths, and the strings that `tar_finddir` rebuilds
for `l` and `a`. -/
theorem kopen_close_heap_link : ∃ s' hs', kopenClose tarDrivers tarHeapEffects tarRoot ⟨[0x2F, 0x6C], by decide⟩ 0
    tarRootHeap = .ok (s', hs') ∧ ¬ Heap.Balanced tarRootHeap.heap hs'.heap := by
  refine ⟨_, _, rfl, fun hbal => ?_⟩
  have h := (kopen_close_heap_iff tarDrivers tarHeapEffects tarRoot _ ⟨[0x2F, 0x6C], by decide⟩ 0 tarRootHeap _
    tarRootHeap_wf rfl).1 hbal
  cases h

/-- The block 3 of the list and the block 7 of the path of `tar_finddir` stay when there is no file `/n`. -/
theorem kopen_missing_heap : ∃ s' hs', kopenHeap tarDrivers tarHeapEffects tarRoot ⟨[0x2F, 0x6E], by decide⟩ 0
    tarRootHeap = .ok ((none, s'), hs') ∧ hs'.heap = ⟨8, [.block 6, .block 5, .block 4]⟩ ∧
    ¬ Heap.Balanced tarRootHeap.heap hs'.heap :=
  ⟨_, _, rfl, rfl, by decide⟩

end Myunix.Fs
