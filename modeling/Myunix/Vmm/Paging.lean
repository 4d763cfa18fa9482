import Myunix.CString
import Myunix.Pmm.Blocks

/-!
# Page directories and the search for address space (`vmm.c`)

A page directory has 1024 tables of 1024 entries. Directories are objects named by a `DirPtr`; a table is reached
through its directory and index. Physical memory is `frames`, by frame number and offset. Addresses are natural
numbers below `0x100000000`; where C's arithmetic can wrap, the reduction is written out.

* `Vm.entry` is the entry of a virtual page; a page whose table is missing has entry 0.
* `findVspace` reserves pages that are free; `getTableAlloc` adds a missing table to a user directory, and takes the
  page at which the kernel sees the new table from `findVspace` on the kernel directory.
-/

namespace Myunix.Vmm

open Lib Pmm

/-- `PAGE_PRESENT`, `PAGE_TABLE_PRESENT`. -/
def pagePresent : Word := 0x01#32

/-- `PAGE_READWRITE`, `PAGE_TABLE_READWRITE`. -/
def pageReadwrite : Word := 0x02#32

/-- `PAGE_USER`, `PAGE_TABLE_USER`. -/
def pageUser : Word := 0x04#32

/-- `PAGE_VALUE_GUARD`. -/
def pageValueGuard : Word := 0xFFFFF000#32

/-- `PAGE_VALUE_RESERVED`. -/
def pageValueReserved : Word := 0x0FFFF100#32

/-- A page table and the address at which the kernel sees it. -/
structure PageTable where
  virt : Nat
  pages : Nat → Word

/-- `page_directory_t`: `physicalTablesVirt` is the pointer `physical_tables`, `physicalTables` what it points to. -/
structure PageDirectory where
  physicalTablesVirt : Nat
  physicalTables : Nat → Word
  tables : Nat → Option PageTable
  physicalAddress : Nat
  refcount : Int

/-- A pointer to a page directory: `kernel_directory`, or one made by `page_directory_new`. -/
inductive DirPtr
  | kernel
  | user (id : Nat)
deriving DecidableEq, Repr

/-- A pointer to a page table, as the slot of the directory it was read from. -/
structure TablePtr where
  dir : DirPtr
  index : Nat
deriving DecidableEq, Repr

/-- The block map, the directories, and physical memory. Page tables are kept in their directories. -/
structure Vm where
  pmm : BlockMap
  dirs : DirPtr → PageDirectory
  nextDir : Nat
  frames : Nat → Nat → Byte

/-! ## Tables and entries -/

/-- `table->pages[i]`. -/
def Vm.pageAt (vm : Vm) (table : TablePtr) (i : Nat) : Word :=
  match (vm.dirs table.dir).tables table.index with
  | some t => t.pages i
  | none => 0#32

/-- The entry of virtual page `n` in directory `dir`. -/
def Vm.entry (vm : Vm) (dir : DirPtr) (n : Nat) : Word := vm.pageAt ⟨dir, n / 1024⟩ (n % 1024)

/-- The address of a table. -/
def Vm.tableVirt (vm : Vm) (table : TablePtr) : Nat :=
  match (vm.dirs table.dir).tables table.index with
  | some t => t.virt
  | none => 0

/-- `table->pages[i] = page`. -/
def Vm.setPageAt (vm : Vm) (table : TablePtr) (i : Nat) (page : Word) : Vm :=
  let d := vm.dirs table.dir
  let tables := Function.update d.tables table.index
    ((d.tables table.index).map fun t => { t with pages := Function.update t.pages i page })
  { vm with dirs := Function.update vm.dirs table.dir { d with tables } }

/-- `get_table`; the index of a 32-bit address is below 1024. -/
def getTable (vm : Vm) (virtaddr : Nat) (directory : DirPtr) : Option TablePtr :=
  ((vm.dirs directory).tables (virtaddr / 0x400000)).map fun _ => ⟨directory, virtaddr / 0x400000⟩

/-- `get_page`. -/
def getPage (vm : Vm) (table : Option TablePtr) (virtaddr : Nat) : Kernel Word :=
  match table with
  | none => throw .assertion
  | some table => return vm.pageAt table (virtaddr / 4096 % 1024)

/-- `map_page`. -/
def mapPage (vm : Vm) (table : Option TablePtr) (virtaddr physaddr : Nat) (flags : Word) : Kernel Vm :=
  match table with
  | none => throw .assertion
  | some table => do
    kassert (virtaddr % 1024 = 0)
    kassert (vm.tableVirt table % 1024 = 0)
    return vm.setPageAt table (virtaddr / 4096 % 1024) (BitVec.ofNat 32 physaddr ||| flags)

/-- `invalidate_page`: the check; the translation cache is not part of the model. -/
def invalidatePage (virtaddr : Nat) : Kernel PUnit := kassert (virtaddr % 1024 = 0)

/-- The frame that the kernel reaches at a virtual address, through the entry in its directory. -/
def kernelFrame (vm : Vm) (virtaddr : Nat) : Kernel Nat :=
  let page := vm.entry .kernel (virtaddr / 4096)
  if page &&& pagePresent = 0#32 then throw .pageFault else return page.toNat / 4096

/-! ## `find_vspace` -/

/-- What `find_vspace` returns when it finds nothing: `-1`. -/
def noVspace : Nat := 0xFFFFFFFF

section Search

variable (tableAlloc : Vm → Nat → Kernel (TablePtr × Vm)) (dir : DirPtr)

/-- The `while` loop of `find_vspace`: extend a run of `length` free pages at `v_addr` by up to `rest` more. -/
def vspaceLength (vAddr : Nat) : Nat → Nat → Vm → Kernel (Nat × Vm)
  | 0, length, vm => .ok (length, vm)
  | rest + 1, length, vm => do
    let vAddr2 := (vAddr + length * 4096) % 0x100000000
    let (table, vm) ← tableAlloc vm vAddr2
    if (← getPage vm (some table) vAddr2) = 0#32 then vspaceLength vAddr rest (length + 1) vm
    else return (length, vm)

/-- The reservation loop of `find_vspace`: `for (i = start; i < stop; i += BLOCK_SIZE)`. -/
def reserveVspace (start stop : Nat) (vm : Vm) : Kernel Vm :=
  forRange (fun k vm =>
    mapPage vm (getTable vm (start + k * 4096) dir) (start + k * 4096) pageValueReserved.toNat 0#32)
    0 ((stop - start) / 4096) vm

/-- The search loop of `find_vspace` from page `i`; a round moves on by at least one page. -/
def vspaceFrom (n : Nat) : Nat → Nat → Vm → Kernel (Nat × Vm)
  | 0, _, vm => .ok (noVspace, vm)
  | rounds + 1, i, vm =>
    if i < 0x100000 then do
      let vAddr := i * 4096
      let (table, vm) ← tableAlloc vm vAddr
      if (← getPage vm (some table) vAddr) ≠ 0#32 then vspaceFrom n rounds (i + 1) vm
      else
        let (length, vm) ← vspaceLength tableAlloc vAddr (n - 1) 1 vm
        if length = n then
          let vm ← reserveVspace dir vAddr ((vAddr + length * 4096) % 0x100000000) vm
          return (vAddr, vm)
        else vspaceFrom n rounds (i + length + 1) vm
    else .ok (noVspace, vm)

/-- `find_vspace`, given what it calls for the tables of `dir`. -/
def findVspaceWith (n : Nat) (vm : Vm) : Kernel (Nat × Vm) := do
  kassert (n ≠ 0)
  vspaceFrom tableAlloc dir n 0x100000 1 vm

end Search

/-- `get_table_alloc` on the kernel directory, whose tables are all allocated at boot. -/
def kernelTable (vm : Vm) (virtaddr : Nat) : Kernel (TablePtr × Vm) :=
  match getTable vm virtaddr .kernel with
  | some table => return (table, vm)
  | none => throw .assertion

/-- `find_vspace(kernel_directory, n)`. -/
def findVspaceKernel (vm : Vm) (n : Nat) : Kernel (Nat × Vm) := findVspaceWith kernelTable .kernel n vm

/-- The stores of `get_table_alloc` to the directory, with the new table cleared. -/
def Vm.addTable (vm : Vm) (directory : DirPtr) (index phys virt : Nat) : Vm :=
  let d := vm.dirs directory
  { vm with dirs := Function.update vm.dirs directory { d with
      physicalTables := Function.update d.physicalTables index
        (BitVec.ofNat 32 phys ||| (pagePresent ||| pageReadwrite ||| pageUser))
      tables := Function.update d.tables index (some ⟨virt, fun _ => 0#32⟩) } }

/-- `get_table_alloc`. -/
def getTableAlloc (directory : DirPtr) (vm : Vm) (virtaddr : Nat) : Kernel (TablePtr × Vm) :=
  match getTable vm virtaddr directory with
  | some table => return (table, vm)
  | none => do
    kassert (directory ≠ .kernel)
    let index := virtaddr / 0x400000 % 1024
    let (phys, pmm) ← pmmAllocBlocksSafe vm.pmm 1
    let (virt, vm) ← findVspaceKernel { vm with pmm := pmm } 1
    kassert (virt ≠ 0)
    let vm := vm.addTable directory index phys virt
    let vm ← mapPage vm (getTable vm virt .kernel) virt phys (pagePresent ||| pageReadwrite)
    invalidatePage virtaddr
    return (⟨directory, index⟩, vm)

/-- `find_vspace`. -/
def findVspace (dir : DirPtr) (n : Nat) (vm : Vm) : Kernel (Nat × Vm) := findVspaceWith (getTableAlloc dir) dir n vm

/-- `page_directory_new`. Its first statement takes the object from the heap; the model starts after it. -/
def pageDirectoryNew (vm : Vm) : Kernel (DirPtr × Vm) := do
  let (phys, pmm) ← pmmAllocBlocksSafe vm.pmm 1
  let (virt, vm) ← findVspace .kernel 1 { vm with pmm := pmm }
  let (table, vm) ← getTableAlloc .kernel vm virt
  let vm ← mapPage vm (some table) virt phys (pagePresent ||| pageReadwrite)
  let pdir := {
    physicalTablesVirt := virt
    physicalTables := fun _ => 0#32
    tables := fun _ => none
    physicalAddress := phys
    refcount := 1 }
  return (.user vm.nextDir,
    { vm with dirs := Function.update vm.dirs (.user vm.nextDir) pdir, nextDir := vm.nextDir + 1 })

/-! ## What the accesses do -/

/-- Directory `d` has a table with index `k`. -/
def Vm.HasTable (vm : Vm) (d : DirPtr) (k : Nat) : Prop := ∃ t, (vm.dirs d).tables k = some t

/-- The effect of a store to the entry of virtual page `n`. -/
def Vm.setEntry (vm : Vm) (d : DirPtr) (n : Nat) (w : Word) : Vm := vm.setPageAt ⟨d, n / 1024⟩ (n % 1024) w

section Access

variable {vm vm' : Vm} {d d' : DirPtr} {n m k v p : Nat} {w f : Word} {t : TablePtr}

@[simp] theorem setEntry_pmm : (vm.setEntry d n w).pmm = vm.pmm := rfl

@[simp] theorem setEntry_frames : (vm.setEntry d n w).frames = vm.frames := rfl

@[simp] theorem setEntry_nextDir : (vm.setEntry d n w).nextDir = vm.nextDir := rfl

theorem dirs_setEntry_of_ne (h : d' ≠ d) : (vm.setEntry d n w).dirs d' = vm.dirs d' := by
  simp [Vm.setEntry, Vm.setPageAt, h]

/-- A store to an entry leaves the directory itself. -/
theorem physicalTables_setEntry : ((vm.setEntry d n w).dirs d').physicalTables = (vm.dirs d').physicalTables ∧
    ((vm.setEntry d n w).dirs d').physicalTablesVirt = (vm.dirs d').physicalTablesVirt := by
  by_cases hd : d' = d
  · subst hd
    simp [Vm.setEntry, Vm.setPageAt]
  · rw [dirs_setEntry_of_ne hd]
    exact ⟨rfl, rfl⟩

theorem page_eq : m = n ↔ m / 1024 = n / 1024 ∧ m % 1024 = n % 1024 := by omega

/-- A store reaches the entry of its page and no other. -/
theorem entry_setEntry (ht : vm.HasTable d (n / 1024)) :
    (vm.setEntry d n w).entry d' m = if d' = d ∧ m = n then w else vm.entry d' m := by
  obtain ⟨t, ht⟩ := ht
  unfold Vm.entry Vm.pageAt Vm.setEntry Vm.setPageAt
  by_cases hd : d' = d
  · subst hd
    by_cases hk : m / 1024 = n / 1024
    · rw [hk]
      simp only [Function.update_self, ht, Option.map_some, true_and]
      by_cases hi : m % 1024 = n % 1024
      · rw [if_pos (page_eq.2 ⟨hk, hi⟩), hi, Function.update_self]
      · rw [if_neg (fun h => hi (page_eq.1 h).2), Function.update_of_ne hi]
    · rw [if_neg (fun h => hk (page_eq.1 h.2).1)]
      simp only [Function.update_self, Function.update_of_ne hk]
  · simp only [Function.update_of_ne hd]
    rw [if_neg (fun h => hd h.1)]

theorem hasTable_setEntry : (vm.setEntry d n w).HasTable d' k ↔ vm.HasTable d' k := by
  unfold Vm.HasTable Vm.setEntry Vm.setPageAt
  by_cases hd : d' = d
  · subst hd
    simp only [Function.update_self]
    by_cases hk : k = n / 1024
    · subst hk
      cases h : (vm.dirs d').tables (n / 1024) <;> simp
    · rw [Function.update_of_ne hk]
  · simp only [Function.update_of_ne hd]

theorem tableVirt_setEntry : (vm.setEntry d n w).tableVirt t = vm.tableVirt t := by
  obtain ⟨d', k⟩ := t
  unfold Vm.tableVirt Vm.setEntry Vm.setPageAt
  by_cases hd : d' = d
  · subst hd
    simp only [Function.update_self]
    by_cases hk : k = n / 1024
    · subst hk
      cases h : (vm.dirs d').tables (n / 1024) <;> simp
    · rw [Function.update_of_ne hk]
  · simp only [Function.update_of_ne hd]

/-- The last of two stores to an entry stays. -/
theorem setEntry_setEntry {w' : Word} : (vm.setEntry d n w).setEntry d n w' = vm.setEntry d n w' := by
  unfold Vm.setEntry Vm.setPageAt
  simp only [Function.update_self, Function.update_idem]
  cases (vm.dirs d).tables (n / 1024) with
  | none => rfl
  | some t => simp only [Option.map_some, Function.update_idem]

/-- A store of the value that an entry has. -/
theorem setEntry_self (h : vm.entry d n = w) (ht : vm.HasTable d (n / 1024)) : vm.setEntry d n w = vm := by
  obtain ⟨t, ht⟩ := ht
  have hpage : t.pages (n % 1024) = w := by rw [← h, Vm.entry, Vm.pageAt, ht]
  have htable : some t = (vm.dirs d).tables (n / 1024) := ht.symm
  unfold Vm.setEntry Vm.setPageAt
  simp only [ht, Option.map_some, ← hpage, Function.update_eq_self]
  rw [htable, Function.update_eq_self, Function.update_eq_self]

theorem getTable_eq_some : getTable vm v d = some t ↔ vm.HasTable d (v / 0x400000) ∧ t = ⟨d, v / 0x400000⟩ := by
  unfold getTable Vm.HasTable
  cases h : (vm.dirs d).tables (v / 0x400000) with
  | none => simp
  | some pt => simp [eq_comm]

theorem getTable_eq_none : getTable vm v d = none ↔ ¬ vm.HasTable d (v / 0x400000) := by
  unfold getTable Vm.HasTable
  cases h : (vm.dirs d).tables (v / 0x400000) <;> simp

theorem table_of_page (v : Nat) : v / 4096 / 1024 = v / 0x400000 := by omega

/-- `get_page` on the table of the address reads its entry. -/
theorem getPage_table : getPage vm (some ⟨d, v / 0x400000⟩) v = .ok (vm.entry d (v / 4096)) := by
  unfold getPage Vm.entry
  rw [table_of_page]; rfl

/-- **`map_page`** on the table of the address stores to its entry. -/
theorem mapPage_ok (h : mapPage vm (getTable vm v d) v p f = .ok vm') :
    v % 1024 = 0 ∧ vm.HasTable d (v / 4096 / 1024) ∧ vm' = vm.setEntry d (v / 4096) (BitVec.ofNat 32 p ||| f) := by
  rw [table_of_page]
  cases ht : getTable vm v d with
  | none => rw [ht] at h; simp [mapPage] at h
  | some table =>
    rw [ht] at h
    obtain ⟨hex, rfl⟩ := getTable_eq_some.1 ht
    simp only [mapPage, bind_eq_ok, assert_eq_ok, pure_eq_ok] at h
    obtain ⟨-, hv, -, -, rfl⟩ := h
    refine ⟨hv, hex, ?_⟩
    unfold Vm.setEntry
    rw [table_of_page]

/-- `map_page` returns on an aligned address whose table is there. -/
theorem mapPage_eq (hv : v % 1024 = 0) (ht : vm.HasTable d (v / 0x400000))
    (ha : vm.tableVirt ⟨d, v / 0x400000⟩ % 1024 = 0) :
    mapPage vm (getTable vm v d) v p f = .ok (vm.setEntry d (v / 4096) (BitVec.ofNat 32 p ||| f)) := by
  have hsome : getTable vm v d = some ⟨d, v / 0x400000⟩ := getTable_eq_some.2 ⟨ht, rfl⟩
  rw [hsome]
  simp only [mapPage, assert_pos hv, assert_pos ha, ok_bind, Vm.setEntry, table_of_page]
  rfl

end Access

end Myunix.Vmm
