import Myunix.Process.Clone

/-!
# The life of an address space (`process.c`, `vmm.c`, `syscall.c`)

A process gets its page directory from `process_page_directory_new`, which maps the two regions shared with the kernel.
`process_execve`, `syscall_mmap_anon` and `page_directory_clone` map user pages, each in a block of its own; kernel
stacks are entered and taken out again. A directory can have several holders (`page_directory_reference`), and each
holder calls `process_page_directory_free` once.

The arguments of the calls are 32-bit words; what `fs_read` puts into a page of the program is a parameter.
-/

namespace Myunix.Process

open Lib Pmm Vmm

/-- The regions shared with user programs, by their linker symbols. -/
structure SharedRegions where
  startData : Word
  stopData : Word
  startText : Word
  stopText : Word

/-! ## Shared regions -/

/-- The number of rounds of `for (i = 0; i < end - start; i += BLOCK_SIZE)`. -/
def regionRounds (start stop : Word) : Nat := ((stop - start).toNat + 4095) / 4096

/-- `addr = start + i` in round `k`. -/
def regionAddr (start : Word) (k : Nat) : Nat := (start.toNat + k * 4096) % 0x100000000

/-- `process_map_shared_region`. -/
def processMapSharedRegion (pdir : DirPtr) (start stop : Word) (permissions : Word) (vm : Vm) : Kernel Vm := do
  kassert (start.toNat % 4096 = 0)
  forRange (fun k vm => do
    let (table, vm) ← getTableAlloc pdir vm (regionAddr start k)
    mapPage vm (some table) (regionAddr start k) (regionAddr start k) permissions) 0 (regionRounds start stop) vm

/-- `process_unmap_shared_region`. -/
def processUnmapSharedRegion (pdir : DirPtr) (start stop : Word) (vm : Vm) : Kernel Vm := do
  kassert (start.toNat % 4096 = 0)
  forRange (fun k vm => do
    let (table, vm) ← getTableAlloc pdir vm (regionAddr start k)
    let p ← getPage vm (some table) (regionAddr start k)
    kassert (regionAddr start k = (p &&& ~~~ 0xFFF#32).toNat)
    let (table, vm) ← getTableAlloc pdir vm (regionAddr start k)
    mapPage vm (some table) (regionAddr start k) 0 0#32) 0 (regionRounds start stop) vm

/-- `process_page_directory_map_shared`. -/
def processPageDirectoryMapShared (sh : SharedRegions) (pdir : DirPtr) (vm : Vm) : Kernel Vm := do
  let vm ← processMapSharedRegion pdir sh.startData sh.stopData pagePresent vm
  processMapSharedRegion pdir sh.startText sh.stopText pagePresent vm

/-- `process_page_directory_new`. -/
def processPageDirectoryNew (sh : SharedRegions) (vm : Vm) : Kernel (DirPtr × Vm) := do
  let (pdir, vm) ← pageDirectoryNew vm
  let vm ← processPageDirectoryMapShared sh pdir vm
  return (pdir, vm)

/-- The directory that `process_clone` makes for a child without shared memory. -/
def clonePageDirectory (sh : SharedRegions) (old : DirPtr) (vm : Vm) : Kernel (DirPtr × Vm) := do
  let (pdir, vm) ← pageDirectoryNew vm
  let vm ← pageDirectoryClone pdir old vm
  let vm ← processPageDirectoryMapShared sh pdir vm
  return (pdir, vm)

/-! ## Holders -/

/-- A store to `__refcount`. -/
def setRefcount (vm : Vm) (pdir : DirPtr) (n : Int) : Vm :=
  { vm with dirs := Function.update vm.dirs pdir { vm.dirs pdir with refcount := n } }

/-- `page_directory_reference`. -/
def pageDirectoryReference (pdir : DirPtr) (vm : Vm) : Vm :=
  if (vm.dirs pdir).refcount ≠ -1 then setRefcount vm pdir ((vm.dirs pdir).refcount + 1) else vm

/-- `page_table_free` on table `i` of a directory; its loop only asserts that the entries are 0. -/
def pageTableFree (pdir : DirPtr) (i : Nat) (vm : Vm) : Kernel Vm := do
  let physTable := (vm.dirs pdir).physicalTables i
  kassert (physTable &&& pagePresent ≠ 0#32)
  forRange (fun j _ => kassert (vm.pageAt ⟨pdir, i⟩ j = 0#32)) 0 1024 ⟨⟩
  let virtaddr := vm.tableVirt ⟨pdir, i⟩
  let vm ← mapPage vm (getTable vm virtaddr .kernel) virtaddr 0 0#32
  invalidatePage virtaddr
  let pmm ← pmmFreeBlocks vm.pmm (physTable &&& ~~~ 0x3FF#32).toNat 1
  return { vm with pmm := pmm }

/-- `physical_tables[i] = 0; tables[i] = NULL`. -/
def clearTable (pdir : DirPtr) (i : Nat) (vm : Vm) : Vm :=
  let d := vm.dirs pdir
  { vm with dirs := Function.update vm.dirs pdir { d with
      physicalTables := Function.update d.physicalTables i 0#32
      tables := Function.update d.tables i none } }

/-- The loop body of `page_directory_free`. -/
def freeTable (pdir : DirPtr) (i : Nat) (vm : Vm) : Kernel Vm :=
  if (vm.dirs pdir).physicalTables i &&& pagePresent ≠ 0#32 then do
    kassert (((vm.dirs pdir).tables i).isSome)
    let vm ← pageTableFree pdir i vm
    return clearTable pdir i vm
  else do
    kassert (((vm.dirs pdir).tables i).isNone)
    return vm

/-- `page_directory_free`; the object itself goes back to the heap. -/
def pageDirectoryFree (pdir : DirPtr) (vm : Vm) : Kernel Vm := do
  kassert ((vm.dirs pdir).refcount = 0)
  let vm ← forRange (freeTable pdir) 0 1024 vm
  let pmm ← pmmFreeBlocks vm.pmm (vm.dirs pdir).physicalAddress 1
  let vm := { vm with pmm := pmm }
  let virtaddr := (vm.dirs pdir).physicalTablesVirt
  let vm ← mapPage vm (getTable vm virtaddr .kernel) virtaddr 0 0#32
  invalidatePage virtaddr
  return vm

/-- `page_directory_release`. -/
def pageDirectoryRelease (pdir : DirPtr) (vm : Vm) : Kernel Vm := do
  kassert ((vm.dirs pdir).refcount ≠ -1)
  let vm := setRefcount vm pdir ((vm.dirs pdir).refcount - 1)
  if (vm.dirs pdir).refcount = 0 then pageDirectoryFree pdir vm else return vm

/-- The inner loop body of `process_page_directory_free`. -/
def freePage (pdir : DirPtr) (i j : Nat) (vm : Vm) : Kernel Vm :=
  let page := vm.pageAt ⟨pdir, i⟩ j
  if page = 0#32 then return vm
  else if page &&& (pagePresent ||| pageUser) ≠ 0#32 then do
    let pmm ← pmmFreeBlocks vm.pmm (page &&& ~~~ 0xFFF#32).toNat 1
    return ({ vm with pmm := pmm } : Vm).setPageAt ⟨pdir, i⟩ j 0#32
  else throw .assertion

/-- The outer loop body of `process_page_directory_free`. -/
def freePages (pdir : DirPtr) (i : Nat) (vm : Vm) : Kernel Vm :=
  if (vm.dirs pdir).physicalTables i &&& pagePresent ≠ 0#32 then do
    kassert (((vm.dirs pdir).tables i).isSome)
    forRange (freePage pdir i) 0 1024 vm
  else do
    kassert (((vm.dirs pdir).tables i).isNone)
    return vm

/-- `process_page_directory_free`. -/
def processPageDirectoryFree (sh : SharedRegions) (pdir : DirPtr) (vm : Vm) : Kernel Vm :=
  if (vm.dirs pdir).refcount ≠ 1 then pageDirectoryRelease pdir vm
  else do
    let vm ← processUnmapSharedRegion pdir sh.startData sh.stopData vm
    let vm ← processUnmapSharedRegion pdir sh.startText sh.stopText vm
    forRange (freePages pdir) 0 1024 vm

/-! ## User pages -/

/-- `memset((void *)k_tmp, 0, BLOCK_SIZE)` or `fs_read(f, i, BLOCK_SIZE, (void *)k_tmp)` through a scratch page. -/
def fillPage (kTmp : Nat) (content : Nat → Byte) (vm : Vm) : Kernel Vm := do
  let frame ← kernelFrame vm kTmp
  return { vm with frames := Function.update vm.frames frame content }

/-- The loop body that `process_execve` has for each of its regions. -/
def execPage (pdir : DirPtr) (kTmp virtaddr : Nat) (content : Nat → Byte) (vm : Vm) : Kernel Vm := do
  let (block, pmm) ← pmmAllocBlocksSafe vm.pmm 1
  let vm := { vm with pmm := pmm }
  let vm ← mapPage vm (getTable vm kTmp .kernel) kTmp block (pagePresent ||| pageReadwrite)
  invalidatePage kTmp
  let vm ← fillPage kTmp content vm
  let (table, vm) ← getTableAlloc pdir vm virtaddr
  mapPage vm (some table) virtaddr block (pagePresent ||| pageReadwrite ||| pageUser)

/-- The pages of one region from `start` on. -/
def execPages (pdir : DirPtr) (kTmp start n : Nat) (content : Nat → Nat → Byte) (vm : Vm) : Kernel Vm :=
  forRange (fun i vm => execPage pdir kTmp ((start + i * 4096) % 0x100000000) (content i) vm) 0 n vm

/-- A page of zeroes. -/
def zeroPages : Nat → Nat → Byte := fun _ _ => 0#8

/-- The part of `process_execve` that maps the user pages: 256 pages of heap, the program, 256 pages of stack and one
for the arguments. `text` are the pages read from the file. -/
def processExecvePages (pdir : DirPtr) (textPages : Nat) (text : Nat → Nat → Byte) (vm : Vm) : Kernel Vm := do
  let (kTmp, vm) ← findVspace .kernel 1 vm
  kassert (kTmp ≠ 0)
  let vm ← execPages pdir kTmp 0x2000000 256 zeroPages vm
  let vm ← execPages pdir kTmp 0x1000000 textPages text vm
  let vm ← execPages pdir kTmp 0x8000000 256 zeroPages vm
  let vm ← execPages pdir kTmp 0x10000000 1 zeroPages vm
  mapPage vm (getTable vm kTmp .kernel) kTmp 0 0#32

/-- The loop body of `syscall_mmap_anon`. -/
def mmapPage (pdir : DirPtr) (kptr virtaddr : Nat) (prot : Word) (vm : Vm) : Kernel Vm := do
  let (block, pmm) ← pmmAllocBlocksSafe vm.pmm 1
  let vm := { vm with pmm := pmm }
  kassert ((← getPage vm (getTable vm virtaddr pdir) virtaddr) = pageValueReserved)
  let vm ← mapPage vm (getTable vm kptr .kernel) kptr block (pagePresent ||| pageReadwrite)
  let vm ← fillPage kptr (fun _ => 0#8) vm
  let vm ← mapPage vm (getTable vm kptr .kernel) kptr 0 0#32
  invalidatePage kptr
  mapPage vm (getTable vm virtaddr pdir) virtaddr block prot

/-- The address of the mapping of `syscall_mmap_anon`: the one asked for, or one that is found. -/
def mmapAddr (pdir : DirPtr) (addr : Word) (n : Nat) (vm : Vm) : Kernel (Nat × Vm) :=
  if addr = 0#32 then findVspace pdir n vm else return (addr.toNat, vm)

/-- `prot` of `syscall_mmap_anon`. -/
def mmapProt (edx : Word) : Word :=
  if edx = 3#32 then pagePresent ||| pageUser ||| pageReadwrite else pagePresent ||| pageUser

/-- `syscall_mmap_anon`. -/
def syscallMmapAnon (pdir : DirPtr) (addr len edx : Word) (vm : Vm) : Kernel (Word × Vm) :=
  if 4096 * 300 < len.toNat then return (0xFFFFFFFF#32, vm)
  else do
    let (base, vm) ← mmapAddr pdir addr (len.toNat / 4096) vm
    let (kptr, vm) ← findVspace .kernel 1 vm
    kassert (kptr ≠ 0)
    let vm ← forRange (fun i vm => mmapPage pdir kptr ((base + i * 4096) % 0x100000000) (mmapProt edx) vm)
      0 (len.toNat / 4096) vm
    return (BitVec.ofNat 32 base, vm)

/-! ## Kernel stacks -/

/-- `KSTACK_SIZE`. -/
def kstackSize : Nat := 8

/-- `vkaddr = kstack - i * BLOCK_SIZE`. -/
def kstackAddr (kstack : Word) (i : Nat) : Nat := (kstack - BitVec.ofNat 32 (i * 4096)).toNat

/-- `set_page`. -/
def setPage (vm : Vm) (table : TablePtr) (virtaddr : Nat) (page : Word) : Vm :=
  vm.setPageAt table (virtaddr / 4096 % 1024) page

/-- The loop body of `process_map_kstack`. -/
def mapKstackPage (pdir : DirPtr) (vkaddr : Nat) (vm : Vm) : Kernel Vm := do
  let page ← getPage vm (getTable vm vkaddr .kernel) vkaddr
  kassert (page &&& pageUser = 0#32)
  let (table, vm) ← getTableAlloc pdir vm vkaddr
  kassert ((← getPage vm (some table) vkaddr) = 0#32)
  let (table, vm) ← getTableAlloc pdir vm vkaddr
  return setPage vm table vkaddr page

/-- `process_map_kstack`. -/
def processMapKstack (pdir : DirPtr) (kstack : Word) (vm : Vm) : Kernel Vm := do
  kassert (kstack ≠ 0#32)
  forRange (fun i vm => mapKstackPage pdir (kstackAddr kstack i) vm) 0 kstackSize vm

/-- The loop body of `process_unmap_kstack`. -/
def unmapKstackPage (pdir : DirPtr) (vkaddr : Nat) (vm : Vm) : Kernel Vm := do
  let kpage ← getPage vm (getTable vm vkaddr .kernel) vkaddr
  let (table, vm) ← getTableAlloc pdir vm vkaddr
  let upage ← getPage vm (some table) vkaddr
  kassert (kpage &&& ~~~ 0xFFF#32 = upage &&& ~~~ 0xFFF#32)
  let (table, vm) ← getTableAlloc pdir vm vkaddr
  mapPage vm (some table) vkaddr 0 0#32

/-- `process_unmap_kstack`. -/
def processUnmapKstack (pdir : DirPtr) (kstack : Word) (vm : Vm) : Kernel Vm := do
  kassert (kstack ≠ 0#32)
  forRange (fun i vm => unmapKstackPage pdir (kstackAddr kstack i) vm) 0 kstackSize vm

/-! ## Runs -/

/-- How a directory is made: for a new program, or as a copy of directory `old`. -/
def newSpace (sh : SharedRegions) (old : Option DirPtr) (vm : Vm) : Kernel (DirPtr × Vm) :=
  match old with
  | none => processPageDirectoryNew sh vm
  | some old => clonePageDirectory sh old vm

/-- What happens to a directory between its creation and its last release. -/
inductive SpaceOp
  | execve (textPages : Nat) (text : Nat → Nat → Byte)
  | mmap (addr len edx : Word)
  | mapKstack (kstack : Word)
  | unmapKstack (kstack : Word)
  | reference
  | free

/-- One of these calls on directory `pdir`. -/
def spaceStep (sh : SharedRegions) (pdir : DirPtr) (vm : Vm) : SpaceOp → Kernel Vm
  | .execve textPages text => processExecvePages pdir textPages text vm
  | .mmap addr len edx => do return (← syscallMmapAnon pdir addr len edx vm).2
  | .mapKstack kstack => processMapKstack pdir kstack vm
  | .unmapKstack kstack => processUnmapKstack pdir kstack vm
  | .reference => return pageDirectoryReference pdir vm
  | .free => processPageDirectoryFree sh pdir vm

end Myunix.Process
