import Myunix.Boot.BlockMap

/-!
# From the multiboot information to the block map (`kmain.c`)

Before paging is on, `kmain` marks every block of memory as used, frees the blocks of the regions that the boot loader
reports as available, and marks those again that hold the kernel, its modules, the block map and the boot information.
Each of these steps is a loop over addresses, from the first byte of a range in steps of a block; `visits` are the
addresses such a loop visits.

The memory map is read where it lies: `mmapWalk` follows the sizes of the entries. The other boot information is given
by its values and addresses. Reading it after `pmm_init` needs that `pmm_init` has not written to it, which
`bootBlocks` checks.
-/

namespace Myunix.Boot

open Lib Pmm

/-! ## Boot information -/

/-- `MULTIBOOT_INFO_MEMORY`. -/
def multibootInfoMemory : Word := 0x00000001#32

/-- `MULTIBOOT_INFO_CMDLINE`. -/
def multibootInfoCmdline : Word := 0x00000004#32

/-- `MULTIBOOT_INFO_MODS`. -/
def multibootInfoMods : Word := 0x00000008#32

/-- `MULTIBOOT_INFO_MEM_MAP`. -/
def multibootInfoMemMap : Word := 0x00000040#32

/-- `MULTIBOOT_INFO_BOOT_LOADER_NAME`. -/
def multibootInfoBootLoaderName : Word := 0x00000200#32

/-- `MULTIBOOT_MEMORY_AVAILABLE`. -/
def multibootMemoryAvailable : Word := 1#32

/-- `multiboot_memory_map_t`. -/
structure MmapEntry where
  size : Word
  addr : BitVec 64
  len : BitVec 64
  type : Word

/-- A string of the boot information: its address and `strlen`. Its NUL is in the address space. -/
structure BootString where
  addr : Word
  strlen : Nat
  fits : addr.toNat + strlen < 0x100000000

/-- `multiboot_module_t`. -/
structure BootModule where
  modStart : Word
  modEnd : Word
  cmdline : BootString

/-- `multiboot_info_t` at address `mbi`, with what its pointers lead to; `entryAt` reads the memory map. -/
structure MultibootInfo where
  mbi : Word
  flags : Word
  memUpper : Word
  cmdline : BootString
  modsAddr : Word
  mods : List BootModule
  mmapAddr : Word
  mmapLength : Word
  entryAt : Word → MmapEntry
  bootLoaderName : BootString

/-- The kernel image, from `_start` to `_end`. -/
structure Image where
  start : Word
  stop : Word

/-- A range of bytes. -/
structure Range where
  lo : Nat
  hi : Nat

namespace MultibootInfo

/-- The flag `f` is set. -/
def Has (boot : MultibootInfo) (f : Word) : Prop := boot.flags &&& f ≠ 0#32

instance (boot : MultibootInfo) (f : Word) : Decidable (boot.Has f) := inferInstanceAs (Decidable (_ ≠ _))

/-- The modules, when there are any. -/
def modules (boot : MultibootInfo) : List BootModule := if boot.Has multibootInfoMods then boot.mods else []

/-- `&mods[i]`. -/
def modAddr (boot : MultibootInfo) (i : Nat) : Word := boot.modsAddr + BitVec.ofNat 32 (16 * i)

/-- `mbi->mmap_addr + mbi->mmap_length`. -/
def mmapStop (boot : MultibootInfo) : Word := boot.mmapAddr + boot.mmapLength

/-- The walk over the memory map from `mmap` on; `none` when it is not over after `fuel` entries. -/
def mmapWalk (boot : MultibootInfo) : Nat → Word → Option (List MmapEntry)
  | 0, _ => none
  | fuel + 1, mmap =>
    if mmap < boot.mmapStop then
      (boot.mmapWalk fuel (mmap + (boot.entryAt mmap).size + 4#32)).map (boot.entryAt mmap :: ·)
    else some []

end MultibootInfo

/-! ## Sizes -/

/-- `real_end` is moved behind module `i` and its entry in the list. -/
def moveEnd (boot : MultibootInfo) (i : Nat) (m : BootModule) (realEnd : Word) : Word :=
  let listEnd := boot.modAddr i + 16#32
  let realEnd := if realEnd < listEnd then listEnd else realEnd
  if realEnd < m.modEnd then m.modEnd else realEnd

/-- The loop of `kmain` over the modules that moves `real_end` behind them. -/
def extendEnd (boot : MultibootInfo) : List BootModule → Nat → Word → Kernel Word
  | [], _, realEnd => .ok realEnd
  | m :: ms, i, realEnd => do
    kassert (m.modStart ≤ m.modEnd)
    extendEnd boot ms (i + 1) (moveEnd boot i m realEnd)

/-- The end of the last available region, cut to 32 bits. -/
def mmapAvail (entries : List MmapEntry) : Word :=
  entries.foldl (fun avail e =>
    let mmapEnd := (e.addr + e.len).setWidth 32
    if e.type = multibootMemoryAvailable then if avail < mmapEnd then mmapEnd else avail else avail) 0#32

/-- `mem_avail`, as it is given to `pmm_init`. -/
def memAvail (boot : MultibootInfo) (entries : List MmapEntry) : Word :=
  let avail :=
    if boot.Has multibootInfoMemMap then mmapAvail entries
    else if boot.Has multibootInfoMemory then 1024#32 * (1024#32 + boot.memUpper)
    else 0#32
  if avail = 0#32 then 0xFFFFFFFF#32 else avail

/-! ## Loops over addresses -/

/-- The values of `i` in `for (i = start; i < stop; i += BLOCK_SIZE)`. A loop that went on beyond the address space would
first come to the last page, which is no block of any map. -/
def visits (start stop : Nat) : List Nat := (List.range ((stop - start + 4095) / 4096)).map fun k => start + k * 4096

/-- `pmm_set_block(i / BLOCK_SIZE)` for each `i`. -/
def setBlocks : List Nat → BlockMap → Kernel BlockMap
  | [], p => .ok p
  | i :: is, p => pmmSetBlock p (i / 4096) >>= setBlocks is

/-- `pmm_unset_block(i / BLOCK_SIZE)` for each `i`. -/
def unsetBlocks : List Nat → BlockMap → Kernel BlockMap
  | [], p => .ok p
  | i :: is, p => pmmUnsetBlock p (i / 4096) >>= unsetBlocks is

/-! ## The memory map -/

/-- The addresses `mmap->addr + i` visited for an available region. -/
def MmapEntry.visits (e : MmapEntry) : List Nat := Boot.visits e.addr.toNat (e.addr.toNat + e.len.toNat)

/-- The loop over the memory map that frees the available regions below 4 GiB; it ends at an entry of type 0. -/
def freeEntries : List MmapEntry → BlockMap → Kernel BlockMap
  | [], p => .ok p
  | e :: es, p =>
    if e.type = multibootMemoryAvailable then
      if e.addr >>> 32 ≠ 0#64 then freeEntries es p
      else unsetBlocks e.visits p >>= freeEntries es
    else if e.type = 0#32 then .ok p
    else freeEntries es p

/-! ## Reservations -/

/-- The visits of `for (i = s; i < s + strlen(s); i += BLOCK_SIZE)`. -/
def BootString.visits (s : BootString) : List Nat := Boot.visits s.addr.toNat (s.addr.toNat + s.strlen)

/-- The addresses `v_addr` of the loop over a module's command line: `j` starts at the address of the string and ends at
its length, and is then added to the address. -/
def BootString.modVisits (s : BootString) : List Nat :=
  if s.addr = 0#32 then []
  else (Boot.visits s.addr.toNat s.strlen).map fun j => (s.addr.toNat + j) % 0x100000000

/-- `mbi->cmdline`, when there is one. -/
def cmdlines (boot : MultibootInfo) : List BootString :=
  if boot.Has multibootInfoCmdline then if boot.cmdline.addr ≠ 0#32 then [boot.cmdline] else [] else []

/-- The visits of the loop over the bytes of a module, the byte at `mod_end` included. -/
def BootModule.visits (m : BootModule) : List Nat := Boot.visits m.modStart.toNat (m.modEnd.toNat + 1)

/-- The loop that reserves the modules from number `i` on. -/
def setModules (boot : MultibootInfo) : List BootModule → Nat → BlockMap → Kernel BlockMap
  | [], _, p => .ok p
  | m :: ms, i, p => do
    let p ← setBlocks ((boot.modAddr i).toNat :: m.cmdline.modVisits) p
    kassert (m.modStart ≤ m.modEnd)
    let p ← setBlocks m.visits p
    setModules boot ms (i + 1) p

/-- The reservation of the memory map. -/
def mmapVisits (boot : MultibootInfo) : List Nat :=
  if boot.Has multibootInfoMemMap then visits boot.mmapAddr.toNat boot.mmapStop.toNat else []

/-- `mbi->boot_loader_name`, when there is one. -/
def names (boot : MultibootInfo) : List BootString :=
  if boot.Has multibootInfoBootLoaderName then [boot.bootLoaderName] else []

/-- The reservation of `mbi->boot_loader_name`; `strlen` asserts that it is not `NULL`. -/
def setName (boot : MultibootInfo) (p : BlockMap) : Kernel BlockMap := do
  kassert (∀ s ∈ names boot, s.addr ≠ 0#32)
  setBlocks ((names boot).flatMap BootString.visits) p

/-- `sizeof(struct multiboot_info)`. -/
def multibootInfoSize : Nat := 120

/-- The bytes of a string, with its NUL. -/
def BootString.range (s : BootString) : Range := ⟨s.addr.toNat, s.addr.toNat + s.strlen + 1⟩

/-- The command lines of the modules. -/
def modCmdlines (boot : MultibootInfo) : List BootString :=
  (boot.modules.map BootModule.cmdline).filter fun s => s.addr ≠ 0#32

/-- The structure at `mbi`. -/
def mbiRange (boot : MultibootInfo) : Range := ⟨boot.mbi.toNat, boot.mbi.toNat + multibootInfoSize⟩

/-- The memory map. -/
def mmapRange (boot : MultibootInfo) : Range := ⟨boot.mmapAddr.toNat, boot.mmapAddr.toNat + boot.mmapLength.toNat⟩

/-- What `kmain` reads of the boot information after `pmm_init`. -/
def infoRanges (boot : MultibootInfo) : List Range :=
  [mbiRange boot, mmapRange boot, ⟨boot.modsAddr.toNat, boot.modsAddr.toNat + 16 * boot.modules.length⟩] ++
    (cmdlines boot ++ names boot ++ modCmdlines boot).map BootString.range

/-- The boot information is apart from the bytes that `pmm_init` and the block map write. -/
def InfoApart (boot : MultibootInfo) (realEnd : Word) (size : Nat) : Prop :=
  ∀ r ∈ infoRanges boot,
    r.hi ≤ r.lo ∨ r.hi ≤ realEnd.toNat ∨ realEnd.toNat + max size (4 * mapWords size) ≤ r.lo

instance (boot : MultibootInfo) (realEnd : Word) (size : Nat) : Decidable (InfoApart boot realEnd size) :=
  List.decidableBAll _ _

/-- `kmain` from the modules to the call of `vmm_init`, for its effect on the block map; `entries` is the walk over the
memory map, `words` what was in memory behind the kernel. -/
def bootBlocks (img : Image) (boot : MultibootInfo) (words : Nat → Word) (entries : List MmapEntry) :
    Kernel BlockMap := do
  let lastEnd ← extendEnd boot boot.modules 0 img.stop
  let realEnd := roundEnd lastEnd
  kassert (realEnd ≠ 0#32)
  let p ← pmmInit words (memAvail boot entries)
  Lib.assert Failure.bounds (InfoApart boot realEnd p.size)
  kassert (boot.Has multibootInfoMemMap)
  let p ← freeEntries entries p
  kassert (img.start.toNat % 4096 = 0)
  let p ← setBlocks (visits img.start.toNat realEnd.toNat) p
  let p ← reserveBlockMap realEnd p
  let p ← pmmSetBlock p 0
  let p ← pmmSetBlock p (boot.mbi.toNat / 4096)
  let p ← setBlocks ((cmdlines boot).flatMap BootString.visits) p
  let p ← setModules boot boot.modules 0 p
  let p ← setBlocks (mmapVisits boot) p
  setName boot p

end Myunix.Boot
