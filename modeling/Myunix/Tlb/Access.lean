import Myunix.Syscall.Copy
import Myunix.Vmm.Heap

/-!
# Kernel memory through the translation cache (`vmm.c`, `syscall.c`, `liballoc.c`)

The processor keeps the entries of kernel pages it has used in its TLB. A cached entry is used as it is, whatever the
kernel directory says by now; it is lost on `invlpg` of its page and on a load of CR3. This module embeds the mapping
functions once more, with every access to a page that one of them has mapped: the scratch pages, the heap, the tables
of `get_table_alloc` and the directories of `page_directory_new`. The tables of the kernel directory and the kernel
image are mapped at boot, and the accesses to them are left out.

* `translate` is one access. It stops the run with `Trap.stale` when the page is mapped and the access would go to
  another frame than the one in the kernel directory.
* `Op` lists the operations of a run, `step` does one. The accesses of callers are operations of their own.
-/

namespace Myunix.Tlb

open Lib Pmm Vmm Process Syscall

/-- The machine and its TLB: `tlb p` is the entry that is cached for kernel page `p`. -/
structure Mmu where
  vm : Vm
  tlb : Nat → Option Word

/-- Why an operation does not return. -/
inductive Trap
  /-- As without a TLB. -/
  | failure (f : Failure)
  /-- A loop that has not ended in the rounds it was given. -/
  | running
  /-- An access at `va`, on a page that is mapped, has gone to a frame that is not the page's. -/
  | stale (va : Nat)
deriving DecidableEq, Repr

abbrev Mem (α : Type) := Outcome Trap α

/-- A part of the code with no access to the pages above. -/
def kernel {α : Type} (x : Kernel α) : Mem α :=
  match x with
  | .ok a => .ok a
  | .error f => .error (.failure f)

/-! ## Accesses -/

/-- The frame that an access at `va` goes to. A page that is not cached is looked up in the kernel directory. -/
def translate (m : Mmu) (va : Nat) : Mem (Nat × Mmu) :=
  let page := m.vm.entry .kernel (va / 4096)
  match m.tlb (va / 4096) with
  | some cached =>
    if page &&& pagePresent ≠ 0#32 ∧ frameOf cached ≠ frameOf page then .error (.stale va)
    else .ok (frameOf cached, m)
  | none =>
    if page &&& pagePresent = 0#32 then .error (.failure .pageFault)
    else .ok (frameOf page, { m with tlb := Function.update m.tlb (va / 4096) (some page) })

/-- An access for its effect on the TLB: directories and page tables have their contents in `Vm.dirs`. -/
def touch (m : Mmu) (va : Nat) : Mem Mmu := do
  let (_, m) ← translate m (va % 0x100000000)
  return m

/-- `*(char *)va`. -/
def load (m : Mmu) (va : Nat) : Mem (Byte × Mmu) := do
  let (frame, m) ← translate m (va % 0x100000000)
  return (m.vm.frames frame (va % 4096), m)

/-- `*(char *)va = b`. -/
def store (m : Mmu) (va : Nat) (b : Byte) : Mem Mmu := do
  let (frame, m) ← translate m (va % 0x100000000)
  let page := Function.update (m.vm.frames frame) (va % 4096) b
  return { m with vm := { m.vm with frames := Function.update m.vm.frames frame page } }

/-- `memcpy`. -/
def memcpy (m : Mmu) (dest src len : Nat) : Mem Mmu := do
  kernel (kassert (dest ≠ 0 ∧ src ≠ 0 ∧ len ≠ 0))
  forRange (fun i m => do
    let (b, m) ← load m (src + i)
    store m (dest + i) b) 0 len m

/-- `memset(dest, 0, len)` on a directory or a page table. -/
def memset (m : Mmu) (dest len : Nat) : Mem Mmu := do
  kernel (kassert (dest ≠ 0 ∧ len ≠ 0))
  forRange (fun i m => touch m (dest + i)) 0 len m

/-- `invalidate_page`. -/
def invalidatePage (m : Mmu) (virtaddr : Nat) : Mem Mmu := do
  kernel (Vmm.invalidatePage virtaddr)
  return { m with tlb := Function.update m.tlb (virtaddr / 4096) none }

/-- A load of CR3. -/
def loadCr3 (m : Mmu) : Mmu := { m with tlb := fun _ => none }

/-- `map_page(get_table(virtaddr, kernel_directory), virtaddr, physaddr, flags)`. -/
def mapKernel (m : Mmu) (virtaddr physaddr : Nat) (flags : Word) : Mem Mmu := do
  let vm ← kernel (mapPage m.vm (getTable m.vm virtaddr .kernel) virtaddr physaddr flags)
  return { m with vm := vm }

/-! ## Directories and tables -/

section Objects

/- The addresses that the heap has given to the objects of the directories. -/
variable (object : DirPtr → Nat)

/-- The address of `directory->tables[i]`. -/
def slotAt (d : DirPtr) (i : Nat) : Nat := object d + 4 + 4 * i

/-- `get_table`. -/
def getTable (m : Mmu) (virtaddr : Nat) (directory : DirPtr) : Mem (Option TablePtr × Mmu) := do
  let m ← touch m (slotAt object directory (virtaddr / 0x400000))
  return (Vmm.getTable m.vm virtaddr directory, m)

/-- `get_page`. -/
def getPage (m : Mmu) (table : TablePtr) (virtaddr : Nat) : Mem (Word × Mmu) := do
  let m ← touch m (m.vm.tableVirt table + 4 * (virtaddr / 4096 % 1024))
  let page ← kernel (Vmm.getPage m.vm (some table) virtaddr)
  return (page, m)

/-- `get_table_alloc`. -/
def getTableAlloc (m : Mmu) (virtaddr : Nat) (directory : DirPtr) : Mem (TablePtr × Mmu) := do
  let (table, m) ← getTable object m virtaddr directory
  match table with
  | some table => return (table, m)
  | none =>
    kernel (kassert (directory ≠ .kernel))
    let index := virtaddr / 0x400000 % 1024
    let (phys, pmm) ← kernel (pmmAllocBlocksSafe m.vm.pmm 1)
    let (virt, vm) ← kernel (findVspaceKernel { m.vm with pmm := pmm } 1)
    kernel (kassert (virt ≠ 0))
    let m ← touch { m with vm := vm } (object directory)
    let m ← touch m ((m.vm.dirs directory).physicalTablesVirt + 4 * index)
    let m ← touch m (slotAt object directory index)
    let m ← mapKernel { m with vm := m.vm.addTable directory index phys virt } virt phys (pagePresent ||| pageReadwrite)
    let m ← invalidatePage m virtaddr
    let m ← touch m (slotAt object directory index)
    let m ← memset m virt 4096
    return (⟨directory, index⟩, m)

/-- `page_directory_new`, after the object has been taken from the heap. -/
def pageDirectoryNew (m : Mmu) : Mem (DirPtr × Mmu) := do
  let pdir := DirPtr.user m.vm.nextDir
  let (phys, pmm) ← kernel (pmmAllocBlocksSafe m.vm.pmm 1)
  let m ← touch { m with vm := { m.vm with pmm := pmm } } (object pdir + 4100)
  let (virt, vm) ← kernel (findVspace .kernel 1 m.vm)
  let m ← touch { m with vm := vm } (object pdir)
  let m ← mapKernel m virt phys (pagePresent ||| pageReadwrite)
  let m ← memset m virt 4096
  let m ← touch m (object pdir + 4104)
  let d := {
    physicalTablesVirt := virt
    physicalTables := fun _ => 0#32
    tables := fun _ => none
    physicalAddress := phys
    refcount := 1 }
  return (pdir,
    { m with vm := { m.vm with dirs := Function.update m.vm.dirs pdir d, nextDir := m.vm.nextDir + 1 } })

/-- `dump_table`. -/
def dumpTable (m : Mmu) (table : TablePtr) : Mem Mmu :=
  forRange (fun k m => touch m (m.vm.tableVirt table + 4 * k)) 0 1024 m

/-- `dump_directory`. -/
def dumpDirectory (m : Mmu) (directory : DirPtr) : Mem Mmu := do
  let m ← touch m (object directory + 4100)
  forRange (fun i m => do
    let m ← touch m (object directory)
    let m ← touch m ((m.vm.dirs directory).physicalTablesVirt + 4 * i)
    let m ← touch m (slotAt object directory i)
    let d := m.vm.dirs directory
    if d.physicalTables i = 0#32 then
      kernel (kassert ((d.tables i).isNone))
      return m
    else if d.physicalTables i &&& pagePresent ≠ 0#32 then
      kernel (kassert ((d.tables i).isSome))
      dumpTable m ⟨directory, i⟩
    else return m) 0 1024 m

/-! ## User memory -/

/-- The loop of `map_userspace_to_kernel`. -/
def mapUserPages (pdir : DirPtr) (ptr kptr : Nat) : Nat → Nat → Mmu → Mem (Bool × Mmu)
  | 0, _, m => .ok (true, m)
  | rest + 1, i, m => do
    let uVirtaddr := (ptr + i * 4096) % 0x100000000
    let kVirtaddr := (kptr + i * 4096) % 0x100000000
    let m ← mapKernel m kVirtaddr 0 0#32
    let m ← invalidatePage m kVirtaddr
    let (table, m) ← getTable object m uVirtaddr pdir
    match table with
    | none => return (false, m)
    | some table =>
      let (page, m) ← getPage m table uVirtaddr
      if page &&& pagePresent = 0#32 ∨ page &&& pageReadwrite = 0#32 ∨ page &&& pageUser = 0#32 then
        return (false, m)
      else
        let m ← mapKernel m kVirtaddr page.toNat (pagePresent ||| pageReadwrite)
        let m ← invalidatePage m kVirtaddr
        mapUserPages pdir ptr kptr rest (i + 1) m

/-- `map_userspace_to_kernel`. The failure path takes the pages down without `invalidate_page`. -/
def mapUserspaceToKernel (m : Mmu) (pdir : DirPtr) (ptr kptr n : Nat) : Mem (Bool × Mmu) := do
  kernel (kassert (ptr % 4096 = 0 ∧ kptr % 4096 = 0 ∧ n ≠ 0))
  let (done, m) ← mapUserPages object pdir ptr kptr n 0 m
  if done then return (true, m)
  else
    let m ← dumpDirectory object m pdir
    let vm ← kernel (unmapMapped kptr n 0 m.vm)
    return (false, { m with vm := vm })

/-- `unmap_from_kernel`. -/
def unmapFromKernel (m : Mmu) (kptr n : Nat) : Mem Mmu := do
  let vm ← kernel (Syscall.unmapFromKernel kptr n m.vm)
  return { m with vm := vm }

/-- The part that `copy_from_userspace` and `copy_to_userspace` have in common. -/
def mapCopy (m : Mmu) (pdir : DirPtr) (ptr n : Word) : Mem (Option Nat × Mmu) := do
  let sizeInBlocks := nBlocks ptr n
  kernel (kassert (sizeInBlocks ≠ 0))
  let (kptr, vm) ← kernel (findVspace .kernel sizeInBlocks m.vm)
  let m := { m with vm := vm }
  if kptr = 0 then return (none, m)
  else
    let (done, m) ← mapUserspaceToKernel object m pdir (ptr &&& ~~~ 0xFFF#32).toNat kptr sizeInBlocks
    if done then return (some kptr, m)
    else
      let m ← unmapFromKernel m kptr sizeInBlocks
      return (none, m)

/-- `copy_from_userspace`, with the address of the buffer. -/
def copyFromUserspace (m : Mmu) (pdir : DirPtr) (ptr n : Word) (buffer : Nat) : Mem Mmu := do
  let (kptr, m) ← mapCopy object m pdir ptr n
  match kptr with
  | none => return m
  | some kptr =>
    let m ← memcpy m buffer (kptr2 kptr ptr) n.toNat
    unmapFromKernel m kptr (nBlocks ptr n)

/-- `copy_to_userspace`, with the address of the buffer. -/
def copyToUserspace (m : Mmu) (pdir : DirPtr) (ptr n : Word) (buffer : Nat) : Mem Mmu := do
  let (kptr, m) ← mapCopy object m pdir ptr n
  match kptr with
  | none => return m
  | some kptr =>
    let m ← memcpy m (kptr2 kptr ptr) buffer n.toNat
    unmapFromKernel m kptr (nBlocks ptr n)

/-- The `for` loop of `copy_from_userspace_string` over the `rest` last bytes of the page, with `i` bytes copied.
`none` is a return. -/
def stringBytes (kptr buffer n : Nat) : Nat → Nat → Mmu → Mem (Option Nat × Mmu)
  | 0, i, m => .ok (some i, m)
  | rest + 1, i, m => do
    if (buffer + i) % 0x100000000 ≥ (buffer + n) % 0x100000000 then
      let m ← unmapFromKernel m kptr 1
      return (none, m)
    else
      let v := kptr + (4096 - (rest + 1))
      let (b, m) ← load m v
      let m ← store m (buffer + i) b
      let (b, m) ← load m v
      if b = 0#8 then
        let m ← unmapFromKernel m kptr 1
        return (none, m)
      else stringBytes kptr buffer n rest (i + 1) m

/-- The `while` loop of `copy_from_userspace_string`, for a number of rounds. At the last page of the address space
`kptr + BLOCK_SIZE` is 0, and the `for` loop does nothing. -/
def stringPages (pdir : DirPtr) (kptr buffer n : Nat) : Nat → Nat → Nat → Nat → Mmu → Mem Mmu
  | 0, _, _, _, _ => .error .running
  | rounds + 1, p, offset, i, m => do
    let (done, m) ← mapUserspaceToKernel object m pdir p kptr 1
    if done then
      let (i, m) ← stringBytes kptr buffer n ((kptr + 4096) % 0x100000000 - (kptr + offset)) i m
      match i with
      | none => return m
      | some i =>
        let m ← store m (buffer + i) 0#8
        stringPages pdir kptr buffer n rounds ((p + 4096) % 0x100000000) 0 i m
    else unmapFromKernel m kptr 1

/-- `copy_from_userspace_string`, for a number of rounds of its loop. -/
def copyFromUserspaceString (m : Mmu) (pdir : DirPtr) (ptr : Word) (n buffer rounds : Nat) : Mem Mmu := do
  kernel (kassert (ptr ≠ 0#32 ∧ buffer ≠ 0))
  let (kptr, vm) ← kernel (findVspace .kernel 1 m.vm)
  let m := { m with vm := vm }
  if kptr = 0 then return m
  else
    stringPages object pdir kptr buffer n rounds (ptr &&& ~~~ 0xFFF#32).toNat (ptr &&& 0xFFF#32).toNat 0 m

/-- `syscall_read` and `syscall_write` from the page count to the call of the driver. -/
def mapBuffer (m : Mmu) (pdir : DirPtr) (ptr length : Word) : Mem Mmu := do
  let (kptr, vm) ← kernel (findVspace .kernel (nBlocks ptr length) m.vm)
  let (_, m) ← mapUserspaceToKernel object { m with vm := vm } pdir (ptr &&& ~~~ 0xFFF#32).toNat kptr
    (nBlocks ptr length)
  return m

/-! ## Runs -/

/-- An operation of a run. -/
inductive Op
  | copyFromUserspace (pdir : DirPtr) (ptr n : Word) (buffer : Nat)
  | copyFromUserspaceString (pdir : DirPtr) (ptr : Word) (n buffer rounds : Nat)
  | copyToUserspace (pdir : DirPtr) (ptr n : Word) (buffer : Nat)
  /-- `syscall_read` and `syscall_write` before the driver; what the driver does comes as further operations. -/
  | mapBuffer (pdir : DirPtr) (ptr length : Word)
  /-- The same after the driver. -/
  | unmapFromKernel (kptr n : Nat)
  | liballocAlloc (pages : Nat)
  | liballocFree (v pages : Nat)
  | pageDirectoryNew
  | getTableAlloc (virtaddr : Word) (directory : DirPtr)
  /-- A read by a caller. -/
  | load (va : Nat)
  /-- A write by a caller. -/
  | store (va : Nat) (b : Byte)
  | loadCr3

/-- One operation. -/
def step (m : Mmu) : Op → Mem Mmu
  | .copyFromUserspace pdir ptr n buffer => copyFromUserspace object m pdir ptr n buffer
  | .copyFromUserspaceString pdir ptr n buffer rounds => copyFromUserspaceString object m pdir ptr n buffer rounds
  | .copyToUserspace pdir ptr n buffer => copyToUserspace object m pdir ptr n buffer
  | .mapBuffer pdir ptr length => mapBuffer object m pdir ptr length
  | .unmapFromKernel kptr n => unmapFromKernel m kptr n
  | .liballocAlloc pages => do
    let (_, vm) ← kernel (liballocAlloc pages m.vm)
    return { m with vm := vm }
  | .liballocFree v pages => do
    let vm ← kernel (liballocFree v pages m.vm)
    return { m with vm := vm }
  | .pageDirectoryNew => do
    let (_, m) ← pageDirectoryNew object m
    return m
  | .getTableAlloc virtaddr directory => do
    let (_, m) ← getTableAlloc object m virtaddr.toNat directory
    return m
  | .load va => do
    let (_, m) ← load m va
    return m
  | .store va b => store m va b
  | .loadCr3 => return loadCr3 m

end Objects

/-! ## The same functions without a TLB -/

section Forget

variable {object : DirPtr → Nat} {m m' : Mmu} {va n : Nat}

@[simp] theorem kernel_eq_ok {α : Type} {x : Kernel α} {a : α} : kernel x = .ok a ↔ x = .ok a := by
  cases x with
  | ok b => simp [kernel]
  | error f => simp [kernel]

theorem translate_vm {f : Nat} (h : translate m va = .ok (f, m')) : m'.vm = m.vm := by
  unfold translate at h
  cases hc : m.tlb (va / 4096) with
  | some c =>
    simp only [hc] at h
    split at h
    · cases h
    · cases h; rfl
  | none =>
    simp only [hc] at h
    split at h
    · cases h
    · cases h; rfl

theorem touch_vm (h : touch m va = .ok m') : m'.vm = m.vm := by
  simp only [touch, bind_eq_ok, pure_eq_ok, Prod.exists] at h
  obtain ⟨f, m₁, h, rfl⟩ := h
  exact translate_vm h

theorem memset_vm {dest len : Nat} (h : memset m dest len = .ok m') : m'.vm = m.vm := by
  simp only [memset, bind_eq_ok] at h
  obtain ⟨-, -, h⟩ := h
  exact forRange_keeps (I := fun u => u.vm = m.vm) (fun _ _ _ _ _ hu ht => (touch_vm ht).trans hu) h rfl

theorem invalidatePage_vm (h : invalidatePage m va = .ok m') : m'.vm = m.vm ∧ Vmm.invalidatePage va = .ok ⟨⟩ := by
  simp only [invalidatePage, bind_eq_ok, kernel_eq_ok, pure_eq_ok] at h
  obtain ⟨a, hinv, rfl⟩ := h
  exact ⟨rfl, hinv⟩

theorem mapKernel_vm {p : Nat} {f : Word} (h : mapKernel m va p f = .ok m') :
    mapPage m.vm (Vmm.getTable m.vm va .kernel) va p f = .ok m'.vm := by
  simp only [mapKernel, bind_eq_ok, kernel_eq_ok, pure_eq_ok] at h
  obtain ⟨vm, hvm, rfl⟩ := h
  exact hvm

theorem getTable_vm {d : DirPtr} {t : Option TablePtr} (h : getTable object m va d = .ok (t, m')) :
    m'.vm = m.vm ∧ t = Vmm.getTable m.vm va d := by
  simp only [getTable, bind_eq_ok, pure_eq_ok, Prod.mk.injEq] at h
  obtain ⟨m₁, ht, rfl, rfl⟩ := h
  exact ⟨touch_vm ht, by rw [touch_vm ht]⟩

theorem getPage_vm {t : TablePtr} {w : Word} (h : getPage m t va = .ok (w, m')) :
    m'.vm = m.vm ∧ Vmm.getPage m.vm (some t) va = .ok w := by
  simp only [getPage, bind_eq_ok, kernel_eq_ok, pure_eq_ok, Prod.mk.injEq] at h
  obtain ⟨m₁, ht, w', hw, rfl, rfl⟩ := h
  exact ⟨touch_vm ht, by rw [← touch_vm ht]; exact hw⟩

/-- `get_table_alloc` does to the machine what it does without a TLB. -/
theorem getTableAlloc_vm {d : DirPtr} {t : TablePtr} (h : getTableAlloc object m va d = .ok (t, m')) :
    Vmm.getTableAlloc d m.vm va = .ok (t, m'.vm) := by
  simp only [getTableAlloc, bind_eq_ok, Prod.exists] at h
  obtain ⟨table, m₁, htable, h⟩ := h
  obtain ⟨hm₁, rfl⟩ := getTable_vm htable
  rw [← hm₁] at h ⊢
  cases hget : Vmm.getTable m₁.vm va d with
  | some table =>
    rw [hget] at h
    simp only [pure_eq_ok, Prod.mk.injEq] at h
    obtain ⟨rfl, rfl⟩ := h
    simp only [Vmm.getTableAlloc, hget]
    rfl
  | none =>
    rw [hget] at h
    simp only [bind_eq_ok, kernel_eq_ok, assert_eq_ok, pure_eq_ok, Prod.exists, Prod.mk.injEq] at h
    obtain ⟨-, hd, phys, pmm, hblock, virt, vm, hfind, -, hvirt, m₂, h₂, m₃, h₃, m₄, h₄, m₅, h₅, m₆, h₆, m₇, h₇, m₈, h₈,
      rfl, rfl⟩ := h
    have hvm : m₄.vm = vm := ((touch_vm h₄).trans (touch_vm h₃)).trans (touch_vm h₂)
    have hmap := mapKernel_vm h₅
    simp only [hvm] at hmap
    obtain ⟨hm₆, hinv⟩ := invalidatePage_vm h₆
    have hend : m₈.vm = m₅.vm := ((memset_vm h₈).trans (touch_vm h₇)).trans hm₆
    rw [hend]
    simp only [Vmm.getTableAlloc, hget, assert_pos hd, hblock, hfind, assert_pos hvirt, hmap, hinv, ok_bind]
    rfl

/-- `page_directory_new` does to the machine what it does without a TLB. -/
theorem pageDirectoryNew_vm {d : DirPtr} (h : pageDirectoryNew object m = .ok (d, m')) :
    Vmm.pageDirectoryNew m.vm = .ok (d, m'.vm) := by
  simp only [pageDirectoryNew, bind_eq_ok, kernel_eq_ok, pure_eq_ok, Prod.exists, Prod.mk.injEq] at h
  obtain ⟨phys, pmm, hblock, m₁, h₁, virt, vm, hfind, m₂, h₂, m₃, h₃, m₄, h₄, m₅, h₅, rfl, rfl⟩ := h
  rw [touch_vm h₁] at hfind
  have hmap := mapKernel_vm h₃
  rw [touch_vm h₂] at hmap
  have hend : m₅.vm = m₃.vm := (touch_vm h₅).trans (memset_vm h₄)
  obtain ⟨-, ht, -⟩ := mapPage_ok hmap
  rw [table_of_page] at ht
  have hget : Vmm.getTable vm virt .kernel = some ⟨.kernel, virt / 0x400000⟩ := getTable_eq_some.2 ⟨ht, rfl⟩
  have htable : Vmm.getTableAlloc .kernel vm virt = .ok (⟨.kernel, virt / 0x400000⟩, vm) := by
    simp only [Vmm.getTableAlloc, hget]
    rfl
  rw [hget] at hmap
  have hnext : m₃.vm.nextDir = m.vm.nextDir := by
    obtain ⟨-, -, hm₃⟩ := mapPage_ok (hget.symm ▸ hmap)
    rw [hm₃, setEntry_nextDir]
    rcases findVspace_stores hfind with ⟨-, rfl⟩ | ⟨j, -, -, -, -, -, hstores⟩
    · rfl
    · exact hstores.nextDir
  rw [hend]
  simp only [Vmm.pageDirectoryNew, hblock, hfind, htable, hmap, ok_bind, hnext]
  rfl

/-- A loop of checks that leaves the machine. -/
theorem forRange_vm {body : Nat → Mmu → Mem Mmu} {c : Vm → Nat → PUnit → Kernel PUnit}
    (hbody : ∀ {i : Nat} {m m' : Mmu}, body i m = .ok m' → m'.vm = m.vm ∧ c m.vm i ⟨⟩ = .ok ⟨⟩) {n : Nat} :
    ∀ {i : Nat} {m : Mmu}, forRange body i n m = .ok m' →
      m'.vm = m.vm ∧ forRange (c m.vm) i n ⟨⟩ = .ok ⟨⟩ := by
  induction n with
  | zero =>
    intro i m h
    simp only [forRange, Except.ok.injEq] at h
    rw [h]
    exact ⟨rfl, rfl⟩
  | succ n ih =>
    intro i m h
    simp only [forRange_succ, bind_eq_ok] at h
    obtain ⟨u, hround, h⟩ := h
    obtain ⟨hu, hcheck⟩ := hbody hround
    obtain ⟨hm', hrest⟩ := ih h
    rw [hu] at hm' hrest
    exact ⟨hm', by rw [forRange_succ, hcheck, ok_bind, hrest]⟩

/-- `dump_directory` changes nothing. -/
theorem dumpDirectory_vm {d : DirPtr} (h : dumpDirectory object m d = .ok m') :
    m'.vm = m.vm ∧ Syscall.dumpDirectory m.vm d = .ok ⟨⟩ := by
  simp only [dumpDirectory, bind_eq_ok] at h
  obtain ⟨m₁, h₁, h⟩ := h
  rw [← touch_vm h₁]
  refine forRange_vm (c := fun vm i _ =>
    let dir := vm.dirs d
    if dir.physicalTables i = 0#32 then kassert ((dir.tables i).isNone)
    else if dir.physicalTables i &&& pagePresent ≠ 0#32 then kassert ((dir.tables i).isSome)
    else .ok ⟨⟩) ?_ h
  intro i m u hround
  simp only [bind_eq_ok] at hround
  obtain ⟨u₁, h₁, u₂, h₂, u₃, h₃, hround⟩ := hround
  have hu₃ : u₃.vm = m.vm := ((touch_vm h₃).trans (touch_vm h₂)).trans (touch_vm h₁)
  rw [hu₃] at hround
  split at hround
  · next hzero =>
    simp only [bind_eq_ok, kernel_eq_ok, pure_eq_ok] at hround
    obtain ⟨a, hnone, rfl⟩ := hround
    simp only [if_pos hzero]
    exact ⟨hu₃, hnone⟩
  · next hzero =>
    simp only [if_neg hzero]
    split at hround
    · next hpresent =>
      simp only [bind_eq_ok, kernel_eq_ok] at hround
      obtain ⟨a, hsome, htable⟩ := hround
      rw [if_pos hpresent]
      refine ⟨(forRange_keeps (I := fun w => w.vm = u₃.vm) ?_ htable rfl).trans hu₃, hsome⟩
      exact fun _ _ _ _ _ hw ht => (touch_vm ht).trans hw
    · next hpresent =>
      rw [pure_eq_ok] at hround
      subst hround
      rw [if_neg hpresent]
      exact ⟨hu₃, rfl⟩

theorem mapUserPages_vm {pdir : DirPtr} {ptr kptr rest : Nat} {r : Bool} : ∀ {i : Nat} {m : Mmu},
    mapUserPages object pdir ptr kptr rest i m = .ok (r, m') →
      Syscall.mapUserPages pdir ptr kptr rest i m.vm = .ok (r, m'.vm) := by
  induction rest with
  | zero =>
    intro i m h
    simp only [mapUserPages, Except.ok.injEq, Prod.mk.injEq] at h
    obtain ⟨rfl, rfl⟩ := h
    rfl
  | succ rest ih =>
    intro i m h
    simp only [mapUserPages, bind_eq_ok, Prod.exists] at h
    obtain ⟨m₁, h₁, m₂, h₂, t, m₃, h₃, h⟩ := h
    have hmap := mapKernel_vm h₁
    obtain ⟨hm₂, hinv⟩ := invalidatePage_vm h₂
    obtain ⟨hm₃, ht⟩ := getTable_vm h₃
    rw [hm₂] at hm₃ ht
    simp only [Syscall.mapUserPages, hmap, hinv, ok_bind]
    cases t with
    | none =>
      rw [pure_eq_ok, Prod.mk.injEq] at h
      obtain ⟨rfl, rfl⟩ := h
      simp only [← ht, hm₃]
      rfl
    | some t =>
      simp only [bind_eq_ok, Prod.exists] at h
      obtain ⟨page, m₄, h₄, h⟩ := h
      obtain ⟨hm₄, hpage⟩ := getPage_vm h₄
      rw [hm₃] at hm₄ hpage
      simp only [← ht, hpage, ok_bind]
      split at h
      · next hbad =>
        rw [pure_eq_ok, Prod.mk.injEq] at h
        obtain ⟨rfl, rfl⟩ := h
        rw [if_pos hbad, hm₄]
        rfl
      · next hgood =>
        simp only [bind_eq_ok] at h
        obtain ⟨m₅, h₅, m₆, h₆, h⟩ := h
        have hmap' := mapKernel_vm h₅
        rw [hm₄] at hmap'
        obtain ⟨hm₆, -⟩ := invalidatePage_vm h₆
        have hrest := ih h
        rw [hm₆] at hrest
        rw [if_neg hgood, hmap', ok_bind, hrest]

/-- `map_userspace_to_kernel` does to the machine what it does without a TLB. -/
theorem mapUserspaceToKernel_vm {pdir : DirPtr} {ptr kptr : Nat} {r : Bool}
    (h : mapUserspaceToKernel object m pdir ptr kptr n = .ok (r, m')) :
    Syscall.mapUserspaceToKernel m.vm pdir ptr kptr n = .ok (r, m'.vm) := by
  simp only [mapUserspaceToKernel, bind_eq_ok, kernel_eq_ok, assert_eq_ok, Prod.exists] at h
  obtain ⟨a, hargs, done, m₁, h₁, h⟩ := h
  simp only [Syscall.mapUserspaceToKernel, assert_pos hargs, mapUserPages_vm h₁, ok_bind]
  cases done with
  | true =>
    simp only [if_true, pure_eq_ok, Prod.mk.injEq] at h
    obtain ⟨rfl, rfl⟩ := h
    rfl
  | false =>
    simp only [Bool.false_eq_true, if_false, bind_eq_ok, kernel_eq_ok, pure_eq_ok, Prod.mk.injEq] at h
    obtain ⟨m₂, h₂, vm, hvm, rfl, rfl⟩ := h
    obtain ⟨hm₂, hdump⟩ := dumpDirectory_vm h₂
    rw [hm₂] at hvm
    simp only [Bool.false_eq_true, if_false, hdump, hvm, ok_bind]
    rfl

end Forget

end Myunix.Tlb
