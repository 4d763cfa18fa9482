import Myunix.Vmm.FindVspace

/-!
# Copying an address space (`process.c`)

`page_directory_clone` gives a new directory a copy of every user page of the parent's: for each table of the parent
it takes two scratch pages of the kernel directory, and for each user page a new block, which it fills through the
scratch mappings.
-/

namespace Myunix.Process

open Lib Pmm Vmm

/-! ## The code -/

/-- `memcpy((void *)dst, (void *)src, BLOCK_SIZE)` between two pages that the kernel sees. -/
def memcpyPage (vm : Vm) (dst src : Nat) : Kernel Vm := do
  let source ← kernelFrame vm src
  let target ← kernelFrame vm dst
  return { vm with frames := Function.update vm.frames target (vm.frames source) }

/-- The loop body of `page_directory_clone_table`. -/
def cloneEntry (newtable oldtable : TablePtr) (oldkvtmp newkvtmp i : Nat) (vm : Vm) : Kernel Vm :=
  let page := vm.pageAt oldtable i
  if page = 0#32 then return vm
  else if page = pageValueGuard then return vm
  else if page = pageValueReserved then throw .assertion
  else if page &&& pagePresent ≠ 0#32 ∧ page &&& pageUser = 0#32 then return vm
  else if page &&& pagePresent ≠ 0#32 ∧ page &&& pageUser ≠ 0#32 then do
    kassert (vm.pageAt newtable i = 0#32)
    let oldphys := (page &&& ~~~ 0x3FF#32).toNat
    let (newphys, pmm) ← pmmAllocBlocksSafe vm.pmm 1
    let vm := { vm with pmm := pmm }
    let vm ← mapPage vm (getTable vm oldkvtmp .kernel) oldkvtmp oldphys (pagePresent ||| pageReadwrite)
    invalidatePage oldkvtmp
    let vm ← mapPage vm (getTable vm newkvtmp .kernel) newkvtmp newphys (pagePresent ||| pageReadwrite)
    invalidatePage newkvtmp
    let vm ← memcpyPage vm newkvtmp oldkvtmp
    return vm.setPageAt newtable i (BitVec.ofNat 32 newphys ||| (page &&& 0x3FF#32))
  else throw .assertion

/-- `page_directory_clone_table`. -/
def pageDirectoryCloneTable (newtable oldtable : TablePtr) (vm : Vm) : Kernel Vm := do
  let (oldkvtmp, vm) ← findVspace .kernel 1 vm
  kassert (oldkvtmp ≠ 0)
  let (newkvtmp, vm) ← findVspace .kernel 1 vm
  kassert (newkvtmp ≠ 0)
  let vm ← forRange (cloneEntry newtable oldtable oldkvtmp newkvtmp) 0 1024 vm
  let vm ← mapPage vm (getTable vm oldkvtmp .kernel) oldkvtmp 0 0#32
  invalidatePage oldkvtmp
  let vm ← mapPage vm (getTable vm newkvtmp .kernel) newkvtmp 0 0#32
  invalidatePage newkvtmp
  return vm

/-- The loop body of `page_directory_clone`. -/
def cloneTable (newpdir old : DirPtr) (i : Nat) (vm : Vm) : Kernel Vm :=
  let table := getTable vm (i * 0x400000) old
  let tablePhys := (vm.dirs old).physicalTables i
  if tablePhys &&& pagePresent = 0#32 then
    if tablePhys = 0#32 then return vm else throw .assertion
  else do
    let (newtable, vm) ← getTableAlloc newpdir vm (i * 0x400000)
    match table with
    | none => throw .assertion
    | some oldtable => pageDirectoryCloneTable newtable oldtable vm

/-- `page_directory_clone`. -/
def pageDirectoryClone (newpdir old : DirPtr) (vm : Vm) : Kernel Vm := forRange (cloneTable newpdir old) 0 1024 vm

/-! ## User pages -/

/-- Page `m` of directory `d` is a present user page with entry `e`. -/
structure UserPage (vm : Vm) (d : DirPtr) (m : Nat) (e : Word) : Prop where
  table : (vm.dirs d).physicalTables (m / 1024) &&& pagePresent ≠ 0#32
  entry : vm.entry d m = e
  present : e &&& pagePresent ≠ 0#32
  user : e &&& pageUser ≠ 0#32

/-- The frame of an entry. -/
def frameOf (e : Word) : Nat := e.toNat / 4096

/-- The byte a user program reads at `va`. -/
def userRead (vm : Vm) (d : DirPtr) (va : Word) : Kernel Byte :=
  let e := vm.entry d (va.toNat / 4096)
  if (vm.dirs d).physicalTables (va.toNat / 4096 / 1024) &&& pagePresent ≠ 0#32 ∧ e &&& pagePresent ≠ 0#32 ∧
      e &&& pageUser ≠ 0#32 then return vm.frames (frameOf e) (va.toNat % 4096)
  else throw .pageFault

/-- A user program writes `b` at `va`. -/
def userWrite (vm : Vm) (d : DirPtr) (va : Word) (b : Byte) : Kernel Vm :=
  let e := vm.entry d (va.toNat / 4096)
  if (vm.dirs d).physicalTables (va.toNat / 4096 / 1024) &&& pagePresent ≠ 0#32 ∧ e &&& pagePresent ≠ 0#32 ∧
      e &&& pageUser ≠ 0#32 ∧ e &&& pageReadwrite ≠ 0#32 then
    let frame := Function.update (vm.frames (frameOf e)) (va.toNat % 4096) b
    return { vm with frames := Function.update vm.frames (frameOf e) frame }
  else throw .pageFault

/-! ## Frames of entries -/

section Frames

theorem frameOf_eq (e : Word) : frameOf e = (e >>> 12).toNat := by
  unfold frameOf
  rw [BitVec.toNat_ushiftRight, Nat.shiftRight_eq_div_pow]

/-- Flags do not change the frame. -/
theorem frameOf_or {e f : Word} (hf : f >>> 12 = 0#32) : frameOf (e ||| f) = frameOf e := by
  rw [frameOf_eq, frameOf_eq, BitVec.ushiftRight_or_distrib, hf, BitVec.or_zero]

theorem frameOf_ofNat {b : Nat} (hb : b < 0x100000) : frameOf (BitVec.ofNat 32 (b * 4096)) = b := by
  unfold frameOf
  rw [BitVec.toNat_ofNat]
  omega

/-- The address of the old page names the same frame as its entry. -/
theorem frameOf_mask (e : Word) : frameOf (BitVec.ofNat 32 (e &&& ~~~ 0x3FF#32).toNat) = frameOf e := by
  have hlt : (e >>> 12).toNat < 2 ^ 20 := by
    have he := e.isLt
    rw [BitVec.toNat_ushiftRight, Nat.shiftRight_eq_div_pow]
    omega
  rw [BitVec.ofNat_toNat, BitVec.setWidth_eq, frameOf_eq, frameOf_eq, BitVec.ushiftRight_and_distrib,
    show (~~~ 0x3FF#32) >>> 12 = 0xFFFFF#32 by decide, BitVec.toNat_and]
  exact (Nat.and_two_pow_sub_one_eq_mod _ 20).trans (Nat.mod_eq_of_lt hlt)

theorem flags_shift (e : Word) : (e &&& 0x3FF#32) >>> 12 = 0#32 := by
  rw [BitVec.ushiftRight_and_distrib, show 0x3FF#32 >>> 12 = 0#32 by decide, BitVec.and_zero]

end Frames

end Myunix.Process
