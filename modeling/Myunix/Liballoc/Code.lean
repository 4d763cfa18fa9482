import Myunix.Lib.Memory
import Myunix.Syscall.CopyArray
import Myunix.Vmm.Heap

/-!
# The kernel heap (`liballoc.c`)

The heap is a list of majors, each some pages in a row, and a major has a list of minors, the blocks that were handed
out. Both lists are doubly linked through headers that lie in the pages themselves, so that the heap is nothing but
bytes which the kernel reaches through its page directory. Addresses and the values of the headers are natural numbers
below `0x100000000`; where C's arithmetic can wrap, the reduction is written out. `NULL` is 0.

A header of either kind has six words, 24 bytes. `maj + 20` is the address of `maj->first`; the names are in
`majPrev` … `majFirst` and `minPrev` … `minReqSize`.
-/

namespace Myunix.Liballoc

open Lib Pmm Vmm Syscall

/-! ## The machine -/

/-- Why a heap function does not return. -/
inductive HeapStop
  /-- It stopped the kernel. -/
  | failure (f : Failure)
  /-- A loop takes more rounds than were given. -/
  | rounds
deriving DecidableEq, Repr

/-- A heap function returns or stops. -/
abbrev HeapM (α : Type) := Lib.Outcome HeapStop α

/-- A kernel operation as a part of a heap function. -/
def ofKernel {α : Type} (x : Kernel α) : HeapM α := x.mapError .failure

/-- `assert(exp)`. -/
abbrev heapAssert (p : Prop) [Decidable p] : HeapM PUnit := Lib.assert (HeapStop.failure .assertion) p

/-- The kernel's memory and the variables of the heap: `l_memRoot`, `l_bestBet`, `l_allocated`, `l_inuse` and
`liballoc_spinlock`. -/
structure Heap where
  vm : Vm
  memRoot : Nat
  bestBet : Nat
  allocated : Nat
  inuse : Nat
  spinlock : Word

/-- `a + b` on 32 bits. -/
def add32 (a b : Nat) : Nat := (a + b) % 0x100000000

/-- `a - b` on 32 bits. -/
def sub32 (a b : Nat) : Nat := (a + 0x100000000 - b) % 0x100000000

/-- `*(uint32_t *)a`. -/
def Heap.load (h : Heap) (a : Nat) : HeapM Nat := do
  let w ← ofKernel (kernelLoadWord h.vm a)
  return w.toNat

/-- `*(uint32_t *)va = v` for the kernel. -/
def kernelStoreWord (vm : Vm) (va v : Nat) : Kernel Vm := do
  let vm ← kernelStore vm va (wordByte v 0)
  let vm ← kernelStore vm (va + 1) (wordByte v 1)
  let vm ← kernelStore vm (va + 2) (wordByte v 2)
  kernelStore vm (va + 3) (wordByte v 3)

/-- `*(uint32_t *)a = v`. -/
def Heap.store (h : Heap) (a v : Nat) : HeapM Heap := do
  let vm ← ofKernel (kernelStoreWord h.vm a v)
  return { h with vm := vm }

/-- Assignments to words, one after the other. -/
def Heap.stores (h : Heap) : List (Nat × Nat) → HeapM Heap
  | [] => .ok h
  | (a, v) :: rest => do
    let h ← h.store a v
    h.stores rest

/-- `memset(dest, c, len)`. -/
def kernelMemset (vm : Vm) (dest : Nat) (c : Byte) (len : Nat) : Kernel Vm := do
  kassert (dest ≠ 0)
  kassert (len ≠ 0)
  forRange (fun i vm => kernelStore vm ((dest + i) % 0x100000000) c) 0 len vm

/-- `memcpy(dest, src, len)`: `rep movsb`. -/
def kernelMemcpy (vm : Vm) (dest src len : Nat) : Kernel Vm := do
  kassert (dest ≠ 0)
  kassert (src ≠ 0)
  kassert (len ≠ 0)
  forRange (fun i vm => do
    let b ← kernelLoad vm ((src + i) % 0x100000000)
    kernelStore vm ((dest + i) % 0x100000000) b) 0 len vm

/-! ## The headers -/

/-- `&maj->prev`. -/
abbrev majPrev (maj : Nat) : Nat := maj

/-- `&maj->next`. -/
abbrev majNext (maj : Nat) : Nat := maj + 4

/-- `&maj->pages`. -/
abbrev majPages (maj : Nat) : Nat := maj + 8

/-- `&maj->size`. -/
abbrev majSize (maj : Nat) : Nat := maj + 12

/-- `&maj->usage`. -/
abbrev majUsage (maj : Nat) : Nat := maj + 16

/-- `&maj->first`. -/
abbrev majFirst (maj : Nat) : Nat := maj + 20

/-- `&min->prev`. -/
abbrev minPrev (min : Nat) : Nat := min

/-- `&min->next`. -/
abbrev minNext (min : Nat) : Nat := min + 4

/-- `&min->block`. -/
abbrev minBlock (min : Nat) : Nat := min + 8

/-- `&min->magic`. -/
abbrev minMagic (min : Nat) : Nat := min + 12

/-- `&min->size`. -/
abbrev minSize (min : Nat) : Nat := min + 16

/-- `&min->req_size`. -/
abbrev minReqSize (min : Nat) : Nat := min + 20

/-- `LIBALLOC_MAGIC`. -/
abbrev liballocMagic : Nat := 0xC001C0DE

/-- `LIBALLOC_DEAD`. -/
abbrev liballocDead : Nat := 0xDEADDEAD

/-- `ALIGN(ptr)`: the next multiple of 16 after 16 more bytes; how far that is stands in the byte 16 before it. -/
def align (h : Heap) (p : Nat) : HeapM (Nat × Heap) := do
  let p := add32 p 16
  let diff := if p % 16 ≠ 0 then 16 - p % 16 else p % 16
  let p := add32 p diff
  let vm ← ofKernel (kernelStore h.vm (sub32 p 16) (BitVec.ofNat 8 (diff + 16)))
  return (p, { h with vm := vm })

/-- `UNALIGN(ptr)`; the byte is a `char`, which is signed. -/
def unalign (h : Heap) (p : Nat) : HeapM Nat := do
  let b ← ofKernel (kernelLoad h.vm (sub32 p 16))
  let diff := (b.signExtend 32).toNat
  return if diff < 32 then sub32 p diff else p

/-! ## Locking and pages -/

/-- `liballoc_lock`: `spin_lock` panics when the lock is taken. -/
def liballocLock (h : Heap) : HeapM Heap := do
  heapAssert (h.spinlock = 0#32)
  return { h with spinlock := 1#32 }

/-- `liballoc_unlock`. -/
def liballocUnlock (h : Heap) : HeapM Heap := do
  heapAssert (h.spinlock = 1#32)
  return { h with spinlock := 0#32 }

/-- The number of pages that `allocate_new_page(size)` asks for. -/
def newPages (size : Nat) : Nat :=
  let st := add32 (add32 size 24) 24
  let st := if st % 4096 = 0 then st / 4096 else st / 4096 + 1
  if st < 16 then 16 else st

/-- `allocate_new_page`. -/
def allocateNewPage (size : Nat) (h : Heap) : HeapM (Nat × Heap) := do
  let st := newPages size
  let (maj, vm) ← ofKernel (liballocAlloc st h.vm)
  let h := { h with vm := vm }
  heapAssert (maj ≠ 0)
  let h ← h.stores [(majPrev maj, 0), (majNext maj, 0), (majPages maj, st), (majSize maj, st * 4096 % 0x100000000),
    (majUsage maj, 24), (majFirst maj, 0)]
  let size ← h.load (majSize maj)
  return (maj, { h with allocated := (h.allocated + size) % 0x10000000000000000 })

/-- `liballoc_init`. -/
def liballocInit (h : Heap) : HeapM Heap := do
  heapAssert (h.memRoot = 0)
  let (maj, h) ← allocateNewPage (16 + 16) h
  let h := { h with memRoot := maj }
  heapAssert (h.memRoot ≠ 0)
  return h

/-! ## `kmalloc` -/

/-- `maj->usage += size + sizeof(struct liballoc_minor)`. -/
def addUsage (maj size : Nat) (h : Heap) : HeapM Heap := do
  let usage ← h.load (majUsage maj)
  h.store (majUsage maj) (add32 usage (add32 size 24))

/-- How every case ends: the running total, the aligned pointer, the lock. -/
def handOut (min size : Nat) (h : Heap) : HeapM (Nat × Heap) := do
  let h := { h with inuse := (h.inuse + size) % 0x10000000000000000 }
  let (p, h) ← align h (add32 min 24)
  let h ← liballocUnlock h
  return (p, h)

/-- CASE 2: a new block. -/
def case2 (maj size reqSize : Nat) (h : Heap) : HeapM (Nat × Heap) := do
  let first := add32 maj 24
  let h ← h.stores [(majFirst maj, first), (minMagic first, liballocMagic), (minPrev first, 0), (minNext first, 0),
    (minBlock first, maj), (minSize first, size), (minReqSize first, reqSize)]
  let h ← addUsage maj size h
  handOut first size h

/-- CASE 3: there is enough space at the start of the block. -/
def case3 (maj first size reqSize : Nat) (h : Heap) : HeapM (Nat × Heap) := do
  let new := add32 maj 24
  let h ← h.stores [(minPrev first, new), (minNext new, first), (majFirst maj, new), (minMagic new, liballocMagic),
    (minPrev new, 0), (minBlock new, maj), (minSize new, size), (minReqSize new, reqSize)]
  let h ← addUsage maj size h
  handOut new size h

/-- CASE 4.1: there is enough space after the last minor. -/
def case41 (maj min minsize size reqSize : Nat) (h : Heap) : HeapM (Nat × Heap) := do
  let new := add32 (add32 min 24) minsize
  let h ← h.stores [(minNext min, new), (minPrev new, min), (minNext new, 0), (minMagic new, liballocMagic),
    (minBlock new, maj), (minSize new, size), (minReqSize new, reqSize)]
  let h ← addUsage maj size h
  handOut new size h

/-- CASE 4.2: there is enough space between two minors. -/
def case42 (maj min minsize next size reqSize : Nat) (h : Heap) : HeapM (Nat × Heap) := do
  let new := add32 (add32 min 24) minsize
  let h ← h.stores [(minMagic new, liballocMagic), (minNext new, next), (minPrev new, min), (minSize new, size),
    (minReqSize new, reqSize), (minBlock new, maj), (minPrev next, new), (minNext min, new)]
  let h ← addUsage maj size h
  handOut new size h

/-- CASE 4: the loop over the minors of a block from `min` on. -/
def case4 (maj size reqSize : Nat) : Nat → Nat → Heap → HeapM (Option (Nat × Heap))
  | 0, _, _ => throw .rounds
  | rounds + 1, min, h =>
    if min = 0 then return none
    else do
      let next ← h.load (minNext min)
      let minsize ← h.load (minSize min)
      if next = 0 then
        let majsize ← h.load (majSize maj)
        let diff := sub32 (sub32 (sub32 (add32 maj majsize) min) 24) minsize
        if add32 size 24 ≤ diff then return some (← case41 maj min minsize size reqSize h)
        else case4 maj size reqSize rounds next h
      else
        let diff := sub32 (sub32 (sub32 next min) 24) minsize
        if add32 size 24 ≤ diff then return some (← case42 maj min minsize next size reqSize h)
        else case4 maj size reqSize rounds next h

/-- Rounds enough for every list in an address space of 32 bits. -/
def heapRounds : Nat := 0x100000000

/-- CASE 2 to CASE 4: a place in the block `maj`, if there is one. -/
def placeIn (maj size reqSize : Nat) (h : Heap) : HeapM (Option (Nat × Heap)) := do
  let first ← h.load (majFirst maj)
  if first = 0 then return some (← case2 maj size reqSize h)
  else
    let diff := sub32 (sub32 first maj) 24
    if add32 size 24 ≤ diff then return some (← case3 maj first size reqSize h)
    else case4 maj size reqSize heapRounds first h

/-- A new block after `maj`: `maj->next = allocate_new_page(size)`. -/
def growAfter (maj size : Nat) (h : Heap) : HeapM (Nat × Heap) := do
  let (new, h) ← allocateNewPage size h
  let h ← h.store (majNext maj) new
  if new = 0 then return (0, h)
  else
    let h ← h.store (majPrev new) maj
    return (new, h)

/-- CASE 1: is there enough space in this block? If not, the loop goes on with another block, from the left, or a new
block follows. On the right is the block in which the next cases look for a place. -/
def case1 (maj size diff : Nat) (startedBet : Bool) (h : Heap) : HeapM (Nat × Bool × Heap ⊕ Nat × Heap) :=
  if diff < add32 size 24 then do
    let next ← h.load (majNext maj)
    if next ≠ 0 then return .inl (next, startedBet, h)
    else if startedBet then return .inl (h.memRoot, false, h)
    else
      let (new, h) ← growAfter maj size h
      return if new = 0 then .inl (0, startedBet, h) else .inr (new, h)
  else return .inr (maj, h)

/-- CASE 5: the block is full. The block that the loop goes on with. -/
def case5 (maj size : Nat) (startedBet : Bool) (h : Heap) : HeapM (Nat × Bool × Heap) := do
  let next ← h.load (majNext maj)
  if next ≠ 0 then return (next, startedBet, h)
  else if startedBet then return (h.memRoot, false, h)
  else
    let (new, h) ← growAfter maj size h
    return (new, startedBet, h)

/-- The loop over the blocks from `maj` on. -/
def kmallocFrom (size reqSize : Nat) : Nat → Nat → Bool → Nat → Heap → HeapM (Nat × Heap)
  | 0, _, _, _, _ => throw .rounds
  | rounds + 1, maj, startedBet, bestSize, h =>
    if maj = 0 then do
      let h ← liballocUnlock h
      return (0, h)
    else do
      let majsize ← h.load (majSize maj)
      let usage ← h.load (majUsage maj)
      let diff := sub32 majsize usage
      let h := if bestSize < diff then { h with bestBet := maj } else h
      let bestSize := if bestSize < diff then diff else bestSize
      match ← case1 maj size diff startedBet h with
      | .inl (maj, startedBet, h) => kmallocFrom size reqSize rounds maj startedBet bestSize h
      | .inr (maj, h) =>
        match ← placeIn maj size reqSize h with
        | some r => return r
        | none =>
          let (maj, startedBet, h) ← case5 maj size startedBet h
          kmallocFrom size reqSize rounds maj startedBet bestSize h

/-- `kmalloc`: the pointer and the heap. -/
def kmalloc (reqSize : Nat) (h : Heap) : HeapM (Nat × Heap) := do
  let size := add32 reqSize 32
  heapAssert (size ≠ 0)
  let h ← liballocLock h
  heapAssert (h.memRoot ≠ 0)
  if h.bestBet ≠ 0 then
    let bestsize ← h.load (majSize h.bestBet)
    let usage ← h.load (majUsage h.bestBet)
    let bestSize := sub32 bestsize usage
    if add32 size 24 < bestSize then kmallocFrom size reqSize heapRounds h.bestBet true bestSize h
    else kmallocFrom size reqSize heapRounds h.memRoot false bestSize h
  else kmallocFrom size reqSize heapRounds h.memRoot false 0 h

/-! ## `kfree` -/

/-- `liballoc_verify_magic`: the counters of errors are read by nobody. -/
def liballocVerifyMagic (min : Nat) (h : Heap) : HeapM PUnit := do
  let magic ← h.load (minMagic min)
  heapAssert (magic = liballocMagic)

/-- The minor leaves the list of its block. -/
def unlinkMinor (maj min : Nat) (h : Heap) : HeapM Heap := do
  let next ← h.load (minNext min)
  let prev ← h.load (minPrev min)
  let h ← if next ≠ 0 then h.store (minPrev next) prev else pure h
  let h ← if prev ≠ 0 then h.store (minNext prev) next else pure h
  if prev = 0 then h.store (majFirst maj) next else return h

/-- A block without minors leaves the list, and its pages are given back. -/
def dropMajor (maj : Nat) (h : Heap) : HeapM Heap := do
  let next ← h.load (majNext maj)
  let prev ← h.load (majPrev maj)
  let h := { h with
    memRoot := if h.memRoot = maj then next else h.memRoot
    bestBet := if h.bestBet = maj then 0 else h.bestBet }
  let h ← if prev ≠ 0 then h.store (majNext prev) next else pure h
  let h ← if next ≠ 0 then h.store (majPrev next) prev else pure h
  let size ← h.load (majSize maj)
  let pages ← h.load (majPages maj)
  let h := { h with allocated := (h.allocated + 0x10000000000000000 - size) % 0x10000000000000000 }
  let vm ← ofKernel (liballocFree maj pages h.vm)
  return { h with vm := vm }

/-- The block with the freed minor may now be the best bet; the free sizes are compared as `int`. -/
def rememberBet (maj : Nat) (h : Heap) : HeapM Heap := do
  if h.bestBet ≠ 0 then
    let betSize ← h.load (majSize h.bestBet)
    let betUsage ← h.load (majUsage h.bestBet)
    let size ← h.load (majSize maj)
    let usage ← h.load (majUsage maj)
    let bestSize := (BitVec.ofNat 32 (sub32 betSize betUsage)).toInt
    let majSize := (BitVec.ofNat 32 (sub32 size usage)).toInt
    return if majSize > bestSize then { h with bestBet := maj } else h
  else return h

/-- `kfree`. -/
def kfree (ptr : Nat) (h : Heap) : HeapM Heap := do
  heapAssert (ptr ≠ 0)
  let ptr ← unalign h ptr
  let h ← liballocLock h
  let min := sub32 ptr 24
  liballocVerifyMagic min h
  let maj ← h.load (minBlock min)
  let size ← h.load (minSize min)
  let h := { h with inuse := (h.inuse + 0x10000000000000000 - size) % 0x10000000000000000 }
  let vm ← ofKernel (kernelMemset h.vm ptr 0 size)
  let h := { h with vm := vm }
  let usage ← h.load (majUsage maj)
  let size ← h.load (minSize min)
  let h ← h.stores [(majUsage maj, sub32 usage (add32 size 24)), (minMagic min, liballocDead)]
  let h ← unlinkMinor maj min h
  let first ← h.load (majFirst maj)
  let h ← if first = 0 then dropMajor maj h else rememberBet maj h
  liballocUnlock h

/-! ## `kcalloc` and `krealloc` -/

/-- `kcalloc`. -/
def kcalloc (nobj size : Nat) (h : Heap) : HeapM (Nat × Heap) := do
  let realSize := nobj * size % 0x100000000
  let (p, h) ← kmalloc realSize h
  heapAssert (p ≠ 0)
  if realSize ≠ 0 then
    let vm ← ofKernel (kernelMemset h.vm p 0 realSize)
    return (p, { h with vm := vm })
  else return (p, h)

/-- `krealloc`. -/
def krealloc (p size : Nat) (h : Heap) : HeapM (Nat × Heap) :=
  if size = 0 then do
    let h ← kfree p h
    return (0, h)
  else if p = 0 then kmalloc size h
  else do
    let ptr ← unalign h p
    let h ← liballocLock h
    let min := sub32 ptr 24
    liballocVerifyMagic min h
    let realSize ← h.load (minReqSize min)
    if size ≤ realSize then
      let h ← h.store (minReqSize min) size
      let h ← liballocUnlock h
      return (p, h)
    else
      let h ← liballocUnlock h
      let (ptr, h) ← kmalloc size h
      heapAssert (ptr ≠ 0)
      let vm ← ofKernel (kernelMemcpy h.vm ptr p realSize)
      let h ← kfree p { h with vm := vm }
      return (ptr, h)

end Myunix.Liballoc
