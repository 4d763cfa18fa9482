import Myunix.Process.FdTable
import Myunix.Vmm.VspaceRuns

/-!
# User buffers of `read` and `write` (`syscall.c`)

`syscall_read` and `syscall_write` map the pages of the user's buffer into the kernel directory, call the driver of the
file on that mapping, and unmap it. The number of pages is computed from the user's pointer and length in 32-bit
arithmetic, while the driver is given the length itself.

`readBuffer` and `writeBuffer` are the two calls up to the driver. `user_buffer_covered` says for which pointers and
lengths the mapped pages hold every byte the driver may touch.
-/

namespace Myunix.Syscall

open Lib Vmm Process

/-- What the calls read of the current process, and the machine. -/
structure Sys where
  vm : Vm
  fdTable : Option FdTable
  fds : FdHeap
  pdir : DirPtr

/-! ## Mapping user pages -/

/-- The checks of `dump_directory`, which `map_userspace_to_kernel` calls when it gives up. -/
def dumpDirectory (vm : Vm) (directory : DirPtr) : Kernel PUnit :=
  forRange (fun i _ =>
    let d := vm.dirs directory
    if d.physicalTables i = 0#32 then kassert ((d.tables i).isNone)
    else if d.physicalTables i &&& pagePresent ≠ 0#32 then kassert ((d.tables i).isSome)
    else .ok ⟨⟩) 0 1024 ⟨⟩

/-- The loop of `map_userspace_to_kernel`; `false` is a jump to `failure`. -/
def mapUserPages (pdir : DirPtr) (ptr kptr : Nat) : Nat → Nat → Vm → Kernel (Bool × Vm)
  | 0, _, vm => .ok (true, vm)
  | rest + 1, i, vm => do
    let uVirtaddr := (ptr + i * 4096) % 0x100000000
    let kVirtaddr := (kptr + i * 4096) % 0x100000000
    let vm ← mapPage vm (getTable vm kVirtaddr .kernel) kVirtaddr 0 0#32
    invalidatePage kVirtaddr
    match getTable vm uVirtaddr pdir with
    | none => return (false, vm)
    | some table =>
      let page ← getPage vm (some table) uVirtaddr
      if page &&& pagePresent = 0#32 ∨ page &&& pageReadwrite = 0#32 ∨ page &&& pageUser = 0#32 then
        return (false, vm)
      else
        let vm ← mapPage vm (getTable vm kVirtaddr .kernel) kVirtaddr page.toNat (pagePresent ||| pageReadwrite)
        invalidatePage kVirtaddr
        mapUserPages pdir ptr kptr rest (i + 1) vm

/-- The cleanup loop of `map_userspace_to_kernel`: unmap up to the first entry that is 0. -/
def unmapMapped (kptr : Nat) : Nat → Nat → Vm → Kernel Vm
  | 0, _, vm => .ok vm
  | rest + 1, i, vm => do
    let virtaddr := (i * 4096 + kptr) % 0x100000000
    if (← getPage vm (getTable vm virtaddr .kernel) virtaddr) = 0#32 then return vm
    else
      let vm ← mapPage vm (getTable vm virtaddr .kernel) virtaddr 0 0#32
      unmapMapped kptr rest (i + 1) vm

/-- `map_userspace_to_kernel`; `true` is a return of 0, `false` a return of -1. -/
def mapUserspaceToKernel (vm : Vm) (pdir : DirPtr) (ptr kptr n : Nat) : Kernel (Bool × Vm) := do
  kassert (ptr % 4096 = 0 ∧ kptr % 4096 = 0 ∧ n ≠ 0)
  let (done, vm) ← mapUserPages pdir ptr kptr n 0 vm
  if done then return (true, vm)
  else
    dumpDirectory vm pdir
    let vm ← unmapMapped kptr n 0 vm
    return (false, vm)

/-- `unmap_from_kernel`. -/
def unmapFromKernel (kptr n : Nat) (vm : Vm) : Kernel Vm := do
  kassert (n ≠ 0)
  forRange (fun i vm =>
    let virtaddr := (i * 4096 + kptr) % 0x100000000
    mapPage vm (getTable vm virtaddr .kernel) virtaddr 0 0#32) 0 n vm

/-! ## The calls -/

/-- The number of pages the calls map for a buffer: `(BLOCK_SIZE - 1 + length + (ptr & 0xfff)) / BLOCK_SIZE`. -/
def nBlocks (ptr length : Word) : Nat := (4095#32 + length + (ptr &&& 0xFFF#32)).toNat / 4096

/-- What is handed to the driver, with the mapping it was made for: `buffer` is `kptr2`. -/
structure DriverCall where
  fd : FdPtr
  node : NodePtr
  seek : Word
  length : Word
  buffer : Nat
  kptr : Nat
  blocks : Nat
  vm : Vm

/-- A call returned early, or has reached the driver. -/
abbrev Buffered := (Word × Vm) ⊕ DriverCall

/-- The part that both calls have in common, from the page count to the driver. -/
def mapBuffer (s : Sys) (fd : FdPtr) (node : NodePtr) (ptr length : Word) : Kernel Buffered := do
  let (kptr, vm) ← findVspace .kernel (nBlocks ptr length) s.vm
  let (done, vm) ← mapUserspaceToKernel vm s.pdir (ptr &&& ~~~ 0xFFF#32).toNat kptr (nBlocks ptr length)
  if done then
    return .inr {
      fd, node, length, kptr, vm
      seek := (s.fds.fds fd).seek
      buffer := (kptr + (ptr &&& 0xFFF#32).toNat) % 0x100000000
      blocks := nBlocks ptr length }
  else return .inl (0xFFFFFFFF#32, vm)

/-- `syscall_read` up to the call of `fs_read`. -/
def readBuffer (s : Sys) (fdNum ptr length : Word) : Kernel Buffered :=
  match s.fdTable with
  | none => return .inl (0xFFFFFFFF#32, s.vm)
  | some table => do
    match ← fdTableGet table fdNum.toNat with
    | none => return .inl (0xFFFFFFFF#32, s.vm)
    | some fd =>
      match (s.fds.fds fd).node with
      | none => throw .assertion
      | some node => if length = 0#32 then return .inl (0#32, s.vm) else mapBuffer s fd node ptr length

/-- `syscall_write` up to the call of `fs_write`: a missing table stops in `fd_table_get`, and a page count of 0 stops
before the search. -/
def writeBuffer (s : Sys) (fdNum ptr length : Word) : Kernel Buffered :=
  match s.fdTable with
  | none => throw .assertion
  | some table => do
    match ← fdTableGet table fdNum.toNat with
    | none => return .inl (0xFFFFFFFF#32, s.vm)
    | some fd =>
      match (s.fds.fds fd).node with
      | none => throw .assertion
      | some node =>
        if length = 0#32 then return .inl (0#32, s.vm)
        else
          kassert (nBlocks ptr length ≠ 0)
          mapBuffer s fd node ptr length

/-- `fs_read` or `fs_write` on a node, as the driver of its file system has it. -/
abbrev Driver := NodePtr → Word → Word → Nat → Vm → Kernel (Word × Vm)

/-- The end of both calls: the driver, the new position, and the mapping taken down. -/
def finish (driver : Driver) (s : Sys) : Buffered → Kernel (Word × Sys)
  | .inl (r, vm) => return (r, { s with vm := vm })
  | .inr c => do
    let (r, vm) ← driver c.node c.seek c.length c.buffer c.vm
    let entry := s.fds.fds c.fd
    let fds :=
      if r ≠ 0xFFFFFFFF#32 then
        { s.fds with fds := Function.update s.fds.fds c.fd { entry with seek := entry.seek + r } }
      else s.fds
    let vm ← unmapFromKernel c.kptr c.blocks vm
    return (r, { s with vm := vm, fds := fds })

/-- `syscall_read`. -/
def syscallRead (fsRead : Driver) (s : Sys) (fdNum ptr length : Word) : Kernel (Word × Sys) :=
  readBuffer s fdNum ptr length >>= finish fsRead s

/-- `syscall_write`. -/
def syscallWrite (fsWrite : Driver) (s : Sys) (fdNum ptr length : Word) : Kernel (Word × Sys) :=
  writeBuffer s fdNum ptr length >>= finish fsWrite s

/-! ## The page count -/

section Count

variable {ptr length : Word}

theorem offset_lt : (ptr &&& 0xFFF#32).toNat < 4096 := by
  rw [BitVec.toNat_and]
  exact Nat.lt_of_le_of_lt Nat.and_le_right (by decide)

theorem nBlocks_eq : nBlocks ptr length =
    (4095 + length.toNat + (ptr &&& 0xFFF#32).toNat) % 0x100000000 / 4096 := by
  unfold nBlocks
  rw [BitVec.toNat_add, BitVec.toNat_add, BitVec.toNat_ofNat]
  omega

/-- Below the wrap-around the count is the rounded-up one, or 0 for the sums that are just too long. -/
theorem nBlocks_cover (h : (ptr &&& 0xFFF#32).toNat + length.toNat ≤ 0x100000000) (h0 : nBlocks ptr length ≠ 0) :
    (ptr &&& 0xFFF#32).toNat + length.toNat ≤ nBlocks ptr length * 4096 := by
  rw [nBlocks_eq] at h0 ⊢
  omega

/-- Past it the count is 1. -/
theorem nBlocks_wrap (h : 0x100000000 < (ptr &&& 0xFFF#32).toNat + length.toNat) : nBlocks ptr length = 1 := by
  have hoff := @offset_lt ptr
  have hlen := length.isLt
  rw [nBlocks_eq]
  omega

end Count

/-! ## Reaching the driver -/

section Reach

variable {s : Sys} {fd : FdPtr} {node : NodePtr} {fdNum ptr length : Word} {c : DriverCall}

/-- A call that reaches the driver has a page count that is not 0. -/
theorem mapBuffer_ok (h : mapBuffer s fd node ptr length = .ok (.inr c)) :
    c.blocks = nBlocks ptr length ∧ c.length = length ∧ nBlocks ptr length ≠ 0 := by
  simp only [mapBuffer, bind_eq_ok, Prod.exists] at h
  obtain ⟨kptr, vm, hfind, done, vm', -, h⟩ := h
  split at h
  · simp only [pure_eq_ok, Sum.inr.injEq] at h
    subst h
    exact ⟨rfl, rfl, (findVspace_ok hfind).1⟩
  · simp at h

theorem readBuffer_ok (h : readBuffer s fdNum ptr length = .ok (.inr c)) :
    c.blocks = nBlocks ptr length ∧ c.length = length ∧ nBlocks ptr length ≠ 0 := by
  unfold readBuffer at h
  split at h
  · simp at h
  · simp only [bind_eq_ok] at h
    obtain ⟨r, -, h⟩ := h
    split at h
    · simp at h
    · split at h
      · simp at h
      · split at h
        · simp at h
        · exact mapBuffer_ok h

theorem writeBuffer_ok (h : writeBuffer s fdNum ptr length = .ok (.inr c)) :
    c.blocks = nBlocks ptr length ∧ c.length = length ∧ nBlocks ptr length ≠ 0 := by
  unfold writeBuffer at h
  split at h
  · simp at h
  · simp only [bind_eq_ok] at h
    obtain ⟨r, -, h⟩ := h
    split at h
    · simp at h
    · split at h
      · simp at h
      · split at h
        · simp at h
        · simp only [bind_eq_ok] at h
          obtain ⟨-, -, h⟩ := h
          exact mapBuffer_ok h

end Reach

/-! ## A process whose every page is mapped -/

/-- A directory with all its tables, whose entries are all `page`. -/
def fullDir (page : Word) : PageDirectory where
  physicalTablesVirt := 0
  physicalTables _ := 1#32
  tables _ := some ⟨0, fun _ => page⟩
  physicalAddress := 0
  refcount := 1

/-- A machine with a free kernel directory and user directories whose every page is present, writable and the user's. -/
def openVm : Vm where
  pmm := (kernelVm fun _ => 0#32).pmm
  dirs := Function.update (fun _ => fullDir 7#32) .kernel (fullDir 0#32)
  nextDir := 1
  frames _ _ := 0#8

/-- A process on that machine with one open file. -/
def openSys : Sys where
  vm := openVm
  fdTable := some ⟨[some 0], 1, 1, 1⟩
  fds := ⟨fun _ => ⟨some 0, 0#32, 1, true⟩, []⟩
  pdir := .user 0

section Open

variable {ptr length : Word}

theorem openVm_kernel {m : Nat} : openVm.entry .kernel m = 0#32 := rfl

theorem openVm_user {a m : Nat} : openVm.entry (.user a) m = 7#32 := rfl

theorem openVm_tables : KernelTables openVm := fun _ _ => ⟨⟨_, rfl⟩, rfl⟩

/-- One user page with all its rights is mapped. -/
theorem mapUserPages_one {vm : Vm} {a u k : Nat} (hk : KernelTables vm) (hk1 : k % 4096 = 0) (hk2 : k < 0x100000000)
    (hu : u < 0x100000000) (ht : vm.HasTable (.user a) (u / 0x400000)) (hpage : vm.entry (.user a) (u / 4096) = 7#32) :
    ∃ vm', mapUserPages (.user a) u k 1 0 vm = .ok (true, vm') := by
  have hk3 : (k + 0 * 4096) % 0x100000000 = k := by omega
  have hu3 : (u + 0 * 4096) % 0x100000000 = u := by omega
  have hkt := hk (k / 0x400000) (by omega)
  have hk' : KernelTables (vm.setEntry .kernel (k / 4096) (BitVec.ofNat 32 0 ||| 0#32)) := hk.setEntry
  have hkt' := hk' (k / 0x400000) (by omega)
  have htab : getTable (vm.setEntry .kernel (k / 4096) (BitVec.ofNat 32 0 ||| 0#32)) u (.user a) =
      some ⟨.user a, u / 0x400000⟩ := getTable_eq_some.2 ⟨hasTable_setEntry.2 ht, rfl⟩
  have hent : (vm.setEntry .kernel (k / 4096) (BitVec.ofNat 32 0 ||| 0#32)).entry (.user a) (u / 4096) = 7#32 := by
    rw [entry_setEntry (by rw [table_of_page]; exact hkt.1), if_neg (fun h => by cases h.1), hpage]
  simp only [mapUserPages, hk3, hu3, mapPage_eq (by omega : k % 1024 = 0) hkt.1 hkt.2, ok_bind, invalidatePage,
    assert_pos (by omega : k % 1024 = 0), htab, getPage_table, hent]
  rw [if_neg (by decide), mapPage_eq (by omega : k % 1024 = 0) hkt'.1 hkt'.2]
  exact ⟨_, rfl⟩

/-- On this machine a buffer that needs one page reaches the driver. -/
theorem mapBuffer_open (fd : FdPtr) (node : NodePtr) (h : nBlocks ptr length = 1) :
    ∃ c, mapBuffer openSys fd node ptr length = .ok (.inr c) := by
  have hfind : findVspace .kernel 1 openVm = .ok (1 * 4096, openVm.setEntry .kernel 1 pageValueReserved) := by
    rw [findVspace_kernel, findVspaceKernel_first (j := 1) openVm_tables (by omega) (by omega) openVm_kernel
      (fun i _ _ => by omega), if_neg (by omega)]
  have hal : (ptr &&& ~~~ 0xFFF#32).toNat % 4096 = 0 := by
    rw [page_toNat]
    exact Nat.mul_mod_left _ _
  have hlt := (ptr &&& ~~~ 0xFFF#32).isLt
  have htables : KernelTables (openVm.setEntry .kernel 1 pageValueReserved) := openVm_tables.setEntry
  obtain ⟨vm', hmap⟩ := mapUserPages_one (a := 0) (u := (ptr &&& ~~~ 0xFFF#32).toNat) (k := 1 * 4096) htables
    (by omega) (by omega) (by omega)
    (hasTable_setEntry.2 ⟨_, rfl⟩) (by rw [entry_setEntry ⟨_, rfl⟩, if_neg (fun h => by cases h.1), openVm_user])
  have hchecks : (ptr &&& ~~~ 0xFFF#32).toNat % 4096 = 0 ∧ 1 * 4096 % 4096 = 0 ∧ 1 ≠ 0 := by omega
  have hall : mapUserspaceToKernel (openVm.setEntry .kernel 1 pageValueReserved) (.user 0)
      (ptr &&& ~~~ 0xFFF#32).toNat (1 * 4096) 1 = .ok (true, vm') := by
    unfold mapUserspaceToKernel
    rw [assert_bind hchecks, hmap]
    rfl
  simp only [mapBuffer, h, openSys, hfind, ok_bind, hall]
  exact ⟨_, rfl⟩

theorem readBuffer_open (hl : length ≠ 0#32) (h : nBlocks ptr length = 1) :
    ∃ c, readBuffer openSys 0#32 ptr length = .ok (.inr c) := by
  obtain ⟨c, hc⟩ := mapBuffer_open 0 0 h
  refine ⟨c, ?_⟩
  rw [← hc]
  exact if_neg hl

theorem writeBuffer_open (hl : length ≠ 0#32) (h : nBlocks ptr length = 1) :
    ∃ c, writeBuffer openSys 0#32 ptr length = .ok (.inr c) := by
  obtain ⟨c, hc⟩ := mapBuffer_open 0 0 h
  refine ⟨c, ?_⟩
  have hn : nBlocks ptr length ≠ 0 := by omega
  rw [← hc]
  apply (if_neg hl).trans
  rw [assert_bind hn]

end Open

/-- The pages mapped for the buffer hold every byte handed to the driver. -/
def Covered (ptr : Word) (c : DriverCall) : Prop := (ptr &&& 0xFFF#32).toNat + c.length.toNat ≤ c.blocks * 4096

/-- **User buffers.** For a pointer and a length, the mapped pages hold every byte handed to the driver in every state
in which `syscall_read`, or `syscall_write`, reaches it, exactly when the offset in the page and the length add up to
at most `2 ^ 32`. -/
theorem user_buffer_covered (ptr length : Word) :
    ((∀ s fdNum c, readBuffer s fdNum ptr length = .ok (.inr c) → Covered ptr c) ↔
      (ptr &&& 0xFFF#32).toNat + length.toNat ≤ 0x100000000) ∧
    ((∀ s fdNum c, writeBuffer s fdNum ptr length = .ok (.inr c) → Covered ptr c) ↔
      (ptr &&& 0xFFF#32).toNat + length.toNat ≤ 0x100000000) := by
  have hoff := @offset_lt ptr
  -- past the bound one page is mapped for more than a page of bytes
  have hfail : ∀ {c : DriverCall}, 0x100000000 < (ptr &&& 0xFFF#32).toNat + length.toNat →
      c.blocks = nBlocks ptr length ∧ c.length = length ∧ nBlocks ptr length ≠ 0 → ¬ Covered ptr c := by
    rintro c hgt ⟨hb, hl, -⟩ hcov
    unfold Covered at hcov
    rw [hb, hl, nBlocks_wrap hgt] at hcov
    omega
  have hne : 0x100000000 < (ptr &&& 0xFFF#32).toNat + length.toNat → length ≠ 0#32 := by
    rintro hgt rfl
    simp only [BitVec.toNat_ofNat] at hgt
    omega
  refine ⟨⟨fun h => ?_, fun h s fdNum c hc => ?_⟩, ⟨fun h => ?_, fun h s fdNum c hc => ?_⟩⟩
  · by_contra hgt
    rw [Nat.not_le] at hgt
    obtain ⟨c, hc⟩ := readBuffer_open (hne hgt) (nBlocks_wrap hgt)
    exact hfail hgt (readBuffer_ok hc) (h openSys 0#32 c hc)
  · obtain ⟨hb, hl, h0⟩ := readBuffer_ok hc
    unfold Covered
    rw [hb, hl]
    exact nBlocks_cover h h0
  · by_contra hgt
    rw [Nat.not_le] at hgt
    obtain ⟨c, hc⟩ := writeBuffer_open (hne hgt) (nBlocks_wrap hgt)
    exact hfail hgt (writeBuffer_ok hc) (h openSys 0#32 c hc)
  · obtain ⟨hb, hl, h0⟩ := writeBuffer_ok hc
    unfold Covered
    rw [hb, hl]
    exact nBlocks_cover h h0

/-- One page is mapped for a request of `0xFFFFFFFF` bytes at the last byte of a page. -/
theorem user_buffer_wraps : ∃ c, readBuffer openSys 0#32 0xFFF#32 0xFFFFFFFF#32 = .ok (.inr c) ∧
    c.blocks = 1 ∧ c.length = 0xFFFFFFFF#32 ∧ ¬ Covered 0xFFF#32 c := by
  obtain ⟨c, hc⟩ := @readBuffer_open 0xFFF#32 0xFFFFFFFF#32 (by decide) rfl
  obtain ⟨hb, hl, -⟩ := readBuffer_ok hc
  refine ⟨c, hc, hb, hl, ?_⟩
  unfold Covered
  rw [hb, hl]
  decide

end Myunix.Syscall
