import Myunix.Lib.Traced
import Myunix.Lib.Walk
import Myunix.Process.ExecveImage
import Myunix.Process.KstackPlace

/-!
# The stack trace of a user program (`cpu.c`)

When a user program faults, the page fault handler prints its stack. The stack is a chain of frames: a frame is the
address of two words, the address of the next frame and a return address. Both are read through a page of the kernel
directory at which the page of the user is mapped for one read.

* `tryReadUint32_unreadable`, `tryReadUint32_full`, `tryReadUint32_fits` and `tryReadUint32_crosses` are the four ways a
  read can go. None of them changes the machine, if it returns.
* `SavedFrame` is the chain as the user program has built it. `traces_iff` takes the trace apart one frame at a time, and
  `traces_iff_chain` says how it goes for a whole chain.
-/

namespace Myunix.Cpu

open Lib Vmm Process Syscall

/-! ## The code -/

/-- A word that the trace reads: the page at which its page is mapped, and the address it is read at. -/
structure WordRead where
  page : Nat
  addr : Nat
deriving DecidableEq, Repr

/-- The word is in the page. -/
def WordRead.InPage (r : WordRead) : Prop := r.page ≤ r.addr ∧ r.addr + 4 ≤ r.page + 4096

instance (r : WordRead) : Decidable r.InPage := inferInstanceAs (Decidable (_ ∧ _))

/-- A computation with the words that it reads for the trace. -/
abbrev Reads (α : Type) := Traced WordRead Failure α

/-- A step of the kernel without such a read. -/
def kernel {α : Type} (x : Kernel α) : Reads α := Traced.lift id x

/-- `is_mapped`, with a kernel directory. -/
def isMapped (vm : Vm) (vAddr : Nat) : Kernel Bool :=
  if (vm.dirs .kernel).physicalTables (vAddr / 0x400000) &&& pagePresent = 0#32 then return false
  else do
    let page ← getPage vm (getTable vm vAddr .kernel) vAddr
    return decide (page &&& pagePresent ≠ 0#32)

/-- `is_mapped_uint32`. -/
def isMappedUint32 (vm : Vm) (addr : Nat) : Kernel Bool :=
  forRange (fun i success => do
    let mapped ← isMapped vm ((addr + i) % 0x100000000)
    return success && mapped) 0 4 true

/-- The read in `try_read_uint32`, if the page at `kaddr` is mapped. -/
def readMapped (vm : Vm) (kaddr offset : Nat) : Reads (Option Word) := do
  if ← kernel (isMappedUint32 vm kaddr) then
    Traced.log ⟨kaddr, kaddr + offset⟩
    let out ← kernel (kernelLoadWord vm (kaddr + offset))
    return some out
  else return none

/-- `try_read_uint32`; `none` for the return of `false`. -/
def tryReadUint32 (vm : Vm) (pdir : DirPtr) (ptr : Word) : Reads (Option Word × Vm) :=
  match getTable vm ptr.toNat pdir with
  | none => return (none, vm)
  | some table => do
    let page ← kernel (getPage vm (some table) ptr.toNat)
    if page &&& pagePresent = 0#32 then return (none, vm)
    else if page &&& pageUser = 0#32 then return (none, vm)
    else
      let (kaddr, vm) ← kernel (findVspace .kernel 1 vm)
      if kaddr = 0 then return (none, vm)
      else
        let vm ← kernel (mapPage vm (getTable vm kaddr .kernel) kaddr page.toNat pagePresent)
        kernel (invalidatePage kaddr)
        let out ← readMapped vm kaddr (ptr &&& 0xFFF#32).toNat
        let vm ← kernel (mapPage vm (getTable vm kaddr .kernel) kaddr 0 0#32)
        kernel (invalidatePage kaddr)
        return (out, vm)

/-- The `for` loop of `print_user_stack_trace`; `none` when it is not over after that many rounds. -/
def userFrames (pdir : DirPtr) : Nat → Word → Vm → Reads (Option Vm)
  | 0, _, _ => return none
  | rounds + 1, ptr, vm => do
    let (frameEbp, vm) ← tryReadUint32 vm pdir ptr
    match frameEbp with
    | none => return some vm
    | some frameEbp =>
      let (frameEip, vm) ← tryReadUint32 vm pdir (ptr + 4#32)
      match frameEip with
      | none => return some vm
      | some frameEip =>
        if frameEbp = 0#32 ∨ frameEip = 0#32 then return some vm
        else userFrames pdir rounds frameEbp vm

/-- `print_user_stack_trace`. -/
def printUserStackTrace (vm : Vm) (pdir : DirPtr) (regs : Registers) (rounds : Nat) : Reads (Option Vm) :=
  userFrames pdir rounds regs.ebp vm

/-! ## The chain of frames -/

/-- The page of `ptr` is present and the user's. -/
def UserReadable (vm : Vm) (pdir : DirPtr) (ptr : Word) : Prop :=
  vm.entry pdir (ptr.toNat / 4096) &&& pagePresent ≠ 0#32 ∧ vm.entry pdir (ptr.toNat / 4096) &&& pageUser ≠ 0#32

instance (vm : Vm) (pdir : DirPtr) (ptr : Word) : Decidable (UserReadable vm pdir ptr) :=
  inferInstanceAs (Decidable (_ ∧ _))

/-- The frame at `p` can be read, and has `q` as the next one. -/
structure SavedFrame (vm : Vm) (pdir : DirPtr) (p q : Word) : Prop where
  ebp_readable : UserReadable vm pdir p
  eip_readable : UserReadable vm pdir (p + 4#32)
  next : q = userWord vm pdir p 0
  ebp_ne : q ≠ 0#32
  eip_ne : userWord vm pdir (p + 4#32) 0 ≠ 0#32

/-- Neither word of the frame at `p` goes beyond the end of its page, if there is such a page. -/
def FrameFits (vm : Vm) (pdir : DirPtr) (p : Word) : Prop :=
  UserReadable vm pdir p → p.toNat % 4096 ≤ 0xFF8 ∨ p.toNat % 4096 = 0xFFC

/-- The kernel directory has a page to map at. -/
def FreeKernelPage (vm : Vm) : Prop := ∃ j, 1 ≤ j ∧ j < 0x100000 ∧ vm.entry .kernel j = 0#32

/-! ## One read -/

section Read

variable {vm : Vm} {pdir : DirPtr} {ptr w : Word} {j offset : Nat}

theorem kernel_ok_bind {α β : Type} {a : α} {f : α → Reads β} : kernel (.ok a) >>= f = f a := Traced.lift_ok_bind

theorem kernel_error_bind {α β : Type} {e : Failure} {f : α → Reads β} :
    kernel (.error e) >>= f = Traced.stop e := Traced.lift_error_bind

/-- A search for one page takes a free one, when there is one. -/
theorem findVspace_one (hk : KernelTables vm) (hfree : FreeKernelPage vm) :
    ∃ j, 1 ≤ j ∧ j < 0x100000 ∧ vm.entry .kernel j = 0#32 ∧
      findVspace .kernel 1 vm = .ok (j * 4096, if j = 0xFFFFF then vm else vm.setEntry .kernel j pageValueReserved) := by
  classical
  have hspec := Nat.find_spec hfree
  refine ⟨Nat.find hfree, hspec.1, hspec.2.1, hspec.2.2, ?_⟩
  rw [findVspace_kernel]
  refine findVspaceKernel_first hk hspec.1 hspec.2.1 hspec.2.2 fun i h1 hlt hi => ?_
  exact Nat.find_min hfree hlt ⟨h1, by omega, hi⟩

/-- Without a free page, the search returns an address that is not aligned. -/
theorem findVspace_full (hk : KernelTables vm) (hfull : ¬ FreeKernelPage vm) :
    findVspace .kernel 1 vm = .ok (noVspace, vm) := by
  rw [findVspace_kernel]
  obtain ⟨v, vm', hfind, -⟩ := findVspaceKernel_total hk (by omega : 1 ≠ 0)
  rcases findVspaceKernel_one hfind with ⟨rfl, rfl⟩ | ⟨j, h1, h2, -, h4, -⟩
  · exact hfind
  · exact absurd ⟨j, h1, h2, h4⟩ hfull

/-- A mapping with `PAGE_PRESENT` keeps an entry that is present. -/
theorem or_present (h : w &&& pagePresent ≠ 0#32) : w ||| pagePresent = w := by
  have hbit : w[0] = true := by
    by_contra hbit
    refine h (BitVec.eq_of_getElem_eq fun i hi => ?_)
    rcases Nat.eq_zero_or_pos i with rfl | hpos
    · simp [hbit]
    · simp [pagePresent, BitVec.getElem_one, Nat.ne_of_gt hpos]
  refine BitVec.eq_of_getElem_eq fun i hi => ?_
  rcases Nat.eq_zero_or_pos i with rfl | hpos
  · simp [hbit]
  · simp [pagePresent, BitVec.getElem_one, Nat.ne_of_gt hpos]

/-- With a present entry at page `j`, the word at its start is mapped. -/
theorem isMappedUint32_page (hk : KernelTables vm) (hp : ∀ k < 1024, PresentTable vm .kernel k) (hj : j < 0x100000)
    (hw : w &&& pagePresent ≠ 0#32) : isMappedUint32 (vm.setEntry .kernel j w) (j * 4096) = .ok true := by
  have hbyte : ∀ i < 4, isMapped (vm.setEntry .kernel j w) ((j * 4096 + i) % 0x100000000) = .ok true := by
    intro i hi
    have haddr : (j * 4096 + i) % 0x100000000 = j * 4096 + i := by omega
    have hpage : (j * 4096 + i) / 4096 = j := by omega
    have hindex : (j * 4096 + i) / 0x400000 < 1024 := by omega
    have htable : getTable (vm.setEntry .kernel j w) (j * 4096 + i) .kernel = some ⟨.kernel, (j * 4096 + i) / 0x400000⟩ :=
      getTable_eq_some.2 ⟨hasTable_setEntry.2 (hk _ hindex).1, rfl⟩
    unfold isMapped
    rw [haddr, physicalTables_setEntry.1, if_neg (hp _ hindex), htable, getPage_table, hpage, ok_bind,
      entry_setEntry (hk _ (by omega)).1, if_pos ⟨rfl, rfl⟩, decide_eq_true hw]
    rfl
  simp only [isMappedUint32, forRange, Nat.reduceAdd, hbyte 0 (by omega), hbyte 1 (by omega), hbyte 2 (by omega),
    hbyte 3 (by omega), ok_bind]
  rfl

theorem readMapped_eq {u : Vm} {kaddr : Nat} (h : isMappedUint32 u kaddr = .ok true) :
    readMapped u kaddr offset = ⟨[⟨kaddr, kaddr + offset⟩], (kernelLoadWord u (kaddr + offset)).map some⟩ := by
  rw [readMapped, h, kernel_ok_bind, if_pos rfl, Traced.log_bind]
  cases kernelLoadWord u (kaddr + offset) with
  | error e => rfl
  | ok w => rfl

/-- **A page that the user cannot read** is not mapped. -/
theorem tryReadUint32_unreadable (h : ¬ UserReadable vm pdir ptr) : tryReadUint32 vm pdir ptr = ⟨[], .ok (none, vm)⟩ := by
  unfold tryReadUint32
  cases ht : getTable vm ptr.toNat pdir with
  | none => rfl
  | some table =>
    obtain ⟨-, rfl⟩ := getTable_eq_some.1 ht
    simp only [getPage_table, kernel_ok_bind]
    split
    · rfl
    · rename_i hpresent
      split
      · rfl
      · rename_i huser
        exact absurd ⟨hpresent, huser⟩ h

/-- The start of a read of a page that the user can read. -/
theorem tryReadUint32_search (h : UserReadable vm pdir ptr) : tryReadUint32 vm pdir ptr = (do
    let (kaddr, u) ← kernel (findVspace .kernel 1 vm)
    if kaddr = 0 then return (none, u)
    else
      let u ← kernel (mapPage u (getTable u kaddr .kernel) kaddr (vm.entry pdir (ptr.toNat / 4096)).toNat pagePresent)
      kernel (invalidatePage kaddr)
      let out ← readMapped u kaddr (ptr.toNat % 4096)
      let u ← kernel (mapPage u (getTable u kaddr .kernel) kaddr 0 0#32)
      kernel (invalidatePage kaddr)
      return (out, u)) := by
  unfold tryReadUint32
  cases ht : getTable vm ptr.toNat pdir with
  | none =>
    -- without a table, the entry is 0
    have hnone : (vm.dirs pdir).tables (ptr.toNat / 0x400000) = none := by
      simpa [getTable] using ht
    have hzero : vm.entry pdir (ptr.toNat / 4096) = 0#32 := by
      rw [Vm.entry, Vm.pageAt, table_of_page, hnone]
    exact absurd (by rw [hzero]; rfl) h.1
  | some table =>
    obtain ⟨-, rfl⟩ := getTable_eq_some.1 ht
    simp only [getPage_table, kernel_ok_bind, if_neg h.1, if_neg h.2, offset_toNat]

/-- **A kernel directory without a free page** stops the kernel. -/
theorem tryReadUint32_full (hk : KernelTables vm) (hfull : ¬ FreeKernelPage vm) (h : UserReadable vm pdir ptr) :
    tryReadUint32 vm pdir ptr = ⟨[], .error .assertion⟩ := by
  rw [tryReadUint32_search h, findVspace_full hk hfull, kernel_ok_bind]
  have hmap : ∀ x, mapPage vm (getTable vm noVspace .kernel) noVspace x pagePresent = .error .assertion := by
    intro x
    unfold mapPage
    split
    · rfl
    · rfl
  simp only [hmap, kernel_error_bind]
  rfl

/-- **A page that the user can read** is mapped at a free page for one read, and the machine is as before. -/
theorem tryReadUint32_readable (hk : KernelTables vm) (hp : ∀ k < 1024, PresentTable vm .kernel k)
    (hfree : FreeKernelPage vm) (h : UserReadable vm pdir ptr) :
    ∃ j < 0x100000, tryReadUint32 vm pdir ptr = ⟨[⟨j * 4096, j * 4096 + ptr.toNat % 4096⟩],
      (kernelLoadWord (vm.setEntry .kernel j (vm.entry pdir (ptr.toNat / 4096))) (j * 4096 + ptr.toNat % 4096)).map
        fun w => (some w, vm)⟩ := by
  obtain ⟨j, h1, h2, hzero, hfind⟩ := findVspace_one hk hfree
  refine ⟨j, h2, ?_⟩
  have hpage : j * 4096 / 4096 = j := by omega
  have hindex : j * 4096 / 0x400000 < 1024 := by omega
  have hinv : invalidatePage (j * 4096) = .ok ⟨⟩ := assert_pos (by omega)
  -- both stores go to the entry of page `j`
  have hmap : ∀ {u : Vm} (_ : KernelTables u) (x : Nat) (f : Word), mapPage u (getTable u (j * 4096) .kernel)
      (j * 4096) x f = .ok (u.setEntry .kernel j (BitVec.ofNat 32 x ||| f)) := by
    intro u hu x f
    rw [mapPage_eq (by omega) (hu _ hindex).1 (hu _ hindex).2, hpage]
  have hreserved : KernelTables (if j = 0xFFFFF then vm else vm.setEntry .kernel j pageValueReserved) := by
    split
    · exact hk
    · exact hk.setEntry
  have hover : ∀ w, (if j = 0xFFFFF then vm else vm.setEntry .kernel j pageValueReserved).setEntry .kernel j w =
      vm.setEntry .kernel j w := by
    intro w
    split
    · rfl
    · exact setEntry_setEntry
  have hclear : vm.setEntry .kernel j 0#32 = vm := setEntry_self hzero (hk _ (by omega)).1
  have hne : ¬ j * 4096 = 0 := by omega
  rw [tryReadUint32_search h, hfind, kernel_ok_bind]
  simp only [if_neg hne, hmap hreserved, hover, hinv, kernel_ok_bind, BitVec.ofNat_toNat, BitVec.setWidth_eq,
    or_present h.1, readMapped_eq (isMappedUint32_page hk hp h2 h.1), hmap hk.setEntry]
  cases hload : kernelLoadWord (vm.setEntry .kernel j (vm.entry pdir (ptr.toNat / 4096)))
      (j * 4096 + ptr.toNat % 4096) with
  | error e => rfl
  | ok w =>
    rw [Traced.bind_of_ok (a := some w) rfl]
    simp only [setEntry_setEntry, BitVec.or_self, hclear]
    rfl

/-- **A word in one page** is the word that the user program has there. -/
theorem tryReadUint32_fits (hk : KernelTables vm) (hp : ∀ k < 1024, PresentTable vm .kernel k)
    (hfree : FreeKernelPage vm) (h : UserReadable vm pdir ptr) (hfit : ptr.toNat % 4096 ≤ 0xFFC) :
    ∃ r : WordRead, r.InPage ∧ tryReadUint32 vm pdir ptr = ⟨[r], .ok (some (userWord vm pdir ptr 0), vm)⟩ := by
  obtain ⟨j, hj, hread⟩ := tryReadUint32_readable hk hp hfree h
  refine ⟨⟨j * 4096, j * 4096 + ptr.toNat % 4096⟩, ⟨by simp, by simp only; omega⟩, ?_⟩
  have hload : kernelLoadWord (vm.setEntry .kernel j (vm.entry pdir (ptr.toNat / 4096)))
      (j * 4096 + ptr.toNat % 4096) = .ok (userWord vm pdir ptr 0) := by
    refine kernelLoadWord_eq fun k hk4 => ?_
    have haddr : byteAddr ptr (0 * 4 + k) = ptr.toNat + k := by unfold byteAddr; omega
    have hpage : (ptr.toNat + k) / 4096 = ptr.toNat / 4096 := by omega
    have hoff : (j * 4096 + ptr.toNat % 4096 + k) % 4096 = (ptr.toNat + k) % 4096 := by omega
    have hj4 : (j * 4096 + ptr.toNat % 4096 + k) / 4096 = j := by omega
    have hframe : kernelFrame (vm.setEntry .kernel j (vm.entry pdir (ptr.toNat / 4096)))
        (j * 4096 + ptr.toNat % 4096 + k) = .ok (frameOf (vm.entry pdir (ptr.toNat / 4096))) := by
      have hentry : (vm.setEntry .kernel j (vm.entry pdir (ptr.toNat / 4096))).entry .kernel j =
          vm.entry pdir (ptr.toNat / 4096) := by
        rw [entry_setEntry (hk _ (by omega)).1, if_pos ⟨rfl, rfl⟩]
      unfold kernelFrame
      simp only [hj4, hentry, if_neg h.1]
      rfl
    rw [kernelLoad, hframe, ok_bind, hoff]
    simp only [userByte, userPlace, haddr, hpage, setEntry_frames]
    rfl
  rw [hread, hload]
  rfl

/-- **A word that crosses the end of its page** is read where it is not mapped. -/
theorem tryReadUint32_crosses (hk : KernelTables vm) (hp : ∀ k < 1024, PresentTable vm .kernel k)
    (hfree : FreeKernelPage vm) (h : UserReadable vm pdir ptr) (hcross : 0xFFC < ptr.toNat % 4096) :
    ∃ r ∈ (tryReadUint32 vm pdir ptr).events, ¬ r.InPage := by
  obtain ⟨j, -, hread⟩ := tryReadUint32_readable hk hp hfree h
  rw [hread]
  refine ⟨_, List.mem_singleton_self _, ?_⟩
  rintro ⟨-, hend⟩
  simp only at hend
  omega

end Read

/-! ## One frame -/

section Frame

variable {vm : Vm} {pdir : DirPtr} {p q : Word} (rounds : Nat)

/-- The words of a frame that fits are in their pages. -/
theorem FrameFits.words (h : FrameFits vm pdir p) (hr : UserReadable vm pdir p) :
    p.toNat % 4096 ≤ 0xFFC ∧ (p + 4#32).toNat % 4096 ≤ 0xFFC := by
  have hp := h hr
  have hnext : (p + 4#32).toNat = (p.toNat + 4) % 0x100000000 := by
    rw [BitVec.toNat_add]
    rfl
  omega

/-- **The last frame.** -/
theorem userFrames_last (hk : KernelTables vm) (hp : ∀ k < 1024, PresentTable vm .kernel k) (hfree : FreeKernelPage vm)
    (hfit : FrameFits vm pdir p) (hlast : ∀ q, ¬ SavedFrame vm pdir p q) :
    ∃ es : List WordRead, (∀ r ∈ es, r.InPage) ∧ userFrames pdir (rounds + 1) p vm = ⟨es, .ok (some vm)⟩ := by
  by_cases hebp : UserReadable vm pdir p
  · obtain ⟨hp1, hp2⟩ := hfit.words hebp
    obtain ⟨r₁, hr₁, hread₁⟩ := tryReadUint32_fits hk hp hfree hebp hp1
    by_cases heip : UserReadable vm pdir (p + 4#32)
    · obtain ⟨r₂, hr₂, hread₂⟩ := tryReadUint32_fits hk hp hfree heip hp2
      refine ⟨[r₁, r₂], by simp [hr₁, hr₂], ?_⟩
      have hzero : userWord vm pdir p 0 = 0#32 ∨ userWord vm pdir (p + 4#32) 0 = 0#32 := by
        by_contra hne
        obtain ⟨h1, h2⟩ := not_or.1 hne
        exact hlast _ ⟨hebp, heip, rfl, h1, h2⟩
      rw [userFrames, hread₁, Traced.bind_of_ok rfl]
      simp only [hread₂]
      rw [Traced.bind_of_ok rfl]
      simp only [if_pos hzero]
      rfl
    · refine ⟨[r₁], by simp [hr₁], ?_⟩
      rw [userFrames, hread₁, Traced.bind_of_ok rfl]
      simp only [tryReadUint32_unreadable heip]
      rfl
  · refine ⟨[], by simp, ?_⟩
    rw [userFrames, tryReadUint32_unreadable hebp]
    rfl

/-- **A frame with a next one.** -/
theorem userFrames_next (hk : KernelTables vm) (hp : ∀ k < 1024, PresentTable vm .kernel k) (hfree : FreeKernelPage vm)
    (hfit : FrameFits vm pdir p) (hnext : SavedFrame vm pdir p q) :
    ∃ es : List WordRead, (∀ r ∈ es, r.InPage) ∧ userFrames pdir (rounds + 1) p vm =
      ⟨es ++ (userFrames pdir rounds q vm).events, (userFrames pdir rounds q vm).result⟩ := by
  obtain ⟨hp1, hp2⟩ := hfit.words hnext.ebp_readable
  obtain ⟨r₁, hr₁, hread₁⟩ := tryReadUint32_fits hk hp hfree hnext.ebp_readable hp1
  obtain ⟨r₂, hr₂, hread₂⟩ := tryReadUint32_fits hk hp hfree hnext.eip_readable hp2
  refine ⟨[r₁, r₂], by simp [hr₁, hr₂], ?_⟩
  have hne : ¬ (userWord vm pdir p 0 = 0#32 ∨ userWord vm pdir (p + 4#32) 0 = 0#32) :=
    not_or.2 ⟨hnext.next ▸ hnext.ebp_ne, hnext.eip_ne⟩
  rw [userFrames, hread₁, Traced.bind_of_ok rfl]
  simp only [hread₂]
  rw [Traced.bind_of_ok rfl]
  simp only [if_neg hne]
  rw [hnext.next]
  rfl

/-- **A frame that goes beyond the end of its page.** -/
theorem userFrames_crosses (hk : KernelTables vm) (hp : ∀ k < 1024, PresentTable vm .kernel k)
    (hfree : FreeKernelPage vm) (hcross : ¬ FrameFits vm pdir p) :
    ∃ r ∈ (userFrames pdir (rounds + 1) p vm).events, ¬ r.InPage := by
  obtain ⟨hebp, hoff⟩ := Classical.not_imp.1 hcross
  rw [userFrames]
  by_cases hp1 : p.toNat % 4096 ≤ 0xFFC
  · -- the first word is in the page, and the second one is not
    obtain ⟨r₁, -, hread₁⟩ := tryReadUint32_fits hk hp hfree hebp hp1
    have hnext : (p + 4#32).toNat = p.toNat + 4 := by
      rw [BitVec.toNat_add, show (4#32).toNat = 4 by rfl]
      omega
    have heip : UserReadable vm pdir (p + 4#32) := by
      have hpage : (p + 4#32).toNat / 4096 = p.toNat / 4096 := by omega
      unfold UserReadable
      rw [hpage]
      exact hebp
    obtain ⟨r, hr, hout⟩ := tryReadUint32_crosses hk hp hfree heip (by omega)
    refine ⟨r, ?_, hout⟩
    rw [hread₁, Traced.bind_of_ok rfl]
    exact List.mem_append_right _ (Traced.mem_events_bind hr)
  · obtain ⟨r, hr, hout⟩ := tryReadUint32_crosses hk hp hfree hebp (by omega)
    exact ⟨r, Traced.mem_events_bind hr, hout⟩

end Frame

/-! ## The whole chain -/

/-- The trace from `p` on returns, and reads words within the pages only. -/
def Traces (vm : Vm) (pdir : DirPtr) (p : Word) : Prop :=
  (∃ rounds vm', (userFrames pdir rounds p vm).result = .ok (some vm')) ∧
    ∀ rounds, ∀ r ∈ (userFrames pdir rounds p vm).events, r.InPage

section Chain

variable {vm vm' : Vm} {pdir : DirPtr} {p q : Word} {rounds : Nat}

/-- **One round**: the frame fits, and the trace goes on as from the next frame. -/
theorem traces_iff (hk : KernelTables vm) (hp : ∀ k < 1024, PresentTable vm .kernel k) (hfree : FreeKernelPage vm) :
    Traces vm pdir p ↔ FrameFits vm pdir p ∧ ∀ q, SavedFrame vm pdir p q → Traces vm pdir q := by
  constructor
  · rintro ⟨⟨rounds, vm', hret⟩, hin⟩
    have hfit : FrameFits vm pdir p := by
      by_contra hcross
      obtain ⟨r, hr, hout⟩ := userFrames_crosses 0 hk hp hfree hcross
      exact hout (hin 1 r hr)
    refine ⟨hfit, fun q hq => ⟨?_, fun n r hr => ?_⟩⟩
    · cases rounds with
      | zero => cases hret
      | succ rounds =>
        obtain ⟨es, -, hround⟩ := userFrames_next rounds hk hp hfree hfit hq
        rw [hround] at hret
        exact ⟨rounds, vm', hret⟩
    · obtain ⟨es, -, hround⟩ := userFrames_next n hk hp hfree hfit hq
      apply hin (n + 1) r
      rw [hround]
      exact List.mem_append_right es hr
  · rintro ⟨hfit, hnext⟩
    by_cases hlast : ∃ q, SavedFrame vm pdir p q
    · obtain ⟨q, hq⟩ := hlast
      obtain ⟨⟨rounds, vm', hret⟩, hin⟩ := hnext q hq
      refine ⟨⟨rounds + 1, vm', ?_⟩, fun n r hr => ?_⟩
      · obtain ⟨es, -, hround⟩ := userFrames_next rounds hk hp hfree hfit hq
        rw [hround]
        exact hret
      · cases n with
        | zero => cases hr
        | succ n =>
          obtain ⟨es, hes, hround⟩ := userFrames_next n hk hp hfree hfit hq
          rw [hround] at hr
          rcases List.mem_append.1 hr with hr | hr
          · exact hes r hr
          · exact hin n r hr
    · have hnone : ∀ q, ¬ SavedFrame vm pdir p q := fun q hq => hlast ⟨q, hq⟩
      refine ⟨⟨1, vm, ?_⟩, fun n r hr => ?_⟩
      · obtain ⟨es, -, hround⟩ := userFrames_last 0 hk hp hfree hfit hnone
        rw [hround]
      · cases n with
        | zero => cases hr
        | succ n =>
          obtain ⟨es, hes, hround⟩ := userFrames_last n hk hp hfree hfit hnone
          rw [hround] at hr
          exact hes r hr

/-- A trace that returns has come to the end of the chain. -/
theorem acc_of_returns (hk : KernelTables vm) (hp : ∀ k < 1024, PresentTable vm .kernel k) (hfree : FreeKernelPage vm)
    (hfits : ∀ q, Relation.ReflTransGen (SavedFrame vm pdir) p q → FrameFits vm pdir q)
    (hret : (userFrames pdir rounds p vm).result = .ok (some vm')) : Acc (fun q p => SavedFrame vm pdir p q) p := by
  induction rounds generalizing p with
  | zero => cases hret
  | succ rounds ih =>
    refine Acc.intro p fun q hq => ?_
    obtain ⟨es, -, hround⟩ := userFrames_next rounds hk hp hfree (hfits p .refl) hq
    rw [hround] at hret
    exact ih (fun r hr => hfits r (.head hq hr)) hret

/-- **The whole trace**: no frame that it comes to goes beyond its page or leads back to itself. -/
theorem traces_iff_chain (hk : KernelTables vm) (hp : ∀ k < 1024, PresentTable vm .kernel k)
    (hfree : FreeKernelPage vm) : Traces vm pdir p ↔ ∀ q, Relation.ReflTransGen (SavedFrame vm pdir) p q →
      FrameFits vm pdir q ∧ ¬ Relation.TransGen (SavedFrame vm pdir) q q := by
  constructor
  · intro h
    have hall : ∀ q, Relation.ReflTransGen (SavedFrame vm pdir) p q → Traces vm pdir q := by
      intro q hpath
      induction hpath with
      | refl => exact h
      | tail _ hstep ih => exact ((traces_iff hk hp hfree).1 ih).2 _ hstep
    have hfits : ∀ q, Relation.ReflTransGen (SavedFrame vm pdir) p q → FrameFits vm pdir q :=
      fun q hpath => ((traces_iff hk hp hfree).1 (hall q hpath)).1
    obtain ⟨⟨rounds, vm', hret⟩, -⟩ := h
    have hacc := acc_of_returns hk hp hfree hfits hret
    exact fun q hpath => ⟨hfits q hpath, not_cycle_of_acc hacc hpath⟩
  · intro h
    have : Finite Word := Finite.of_injective BitVec.toFin fun _ _ heq => BitVec.eq_of_toFin_eq heq
    have hacc : Acc (fun q p => SavedFrame vm pdir p q) p := acc_iff_acyclic.2 fun q hpath => (h q hpath).2
    induction hacc with
    | intro p _ ih =>
      refine (traces_iff hk hp hfree).2 ⟨(h p .refl).1, fun q hq => ?_⟩
      exact ih q hq fun r hpath => h r (.head hq hpath)

/-- **`print_user_stack_trace`** returns and reads within the pages that it has mapped if and only if it finds a page to
map at, no frame of the chain goes beyond the end of its page, and none leads back to itself. -/
theorem print_user_stack_trace_iff (hk : KernelTables vm) (hp : ∀ k < 1024, PresentTable vm .kernel k) (pdir : DirPtr)
    (regs : Registers) :
    ((∃ rounds vm', (printUserStackTrace vm pdir regs rounds).result = .ok (some vm')) ∧
        ∀ rounds, ∀ r ∈ (printUserStackTrace vm pdir regs rounds).events, r.InPage) ↔
      (UserReadable vm pdir regs.ebp → FreeKernelPage vm) ∧
        ∀ p, Relation.ReflTransGen (SavedFrame vm pdir) regs.ebp p →
          FrameFits vm pdir p ∧ ¬ Relation.TransGen (SavedFrame vm pdir) p p := by
  change Traces vm pdir regs.ebp ↔ _
  by_cases hfree : FreeKernelPage vm
  · rw [traces_iff_chain hk hp hfree]
    exact ⟨fun h => ⟨fun _ => hfree, h⟩, fun h => h.2⟩
  · by_cases hread : UserReadable vm pdir regs.ebp
    · -- the search for a page fails
      refine ⟨fun ⟨⟨rounds, vm', hret⟩, _⟩ => ?_, fun h => absurd (h.1 hread) hfree⟩
      cases rounds with
      | zero => cases hret
      | succ rounds =>
        rw [userFrames, tryReadUint32_full hk hfree hread] at hret
        cases hret
    · -- nothing is read
      have hround : ∀ rounds, userFrames pdir (rounds + 1) regs.ebp vm = ⟨[], .ok (some vm)⟩ := by
        intro rounds
        rw [userFrames, tryReadUint32_unreadable hread]
        rfl
      refine ⟨fun _ => ⟨fun h => absurd h hread, fun p hpath => ?_⟩, fun _ => ⟨⟨1, vm, ?_⟩, fun rounds r hr => ?_⟩⟩
      · have hnone : ∀ q, ¬ SavedFrame vm pdir regs.ebp q := fun q hq => hread hq.ebp_readable
        rcases Relation.ReflTransGen.cases_head hpath with rfl | ⟨q, hq, -⟩
        · refine ⟨fun h => absurd h hread, fun hcycle => ?_⟩
          obtain ⟨q, hq, -⟩ := Relation.TransGen.head'_iff.1 hcycle
          exact hnone q hq
        · exact absurd hq (hnone q)
      · rw [hround]
      · cases rounds with
        | zero => cases hr
        | succ rounds =>
          rw [hround] at hr
          cases hr

end Chain

/-- A machine whose user has a frame at `0x1000` that names itself as the next one, and a last frame at `0x1008`. -/
def framesVm : Vm := { openVm with
  frames := fun _ o => if o = 1 then 0x10#8 else if o = 4 ∨ o = 12 then 1#8 else 0#8 }

/-- A fault with the frame at `ebp`. -/
def faultRegs (ebp : Word) : Registers := { zeroRegisters with ebp := ebp }

theorem framesVm_tables : KernelTables framesVm := openVm_tables

theorem framesVm_present : ∀ k < 1024, PresentTable framesVm .kernel k := fun k _ =>
  show (1#32 &&& pagePresent) ≠ 0#32 by decide

theorem framesVm_free : FreeKernelPage framesVm := ⟨1, by decide, by decide, rfl⟩

/-- The last frame. -/
theorem print_user_stack_trace_iff_last :
    (∃ rounds vm', (printUserStackTrace framesVm (.user 0) (faultRegs 0x1008#32) rounds).result = .ok (some vm')) ∧
      ∀ rounds, ∀ r ∈ (printUserStackTrace framesVm (.user 0) (faultRegs 0x1008#32) rounds).events, r.InPage := by
  have hnone : ∀ q, ¬ SavedFrame framesVm (.user 0) 0x1008#32 q := by
    intro q hq
    apply hq.ebp_ne
    rw [hq.next]
    decide
  refine (print_user_stack_trace_iff framesVm_tables framesVm_present (.user 0) (faultRegs 0x1008#32)).2
    ⟨fun _ => framesVm_free, fun p hpath => ?_⟩
  rcases Relation.ReflTransGen.cases_head hpath with rfl | ⟨q, hq, -⟩
  · refine ⟨fun _ => by decide, fun hcycle => ?_⟩
    obtain ⟨q, hq, -⟩ := Relation.TransGen.head'_iff.1 hcycle
    exact hnone q hq
  · exact absurd hq (hnone q)

/-- The frame that names itself is printed for ever. -/
theorem selfFrame_endless : KernelTables framesVm ∧ (∀ k < 1024, PresentTable framesVm .kernel k) ∧
    FreeKernelPage framesVm ∧ ¬ ∃ rounds vm',
      (printUserStackTrace framesVm (.user 0) (faultRegs 0x1000#32) rounds).result = .ok (some vm') := by
  refine ⟨framesVm_tables, framesVm_present, framesVm_free, ?_⟩
  rintro ⟨rounds, vm', hret⟩
  have hself : SavedFrame framesVm (.user 0) 0x1000#32 0x1000#32 :=
    ⟨by decide, by decide, by decide, by decide, by decide⟩
  have hfits : ∀ q, Relation.ReflTransGen (SavedFrame framesVm (.user 0)) 0x1000#32 q →
      FrameFits framesVm (.user 0) q := by
    intro q hpath
    have hq : q = 0x1000#32 := by
      induction hpath with
      | refl => rfl
      | tail _ hstep ih =>
        subst ih
        exact hstep.next.trans hself.next.symm
    subst hq
    exact fun _ => by decide
  exact acc_irrefl (acc_of_returns framesVm_tables framesVm_present framesVm_free hfits hret) hself

end Myunix.Cpu
