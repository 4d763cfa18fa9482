import Myunix.Process.ExecvePages
import Myunix.Process.Kstack
import Myunix.Syscall.CopyArray

/-!
# The arguments of a new program (`process.c`)

`process_execve` copies the argument and environment strings one after the other into the misc page, and builds an
image of the initial stack from their addresses: `argc`, the pointers of `argv`, a 0, the pointers of `envp` and a 0.
The image goes to the end of the heap region, and `esp` to its first word.

Between two copies the strings copied so far are in place (`StringsCopied`): each copy goes behind them, or to other
pages, which lie in other blocks (`OwnPages`). So the words of the stack lead to the arguments, whatever the state of the
machine was (`StringsCopied.image`).

The kernel heap is left out: `kmalloc` and `kcalloc` return memory. The registers that the kernel stores at the end of
the kernel stack are a field of the task.
-/

namespace Myunix.Process

open Lib Pmm Vmm Syscall

/-! ## The code -/

/-- `char * const *`: `NULL`, or an array of strings. -/
abbrev StrVector := Option (Nat → Option CString)

/-- The file of a program: its length, and what `fs_read` returns for each block of it and leaves in the page. -/
structure ExecFile where
  length : Word
  read : Nat → Word × (Nat → Byte)

/-- The rounds of `for (i = 0; i < f->length; i += BLOCK_SIZE)`, for a length at which `i` does not wrap. -/
def ExecFile.pages (f : ExecFile) : Nat := (f.length.toNat + 4095) / 4096

/-- `registers_t`. -/
structure Registers where
  oldDirectory : Word
  gs : Word
  fs : Word
  es : Word
  ds : Word
  edi : Word
  esi : Word
  ebp : Word
  uselessEsp : Word
  ebx : Word
  edx : Word
  ecx : Word
  eax : Word
  isrNum : Word
  errCode : Word
  eip : Word
  cs : Word
  eflags : Word
  esp : Word
  ss : Word
deriving DecidableEq

/-- The registers on a kernel stack that is new. -/
def zeroRegisters : Registers := ⟨0, 0, 0, 0, 0, 0, 0, 0, 0, 0, 0, 0, 0, 0, 0, 0, 0, 0, 0, 0⟩

/-- What `process_execve` reads and writes of `process->task`; `frame` is what `registers` points to. -/
structure ExecTask where
  userProcess : Bool
  pdir : Option DirPtr
  kstack : Word
  frame : Registers
  registers : Word
  esp : Word
  ebp : Word
  eip : Word

/-- The machine, `*region_ptr` and `ptrs`. -/
structure ArrayCopy where
  vm : Vm
  region : Word
  ptrs : Nat → Word

/-- The loop body of `process_exec_copy_array`. -/
def execCopyString (pdir : DirPtr) (regionEnd : Word) (array : Nat → Option CString) (i : Nat) (x : ArrayCopy) :
    Kernel ArrayCopy :=
  match array i with
  | none => throw .assertion
  | some v => do
    let vLen := BitVec.ofNat 32 (strlen v + 1)
    kassert (¬ x.region + vLen ≥ regionEnd)
    let (r, vm) ← copyToUserspace x.vm pdir x.region vLen fun k => v.mem.getD k 0
    kassert (0 ≤ r.toInt)
    return ⟨vm, x.region + vLen, Function.update x.ptrs i x.region⟩

/-- `process_exec_copy_array`. -/
def processExecCopyArray (pdir : DirPtr) (region regionEnd : Word) (array : StrVector) (arrayLength : Word) (vm : Vm) :
    Kernel ArrayCopy :=
  match array with
  | none => do
    kassert (arrayLength = 0#32)
    return ⟨vm, region, fun _ => 0#32⟩
  | some array => do
    kassert (array arrayLength.toNat = none)
    forRange (execCopyString pdir regionEnd array) 0 arrayLength.toNat ⟨vm, region, fun _ => 0#32⟩

/-- The words of `user_stack`. -/
def userStackWords (argc : Word) (argvPtrs : Nat → Word) (envc : Word) (envpPtrs : Nat → Word) : List Word :=
  argc :: (List.range argc.toNat).map argvPtrs ++ 0#32 :: (List.range envc.toNat).map envpPtrs ++ [0#32]

/-- Byte `k` of a word in memory. -/
def wordByte (w : Word) (k : Nat) : Byte := w.extractLsb' (8 * k) 8

/-- Byte `i` of words in memory. -/
def wordsByte (words : List Word) (i : Nat) : Byte := wordByte (words.getD (i / 4) 0) (i % 4)

/-- The part of `process_execve` that fills `user_stack` and copies it: the value of `virt_stack_top`. The first
assertion also stands for the size of the buffer. -/
def pushUserStack (pdir : DirPtr) (argc : Word) (argvPtrs : Nat → Word) (envc : Word) (envpPtrs : Nat → Word)
    (vm : Vm) : Kernel (Word × Vm) := do
  let userStackSize := argc + 2#32 + envc + 1#32
  let userStack := userStackWords argc argvPtrs envc envpPtrs
  kassert (userStack.length = userStackSize.toNat)
  let virtStackTop := 0x2000000#32 + 0x100000#32 - userStackSize * 4#32
  let (r, vm) ← copyToUserspace vm pdir virtStackTop (userStackSize * 4#32) (wordsByte userStack)
  kassert (0 < r.toInt)
  return (virtStackTop, vm)

/-- The registers that a program starts with; `edx` and `useless_esp` are not set. -/
def execveRegisters (frame : Registers) (physicalAddress : Nat) (virtStackTop : Word) : Registers :=
  { frame with
    oldDirectory := BitVec.ofNat 32 physicalAddress
    gs := 0#32
    fs := 0#32
    es := 0x23#32
    ds := 0x23#32
    edi := 0#32
    esi := 0#32
    ebp := 0#32
    ebx := 0#32
    ecx := 0#32
    eax := 0#32
    isrNum := 0#32
    errCode := 0#32
    eip := 0x1000000#32
    cs := 0x1B#32
    eflags := 0x200#32
    esp := virtStackTop
    ss := 0x23#32 }

/-- The address space that a process leaves. -/
def leaveSpace (sh : SharedRegions) (task : ExecTask) (vm : Vm) : Kernel Vm :=
  match task.pdir with
  | none => return vm
  | some pdir => do
    let vm ← processUnmapKstack pdir task.kstack vm
    processPageDirectoryFree sh pdir vm

/-- `task_kstack_alloc` for a task without a kernel stack. -/
def ensureKstack (task : ExecTask) (vm : Vm) : Kernel (ExecTask × Vm) :=
  if task.kstack = 0#32 then do
    let (kstack, vm) ← taskKstackAlloc vm
    return ({ task with kstack := kstack, frame := zeroRegisters }, vm)
  else return (task, vm)

/-- `process_execve`; `returnToRegs` is the address of `return_to_regs`. The assertion in the loop that reads the
program is made for all rounds at once. -/
def processExecve (sh : SharedRegions) (returnToRegs : Word) (task : ExecTask) (f : ExecFile) (argc : Word)
    (argv : StrVector) (envc : Word) (envp : StrVector) (vm : Vm) : Kernel (ExecTask × Vm) := do
  kassert (f.length ≠ 0#32)
  let vm ← leaveSpace sh task vm
  let (pdir, vm) ← processPageDirectoryNew sh vm
  let (task, vm) ← ensureKstack { task with userProcess := true, pdir := some pdir } vm
  let vm ← processMapKstack pdir task.kstack vm
  kassert (∀ i, i < f.pages → (f.read i).1 ≠ 0xFFFFFFFF#32)
  let vm ← processExecvePages pdir f.pages (fun i => (f.read i).2) vm
  let args ← processExecCopyArray pdir 0x10000000#32 (0x10000000#32 + 0x1000#32) argv argc vm
  let envs ← processExecCopyArray pdir args.region (0x10000000#32 + 0x1000#32) envp envc args.vm
  let (virtStackTop, vm) ← pushUserStack pdir argc args.ptrs envc envs.ptrs envs.vm
  let regs := task.kstack - 80#32
  return ({ task with
    frame := execveRegisters task.frame (vm.dirs pdir).physicalAddress virtStackTop
    registers := regs
    esp := regs
    ebp := regs
    eip := returnToRegs }, vm)

/-! ## What a program finds -/

/-- The array has these strings as its first elements. -/
structure HasStrings (array : StrVector) (n : Word) (strs : List CString) : Prop where
  length : strs.length = n.toNat
  elem : ∀ i, (h : i < strs.length) → ∃ elems, array = some elems ∧ elems i = some strs[i]

/-- The size of the strings with their terminators. -/
def stringsSize : List CString → Nat
  | [] => 0
  | v :: strs => strlen v + 1 + stringsSize strs

/-- `ptr` points to `v` and its terminator in the misc page. -/
structure StringAt (vm : Vm) (pdir : DirPtr) (ptr : Word) (v : CString) : Prop where
  ge : 0x10000000 ≤ ptr.toNat
  le : ptr.toNat + (strlen v + 1) ≤ 0x10001000
  user : UserRange vm pdir ptr.toNat (strlen v + 1)
  bytes : (List.range (strlen v + 1)).map (userByte vm pdir ptr) = v.mem

/-- The words `i`, …, `i + n - 1` from `ptr` on. -/
def userWords (vm : Vm) (pdir : DirPtr) (ptr : Word) (i n : Nat) : List Word :=
  (List.range n).map fun k => userWord vm pdir ptr (i + k)

/-- Two strings with their addresses do not overlap. -/
def StringsApart (x y : Word × CString) : Prop :=
  x.1.toNat + (strlen x.2 + 1) ≤ y.1.toNat ∨ y.1.toNat + (strlen y.2 + 1) ≤ x.1.toNat

/-- **The image of the arguments** at `esp`, which ends with the heap. -/
structure ArgumentImage (vm : Vm) (pdir : DirPtr) (esp : Word) (args envs : List CString) : Prop where
  top : esp.toNat + (args.length + envs.length + 3) * 4 = 0x2000000 + 256 * 4096
  user : UserRange vm pdir esp.toNat ((args.length + envs.length + 3) * 4)
  argc : userWord vm pdir esp 0 = BitVec.ofNat 32 args.length
  argv : List.Forall₂ (StringAt vm pdir) (userWords vm pdir esp 1 args.length) args
  argvEnd : userWord vm pdir esp (args.length + 1) = 0#32
  envp : List.Forall₂ (StringAt vm pdir) (userWords vm pdir esp (args.length + 2) envs.length) envs
  envpEnd : userWord vm pdir esp (args.length + envs.length + 2) = 0#32
  disjoint : ((userWords vm pdir esp 1 args.length ++ userWords vm pdir esp (args.length + 2) envs.length).zip
    (args ++ envs)).Pairwise StringsApart

/-! ## Copies into pages of their own -/

/-- The byte at an address of the user's. -/
def addrByte (vm : Vm) (pdir : DirPtr) (va : Nat) : Byte :=
  vm.frames (userPlace vm pdir va).1 (userPlace vm pdir va).2

/-- The first `n` bytes of the buffer are stored at `va`; the other bytes of the pages `P` are as before. -/
structure BytesStored (a : Nat) (P : Nat → Prop) (va n : Nat) (buffer : Nat → Byte) (vm u : Vm) : Prop where
  own : OwnPages a P u
  stored : ∀ k < n, addrByte u (.user a) (va + k) = buffer k
  others : ∀ va', P (va' / 4096) → va' < va ∨ va + n ≤ va' → addrByte u (.user a) va' = addrByte vm (.user a) va'

section Bytes

variable {a : Nat} {P : Nat → Prop} {vm u : Vm} {pdir : DirPtr} {ptr n r : Word} {buffer : Nat → Byte}

theorem userByte_eq {i : Nat} (h : ptr.toNat + i < 0x100000000) :
    userByte vm pdir ptr i = addrByte vm pdir (ptr.toNat + i) := by
  unfold userByte byteAddr addrByte
  rw [Nat.mod_eq_of_lt h]

/-- Two addresses in such pages are two places. -/
theorem OwnPages.place_inj (h : OwnPages a P vm) {v w : Nat} (hv : P (v / 4096)) (hw : P (w / 4096))
    (heq : userPlace vm (.user a) v = userPlace vm (.user a) w) : v = w := by
  unfold userPlace at heq
  rw [Prod.mk.injEq] at heq
  have hpage := h.own _ _ hv hw heq.1
  omega

/-- `copy_to_userspace` into such pages. -/
theorem OwnPages.copy (h : OwnPages a P vm) (hsize : ptr.toNat + n.toNat < 0x80000000)
    (hP : ∀ va, ptr.toNat ≤ va → va < ptr.toNat + n.toNat → P (va / 4096))
    (hrun : copyToUserspace vm (.user a) ptr n buffer = .ok (r, u)) (hr : r ≠ 0xFFFFFFFF#32) :
    BytesStored a P ptr.toNat n.toNat buffer vm u := by
  have hoff := offset_toNat ptr
  obtain ⟨hdirs, hpmm, -, hst⟩ := copyToUserspace_stored (by omega) (by omega) hrun hr
  have hentry : ∀ m, u.entry (.user a) m = vm.entry (.user a) m := fun m => entry_of_dirs (hdirs a) m
  have hplace : ∀ va, userPlace u (.user a) va = userPlace vm (.user a) va := by
    intro va
    unfold userPlace
    rw [hentry]
  refine ⟨h.same hentry fun c hc => by rw [hpmm]; exact hc, fun k hk => ?_, fun va hva hout => ?_⟩
  · unfold addrByte
    rw [hplace]
    refine hst.last k hk fun l h1 h2 heq => ?_
    have hva := h.place_inj (hP _ (by omega) (by omega)) (hP _ (by omega) (by omega)) heq
    omega
  · unfold addrByte
    rw [hplace]
    apply hst.others _ _
    intro k hk heq
    have hva' := h.place_inj (hP _ (by omega) (by omega)) hva heq
    omega

end Bytes

/-! ## Strings -/

/-- The string is at its address. -/
structure Placed (a : Nat) (vm : Vm) (x : Word × CString) : Prop where
  ge : 0x10000000 ≤ x.1.toNat
  bytes : ∀ k < strlen x.2 + 1, addrByte vm (.user a) (x.1.toNat + k) = x.2.mem.getD k 0

/-- **Between two copies**: the strings `done` are in the misc page below `region`, and do not overlap. -/
structure StringsCopied (a : Nat) (done : List (Word × CString)) (vm : Vm) (region : Word) : Prop where
  own : OwnPages a ImagePage vm
  ge : 0x10000000 ≤ region.toNat
  lt : region.toNat < 0x10001000
  placed : ∀ x ∈ done, Placed a vm x
  below : ∀ x ∈ done, x.1.toNat + (strlen x.2 + 1) ≤ region.toNat
  apart : done.Pairwise StringsApart

/-- The first `n` addresses with their strings. -/
def addressed (ptrs : Nat → Word) (strs : List CString) (n : Nat) : List (Word × CString) :=
  (List.range n).map fun j => (ptrs j, strs.getD j CString.empty)

section Strings

variable {a i : Nat} {done : List (Word × CString)} {vm u : Vm} {region regionEnd n : Word} {x x' : ArrayCopy}
  {arr : StrVector} {elems : Nat → Option CString} {strs : List CString} {v : CString}

theorem addressed_zip (ptrs : Nat → Word) (strs : List CString) :
    addressed ptrs strs strs.length = ((List.range strs.length).map ptrs).zip strs := by
  apply List.ext_getElem
  · simp [addressed]
  · intro j h1 h2
    have hj : j < strs.length := by simpa [addressed] using h1
    simp [addressed, hj]

theorem addressed_update {ptrs : Nat → Word} {ptr : Word} (hi : strs.getD i CString.empty = v) :
    addressed (Function.update ptrs i ptr) strs (i + 1) = addressed ptrs strs i ++ [(ptr, v)] := by
  unfold addressed
  rw [List.range_succ, List.map_append, List.map_singleton, Function.update_self, hi]
  congr 1
  apply List.map_congr_left
  intro j hj
  rw [Function.update_of_ne (Nat.ne_of_lt (List.mem_range.1 hj))]

/-- Before the first copy. -/
theorem OwnPages.copied (h : OwnPages a ImagePage vm) : StringsCopied a [] vm 0x10000000#32 := by
  refine ⟨h, by decide, by decide, fun x hx => ?_, fun x hx => ?_, List.Pairwise.nil⟩
  · cases hx
  · cases hx

/-- The size of a string, and the address behind it. -/
theorem string_end {region : Word} {v : CString} (h : region.toNat + (strlen v + 1) < 0x100000000) :
    (BitVec.ofNat 32 (strlen v + 1)).toNat = strlen v + 1 ∧
      (region + BitVec.ofNat 32 (strlen v + 1)).toNat = region.toNat + (strlen v + 1) := by
  have hsize : (BitVec.ofNat 32 (strlen v + 1)).toNat = strlen v + 1 := by
    rw [BitVec.toNat_ofNat]
    omega
  refine ⟨hsize, ?_⟩
  rw [BitVec.toNat_add, hsize]
  omega

/-- **One string**: it goes behind the ones before it. -/
theorem StringsCopied.string (h : StringsCopied a done x.vm x.region) (hv : elems i = some v)
    (hlen : strlen v + 1 < 4096)
    (hrun : execCopyString (.user a) (0x10000000#32 + 0x1000#32) elems i x = .ok x') :
    StringsCopied a (done ++ [(x.region, v)]) x'.vm x'.region ∧ x'.ptrs = Function.update x.ptrs i x.region := by
  obtain ⟨hown, hge, hlt, hplaced, hbelow, hapart⟩ := h
  obtain ⟨hsize, hregion⟩ := string_end (show x.region.toNat + (strlen v + 1) < 0x100000000 by omega)
  simp only [execCopyString, hv, bind_eq_ok, assert_eq_ok, pure_eq_ok] at hrun
  obtain ⟨-, hfits, ⟨r, u⟩, hcopy, -, hr, rfl⟩ := hrun
  have hend : x.region.toNat + (strlen v + 1) < 0x10001000 := by
    have hlt' := BitVec.not_le.1 hfits
    rw [BitVec.lt_def, hregion] at hlt'
    exact hlt'
  have hst := hown.copy (by rw [hsize]; omega) (fun va h1 h2 => ?_) hcopy fun heq => ?_
  · rw [hsize] at hst
    refine ⟨⟨hst.own, ?_, ?_, fun y hy => ?_, fun y hy => ?_, ?_⟩, rfl⟩
    · rw [hregion]
      omega
    · rw [hregion]
      exact hend
    · rcases List.mem_append.1 hy with hy | hy
      · refine ⟨(hplaced y hy).ge, fun k hk => ?_⟩
        have hb := hbelow y hy
        have hg := (hplaced y hy).ge
        rw [hst.others _ (Or.inr (by omega)) (by omega)]
        exact (hplaced y hy).bytes k hk
      · rw [List.mem_singleton.1 hy]
        exact ⟨hge, hst.stored⟩
    · rw [hregion]
      rcases List.mem_append.1 hy with hy | hy
      · have hb := hbelow y hy
        omega
      · rw [List.mem_singleton.1 hy]
    · refine List.pairwise_append.2 ⟨hapart, List.pairwise_singleton _ _, fun y hy z hz => ?_⟩
      rw [List.mem_singleton.1 hz]
      exact Or.inl (hbelow y hy)
  · rw [hsize] at h2
    exact Or.inr (by omega)
  · change 0 ≤ r.toInt at hr
    rw [heq] at hr
    exact absurd hr (by decide)

/-- **An array of strings.** -/
theorem StringsCopied.array (h : StringsCopied a done vm region) (hs : HasStrings arr n strs)
    (hlen : ∀ v ∈ strs, strlen v + 1 < 4096)
    (hrun : processExecCopyArray (.user a) region (0x10000000#32 + 0x1000#32) arr n vm = .ok x) :
    StringsCopied a (done ++ addressed x.ptrs strs strs.length) x.vm x.region := by
  unfold processExecCopyArray at hrun
  cases arr with
  | none =>
    have hzero : strs.length = 0 := by
      by_contra hne
      obtain ⟨elems, hsome, -⟩ := hs.elem 0 (by omega)
      cases hsome
    simp only [bind_eq_ok, pure_eq_ok] at hrun
    obtain ⟨-, -, rfl⟩ := hrun
    rw [hzero, addressed, List.range_zero, List.map_nil, List.append_nil]
    exact h
  | some elems =>
    simp only [bind_eq_ok] at hrun
    obtain ⟨-, -, hloop⟩ := hrun
    rw [← hs.length] at hloop
    have hinv := forRange_inv (P := fun i x => StringsCopied a (done ++ addressed x.ptrs strs i) x.vm x.region) ?_ hloop
      (by rw [addressed, List.range_zero, List.map_nil, List.append_nil]; exact h)
    · rwa [Nat.zero_add] at hinv
    · intro j y y' _ hj hy hstep
      rw [Nat.zero_add] at hj
      obtain ⟨elems', hsome, helem⟩ := hs.elem j hj
      cases hsome
      obtain ⟨hy', hptrs⟩ := hy.string helem (hlen _ (List.getElem_mem hj)) hstep
      rw [hptrs, addressed_update (v := strs[j]) (by simp [hj]), ← List.append_assoc]
      exact hy'

/-- What the program finds at the address of a string. -/
theorem Placed.stringAt {x : Word × CString} (h : Placed a vm x) (hown : OwnPages a ImagePage vm)
    (hle : x.1.toNat + (strlen x.2 + 1) ≤ 0x10001000) : StringAt vm (.user a) x.1 x.2 := by
  have hge := h.ge
  refine ⟨hge, hle, fun m h1 h2 => hown.user m (Or.inr (by omega)), ?_⟩
  apply List.ext_getElem
  · simp [CString.mem, strlen]
  · intro k h1 h2
    have hk : k < strlen x.2 + 1 := by simpa using h1
    rw [List.getElem_map, List.getElem_range, userByte_eq (by omega), h.bytes k hk, List.getD_eq_getElem?_getD,
      List.getElem?_eq_getElem h2, Option.getD_some]

end Strings

/-! ## The stack image -/

section Stack

variable {a i : Nat} {done : List (Word × CString)} {vm u : Vm} {region argc envc esp : Word}
  {argvPtrs envpPtrs : Nat → Word}

theorem wordOf_congr {f g : Nat → Byte} (h : ∀ k < 4, f k = g k) : wordOf f = wordOf g := by
  unfold wordOf
  rw [h 0 (by omega), h 1 (by omega), h 2 (by omega), h 3 (by omega)]

theorem wordOf_wordByte (w : Word) : wordOf (wordByte w) = w := by
  apply BitVec.eq_of_getLsbD_eq
  intro i hi
  simp only [wordOf, wordByte, BitVec.getLsbD_append, BitVec.getLsbD_extractLsb']
  by_cases h1 : i < 8
  · simp [h1]
  · by_cases h2 : i < 16
    · simp [h1, show i - 8 < 8 by omega, show 8 + (i - 8) = i by omega]
    · by_cases h3 : i < 24
      · simp [h1, show ¬ i - 8 < 8 by omega, show i - 8 - 8 < 8 by omega, show 16 + (i - 8 - 8) = i by omega]
      · simp [h1, show ¬ i - 8 < 8 by omega, show ¬ i - 8 - 8 < 8 by omega, show i - 8 - 8 - 8 < 8 by omega,
          show 24 + (i - 8 - 8 - 8) = i by omega]

theorem length_userStackWords :
    (userStackWords argc argvPtrs envc envpPtrs).length = argc.toNat + envc.toNat + 3 := by
  simp only [userStackWords, List.length_append, List.length_cons, List.length_map, List.length_range, List.length_nil]
  omega

/-- The words of the stack, by their place. -/
theorem getD_userStackWords (argc envc : Word) (argvPtrs envpPtrs : Nat → Word) :
    (userStackWords argc argvPtrs envc envpPtrs).getD 0 0 = argc ∧
    (∀ i < argc.toNat, (userStackWords argc argvPtrs envc envpPtrs).getD (1 + i) 0 = argvPtrs i) ∧
    (userStackWords argc argvPtrs envc envpPtrs).getD (argc.toNat + 1) 0 = 0#32 ∧
    (∀ i < envc.toNat, (userStackWords argc argvPtrs envc envpPtrs).getD (argc.toNat + 2 + i) 0 = envpPtrs i) ∧
    (userStackWords argc argvPtrs envc envpPtrs).getD (argc.toNat + envc.toNat + 2) 0 = 0#32 := by
  refine ⟨rfl, fun i hi => ?_, ?_, fun i hi => ?_, ?_⟩
  · simp [userStackWords, List.getElem?_append, Nat.add_comm 1 i, hi]
  · simp [userStackWords]
  · have h1 : argc.toNat + 2 + i = argc.toNat + (i + 1) + 1 := by omega
    have h2 : ¬ argc.toNat + (i + 1) < argc.toNat := by omega
    simp [userStackWords, List.getElem?_append, h1, h2, hi]
  · have h1 : argc.toNat + envc.toNat + 2 = argc.toNat + (envc.toNat + 1) + 1 := by omega
    simp [userStackWords, h1]

/-- **The stack**: its words are at the end of the heap, and the strings stay. -/
theorem pushUserStack_image (h : StringsCopied a done vm region) (hcount : argc.toNat + envc.toNat < 4096)
    (hrun : pushUserStack (.user a) argc argvPtrs envc envpPtrs vm = .ok (esp, u)) :
    esp.toNat + (argc.toNat + envc.toNat + 3) * 4 = 0x2000000 + 256 * 4096 ∧ OwnPages a ImagePage u ∧
      (∀ i < argc.toNat + envc.toNat + 3,
        userWord u (.user a) esp i = (userStackWords argc argvPtrs envc envpPtrs).getD i 0) ∧
      ∀ x ∈ done, Placed a u x := by
  simp only [pushUserStack, bind_eq_ok, assert_eq_ok, pure_eq_ok, Prod.mk.injEq] at hrun
  obtain ⟨-, -, ⟨r, u'⟩, hcopy, -, hr, htop, rfl⟩ := hrun
  have hsize : ((argc + 2#32 + envc + 1#32) * 4#32).toNat = (argc.toNat + envc.toNat + 3) * 4 := by
    simp only [BitVec.toNat_mul, BitVec.toNat_add, BitVec.toNat_ofNat]
    omega
  have hesp : esp.toNat + (argc.toNat + envc.toNat + 3) * 4 = 0x2000000 + 256 * 4096 := by
    rw [← htop, BitVec.toNat_sub, hsize, BitVec.toNat_add]
    simp only [BitVec.toNat_ofNat]
    omega
  rw [htop] at hcopy
  have hst := h.own.copy (by rw [hsize]; omega) (fun va h1 h2 => ?_) hcopy fun heq => ?_
  · rw [hsize] at hst
    refine ⟨hesp, hst.own, fun i hi => ?_, fun x hx => ?_⟩
    · have hbyte : ∀ k < 4, userByte u' (.user a) esp (i * 4 + k) =
          wordByte ((userStackWords argc argvPtrs envc envpPtrs).getD i 0) k := by
        intro k hk
        rw [userByte_eq (by omega), hst.stored _ (by omega)]
        unfold wordsByte
        rw [show (i * 4 + k) / 4 = i by omega, show (i * 4 + k) % 4 = k by omega]
      rw [← wordOf_wordByte ((userStackWords argc argvPtrs envc envpPtrs).getD i 0)]
      exact wordOf_congr hbyte
    · have hp := h.placed x hx
      have hb := h.below x hx
      have hlt := h.lt
      refine ⟨hp.ge, fun k hk => ?_⟩
      have hge := hp.ge
      rw [hst.others _ (Or.inr (by omega)) (by omega)]
      exact hp.bytes k hk
  · rw [hsize] at h2
    exact Or.inl (by omega)
  · change 0 < r.toInt at hr
    rw [heq] at hr
    exact absurd hr (by decide)

end Stack

/-! ## The image -/

section Image

variable {sh : SharedRegions} {task task' : ExecTask} {argc envc : Word} {args envs : List CString} {vm vm' : Vm}
  {strs : List CString}

/-- Pointers to strings that have been copied. -/
theorem forall₂_stringAt {a : Nat} {ptrs : Nat → Word} (hown : OwnPages a ImagePage vm)
    (h : ∀ x ∈ addressed ptrs strs strs.length, Placed a vm x ∧ x.1.toNat + (strlen x.2 + 1) ≤ 0x10001000) :
    List.Forall₂ (StringAt vm (.user a)) ((List.range strs.length).map ptrs) strs := by
  refine List.forall₂_iff_zip.2 ⟨by simp, fun {ptr v} hmem => ?_⟩
  rw [← addressed_zip] at hmem
  obtain ⟨hplaced, hle⟩ := h _ hmem
  exact hplaced.stringAt hown hle

/-- **The image** is decoded from the words of the stack. -/
theorem StringsCopied.image {a : Nat} {argvPtrs envpPtrs : Nat → Word} {region esp : Word}
    (h : StringsCopied a (addressed argvPtrs args args.length ++ addressed envpPtrs envs envs.length) vm region)
    (hargc : args.length = argc.toNat) (henvc : envs.length = envc.toNat) (hcount : args.length + envs.length < 4096)
    (hpush : pushUserStack (.user a) argc argvPtrs envc envpPtrs vm = .ok (esp, vm')) :
    ArgumentImage vm' (.user a) esp args envs := by
  obtain ⟨htop, hown, hwords, hplaced⟩ := pushUserStack_image h (by omega) hpush
  obtain ⟨hw0, hwargs, hwend, hwenvs, hwend'⟩ := getD_userStackWords argc envc argvPtrs envpPtrs
  have hargv : userWords vm' (.user a) esp 1 args.length = (List.range args.length).map argvPtrs := by
    apply List.map_congr_left
    intro i hi
    have hlt := List.mem_range.1 hi
    rw [hwords (1 + i) (by omega), hwargs i (by omega)]
  have henvp : userWords vm' (.user a) esp (args.length + 2) envs.length = (List.range envs.length).map envpPtrs := by
    apply List.map_congr_left
    intro i hi
    have hlt := List.mem_range.1 hi
    rw [hargc, hwords (argc.toNat + 2 + i) (by omega), hwenvs i (by omega)]
  have hstring : ∀ x ∈ addressed argvPtrs args args.length ++ addressed envpPtrs envs envs.length,
      Placed a vm' x ∧ x.1.toNat + (strlen x.2 + 1) ≤ 0x10001000 := by
    intro x hx
    have hbelow := h.below x hx
    have hlt := h.lt
    exact ⟨hplaced x hx, by omega⟩
  refine ⟨by omega, fun m h1 h2 => hown.user m (Or.inl (by omega)), ?_, ?_, ?_, ?_, ?_, ?_⟩
  · rw [hwords 0 (by omega), hw0, hargc, BitVec.ofNat_toNat, BitVec.setWidth_eq]
  · rw [hargv]
    exact forall₂_stringAt hown fun x hx => hstring x (List.mem_append_left _ hx)
  · rw [hargc, hwords _ (by omega), hwend]
  · rw [henvp]
    exact forall₂_stringAt hown fun x hx => hstring x (List.mem_append_right _ hx)
  · rw [hargc, henvc, hwords _ (by omega), hwend']
  · rw [hargv, henvp, List.zip_append (by simp), ← addressed_zip, ← addressed_zip]
    exact h.apart

theorem length_le_stringsSize (strs : List CString) : strs.length ≤ stringsSize strs := by
  induction strs with
  | nil => exact Nat.le_refl 0
  | cons v strs ih =>
    rw [stringsSize, List.length_cons]
    omega

theorem strlen_le_stringsSize {v : CString} (hv : v ∈ strs) : strlen v + 1 ≤ stringsSize strs := by
  induction strs with
  | nil => cases hv
  | cons w strs ih =>
    rw [stringsSize]
    rcases List.mem_cons.1 hv with rfl | hv
    · omega
    · have hrest := ih hv
      omega

theorem stringsSize_append (strs strs' : List CString) :
    stringsSize (strs ++ strs') = stringsSize strs + stringsSize strs' := by
  induction strs with
  | nil => exact (Nat.zero_add _).symm
  | cons v strs ih =>
    rw [List.cons_append, stringsSize, stringsSize, ih]
    omega

theorem ensureKstack_pdir (h : ensureKstack task vm = .ok (task', vm')) : task'.pdir = task.pdir := by
  unfold ensureKstack at h
  split at h
  · simp only [bind_eq_ok, pure_eq_ok, Prod.mk.injEq] at h
    obtain ⟨-, -, rfl, -⟩ := h
    rfl
  · rw [pure_eq_ok, Prod.mk.injEq] at h
    rw [h.1]

theorem processPageDirectoryNew_user {pdir : DirPtr} (h : processPageDirectoryNew sh vm = .ok (pdir, vm')) :
    ∃ a, pdir = .user a := by
  simp only [processPageDirectoryNew, bind_eq_ok, pure_eq_ok, Prod.exists, Prod.mk.injEq] at h
  obtain ⟨pdir', vm₁, hnew, -, -, rfl, -⟩ := h
  exact ⟨_, (pageDirectoryNew_ok hnew).1⟩

end Image

end Myunix.Process
