import Myunix.Process.Teardown
import Myunix.Vmm.Heap

/-!
# Kernel stacks (`task.c`, `process.c`)

A task gets a kernel stack of `KSTACK_SIZE` pages from `task_kstack_alloc`: the first run of free pages of the kernel
directory, with a guard page at both ends. `process_map_kstack` enters the pages into the directory of the process, and
asserts that each is free there (`KstackUnmapped`). A stack is not given back: `process_exit` takes it out of the
directory of the process, but not out of the kernel's.

The part of `process_clone`, `process_spawn_init` and `process_exit` is modelled that works on page directories.
Everything they take from the heap they take before or after that part.
-/

namespace Myunix.Process

open Lib Pmm Vmm

/-! ## The code -/

/-- `map_page` and `invalidate_page` for a guard page. -/
def mapGuard (kstack : Nat) (vm : Vm) : Kernel Vm := do
  let vm ← mapPage vm (getTable vm kstack .kernel) kstack pageValueGuard.toNat 0#32
  invalidatePage kstack
  return vm

/-- The loop body of `task_kstack_alloc`. -/
def kstackPage (vkaddr : Nat) (vm : Vm) : Kernel Vm := do
  let (phys, pmm) ← pmmAllocBlocksSafe vm.pmm 1
  let vm := { vm with pmm := pmm }
  let vm ← mapPage vm (getTable vm vkaddr .kernel) vkaddr phys (pagePresent ||| pageReadwrite)
  invalidatePage vkaddr
  fillPage vkaddr (fun _ => 0#8) vm

/-- `task_kstack_alloc`: the value of `task->kstack`. -/
def taskKstackAlloc (vm : Vm) : Kernel (Word × Vm) := do
  let (kstack, vm) ← findVspace .kernel kstackSize vm
  kassert (kstack ≠ 0)
  let vm ← mapGuard kstack vm
  let kstack := (kstack + 4096) % 0x100000000
  let vm ← forRange (fun i vm => kstackPage ((kstack + i * 4096) % 0x100000000) vm) 0 (kstackSize - 2) vm
  let kstack := (kstack + (kstackSize - 2) * 4096) % 0x100000000
  let vm ← mapGuard kstack vm
  return (BitVec.ofNat 32 kstack, vm)

/-- A user process: `task.pdir` and `task.kstack`. -/
structure Proc where
  pdir : DirPtr
  kstack : Word
deriving DecidableEq

/-- `SYSCALL_CLONE_FLAGS_VM`. -/
def cloneFlagsVm : Word := 0x100#32

/-- The directory that `process_clone` gives to the child. -/
def cloneSpace (sh : SharedRegions) (flags : Word) (old : DirPtr) (vm : Vm) : Kernel (DirPtr × Vm) :=
  if flags &&& cloneFlagsVm ≠ 0#32 then return (old, pageDirectoryReference old vm) else clonePageDirectory sh old vm

/-- `process_clone`. -/
def processClone (sh : SharedRegions) (oldproc : Proc) (flags : Word) (vm : Vm) : Kernel (Proc × Vm) := do
  let (pdir, vm) ← cloneSpace sh flags oldproc.pdir vm
  let (kstack, vm) ← taskKstackAlloc vm
  let vm ← processMapKstack pdir kstack vm
  return (⟨pdir, kstack⟩, vm)

/-- `process_spawn_init`, which calls `process_execve` on a process that has no directory and no stack yet. -/
def processSpawnInit (sh : SharedRegions) (textPages : Nat) (text : Nat → Nat → Byte) (vm : Vm) :
    Kernel (Proc × Vm) := do
  let (pdir, vm) ← processPageDirectoryNew sh vm
  let (kstack, vm) ← taskKstackAlloc vm
  let vm ← processMapKstack pdir kstack vm
  let vm ← processExecvePages pdir textPages text vm
  return (⟨pdir, kstack⟩, vm)

/-- `process_exit`, for the address space. -/
def processExitSpace (sh : SharedRegions) (p : Proc) (vm : Vm) : Kernel Vm := do
  let vm ← processUnmapKstack p.pdir p.kstack vm
  processPageDirectoryFree sh p.pdir vm

/-! ## The assertion -/

/-- **The assertion of `process_map_kstack`**: whichever round is reached, the page is free in the directory. -/
def KstackUnmapped (pdir : DirPtr) (kstack : Word) (vm : Vm) : Prop :=
  ∀ i < kstackSize, ∀ vm₁ table vm₂,
    forRange (fun i vm => mapKstackPage pdir (kstackAddr kstack i) vm) 0 i vm = .ok vm₁ →
    getTableAlloc pdir vm₁ (kstackAddr kstack i) = .ok (table, vm₂) →
    getPage vm₂ (some table) (kstackAddr kstack i) = .ok 0#32

/-- The assertion for a process whose directory comes from `space`. -/
def KstackFits (space : Kernel (DirPtr × Vm)) : Prop :=
  ∀ pdir vm₁ kstack vm₂, space = .ok (pdir, vm₁) → taskKstackAlloc vm₁ = .ok (kstack, vm₂) →
    KstackUnmapped pdir kstack vm₂

/-! ## Where a stack is -/

section Stack

variable {s s' : Vm} {a : Nat} {kstack : Word}

theorem mapGuard_ok {v : Nat} {T : Nat → Prop} (hT : v % 1024 = 0 → T (v / 4096)) (h : mapGuard v s = .ok s') :
    v % 1024 = 0 ∧ KernelStores T s s' ∧ s'.entry .kernel (v / 4096) ≠ 0#32 := by
  simp only [mapGuard, bind_eq_ok, pure_eq_ok] at h
  obtain ⟨s₁, hmap, -, -, rfl⟩ := h
  obtain ⟨hstores, hentry⟩ := kernelStores_mapPage hT hmap
  refine ⟨(mapPage_ok hmap).1, hstores, ?_⟩
  rw [hentry]
  decide

theorem kstackPage_ok {v : Nat} {T : Nat → Prop} (hT : T (v / 4096)) (h : kstackPage v s = .ok s') :
    KernelStores T s s' ∧ s'.entry .kernel (v / 4096) ≠ 0#32 := by
  simp only [kstackPage, bind_eq_ok, Prod.exists] at h
  obtain ⟨phys, pmm, -, s₁, hmap, -, -, hfill⟩ := h
  obtain ⟨hstores, hentry⟩ := kernelStores_mapPage (fun _ => hT) hmap
  simp only [fillPage, bind_eq_ok, pure_eq_ok] at hfill
  obtain ⟨frame, -, rfl⟩ := hfill
  have hpmm : KernelStores T s { s with pmm := pmm } := kernelStores_of_dirs rfl rfl
  refine ⟨(hpmm.trans hstores).trans (kernelStores_of_dirs rfl rfl), ?_⟩
  show s₁.entry .kernel (v / 4096) ≠ 0#32
  rw [hentry]
  exact entry_ne_zero (by decide)

/-- **`task_kstack_alloc`** takes the first run of free pages of the kernel directory. `task->kstack` is its last page. -/
theorem taskKstackAlloc_ok (h : taskKstackAlloc s = .ok (kstack, s')) :
    ∃ j, 1 ≤ j ∧ j < 0x100000 ∧ kstack = BitVec.ofNat 32 ((j + 7) * 4096) ∧ FreeRun s .kernel j kstackSize ∧
      (∀ j', 1 ≤ j' → j' < j → ¬ FreeRun s .kernel j' kstackSize) ∧ KernelStores (InRun j kstackSize) s s' ∧
      ∀ m, InRun j kstackSize m → s'.entry .kernel m ≠ 0#32 := by
  simp only [taskKstackAlloc, bind_eq_ok, pure_eq_ok, Prod.exists, Prod.mk.injEq] at h
  obtain ⟨v, s₁, hfind, -, -, s₂, hguard, s₃, hloop, s₄, hguard', hk, rfl⟩ := h
  rcases findVspace_stores hfind with ⟨rfl, rfl⟩ | ⟨j, h1, h2, rfl, hfree, hfirst, hstores⟩
  · -- `-1` is not aligned
    exact absurd (mapGuard_ok (T := fun _ => True) (fun _ => trivial) hguard).1 (by decide)
  · refine ⟨j, h1, h2, ?_, hfree, hfirst, ?_⟩
    · rw [← hk]
      apply BitVec.eq_of_toNat_eq
      simp only [BitVec.toNat_ofNat, kstackSize]
      omega
    · have hrun : ∀ k < kstackSize, InRun j kstackSize ((j + k) % 0x100000) := fun k hk => ⟨k, hk, rfl⟩
      have haddr : ∀ k, ((j * 4096 + 4096) % 0x100000000 + k * 4096) % 0x100000000 / 4096 = (j + (k + 1)) % 0x100000 :=
        fun k => by omega
      have hfirstPage : j * 4096 / 4096 = (j + 0) % 0x100000 := by omega
      obtain ⟨-, hstores₂, hused₂⟩ := mapGuard_ok (fun _ => hfirstPage ▸ hrun 0 (by decide)) hguard
      rw [hfirstPage] at hused₂
      -- after round `i` the first `i + 1` pages are in use
      have hinv := forRange_inv (P := fun i u => KernelStores (InRun j kstackSize) s u ∧
        ∀ k < i + 1, u.entry .kernel ((j + k) % 0x100000) ≠ 0#32) ?_ hloop
        ⟨hstores.trans hstores₂, fun k hk => by rw [show k = 0 by omega]; exact hused₂⟩
      · obtain ⟨hstores₃, hused₃⟩ := hinv
        have hlast : ((j * 4096 + 4096) % 0x100000000 + (kstackSize - 2) * 4096) % 0x100000000 / 4096 =
            (j + 7) % 0x100000 := by unfold kstackSize; omega
        obtain ⟨-, hstores₄, hused₄⟩ := mapGuard_ok (T := (· = (j + 7) % 0x100000)) (fun _ => hlast) hguard'
        rw [hlast] at hused₄
        refine ⟨hstores₃.trans (hstores₄.imp ?_), ?_⟩
        · rintro m rfl
          exact hrun 7 (by decide)
        · rintro m ⟨k, hk, rfl⟩
          by_cases hsame : (j + k) % 0x100000 = (j + 7) % 0x100000
          · rw [hsame]
            exact hused₄
          · rw [hstores₄.kernel _ hsame]
            have hne : k ≠ 7 := fun hc => hsame (by rw [hc])
            exact hused₃ k (by unfold kstackSize at hk ⊢; omega)
      · rintro i u u' - hi ⟨hu, hused⟩ hstep
        obtain ⟨hpage, hnew⟩ := kstackPage_ok (T := (· = (j + (i + 1)) % 0x100000)) (haddr i) hstep
        rw [haddr i] at hnew
        refine ⟨hu.trans (hpage.imp ?_), fun k hk => ?_⟩
        · rintro m rfl
          exact hrun (i + 1) (by unfold kstackSize at hi ⊢; omega)
        · by_cases hsame : (j + k) % 0x100000 = (j + (i + 1)) % 0x100000
          · rw [hsame]
            exact hnew
          · rw [hpage.kernel _ hsame]
            have hne : k ≠ i + 1 := fun hc => hsame (by rw [hc])
            exact hused k (by omega)

/-- The pages that `process_map_kstack` enters, from the last one down. -/
theorem kstackAddr_page {j i : Nat} (hi : i < kstackSize) :
    kstackAddr (BitVec.ofNat 32 ((j + 7) * 4096)) i / 4096 = (j + (7 - i)) % 0x100000 := by
  unfold kstackAddr
  rw [BitVec.toNat_sub, BitVec.toNat_ofNat, BitVec.toNat_ofNat]
  unfold kstackSize at hi
  omega

theorem kstackAddr_inRun {j i : Nat} (hi : i < kstackSize) :
    InRun j kstackSize (kstackAddr (BitVec.ofNat 32 ((j + 7) * 4096)) i / 4096) :=
  ⟨7 - i, by unfold kstackSize at hi ⊢; omega, kstackAddr_page hi⟩

/-- **Inversion** for a round of `process_map_kstack`. -/
theorem mapKstackPage_ok {v : Nat} (hv : v < 0x100000000) (h : mapKstackPage (.user a) v s = .ok s') :
    ∃ u, Grows (.user a) s u ∧ u.HasTable (.user a) (v / 4096 / 1024) ∧
      s' = u.setEntry (.user a) (v / 4096) (s.entry .kernel (v / 4096)) ∧
      s.entry .kernel (v / 4096) &&& pageUser = 0#32 := by
  simp only [mapKstackPage, bind_eq_ok, assert_eq_ok, pure_eq_ok, Prod.exists] at h
  obtain ⟨page, hget, -, hpage, t, u₁, ha, -, -, -, -, t', u₂, ha', rfl⟩ := h
  have hkernel : page = s.entry .kernel (v / 4096) := by
    cases htab : getTable s v .kernel with
    | none => rw [htab] at hget; simp [getPage] at hget
    | some t =>
      rw [htab] at hget
      obtain ⟨-, rfl⟩ := getTable_eq_some.1 htab
      rw [getPage_table, Except.ok.injEq] at hget
      exact hget.symm
  obtain ⟨-, hgrows⟩ := getTableAlloc_spec (.user a) hv ha
  obtain ⟨-, hgrows'⟩ := getTableAlloc_spec (.user a) hv ha'
  obtain ⟨ht, rfl⟩ := getTable_eq_some.1 (getTableAlloc_getTable hv ha')
  refine ⟨u₂, (quiet_grows _).trans hgrows hgrows', by rw [table_of_page]; exact ht, ?_, hkernel ▸ hpage⟩
  rw [← hkernel]
  unfold setPage Vm.setEntry
  rw [table_of_page]

/-- If the pages of the stack are free in the directory, the assertion holds in every round. -/
theorem kstackUnmapped_of_free {j : Nat} (h : ∀ m, InRun j kstackSize m → s.entry (.user a) m = 0#32) :
    KstackUnmapped (.user a) (BitVec.ofNat 32 ((j + 7) * 4096)) s := by
  intro i hi s₁ table s₂ hloop ha
  have hinv := forRange_inv (P := fun n u => ∀ k, n ≤ k → k < kstackSize →
    u.entry (.user a) (kstackAddr (BitVec.ofNat 32 ((j + 7) * 4096)) k / 4096) = 0#32) ?_ hloop
    fun k _ hk => h _ (kstackAddr_inRun hk)
  · obtain ⟨rfl, hgrows⟩ := getTableAlloc_spec (.user a) kstackAddr_lt ha
    rw [getPage_table, hgrows.same, hinv i (by omega) hi]
  · intro n u u' _ hn hu hstep k hk hlt
    obtain ⟨w, hgrows, ht, rfl, -⟩ := mapKstackPage_ok kstackAddr_lt hstep
    -- a round stores to its own page
    have hne : kstackAddr (BitVec.ofNat 32 ((j + 7) * 4096)) k / 4096 ≠
        kstackAddr (BitVec.ofNat 32 ((j + 7) * 4096)) n / 4096 := by
      rw [kstackAddr_page hlt, kstackAddr_page (by omega)]
      unfold kstackSize at hlt
      omega
    rw [entry_setEntry ht, if_neg fun hc => hne hc.2, hgrows.same]
    exact hu k (by omega) hlt

end Stack

end Myunix.Process
