import Myunix.Process.Kstack
import Myunix.Syscall.Mmap
import Myunix.Syscall.Munmap

/-!
# Kernel stacks come and go (`task.c`, `process.c`)

`task_kstack_alloc` works upwards from the lower guard page, `task_kstack_free`, `process_map_kstack` and
`process_unmap_kstack` downwards from `task->kstack`, which is the upper guard page. `Stacked vm j blocks u` is the state
of a stack at page `j` whose pages lie in `blocks`; allocation appends a block in each round and freeing takes the last
one off, down to the state before (`Stacked.restored`).

The directory of a process gets the missing page tables from `get_table_alloc`, which halts the kernel when no block or
no page is left for one. Where there is room for them (`KstackRoom`), no assertion of `process_map_kstack` and
`process_unmap_kstack` fails (`kstack_round_trip`).
-/

namespace Myunix.Process

open Lib Pmm Vmm Syscall

/-! ## The code -/

/-- A guard page of `task_kstack_free`. -/
def freeGuard (kstack : Nat) (vm : Vm) : Kernel Vm := do
  let (table, vm) ← getTableAlloc .kernel vm kstack
  kassert ((← getPage vm (some table) kstack) = pageValueGuard)
  let (table, vm) ← getTableAlloc .kernel vm kstack
  let vm ← mapPage vm (some table) kstack 0 0#32
  invalidatePage kstack
  return vm

/-- The loop body of `task_kstack_free`. -/
def freeKstackPage (vkaddr : Nat) (vm : Vm) : Kernel Vm := do
  let (table, vm) ← getTableAlloc .kernel vm vkaddr
  let kpage ← getPage vm (some table) vkaddr
  kassert (kpage &&& pagePresent ≠ 0#32)
  let (table, vm) ← getTableAlloc .kernel vm vkaddr
  let vm ← mapPage vm (some table) vkaddr 0 0#32
  invalidatePage vkaddr
  let pmm ← pmmFreeBlocks vm.pmm (kpage &&& ~~~ 0xFFF#32).toNat 1
  return { vm with pmm := pmm }

/-- `task_kstack_free`: the value of `task->kstack`. -/
def taskKstackFree (kstack : Word) (vm : Vm) : Kernel (Word × Vm) := do
  kassert (kstack ≠ 0#32)
  let vm ← freeGuard kstack.toNat vm
  let kstack := kstack - 4096#32
  let vm ← forRange (fun i vm => freeKstackPage (kstackAddr kstack i) vm) 0 (kstackSize - 2) vm
  let kstack := kstack - BitVec.ofNat 32 ((kstackSize - 2) * 4096)
  let vm ← freeGuard kstack.toNat vm
  return (0#32, vm)

/-! ## Changes of the kernel directory -/

/-- Of the directories only the kernel's changes, and of it only the entries of the pages `T`. -/
structure KernelBut (T : Nat → Prop) (s s' : Vm) : Prop where
  users : ∀ b, s'.dirs (.user b) = s.dirs (.user b)
  fields : { s'.dirs .kernel with tables := (s.dirs .kernel).tables } = s.dirs .kernel
  missing : ∀ k, (s.dirs .kernel).tables k = none → (s'.dirs .kernel).tables k = none
  there : ∀ k t, (s.dirs .kernel).tables k = some t → ∃ t', (s'.dirs .kernel).tables k = some t' ∧ t'.virt = t.virt ∧
    ∀ i, ¬ (i < 1024 ∧ T (k * 1024 + i)) → t'.pages i = t.pages i

section But

variable {T : Nat → Prop} {s s' : Vm} {n : Nat} {w : Word}

theorem KernelBut.refl (T : Nat → Prop) (s : Vm) : KernelBut T s s :=
  ⟨fun _ => rfl, rfl, fun _ h => h, fun _ t h => ⟨t, h, rfl, fun _ _ => rfl⟩⟩

/-- Blocks and frames are no part of a directory. -/
theorem KernelBut.of_dirs {s'' : Vm} (h : KernelBut T s s') (hdirs : s''.dirs = s'.dirs) : KernelBut T s s'' := by
  refine ⟨fun b => ?_, ?_, fun k => ?_, fun k t => ?_⟩
  all_goals rw [hdirs]
  · exact h.users b
  · exact h.fields
  · exact h.missing k
  · exact h.there k t

/-- A store to one of the pages. -/
theorem KernelBut.setEntry (h : KernelBut T s s') (hn : T n) : KernelBut T s (s'.setEntry .kernel n w) := by
  refine ⟨fun b => dirs_setEntry_kernel.trans (h.users b), ?_, fun k hk => ?_, fun k t hk => ?_⟩
  · rw [← h.fields]
    simp [Vm.setEntry, Vm.setPageAt]
  · have hnone := h.missing k hk
    by_cases hkn : k = n / 1024
    · subst hkn
      simp [Vm.setEntry, Vm.setPageAt, hnone]
    · simp [Vm.setEntry, Vm.setPageAt, hkn, hnone]
  · obtain ⟨t', ht', hvirt, hpages⟩ := h.there k t hk
    by_cases hkn : k = n / 1024
    · subst hkn
      refine ⟨{ t' with pages := Function.update t'.pages (n % 1024) w }, ?_, hvirt, fun i hi => ?_⟩
      · simp [Vm.setEntry, Vm.setPageAt, ht']
      · have hne : i ≠ n % 1024 := by
          rintro rfl
          exact hi ⟨Nat.mod_lt _ (by omega), by rw [Nat.mul_comm, Nat.div_add_mod]; exact hn⟩
        rw [← hpages i hi]
        exact Function.update_of_ne hne ..
    · exact ⟨t', by simp [Vm.setEntry, Vm.setPageAt, hkn, ht'], hvirt, hpages⟩

theorem KernelBut.kernelTables (h : KernelBut T s s') (hk : KernelTables s) : KernelTables s' := by
  intro k hlt
  obtain ⟨⟨t, ht⟩, hvirt⟩ := hk k hlt
  obtain ⟨t', ht', hvirt', -⟩ := h.there k t ht
  refine ⟨⟨t', ht'⟩, ?_⟩
  unfold Vm.tableVirt at hvirt ⊢
  simp only [ht] at hvirt
  simp only [ht', hvirt']
  exact hvirt

/-- When the pages have their old entries again, so have all directories. -/
theorem KernelBut.dirs_eq (h : KernelBut T s s') (hsame : ∀ m, T m → s'.entry .kernel m = s.entry .kernel m) :
    s'.dirs = s.dirs := by
  have htables : (s'.dirs .kernel).tables = (s.dirs .kernel).tables := by
    funext k
    cases hk : (s.dirs .kernel).tables k with
    | none => exact h.missing k hk
    | some t =>
      obtain ⟨t', ht', hvirt, hpages⟩ := h.there k t hk
      have hall : t'.pages = t.pages := by
        funext i
        by_cases hi : i < 1024 ∧ T (k * 1024 + i)
        · have hentry := hsame _ hi.2
          have hdiv : (k * 1024 + i) / 1024 = k := by omega
          have hmod : (k * 1024 + i) % 1024 = i := by omega
          unfold Vm.entry Vm.pageAt at hentry
          simpa only [hdiv, hmod, hk, ht'] using hentry
        · exact hpages i hi
      obtain ⟨virt, pages⟩ := t
      obtain ⟨virt', pages'⟩ := t'
      rw [ht', show virt' = virt from hvirt, show pages' = pages from hall]
  funext d
  cases d with
  | kernel => rw [← h.fields, ← htables]
  | user b => exact h.users b

end But

/-- A block map is its size and its bits. -/
theorem blockMap_ext {p q : BlockMap} (hsize : p.size = q.size) (hused : ∀ c, p.used c = q.used c) : p = q := by
  have hwords : p.words = q.words := by
    funext i
    apply BitVec.eq_of_getLsbD_eq
    intro j hj
    have hbit := hused (i * 32 + j)
    unfold BlockMap.used at hbit
    rwa [show (i * 32 + j) / 32 = i by omega, show (i * 32 + j) % 32 = j by omega] at hbit
  obtain ⟨words, size, hle⟩ := p
  obtain ⟨words', size', hle'⟩ := q
  cases hwords
  cases hsize
  rfl

/-! ## A stack -/

/-- The pages of a stack at page `j`. -/
def StackPages (j m : Nat) : Prop := j ≤ m ∧ m < j + kstackSize

instance (j : Nat) : DecidablePred (StackPages j) := fun m => inferInstanceAs (Decidable (j ≤ m ∧ m < j + kstackSize))

/-- The entry of a page of a stack. -/
def stackEntry (b : Nat) : Word := BitVec.ofNat 32 (b * 4096) ||| (pagePresent ||| pageReadwrite)

/-- **A stack at page `j`** with its lower guard page, and its first pages in `blocks`, which were free in `vm`. -/
structure Stacked (vm : Vm) (j : Nat) (blocks : List Nat) (u : Vm) : Prop where
  but : KernelBut (StackPages j) vm u
  guard : u.entry .kernel j = pageValueGuard
  pages : ∀ k b, blocks[k]? = some b → u.entry .kernel (j + 1 + k) = stackEntry b
  nodup : blocks.Nodup
  free : ∀ b ∈ blocks, b ≠ 0 ∧ b < vm.pmm.size ∧ vm.pmm.used b = false
  size : u.pmm.size = vm.pmm.size
  used : ∀ c, u.pmm.used c = (vm.pmm.used c || decide (c ∈ blocks))

section Stacked

variable {vm u u' : Vm} {j b : Nat} {blocks : List Nat} {kstack : Word}

/-- The frame number and the flags of an entry: present and writable, not for the user. -/
theorem stackEntry_toNat (hb : b < 0x100000) : (stackEntry b).toNat = b * 4096 + 3 := by
  have hflags : pagePresent ||| pageReadwrite = 3#32 := rfl
  have hlow : BitVec.ofNat 32 (b * 4096) &&& 3#32 = 0#32 := by
    apply BitVec.eq_of_toNat_eq
    rw [BitVec.toNat_and, BitVec.toNat_ofNat, BitVec.toNat_ofNat, Nat.mod_eq_of_lt (show b * 4096 < 2 ^ 32 by omega)]
    show b * 4096 &&& (2 ^ 2 - 1) = 0
    rw [Nat.and_two_pow_sub_one_eq_mod]
    omega
  rw [stackEntry, hflags, ← BitVec.add_eq_or_of_and_eq_zero _ _ hlow, BitVec.toNat_add, BitVec.toNat_ofNat]
  show (b * 4096 % 2 ^ 32 + 3) % 2 ^ 32 = _
  omega

/-- The address that `task_kstack_free` gives back. -/
theorem stackEntry_block (hb : b < 0x100000) : (stackEntry b &&& ~~~ 0xFFF#32).toNat / 4096 = b := by
  rw [page_toNat, stackEntry_toNat hb]
  omega

theorem stackEntry_present (b : Nat) : stackEntry b &&& pagePresent ≠ 0#32 := by
  intro h
  have hbit := congrArg (fun w => w.getLsbD 0) h
  simp [stackEntry, pagePresent, pageReadwrite] at hbit

/-- A round of `task_kstack_alloc` takes a free block for the next page. -/
theorem Stacked.push {phys : Nat} {pmm : BlockMap} (h : Stacked vm j blocks u) (hk : KernelTables vm)
    (hlen : blocks.length + 2 < kstackSize) (htop : j + kstackSize ≤ 0x100000)
    (halloc : pmmAllocBlocksSafe u.pmm 1 = .ok (phys, pmm)) (frames : Nat → Nat → Byte) :
    ∃ b, Stacked vm j (blocks ++ [b]) { ({ u with pmm := pmm }).setEntry .kernel (j + 1 + blocks.length)
      (BitVec.ofNat 32 phys ||| (pagePresent ||| pageReadwrite)) with frames := frames } := by
  obtain ⟨b, hb0, rfl, hfree, -, hsize, hused⟩ := pmmAllocBlocksSafe_ok halloc
  obtain ⟨hlt, hunused⟩ := hfree b ⟨Nat.le_refl b, by omega⟩
  rw [h.used, Bool.or_eq_false_iff, decide_eq_false_iff_not] at hunused
  have htables := h.but.kernelTables hk
  unfold kstackSize at hlen htop
  have hpage : ({ u with pmm := pmm } : Vm).HasTable .kernel ((j + 1 + blocks.length) / 1024) :=
    (htables _ (by omega)).1
  have hentry : ∀ m, (({ u with pmm := pmm } : Vm).setEntry .kernel (j + 1 + blocks.length) (stackEntry b)).entry
      .kernel m = if m = j + 1 + blocks.length then stackEntry b else u.entry .kernel m := by
    intro m
    rw [entry_setEntry hpage]
    simp only [true_and]
    rfl
  refine ⟨b, ?_⟩
  constructor
  case but =>
    refine (KernelBut.setEntry (n := j + 1 + blocks.length) (h.but.of_dirs rfl) ?_).of_dirs rfl
    unfold StackPages kstackSize
    omega
  case guard =>
    apply (hentry j).trans
    rw [if_neg (by omega)]
    exact h.guard
  case pages =>
    intro k c hc
    apply (hentry (j + 1 + k)).trans
    rcases Nat.lt_trichotomy k blocks.length with hk | rfl | hk
    · rw [List.getElem?_append_left hk] at hc
      rw [if_neg (by omega)]
      exact h.pages k c hc
    · rw [List.getElem?_append_right (Nat.le_refl _), Nat.sub_self, List.getElem?_cons_zero, Option.some.injEq] at hc
      rw [if_pos rfl, hc]
    · rw [List.getElem?_eq_none (by rw [List.length_append, List.length_singleton]; omega)] at hc
      cases hc
  case nodup => exact List.nodup_append.2 ⟨h.nodup, List.nodup_singleton b, by
    rintro c hc d hd rfl
    rw [List.mem_singleton] at hd
    exact hunused.2 (hd ▸ hc)⟩
  case free =>
    intro c hc
    rcases List.mem_append.1 hc with hc | hc
    · exact h.free c hc
    · rw [List.mem_singleton] at hc
      subst hc
      exact ⟨hb0, h.size ▸ hlt, hunused.1⟩
  case size => exact hsize.trans h.size
  case used =>
    intro c
    show pmm.used c = _
    rw [hused, h.used, Bool.or_assoc, ← Bool.decide_or]
    congr 1
    apply decide_eq_decide.2
    rw [List.mem_append, List.mem_singleton]
    apply or_congr Iff.rfl
    constructor
    · rintro ⟨h1, h2⟩
      omega
    · rintro rfl
      exact ⟨Nat.le_refl c, by omega⟩

/-- A store of the kernel to a page of the stack that is neither the lower guard page nor in `blocks`. -/
theorem Stacked.setEntry {n : Nat} {w : Word} (h : Stacked vm j blocks u) (hk : KernelTables vm)
    (htop : j + kstackSize ≤ 0x100000) (hn : j + blocks.length < n) (hn' : n < j + kstackSize) :
    Stacked vm j blocks (u.setEntry .kernel n w) := by
  unfold kstackSize at htop hn'
  have hpage : u.HasTable .kernel (n / 1024) := (h.but.kernelTables hk _ (by omega)).1
  refine ⟨h.but.setEntry ⟨by omega, by unfold kstackSize; omega⟩, ?_, fun k b hb => ?_, h.nodup, h.free, h.size, h.used⟩
  · rw [entry_setEntry hpage, if_neg (by omega)]
    exact h.guard
  · have hlt : k < blocks.length := (List.getElem?_eq_some_iff.1 hb).1
    rw [entry_setEntry hpage, if_neg (by omega)]
    exact h.pages k b hb

/-- `map_page` on a page of the kernel directory below the top. -/
theorem mapPage_kernel {w : Vm} {m x : Nat} {f : Word} (hk : KernelTables w) (hm : m < 0x100000) :
    mapPage w (getTable w (m * 4096) .kernel) (m * 4096) x f = .ok (w.setEntry .kernel m (BitVec.ofNat 32 x ||| f)) := by
  have ht := hk (m * 4096 / 0x400000) (by omega)
  rw [mapPage_eq (by omega) ht.1 ht.2, Nat.mul_div_cancel m (by omega)]

/-- The reservation of the pages leaves everything but them. -/
theorem findVspace_but {v : Nat} (h : findVspace .kernel kstackSize vm = .ok (v, u)) :
    (v = noVspace ∧ u = vm) ∨ ∃ j, 1 ≤ j ∧ j < 0x100000 ∧ v = j * 4096 ∧ FreeRun vm .kernel j kstackSize ∧
      (j + kstackSize ≤ 0x100000 → KernelBut (StackPages j) vm u ∧ u.pmm = vm.pmm) := by
  rw [findVspace_kernel] at h
  simp only [findVspaceKernel, findVspaceWith, bind_eq_ok, assert_eq_ok] at h
  obtain ⟨-, hn, h⟩ := h
  rcases vspaceFrom_spec (quiet_eq .kernel) kernelTable_spec hn (by omega) h with
    ⟨hv, hvm, -⟩ | ⟨j, s₁, h1, h2, h3, h4, -, rfl, hres⟩
  · exact .inl ⟨hv, hvm.symm⟩
  · refine .inr ⟨j, h1, h2, h3, h4, fun htop => ?_⟩
    refine forRange_keeps (I := fun u => KernelBut (StackPages j) vm u ∧ u.pmm = vm.pmm) ?_ hres ⟨.refl _ vm, rfl⟩
    rintro k w w' - hk ⟨hbut, hpmm⟩ hmap
    obtain ⟨-, -, rfl⟩ := mapPage_ok hmap
    refine ⟨hbut.setEntry ?_, hpmm⟩
    unfold StackPages kstackSize at *
    omega

/-- The lower guard page starts a stack. -/
theorem stacked_guard {s s' : Vm} (hk : KernelTables vm) (hbut : KernelBut (StackPages j) vm s) (hpmm : s.pmm = vm.pmm)
    (hj : j < 0x100000) (h : mapGuard (j * 4096) s = .ok s') : Stacked vm j [] s' := by
  simp only [mapGuard, mapPage_kernel (hbut.kernelTables hk) hj, bind_eq_ok, pure_eq_ok, Except.ok.injEq] at h
  obtain ⟨w, rfl, -, -, rfl⟩ := h
  have hpage : s.HasTable .kernel (j / 1024) := (hbut.kernelTables hk _ (by omega)).1
  refine ⟨hbut.setEntry ⟨Nat.le_refl j, by unfold kstackSize; omega⟩, ?_, fun k b hb => ?_, List.nodup_nil,
    fun b hb => absurd hb List.not_mem_nil, ?_, fun c => ?_⟩
  · rw [entry_setEntry hpage, if_pos ⟨rfl, rfl⟩]
    rfl
  · cases hb
  · rw [setEntry_pmm, hpmm]
  · rw [setEntry_pmm, hpmm, decide_eq_false List.not_mem_nil, Bool.or_false]

/-- A round of `task_kstack_alloc` that has returned. -/
theorem Stacked.kstackPage (h : Stacked vm j blocks u) (hk : KernelTables vm) (hlen : blocks.length + 2 < kstackSize)
    (htop : j + kstackSize ≤ 0x100000) (hrun : kstackPage ((j + 1 + blocks.length) * 4096) u = .ok u') :
    ∃ b, Stacked vm j (blocks ++ [b]) u' := by
  simp only [Process.kstackPage, bind_eq_ok, Prod.exists] at hrun
  obtain ⟨phys, pmm, halloc, w₁, hmap, -, -, hfill⟩ := hrun
  have htables : KernelTables { u with pmm := pmm } := h.but.kernelTables hk
  have hlt : j + 1 + blocks.length < 0x100000 := by omega
  rw [mapPage_kernel htables hlt, Except.ok.injEq] at hmap
  subst hmap
  simp only [fillPage, bind_eq_ok, pure_eq_ok] at hfill
  obtain ⟨frame, -, rfl⟩ := hfill
  exact h.push hk hlen htop halloc _

/-- **`task_kstack_alloc`** below the top of the address space. -/
theorem taskKstackAlloc_stacked (hk : KernelTables vm) (h : taskKstackAlloc vm = .ok (kstack, u))
    (htop : kstackSize * 4096 ≤ kstack.toNat) :
    ∃ j blocks, 1 ≤ j ∧ j + kstackSize ≤ 0x100000 ∧ kstack = BitVec.ofNat 32 ((j + 7) * 4096) ∧
      (∀ m, StackPages j m → vm.entry .kernel m = 0#32) ∧ blocks.length = kstackSize - 2 ∧
      Stacked vm j blocks u ∧ u.entry .kernel (j + 7) = pageValueGuard := by
  simp only [taskKstackAlloc, bind_eq_ok, pure_eq_ok, Prod.exists, Prod.mk.injEq] at h
  obtain ⟨v, s₁, hfind, -, -, s₂, hguard, s₃, hloop, s₄, hguard', hkstack, rfl⟩ := h
  rcases findVspace_but hfind with ⟨rfl, rfl⟩ | ⟨j, h1, h2, rfl, hfree, hbut⟩
  · -- `-1` is not aligned
    exact absurd (mapGuard_ok (T := fun _ => True) (fun _ => trivial) hguard).1 (by decide)
  have hbelow : j + kstackSize ≤ 0x100000 := by
    rw [← hkstack, BitVec.toNat_ofNat] at htop
    unfold kstackSize at htop ⊢
    omega
  obtain ⟨hbut₁, hpmm₁⟩ := hbut hbelow
  have hbelow' : j + 8 ≤ 0x100000 := hbelow
  have hzero : ∀ m, StackPages j m → vm.entry .kernel m = 0#32 := by
    rintro m ⟨hm, hm'⟩
    unfold kstackSize at hm'
    have hentry := hfree (m - j) (by unfold kstackSize; omega)
    rwa [show (j + (m - j)) % 0x100000 = m by omega] at hentry
  have hstack₂ := stacked_guard hk hbut₁ hpmm₁ h2 hguard
  -- round `i` adds the `i`-th page
  have hstack₃ := forRange_inv (P := fun i w => ∃ blocks, blocks.length = i ∧ Stacked vm j blocks w) ?_ hloop
    ⟨[], rfl, hstack₂⟩
  · obtain ⟨blocks, hlen, hstack⟩ := hstack₃
    have hlast : ((j * 4096 + 4096) % 0x100000000 + (kstackSize - 2) * 4096) % 0x100000000 = (j + 7) * 4096 := by
      unfold kstackSize
      omega
    rw [hlast] at hguard' hkstack
    have hseven : j + 7 < 0x100000 := by omega
    have htables := hstack.but.kernelTables hk
    simp only [mapGuard, mapPage_kernel htables hseven, bind_eq_ok, pure_eq_ok, Except.ok.injEq] at hguard'
    obtain ⟨w, rfl, -, -, rfl⟩ := hguard'
    rw [Nat.zero_add] at hlen
    refine ⟨j, blocks, h1, hbelow, hkstack.symm, hzero, hlen, ?_, ?_⟩
    · exact hstack.setEntry hk hbelow (by rw [hlen]; unfold kstackSize; omega) (by unfold kstackSize; omega)
    · rw [entry_setEntry (htables _ (by omega)).1, if_pos ⟨rfl, rfl⟩]
      rfl
  · rintro i w w' - hi ⟨blocks, hlen, hstack⟩ hstep
    unfold kstackSize at hi
    have haddr : ((j * 4096 + 4096) % 0x100000000 + i * 4096) % 0x100000000 = (j + 1 + blocks.length) * 4096 := by omega
    rw [haddr] at hstep
    obtain ⟨b, hpush⟩ := hstack.kstackPage hk (by rw [hlen]; unfold kstackSize; omega) hbelow hstep
    exact ⟨blocks ++ [b], by rw [List.length_append, hlen]; rfl, hpush⟩

/-! ## Freeing -/

/-- `get_table_alloc` on the kernel directory. -/
theorem getTableAlloc_kernel_eq {w : Vm} {v : Nat} (hk : KernelTables w) (hv : v < 0x100000000) :
    getTableAlloc .kernel w v = .ok (⟨.kernel, v / 0x400000⟩, w) := by
  have hsome : getTable w v .kernel = some ⟨.kernel, v / 0x400000⟩ := getTable_eq_some.2 ⟨(hk _ (by omega)).1, rfl⟩
  rw [getTableAlloc, hsome]
  rfl

/-- A guard page is cleared. -/
theorem freeGuard_eq {w : Vm} {m : Nat} (hk : KernelTables w) (hm : m < 0x100000)
    (hguard : w.entry .kernel m = pageValueGuard) :
    freeGuard (m * 4096) w = .ok (w.setEntry .kernel m 0#32) := by
  have htable := getTableAlloc_kernel_eq hk (show m * 4096 < 0x100000000 by omega)
  have hsome : getTable w (m * 4096) .kernel = some ⟨.kernel, m * 4096 / 0x400000⟩ :=
    getTable_eq_some.2 ⟨(hk _ (by omega)).1, rfl⟩
  have hpage : w.entry .kernel (m * 4096 / 4096) = pageValueGuard := by
    rw [Nat.mul_div_cancel m (by omega)]
    exact hguard
  have hmap := mapPage_kernel hk hm (x := 0) (f := 0#32)
  rw [hsome] at hmap
  simp only [freeGuard, htable, ok_bind, getPage_table, assert_pos hpage, hmap, invalidatePage,
    assert_pos (show m * 4096 % 1024 = 0 by omega)]
  rfl

/-- A round of `task_kstack_free` gives the block of the last page back. -/
theorem Stacked.pop (h : Stacked vm j (blocks ++ [b]) u) (hk : KernelTables vm) (htop : j + kstackSize ≤ 0x100000)
    (hlen : blocks.length + 2 < kstackSize) :
    ∃ u', freeKstackPage ((j + 1 + blocks.length) * 4096) u = .ok u' ∧ Stacked vm j blocks u' ∧
      ∀ m, u'.entry .kernel m = if m = j + 1 + blocks.length then 0#32 else u.entry .kernel m := by
  unfold kstackSize at htop hlen
  have htables := h.but.kernelTables hk
  have hb : (blocks ++ [b])[blocks.length]? = some b := by simp
  obtain ⟨hb0, hlt, hfree⟩ := h.free b (by simp)
  have hsize := vm.pmm.size_le
  have hbig : b < 0x100000 := by omega
  have hentry := h.pages blocks.length b hb
  have htable := getTableAlloc_kernel_eq htables (show (j + 1 + blocks.length) * 4096 < 0x100000000 by omega)
  have hsome : getTable u ((j + 1 + blocks.length) * 4096) .kernel =
      some ⟨.kernel, (j + 1 + blocks.length) * 4096 / 0x400000⟩ :=
    getTable_eq_some.2 ⟨(htables _ (by omega)).1, rfl⟩
  have hpage : u.entry .kernel ((j + 1 + blocks.length) * 4096 / 4096) = stackEntry b := by
    rw [Nat.mul_div_cancel _ (by omega)]
    exact hentry
  have hmap := mapPage_kernel htables (m := j + 1 + blocks.length) (by omega) (x := 0) (f := 0#32)
  rw [hsome] at hmap
  obtain ⟨q, hq⟩ := pmmUnsetBlock_eq (p := u.pmm) (b := b) (by rw [h.size]; exact hlt)
  obtain ⟨-, hqsize, hqused⟩ := pmmUnsetBlock_ok hq
  have hzero : u.HasTable .kernel ((j + 1 + blocks.length) / 1024) := (htables _ (by omega)).1
  have hafter : ∀ m, (u.setEntry .kernel (j + 1 + blocks.length) (BitVec.ofNat 32 0 ||| 0#32)).entry .kernel m =
      if m = j + 1 + blocks.length then 0#32 else u.entry .kernel m := by
    intro m
    rw [entry_setEntry hzero]
    simp only [true_and]
    rfl
  refine ⟨{ u.setEntry .kernel (j + 1 + blocks.length) (BitVec.ofNat 32 0 ||| 0#32) with pmm := q }, ?_, ?_, hafter⟩
  · simp only [freeKstackPage, htable, ok_bind, getPage_table, hpage, assert_pos (stackEntry_present b), hmap,
      invalidatePage, assert_pos (show (j + 1 + blocks.length) * 4096 % 1024 = 0 by omega), pmmFreeBlocks_one,
      stackEntry_block hbig, setEntry_pmm, hq]
    rfl
  have hnodup := List.nodup_append.1 h.nodup
  constructor
  case but =>
    refine (h.but.setEntry (n := j + 1 + blocks.length) ?_).of_dirs rfl
    unfold StackPages kstackSize
    omega
  case guard =>
    apply (hafter j).trans
    rw [if_neg (by omega)]
    exact h.guard
  case pages =>
    intro k c hc
    have hlt : k < blocks.length := (List.getElem?_eq_some_iff.1 hc).1
    apply (hafter (j + 1 + k)).trans
    rw [if_neg (by omega)]
    exact h.pages k c (by rw [List.getElem?_append_left hlt]; exact hc)
  case nodup => exact hnodup.1
  case free => exact fun c hc => h.free c (List.mem_append_left _ hc)
  case size => exact hqsize.trans h.size
  case used =>
    intro c
    show q.used c = _
    rw [hqused, h.used]
    by_cases hcb : c = b
    · have hnot : c ∉ blocks := fun hc => hnodup.2.2 c hc b (by simp) hcb
      rw [hcb] at hnot ⊢
      simp [hfree, hnot]
    · simp [hcb]

theorem kstackAddr_below {i : Nat} (hi : i < kstackSize) (htop : j + kstackSize ≤ 0x100000) :
    kstackAddr (BitVec.ofNat 32 ((j + 7) * 4096)) i = (j + 7 - i) * 4096 := by
  unfold kstackAddr
  rw [BitVec.toNat_sub, BitVec.toNat_ofNat, BitVec.toNat_ofNat]
  unfold kstackSize at hi htop
  omega

theorem kstack_ne_zero (htop : j + kstackSize ≤ 0x100000) : BitVec.ofNat 32 ((j + 7) * 4096) ≠ 0#32 := by
  intro hc
  have hnat := congrArg BitVec.toNat hc
  unfold kstackSize at htop
  simp only [BitVec.toNat_ofNat] at hnat
  omega

/-- The loop of `task_kstack_free`: round `i` frees page `j + 6 - i`. -/
theorem Stacked.popAll (h : Stacked vm j blocks u) (hk : KernelTables vm) (htop : j + kstackSize ≤ 0x100000)
    (hlen : blocks.length = kstackSize - 2) (hguard : u.entry .kernel (j + 7) = 0#32) :
    ∃ w, forRange (fun i vm => freeKstackPage (kstackAddr (BitVec.ofNat 32 ((j + 6) * 4096)) i) vm) 0 (kstackSize - 2) u =
        .ok w ∧ Stacked vm j [] w ∧ ∀ m, j + 1 ≤ m → m < j + 8 → w.entry .kernel m = 0#32 := by
  have htop' : j + 8 ≤ 0x100000 := htop
  have hsix : blocks.length = 6 := hlen
  have hinv : ∃ w, forRange (fun i vm => freeKstackPage (kstackAddr (BitVec.ofNat 32 ((j + 6) * 4096)) i) vm) 0
      (kstackSize - 2) u = .ok w ∧ Stacked vm j (blocks.take (6 - (kstackSize - 2))) w ∧
      ∀ m, j + 7 - (kstackSize - 2) ≤ m → m < j + 8 → w.entry .kernel m = 0#32 := by
    refine forRange_zero_ok (P := fun i w => Stacked vm j (blocks.take (6 - i)) w ∧
      ∀ m, j + 7 - i ≤ m → m < j + 8 → w.entry .kernel m = 0#32) ?_ ⟨?_, ?_⟩
    · rintro i w hi ⟨hstack, hclear⟩
      have hi' : i < 6 := hi
      have htake : blocks.take (6 - i) = blocks.take (5 - i) ++ [blocks[5 - i]] := by
        rw [List.take_append_getElem]
        congr 1
        omega
      have hrest : (blocks.take (5 - i)).length = 5 - i := by
        rw [List.length_take]
        omega
      rw [htake] at hstack
      obtain ⟨w', hfree, hstack', hentry⟩ := hstack.pop hk htop (by rw [hrest]; unfold kstackSize; omega)
      rw [hrest] at hfree hentry
      have haddr : kstackAddr (BitVec.ofNat 32 ((j + 6) * 4096)) i = (j + 1 + (5 - i)) * 4096 := by
        unfold kstackAddr
        rw [BitVec.toNat_sub, BitVec.toNat_ofNat, BitVec.toNat_ofNat]
        omega
      refine ⟨w', by rw [haddr]; exact hfree, by rwa [show 6 - (i + 1) = 5 - i by omega], fun m h1 h2 => ?_⟩
      rw [hentry]
      split
      · rfl
      · exact hclear m (by omega) h2
    · rw [Nat.sub_zero, List.take_of_length_le (by omega)]
      exact h
    · intro m h1 h2
      rw [show m = j + 7 by omega]
      exact hguard
  obtain ⟨w, hloop, hstack, hclear⟩ := hinv
  refine ⟨w, hloop, hstack, fun m h1 h2 => hclear m ?_ h2⟩
  unfold kstackSize
  omega

/-- **`task_kstack_free`** takes the stack down to the state before. -/
theorem Stacked.restored (h : Stacked vm j blocks u) (hk : KernelTables vm) (htop : j + kstackSize ≤ 0x100000)
    (hlen : blocks.length = kstackSize - 2) (hguard : u.entry .kernel (j + 7) = pageValueGuard)
    (hzero : ∀ m, StackPages j m → vm.entry .kernel m = 0#32) :
    ∃ u', taskKstackFree (BitVec.ofNat 32 ((j + 7) * 4096)) u = .ok (0#32, u') ∧ u'.dirs = vm.dirs ∧
      u'.pmm = vm.pmm := by
  have htop' : j + 8 ≤ 0x100000 := htop
  have hsix : blocks.length = 6 := hlen
  have hupper : (BitVec.ofNat 32 ((j + 7) * 4096)).toNat = (j + 7) * 4096 := by
    rw [BitVec.toNat_ofNat]
    omega
  have hnext : BitVec.ofNat 32 ((j + 7) * 4096) - 4096#32 = BitVec.ofNat 32 ((j + 6) * 4096) := by
    apply BitVec.eq_of_toNat_eq
    simp only [BitVec.toNat_sub, BitVec.toNat_ofNat]
    omega
  have hlower : (BitVec.ofNat 32 ((j + 6) * 4096) - BitVec.ofNat 32 ((kstackSize - 2) * 4096)).toNat = j * 4096 := by
    simp only [BitVec.toNat_sub, BitVec.toNat_ofNat, kstackSize]
    omega
  have htables := h.but.kernelTables hk
  have hcleared : (u.setEntry .kernel (j + 7) 0#32).entry .kernel (j + 7) = 0#32 := by
    rw [entry_setEntry (htables _ (by omega)).1, if_pos ⟨rfl, rfl⟩]
  obtain ⟨w, hloop, hstack, hclear⟩ :=
    (h.setEntry hk htop (by omega) (by unfold kstackSize; omega)).popAll hk htop hlen hcleared
  refine ⟨w.setEntry .kernel j 0#32, ?_, ?_, ?_⟩
  · simp only [taskKstackFree, assert_pos (kstack_ne_zero htop), ok_bind, hupper,
      freeGuard_eq htables (show j + 7 < 0x100000 by omega) hguard, hnext, hloop, hlower,
      freeGuard_eq (hstack.but.kernelTables hk) (show j < 0x100000 by omega) hstack.guard]
    rfl
  · refine (hstack.but.setEntry ⟨Nat.le_refl j, by unfold kstackSize; omega⟩).dirs_eq fun m hm => ?_
    rw [entry_setEntry (hstack.but.kernelTables hk _ (by omega)).1, hzero m hm]
    obtain ⟨hm1, hm2⟩ := hm
    by_cases hmj : m = j
    · rw [if_pos ⟨rfl, hmj⟩]
    · rw [if_neg fun hc => hmj hc.2]
      exact hclear m (by omega) hm2
  · refine blockMap_ext hstack.size fun c => ?_
    rw [setEntry_pmm, hstack.used, decide_eq_false List.not_mem_nil, Bool.or_false]

end Stacked

/-! ## The directory of a process -/

/-- What `get_table_alloc` needs for a table: a block, and a page of the kernel directory. -/
def TableRoom (w : Vm) : Prop :=
  (∃ x, pmmAllocBlocksSafe w.pmm 1 = .ok x) ∧ ∃ m, 1 ≤ m ∧ m < 0x100000 ∧ w.entry .kernel m = 0#32

/-- **Room for the page tables**: in every round of `process_map_kstack` the table is there, or there is room for it. -/
def KstackRoom (pdir : DirPtr) (kstack : Word) : Vm → Prop :=
  ForMeets (fun i vm => mapKstackPage pdir (kstackAddr kstack i) vm)
    (fun i w => w.HasTable pdir (kstackAddr kstack i / 0x400000) ∨ TableRoom w) 0 kstackSize

section Directory

variable {w w' : Vm} {a v : Nat}

theorem kernelTables_addTable {k phys virt : Nat} (hk : KernelTables w) :
    KernelTables (w.addTable (.user a) k phys virt) := by
  intro i hi
  have hdir : (w.addTable (.user a) k phys virt).dirs .kernel = w.dirs .kernel := by simp [Vm.addTable]
  unfold Vm.HasTable Vm.tableVirt
  rw [hdir]
  exact hk i hi

/-- **`get_table_alloc`** returns where there is room. -/
theorem getTableAlloc_room (hk : KernelTables w) (hv : v < 0x100000000) (ha : v % 1024 = 0)
    (hroom : w.HasTable (.user a) (v / 0x400000) ∨ TableRoom w) :
    ∃ w', getTableAlloc (.user a) w v = .ok (⟨.user a, v / 0x400000⟩, w') ∧ KernelTables w' := by
  by_cases ht : w.HasTable (.user a) (v / 0x400000)
  · exact ⟨w, getTableAlloc_there ht, hk⟩
  obtain ⟨⟨⟨phys, pmm⟩, hblock⟩, hpage⟩ := hroom.resolve_left ht
  have hindex : v / 0x400000 % 1024 = v / 0x400000 := by omega
  -- the first free page of the kernel directory
  obtain ⟨hq1, hq2, hq⟩ := Nat.find_spec hpage
  have hused : ∀ i, 1 ≤ i → i < Nat.find hpage → w.entry .kernel i ≠ 0#32 :=
    fun i h1 h2 hc => Nat.find_min hpage h2 ⟨h1, by omega, hc⟩
  generalize Nat.find hpage = q at hq1 hq2 hq hused
  have hkp : KernelTables { w with pmm := pmm } := hk
  have hfind := findVspaceKernel_first hkp hq1 hq2 hq hused
  have hk₁ : KernelTables (if q = 0xFFFFF then { w with pmm := pmm } else
      ({ w with pmm := pmm } : Vm).setEntry .kernel q pageValueReserved) := by
    split
    · exact hkp
    · exact hkp.setEntry
  generalize (if q = 0xFFFFF then { w with pmm := pmm } else
      ({ w with pmm := pmm } : Vm).setEntry .kernel q pageValueReserved) = w₁ at hfind hk₁
  have hk₂ : KernelTables (w₁.addTable (.user a) (v / 0x400000) phys (q * 4096)) := kernelTables_addTable hk₁
  refine ⟨_, ?_, hk₂.setEntry (n := q) (d := .kernel) (w := BitVec.ofNat 32 phys ||| (pagePresent ||| pageReadwrite))⟩
  have hnone : getTable w v (.user a) = none := getTable_eq_none.2 ht
  unfold getTableAlloc
  rw [hnone]
  simp only [assert_pos (show DirPtr.user a ≠ .kernel by simp), ok_bind, hblock, hfind, hindex,
    assert_pos (show q * 4096 ≠ 0 by omega), mapPage_kernel hk₂ hq2, invalidatePage, assert_pos ha]
  rfl

/-- The tables of a user directory stay aligned. -/
theorem getTableAlloc_aligned {t : TablePtr} (hv : v < 0x100000000) (h : getTableAlloc (.user a) w v = .ok (t, w'))
    (hal : ∀ k, w.tableVirt ⟨.user a, k⟩ % 1024 = 0) : ∀ k, w'.tableVirt ⟨.user a, k⟩ % 1024 = 0 := by
  obtain ⟨-, ⟨-, rfl⟩ | ⟨-, phys, q, hadd⟩⟩ := getTableAlloc_ok hv h
  · exact hal
  · intro k
    have hk := hal k
    unfold Vm.tableVirt at hk ⊢
    simp only [hadd.dir]
    by_cases hkv : k = v / 0x400000
    · rw [hkv, Function.update_self]
      show q * 4096 % 1024 = 0
      omega
    · rw [Function.update_of_ne hkv]
      exact hk

/-! ### Rounds -/

/-- A kernel stack at page `j`, with entries `e`, as the kernel directory and directory `a` see it: of the stack the
latter has the pages `T`, and otherwise its own entries `e₀`. -/
structure KstackSeen (e e₀ : Nat → Word) (j a : Nat) (T : Nat → Prop) [DecidablePred T] (w : Vm) : Prop where
  tables : KernelTables w
  kernel : ∀ m, StackPages j m → w.entry .kernel m = e m
  aligned : ∀ k, w.tableVirt ⟨.user a, k⟩ % 1024 = 0
  user : ∀ m, w.entry (.user a) m = if T m then e m else e₀ m

/-- The entries of a stack, which are neither 0 nor for the user. -/
def StackEntries (j : Nat) (e : Nat → Word) : Prop := ∀ m, StackPages j m → e m ≠ 0#32 ∧ e m &&& pageUser = 0#32

variable {e e₀ : Nat → Word} {j m : Nat} {T T' : Nat → Prop} [DecidablePred T] [DecidablePred T']

theorem getPage_kernel (hk : KernelTables w) (hm : m < 0x100000) :
    getPage w (getTable w (m * 4096) .kernel) (m * 4096) = .ok (w.entry .kernel m) := by
  have hsome : getTable w (m * 4096) .kernel = some ⟨.kernel, m * 4096 / 0x400000⟩ :=
    getTable_eq_some.2 ⟨(hk _ (by omega)).1, rfl⟩
  rw [hsome, getPage_table, Nat.mul_div_cancel m (by omega)]

/-- A store to a page of the stack in directory `a`. -/
theorem KstackSeen.setEntry (h : KstackSeen e e₀ j a T w) (ht : w.HasTable (.user a) (m / 1024)) {x : Word}
    (hx : x = if T' m then e m else e₀ m) (hT : ∀ n, n ≠ m → (T' n ↔ T n)) :
    KstackSeen e e₀ j a T' (w.setEntry (.user a) m x) := by
  refine ⟨h.tables.setEntry, fun n hn => ?_, fun k => ?_, fun n => ?_⟩
  · rw [entry_setEntry ht, if_neg (fun hc => by cases hc.1)]
    exact h.kernel n hn
  · rw [tableVirt_setEntry]
    exact h.aligned k
  · rw [entry_setEntry ht]
    by_cases hn : n = m
    · rw [if_pos ⟨rfl, hn⟩, hx, hn]
    · rw [if_neg fun hc => hn hc.2, h.user n]
      simp only [hT n hn]

/-- A round of `process_map_kstack`. -/
theorem KstackSeen.map (h : KstackSeen e e₀ j a T w) (he : StackEntries j e) (hm : StackPages j m)
    (htop : j + kstackSize ≤ 0x100000) (hzero : e₀ m = 0#32) (hnew : ¬ T m) (hnew' : T' m)
    (hT : ∀ n, n ≠ m → (T' n ↔ T n)) (hroom : w.HasTable (.user a) (m * 4096 / 0x400000) ∨ TableRoom w) :
    ∃ w', mapKstackPage (.user a) (m * 4096) w = .ok w' ∧ KstackSeen e e₀ j a T' w' := by
  have hlt : m < 0x100000 := Nat.lt_of_lt_of_le hm.2 htop
  have haddr : m * 4096 < 0x100000000 := by omega
  have hpage : m * 4096 / 4096 = m := Nat.mul_div_cancel m (by omega)
  have hindex : m * 4096 / 0x400000 = m / 1024 := by omega
  obtain ⟨hne, huser⟩ := he m hm
  obtain ⟨u, htable, hk⟩ := getTableAlloc_room h.tables haddr (by omega) hroom
  obtain ⟨-, hgrows⟩ := getTableAlloc_spec (.user a) haddr htable
  have hthere : u.HasTable (.user a) (m * 4096 / 0x400000) :=
    (getTable_eq_some.1 (getTableAlloc_getTable haddr htable)).1
  have hfree : u.entry (.user a) (m * 4096 / 4096) = 0#32 := by
    rw [hgrows.same, hpage, h.user m, if_neg hnew, hzero]
  have hseen : KstackSeen e e₀ j a T u :=
    ⟨hk, fun n hn => by rw [hgrows.keeps _ n (by rw [h.kernel n hn]; exact (he n hn).1), h.kernel n hn],
      getTableAlloc_aligned haddr htable h.aligned, fun n => (hgrows.same n).trans (h.user n)⟩
  refine ⟨u.setEntry (.user a) m (e m), ?_, hseen.setEntry (hindex ▸ hthere) (by rw [if_pos hnew']) hT⟩
  simp only [mapKstackPage, getPage_kernel h.tables hlt, h.kernel m hm, ok_bind, assert_pos huser, htable,
    getPage_table, assert_pos hfree, getTableAlloc_there hthere]
  unfold setPage Vm.setEntry
  rw [hindex, hpage]
  rfl

/-- A round of `process_unmap_kstack`: the table is there, because the page is mapped. -/
theorem KstackSeen.unmap (h : KstackSeen e e₀ j a T w) (he : StackEntries j e) (hm : StackPages j m)
    (htop : j + kstackSize ≤ 0x100000) (hzero : e₀ m = 0#32) (hold : T m) (hold' : ¬ T' m)
    (hT : ∀ n, n ≠ m → (T' n ↔ T n)) :
    ∃ w', unmapKstackPage (.user a) (m * 4096) w = .ok w' ∧ KstackSeen e e₀ j a T' w' := by
  have hlt : m < 0x100000 := Nat.lt_of_lt_of_le hm.2 htop
  have hpage : m * 4096 / 4096 = m := Nat.mul_div_cancel m (by omega)
  have hindex : m * 4096 / 0x400000 = m / 1024 := by omega
  have hentry : w.entry (.user a) m = e m := by rw [h.user m, if_pos hold]
  have hthere : w.HasTable (.user a) (m * 4096 / 0x400000) := by
    by_contra hc
    rw [hindex] at hc
    exact (he m hm).1 (hentry ▸ entry_of_no_table hc)
  have hmap : mapPage w (getTable w (m * 4096) (.user a)) (m * 4096) 0 0#32 = _ :=
    mapPage_eq (by omega) hthere (h.aligned _)
  rw [getTable_eq_some.2 ⟨hthere, rfl⟩, hpage] at hmap
  refine ⟨_, ?_, h.setEntry (m := m) (x := BitVec.ofNat 32 0 ||| 0#32) (hindex ▸ hthere) ?_ hT⟩
  · simp only [unmapKstackPage, getPage_kernel h.tables hlt, h.kernel m hm, ok_bind, getTableAlloc_there hthere,
      getPage_table, hpage, hentry, assert_pos, hmap]
  · rw [if_neg hold', hzero]
    rfl

/-- `process_map_kstack`, where there is room. -/
theorem KstackSeen.mapped (h : KstackSeen e e₀ j a (fun _ => False) w) (he : StackEntries j e)
    (htop : j + kstackSize ≤ 0x100000) (hzero : ∀ m, StackPages j m → e₀ m = 0#32)
    (hroom : KstackRoom (.user a) (BitVec.ofNat 32 ((j + 7) * 4096)) w) :
    ∃ w', processMapKstack (.user a) (BitVec.ofNat 32 ((j + 7) * 4096)) w = .ok w' ∧
      KstackSeen e e₀ j a (StackPages j) w' := by
  -- after `i` rounds the top `i` pages are there
  have hinv := forRange_ok_meets (P := fun i w => KstackSeen e e₀ j a (fun m => j + 8 - i ≤ m ∧ m < j + 8) w) ?_ hroom
    (i := 0) ⟨h.tables, h.kernel, h.aligned, fun m => by rw [h.user m, if_neg not_false, if_neg (by omega)]⟩
  · obtain ⟨w', hloop, hseen⟩ := hinv
    refine ⟨w', by simp only [processMapKstack, assert_pos (kstack_ne_zero htop), ok_bind, hloop], hseen.tables,
      hseen.kernel, hseen.aligned, fun m => ?_⟩
    rw [hseen.user m]
    refine if_congr ?_ rfl rfl
    unfold StackPages kstackSize
    omega
  · intro i w _ hi hw hok
    have hi' : i < 8 := by unfold kstackSize at hi; omega
    have hm : StackPages j (j + 7 - i) := ⟨by omega, by unfold kstackSize; omega⟩
    rw [kstackAddr_below hi' htop] at hok ⊢
    exact hw.map he hm htop (hzero _ hm) (by omega) (by omega) (fun n hn => by omega) hok

/-- `process_unmap_kstack` after it. -/
theorem KstackSeen.unmapped (h : KstackSeen e e₀ j a (StackPages j) w) (he : StackEntries j e)
    (htop : j + kstackSize ≤ 0x100000) (hzero : ∀ m, StackPages j m → e₀ m = 0#32) :
    ∃ w', processUnmapKstack (.user a) (BitVec.ofNat 32 ((j + 7) * 4096)) w = .ok w' ∧
      KstackSeen e e₀ j a (fun _ => False) w' := by
  have hinv : ∃ w', forRange (fun i vm => unmapKstackPage (.user a) (kstackAddr (BitVec.ofNat 32 ((j + 7) * 4096)) i) vm)
      0 kstackSize w = .ok w' ∧ KstackSeen e e₀ j a (fun m => j ≤ m ∧ m < j + 8 - kstackSize) w' := by
    refine forRange_zero_ok (P := fun i w => KstackSeen e e₀ j a (fun m => j ≤ m ∧ m < j + 8 - i) w) ?_
      ⟨h.tables, h.kernel, h.aligned, h.user⟩
    intro i w hi hw
    have hi' : i < 8 := hi
    have hm : StackPages j (j + 7 - i) := ⟨by omega, by unfold kstackSize; omega⟩
    rw [kstackAddr_below hi htop]
    exact hw.unmap he hm htop (hzero _ hm) (by omega) (by omega) (fun n hn => by omega)
  obtain ⟨w', hloop, hseen⟩ := hinv
  refine ⟨w', by simp only [processUnmapKstack, assert_pos (kstack_ne_zero htop), ok_bind, hloop], hseen.tables,
    hseen.kernel, hseen.aligned, fun m => ?_⟩
  rw [hseen.user m, if_neg not_false, if_neg]
  unfold kstackSize
  omega

end Directory

/-! ## The round trip -/

/-- The page `i` pages below `task->kstack`. -/
def stackPage (kstack : Word) (i : Nat) : Nat := kstack.toNat / 4096 - i

/-- **A kernel stack**: below `task->kstack` are `KSTACK_SIZE - 2` pages of the kernel, each in a frame of its own that
was free in `vm`, and a guard page at both ends. -/
structure KstackLaid (vm : Vm) (kstack : Word) (vm' : Vm) : Prop where
  aligned : kstack.toNat % 4096 = 0 ∧ kstackSize ≤ kstack.toNat / 4096
  present : ∀ i, 1 ≤ i → i ≤ kstackSize - 2 → vm'.entry .kernel (stackPage kstack i) &&& pagePresent ≠ 0#32
  kernel : ∀ i, 1 ≤ i → i ≤ kstackSize - 2 → vm'.entry .kernel (stackPage kstack i) &&& pageUser = 0#32
  writable : ∀ i, 1 ≤ i → i ≤ kstackSize - 2 → vm'.entry .kernel (stackPage kstack i) &&& pageReadwrite ≠ 0#32
  free : ∀ i, 1 ≤ i → i ≤ kstackSize - 2 → frameOf (vm'.entry .kernel (stackPage kstack i)) < vm.pmm.size ∧
    vm.pmm.used (frameOf (vm'.entry .kernel (stackPage kstack i))) = false
  distinct : ∀ i k, 1 ≤ i → i < k → k ≤ kstackSize - 2 →
    frameOf (vm'.entry .kernel (stackPage kstack i)) ≠ frameOf (vm'.entry .kernel (stackPage kstack k))
  guards : ∀ i, i = 0 ∨ i = kstackSize - 1 → vm'.entry .kernel (stackPage kstack i) = pageValueGuard

/-- The stack is in the kernel directory of `u` as it is in that of `vm`, and its addresses are not mapped in `pdir`. -/
structure KstackAside (vm : Vm) (kstack : Word) (pdir : DirPtr) (u : Vm) : Prop where
  tables : KernelTables u
  kernel : ∀ i < kstackSize, u.entry .kernel (stackPage kstack i) = vm.entry .kernel (stackPage kstack i)
  aligned : ∀ k, u.tableVirt ⟨pdir, k⟩ % 1024 = 0
  unmapped : ∀ i < kstackSize, u.entry pdir (stackPage kstack i) = 0#32

/-- `process_map_kstack` and then `process_unmap_kstack` fail no assertion, and restore the entries of `pdir`. -/
def MapsAndUnmaps (pdir : DirPtr) (kstack : Word) (u : Vm) : Prop :=
  ∃ u₁ u₂, processMapKstack pdir kstack u = .ok u₁ ∧ processUnmapKstack pdir kstack u₁ = .ok u₂ ∧
    ∀ m, u₂.entry pdir m = u.entry pdir m

section RoundTrip

variable {vm u : Vm} {j b : Nat} {blocks : List Nat}

theorem stackPage_eq {i : Nat} (htop : j + kstackSize ≤ 0x100000) :
    stackPage (BitVec.ofNat 32 ((j + 7) * 4096)) i = j + 7 - i := by
  unfold stackPage
  unfold kstackSize at htop
  rw [BitVec.toNat_ofNat]
  omega

theorem stackEntry_kernel (hb : b < 0x100000) : stackEntry b &&& pageUser = 0#32 := by
  by_contra hc
  have hbit := (and_twoPow_ne_zero (j := 2) (by omega)).1 hc
  rw [BitVec.getLsbD, stackEntry_toNat hb, Nat.testBit_eq_decide_div_mod_eq, decide_eq_true_iff] at hbit
  omega

theorem stackEntry_writable (b : Nat) : stackEntry b &&& pageReadwrite ≠ 0#32 := by
  intro h
  have hbit := congrArg (fun w => w.getLsbD 1) h
  simp [stackEntry, pagePresent, pageReadwrite] at hbit

theorem frameOf_stackEntry (hb : b < 0x100000) : frameOf (stackEntry b) = b := by
  unfold frameOf
  rw [stackEntry_toNat hb]
  omega

/-- The pages between the guards. -/
theorem Stacked.page (h : Stacked vm j blocks u) (htop : j + kstackSize ≤ 0x100000)
    (hlen : blocks.length = kstackSize - 2) {i : Nat} (h1 : 1 ≤ i) (h2 : i ≤ kstackSize - 2) :
    ∃ b, blocks[kstackSize - 2 - i]? = some b ∧ b < 0x100000 ∧ b < vm.pmm.size ∧ vm.pmm.used b = false ∧
      u.entry .kernel (stackPage (BitVec.ofNat 32 ((j + 7) * 4096)) i) = stackEntry b := by
  have hlt : kstackSize - 2 - i < blocks.length := by omega
  have hb := List.getElem?_eq_getElem hlt
  obtain ⟨-, hsize, hfree⟩ := h.free _ (List.getElem_mem hlt)
  have hle := vm.pmm.size_le
  refine ⟨_, hb, by omega, hsize, hfree, ?_⟩
  rw [stackPage_eq htop, ← h.pages _ _ hb]
  congr 1
  unfold kstackSize at h2 ⊢
  omega

/-- What `task_kstack_alloc` leaves. -/
theorem Stacked.laid (h : Stacked vm j blocks u) (h0 : 1 ≤ j) (htop : j + kstackSize ≤ 0x100000)
    (hlen : blocks.length = kstackSize - 2) (hguard : u.entry .kernel (j + 7) = pageValueGuard) :
    KstackLaid vm (BitVec.ofNat 32 ((j + 7) * 4096)) u := by
  constructor
  case aligned =>
    unfold kstackSize at htop ⊢
    rw [BitVec.toNat_ofNat]
    omega
  case present =>
    intro i h1 h2
    obtain ⟨b, -, -, -, -, hentry⟩ := h.page htop hlen h1 h2
    rw [hentry]
    exact stackEntry_present b
  case kernel =>
    intro i h1 h2
    obtain ⟨b, -, hb, -, -, hentry⟩ := h.page htop hlen h1 h2
    rw [hentry]
    exact stackEntry_kernel hb
  case writable =>
    intro i h1 h2
    obtain ⟨b, -, -, -, -, hentry⟩ := h.page htop hlen h1 h2
    rw [hentry]
    exact stackEntry_writable b
  case free =>
    intro i h1 h2
    obtain ⟨b, -, hb, hsize, hfree, hentry⟩ := h.page htop hlen h1 h2
    rw [hentry, frameOf_stackEntry hb]
    exact ⟨hsize, hfree⟩
  case distinct =>
    intro i k h1 h2 h3
    obtain ⟨b, hb, hlt, -, -, hentry⟩ := h.page htop hlen h1 (by omega)
    obtain ⟨c, hc, hlt', -, -, hentry'⟩ := h.page htop hlen (show 1 ≤ k by omega) h3
    rw [hentry, hentry', frameOf_stackEntry hlt, frameOf_stackEntry hlt']
    rintro rfl
    -- no block is taken twice
    have hsame := (List.nodup_iff_getElem?_ne_getElem?.1 h.nodup) (kstackSize - 2 - k) (kstackSize - 2 - i) (by omega)
      (by omega)
    exact hsame (hc.trans hb.symm)
  case guards =>
    rintro i (rfl | rfl)
    · rw [stackPage_eq htop]
      exact hguard
    · rw [stackPage_eq htop, show j + 7 - (kstackSize - 1) = j by unfold kstackSize; omega]
      exact h.guard

/-- The entries of the stack. -/
theorem KstackLaid.entries {vm' : Vm} (h : KstackLaid vm (BitVec.ofNat 32 ((j + 7) * 4096)) vm')
    (htop : j + kstackSize ≤ 0x100000) : StackEntries j (vm'.entry .kernel) := by
  rintro m ⟨h1, h2⟩
  have hm : m = stackPage (BitVec.ofNat 32 ((j + 7) * 4096)) (j + 7 - m) := by
    rw [stackPage_eq htop]
    unfold kstackSize at h2
    omega
  by_cases hends : j + 7 - m = 0 ∨ j + 7 - m = kstackSize - 1
  · rw [hm, h.guards _ hends]
    decide
  · have hin : 1 ≤ j + 7 - m ∧ j + 7 - m ≤ kstackSize - 2 := by
      unfold kstackSize at h2 hends ⊢
      omega
    rw [hm]
    refine ⟨fun hc => h.present _ hin.1 hin.2 ?_, h.kernel _ hin.1 hin.2⟩
    rw [hc]
    rfl

/-- A directory that has all its tables needs no room. -/
theorem kstackRoom_of_tables {a : Nat} {kstack : Word} (ht : ∀ k < 1024, u.HasTable (.user a) k) :
    KstackRoom (.user a) kstack u := by
  suffices hrounds : ∀ n i, ∀ w : Vm, (∀ k < 1024, w.HasTable (.user a) k) →
      ForMeets (fun i vm => mapKstackPage (.user a) (kstackAddr kstack i) vm)
        (fun i w => w.HasTable (.user a) (kstackAddr kstack i / 0x400000) ∨ TableRoom w) i n w from
    hrounds kstackSize 0 u ht
  intro n
  induction n with
  | zero => exact fun _ _ _ => trivial
  | succ n ih =>
    intro i w hw
    have hlt : kstackAddr kstack i < 0x100000000 := kstackAddr_lt
    have hthere := hw (kstackAddr kstack i / 0x400000) (by omega)
    refine ⟨Or.inl hthere, fun t hround => ih (i + 1) t fun k hk => ?_⟩
    simp only [mapKstackPage, getTableAlloc_there hthere, ok_bind, bind_eq_ok, pure_eq_ok] at hround
    obtain ⟨page, -, -, -, x, -, -, -, rfl⟩ := hround
    unfold setPage
    rw [show (⟨.user a, kstackAddr kstack i / 0x400000⟩ : TablePtr) = ⟨.user a, kstackAddr kstack i / 4096 / 1024⟩ by
      congr 1; omega]
    exact hasTable_setEntry.2 (hw k hk)

/-- `task_kstack_alloc` leaves the directories of the processes. -/
theorem kstackAside_alloc {vm' : Vm} {kstack : Word} {a : Nat} (hk : KernelTables vm)
    (h : taskKstackAlloc vm = .ok (kstack, vm')) (htop : kstackSize * 4096 ≤ kstack.toNat)
    (haligned : ∀ k, vm.tableVirt ⟨.user a, k⟩ % 1024 = 0)
    (hunmapped : ∀ i < kstackSize, vm.entry (.user a) (stackPage kstack i) = 0#32) :
    KstackAside vm' kstack (.user a) vm' := by
  obtain ⟨j, blocks, -, -, -, -, -, hstack, -⟩ := taskKstackAlloc_stacked hk h htop
  refine ⟨hstack.but.kernelTables hk, fun _ _ => rfl, fun k => ?_, fun i hi => ?_⟩
  · unfold Vm.tableVirt
    rw [hstack.but.users a]
    exact haligned k
  · unfold Vm.entry Vm.pageAt
    rw [hstack.but.users a]
    exact hunmapped i hi

end RoundTrip

/-- **Kernel stacks come and go.** After `task_kstack_alloc` away from the top of the address space the stack is laid out
below `task->kstack`; `task_kstack_free` then restores the directories and the block map; and in every directory in which
its addresses are not mapped the stack can be entered and taken out again, where there is room for the page tables. -/
theorem kstack_round_trip {vm vm' : Vm} {kstack : Word} (hk : KernelTables vm)
    (h : taskKstackAlloc vm = .ok (kstack, vm')) (htop : kstackSize * 4096 ≤ kstack.toNat) :
    KstackLaid vm kstack vm' ∧
    (∃ vm'', taskKstackFree kstack vm' = .ok (0#32, vm'') ∧ vm''.dirs = vm.dirs ∧ vm''.pmm = vm.pmm) ∧
    ∀ pdir u, KstackAside vm' kstack pdir u → KstackRoom pdir kstack u → MapsAndUnmaps pdir kstack u := by
  obtain ⟨j, blocks, h1, htop', rfl, hzero, hlen, hstack, hguard⟩ := taskKstackAlloc_stacked hk h htop
  have hlaid := hstack.laid h1 htop' hlen hguard
  refine ⟨hlaid, hstack.restored hk htop' hlen hguard hzero, fun pdir u haside hroom => ?_⟩
  have hpage : ∀ m, StackPages j m → j + 7 - m < kstackSize ∧
      stackPage (BitVec.ofNat 32 ((j + 7) * 4096)) (j + 7 - m) = m := by
    rintro m ⟨hm, hm'⟩
    rw [stackPage_eq htop']
    unfold kstackSize at hm' ⊢
    omega
  have hkernel : ∀ m, StackPages j m → u.entry .kernel m = vm'.entry .kernel m := by
    intro m hm
    obtain ⟨hi, heq⟩ := hpage m hm
    have := haside.kernel _ hi
    rwa [heq] at this
  have hfree : ∀ m, StackPages j m → u.entry pdir m = 0#32 := by
    intro m hm
    obtain ⟨hi, heq⟩ := hpage m hm
    have := haside.unmapped _ hi
    rwa [heq] at this
  have hentries := hlaid.entries htop'
  cases pdir with
  | kernel =>
    -- the kernel directory has the stack
    have hj : StackPages j j := ⟨Nat.le_refl j, by unfold kstackSize; omega⟩
    exact absurd ((hkernel j hj).symm.trans (hfree j hj)) (hentries j hj).1
  | user a =>
    have hseen : KstackSeen (vm'.entry .kernel) (u.entry (.user a)) j a (fun _ => False) u :=
      ⟨haside.tables, hkernel, haside.aligned, fun m => by rw [if_neg not_false]⟩
    obtain ⟨u₁, hmap, hseen₁⟩ := hseen.mapped hentries htop' hfree hroom
    obtain ⟨u₂, hunmap, hseen₂⟩ := hseen₁.unmapped hentries htop' hfree
    refine ⟨u₁, u₂, hmap, hunmap, fun m => ?_⟩
    rw [hseen₂.user m, if_neg not_false]

/-! ### Six blocks -/

theorem sixVm_size : (32 : Nat) ≤ 1048575 := by decide

/-- A machine with six free blocks and an empty kernel directory. The directory of its process has all tables or none. -/
def sixVm (tables : Bool) : Vm where
  pmm := ⟨fun _ => ~~~ 0x7E#32, 32, sixVm_size⟩
  dirs d := {
    physicalTablesVirt := 0
    physicalTables := fun _ => 0#32
    tables := fun _ => if d = .kernel ∨ tables = true then some ⟨0, fun _ => 0#32⟩ else none
    physicalAddress := 0
    refcount := 1 }
  nextDir := 1
  frames _ _ := 0#8

section Six

variable {tables : Bool}

theorem sixVm_tables : KernelTables (sixVm tables) := fun _ _ => ⟨⟨⟨0, fun _ => 0#32⟩, rfl⟩, rfl⟩

theorem sixVm_entry {m : Nat} : (sixVm tables).entry (.user 0) m = 0#32 := by cases tables <;> rfl

theorem sixVm_aligned (k : Nat) : (sixVm tables).tableVirt ⟨.user 0, k⟩ % 1024 = 0 := by cases tables <;> rfl

/-- The stack takes the six blocks. -/
theorem sixVm_alloc (tables : Bool) : ∃ vm', taskKstackAlloc (sixVm tables) = .ok (0x8000#32, vm') := by
  have hrun : (taskKstackAlloc (sixVm tables)).map Prod.fst = .ok 0x8000#32 := by
    cases tables <;> decide +kernel
  cases hr : taskKstackAlloc (sixVm tables) with
  | error e =>
    rw [hr] at hrun
    cases hrun
  | ok r =>
    rw [hr] at hrun
    obtain ⟨kstack, vm'⟩ := r
    cases hrun
    exact ⟨vm', rfl⟩

end Six

/-- With the tables there the stack comes and goes. -/
theorem kstack_round_trip_six : ∃ vm', taskKstackAlloc (sixVm true) = .ok (0x8000#32, vm') ∧
    KstackLaid (sixVm true) 0x8000#32 vm' ∧
    (∃ vm'', taskKstackFree 0x8000#32 vm' = .ok (0#32, vm'') ∧ vm''.dirs = (sixVm true).dirs ∧
      vm''.pmm = (sixVm true).pmm) ∧
    MapsAndUnmaps (.user 0) 0x8000#32 vm' := by
  obtain ⟨vm', h⟩ := sixVm_alloc true
  have htop : kstackSize * 4096 ≤ (0x8000#32 : Word).toNat := by decide
  obtain ⟨hlaid, hfree, hmaps⟩ := kstack_round_trip sixVm_tables h htop
  have haside := kstackAside_alloc sixVm_tables h htop sixVm_aligned fun _ _ => sixVm_entry
  refine ⟨vm', h, hlaid, hfree, hmaps _ _ haside (kstackRoom_of_tables fun k _ => ?_)⟩
  obtain ⟨j, blocks, -, -, -, -, -, hstack, -⟩ := taskKstackAlloc_stacked sixVm_tables h htop
  unfold Vm.HasTable
  rw [hstack.but.users 0]
  exact ⟨⟨0, fun _ => 0#32⟩, rfl⟩

/-- Without them no block is left for one. -/
theorem kstack_out_of_blocks : ∃ vm', taskKstackAlloc (sixVm false) = .ok (0x8000#32, vm') ∧
    KernelTables (sixVm false) ∧ kstackSize * 4096 ≤ (0x8000#32 : Word).toNat ∧
    KstackAside vm' 0x8000#32 (.user 0) vm' ∧ processMapKstack (.user 0) 0x8000#32 vm' = .error .assertion ∧
    ¬ MapsAndUnmaps (.user 0) 0x8000#32 vm' := by
  obtain ⟨vm', h⟩ := sixVm_alloc false
  have htop : kstackSize * 4096 ≤ (0x8000#32 : Word).toNat := by decide
  have hrun : (taskKstackAlloc (sixVm false) >>= fun r => (processMapKstack (.user 0) r.1 r.2).map fun _ => ()) =
      .error .assertion := by decide +kernel
  have hfails : processMapKstack (.user 0) 0x8000#32 vm' = .error .assertion := by
    rw [h, ok_bind] at hrun
    cases hmap : processMapKstack (.user 0) 0x8000#32 vm' with
    | error e =>
      rw [hmap] at hrun
      exact congrArg _ (Except.error.inj hrun)
    | ok u =>
      rw [hmap] at hrun
      cases hrun
  refine ⟨vm', h, sixVm_tables, htop, kstackAside_alloc sixVm_tables h htop sixVm_aligned fun _ _ => sixVm_entry,
    hfails, ?_⟩
  rintro ⟨u₁, u₂, hmap, -⟩
  rw [hfails] at hmap
  cases hmap

end Myunix.Process
