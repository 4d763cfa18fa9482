import Myunix.Vmm.Paging

/-!
# The search for address space

`find_vspace` looks for `n` free pages in a row, starting at page 1, and counts pages modulo `0x100000`: an address
past the end of the address space wraps to page 0. `vspaceFrom_spec` says that it takes the first such run
(`FreeRun`), and `reserveVspace_ok` what its reservation loop then stores. A run that ends below the last page is
reserved page by page; for a run that reaches the last page, the end of the loop wraps to a small address and the
loop stores less, or nothing.
-/

namespace Myunix.Vmm

open Lib Pmm

/-- The `n` pages from page `j` on, modulo the number of pages, have entry 0. -/
def FreeRun (vm : Vm) (dir : DirPtr) (j n : Nat) : Prop := ∀ k < n, vm.entry dir ((j + k) % 0x100000) = 0#32

/-- What a step between two looks at `dir` may do: entries of `dir` stay. -/
structure Quiet (dir : DirPtr) (G : Vm → Vm → Prop) : Prop where
  refl : ∀ vm, G vm vm
  trans : ∀ {a b c}, G a b → G b c → G a c
  same : ∀ {vm vm'}, G vm vm' → ∀ m, vm'.entry dir m = vm.entry dir m

/-- A table allocator of `dir` returns the table of the address and does no more than `G` allows. -/
def TableSpec (dir : DirPtr) (G : Vm → Vm → Prop) (tableAlloc : Vm → Nat → Kernel (TablePtr × Vm)) : Prop :=
  ∀ {vm v t vm'}, v < 0x100000000 → tableAlloc vm v = .ok (t, vm') → t = ⟨dir, v / 0x400000⟩ ∧ G vm vm'

section Search

variable {tableAlloc : Vm → Nat → Kernel (TablePtr × Vm)} {dir : DirPtr} {G : Vm → Vm → Prop}

theorem freeRun_congr {vm vm' : Vm} (h : ∀ m, vm'.entry dir m = vm.entry dir m) {j n : Nat} :
    FreeRun vm' dir j n ↔ FreeRun vm dir j n := by
  unfold FreeRun
  constructor
  · intro hf k hk; rw [← h]; exact hf k hk
  · intro hf k hk; rw [h]; exact hf k hk

/-- A used page in the window of every start from `i` to `i + l` rules these starts out. -/
theorem not_freeRun_of_used {vm : Vm} {i l n j : Nat} (hl : l < n) (hu : vm.entry dir ((i + l) % 0x100000) ≠ 0#32)
    (hij : i ≤ j) (hj : j ≤ i + l) : ¬ FreeRun vm dir j n := by
  intro hf
  apply hu
  have := hf (i + l - j) (by omega)
  rwa [show j + (i + l - j) = i + l by omega] at this

/-- The `while` loop of `find_vspace` counts free pages, and stops early only at a used one. -/
theorem vspaceLength_spec (hG : Quiet dir G) (hT : TableSpec dir G tableAlloc) {i rest length r : Nat} {vm vm' : Vm}
    (h : vspaceLength tableAlloc (i * 4096) rest length vm = .ok (r, vm')) :
    G vm vm' ∧ length ≤ r ∧ r ≤ length + rest ∧
      (∀ k, length ≤ k → k < r → vm.entry dir ((i + k) % 0x100000) = 0#32) ∧
      (r < length + rest → vm.entry dir ((i + r) % 0x100000) ≠ 0#32) := by
  induction rest generalizing length vm with
  | zero =>
    simp only [vspaceLength, Except.ok.injEq, Prod.mk.injEq] at h
    obtain ⟨rfl, rfl⟩ := h
    exact ⟨hG.refl vm, Nat.le_refl _, Nat.le_refl _, fun k h1 h2 => by omega, fun h => by omega⟩
  | succ rest ih =>
    simp only [vspaceLength, bind_eq_ok, Prod.exists] at h
    obtain ⟨t, vm₁, ha, w, hw, h⟩ := h
    obtain ⟨rfl, hg⟩ := hT (Nat.mod_lt _ (by omega)) ha
    have hpage : (i * 4096 + length * 4096) % 0x100000000 / 4096 = (i + length) % 0x100000 := by omega
    rw [getPage_table, hpage, hG.same hg, Except.ok.injEq] at hw
    subst hw
    split at h
    · rename_i hfree
      obtain ⟨hg', h1, h2, h3, h4⟩ := ih h
      simp only [hG.same hg] at h3 h4
      refine ⟨hG.trans hg hg', by omega, by omega, fun k hk hkr => ?_, fun hr => h4 (by omega)⟩
      rcases Nat.eq_or_lt_of_le hk with rfl | hk
      · exact hfree
      · exact h3 k hk hkr
    · rename_i hused
      simp only [pure_eq_ok, Prod.mk.injEq] at h
      obtain ⟨rfl, rfl⟩ := h
      exact ⟨hg, Nat.le_refl _, by omega, fun k h1 h2 => by omega, fun _ => hused⟩

/-- A search from page `i` has returned `v`: the address of the first run of `n` free pages, which it has reserved, or
`noVspace` when there is none. -/
def FirstFit (G : Vm → Vm → Prop) (dir : DirPtr) (n i : Nat) (vm : Vm) (v : Nat) (vm' : Vm) : Prop :=
  (v = noVspace ∧ G vm vm' ∧ ∀ j, i ≤ j → j < 0x100000 → ¬ FreeRun vm dir j n) ∨
  ∃ j vm₁, i ≤ j ∧ j < 0x100000 ∧ v = j * 4096 ∧ FreeRun vm dir j n ∧
    (∀ j', i ≤ j' → j' < j → ¬ FreeRun vm dir j' n) ∧ G vm vm₁ ∧
    reserveVspace dir (j * 4096) ((j * 4096 + n * 4096) % 0x100000000) vm₁ = .ok vm'

/-- The search goes on behind a used page: the starts up to that page are ruled out. -/
theorem FirstFit.skip (hG : Quiet dir G) {n i l v : Nat} {vm vm₂ vm' : Vm} (hg : G vm vm₂) (hl : l < n)
    (hu : vm.entry dir ((i + l) % 0x100000) ≠ 0#32) (h : FirstFit G dir n (i + l + 1) vm₂ v vm') :
    FirstFit G dir n i vm v vm' := by
  have hout : ∀ j, i ≤ j → j ≤ i + l → ¬ FreeRun vm dir j n := fun j h1 h2 => not_freeRun_of_used hl hu h1 h2
  rcases h with ⟨hv, hg', hno⟩ | ⟨j, vm₃, h1, h2, h3, h4, h5, h6, h7⟩
  · refine Or.inl ⟨hv, hG.trans hg hg', fun j hij hj => ?_⟩
    by_cases hjl : j ≤ i + l
    · exact hout j hij hjl
    · rw [← freeRun_congr (hG.same hg)]; exact hno j (by omega) hj
  · refine Or.inr ⟨j, vm₃, by omega, h2, h3, (freeRun_congr (hG.same hg)).1 h4, fun j' hij hj => ?_,
      hG.trans hg h6, h7⟩
    by_cases hjl : j' ≤ i + l
    · exact hout j' hij hjl
    · rw [← freeRun_congr (hG.same hg)]; exact h5 j' (by omega) hj

/-- **First fit.** The search from page `i` takes the first run of `n` free pages. -/
theorem vspaceFrom_spec (hG : Quiet dir G) (hT : TableSpec dir G tableAlloc) {n v rounds i : Nat} (hn : n ≠ 0)
    {vm vm' : Vm} (hr : 0x100000 ≤ i + rounds) (h : vspaceFrom tableAlloc dir n rounds i vm = .ok (v, vm')) :
    FirstFit G dir n i vm v vm' := by
  induction rounds generalizing i vm with
  | zero =>
    simp only [vspaceFrom, Except.ok.injEq, Prod.mk.injEq] at h
    obtain ⟨rfl, rfl⟩ := h
    exact Or.inl ⟨rfl, hG.refl vm, fun j h1 h2 => by omega⟩
  | succ rounds ih =>
    unfold vspaceFrom at h
    split at h
    · rename_i hi
      simp only [bind_eq_ok, Prod.exists] at h
      obtain ⟨t, vm₁, ha, w, hw, h⟩ := h
      obtain ⟨rfl, hg⟩ := hT (show i * 4096 < 0x100000000 by omega) ha
      have hpage : i * 4096 / 4096 = i := by omega
      rw [getPage_table, hpage, hG.same hg, Except.ok.injEq] at hw
      subst hw
      split at h
      · rename_i hused
        -- the page itself is used
        apply FirstFit.skip hG hg (Nat.pos_of_ne_zero hn) _ (ih (by omega) h)
        rwa [Nat.add_zero, Nat.mod_eq_of_lt hi]
      · rename_i hfree
        simp only [ne_eq, not_not] at hfree
        simp only [bind_eq_ok, Prod.exists] at h
        obtain ⟨length, vm₂, hlen, h⟩ := h
        obtain ⟨hg', h1, h2, h3, h4⟩ := vspaceLength_spec hG hT hlen
        simp only [hG.same hg] at h3 h4
        split at h
        · rename_i heq
          subst heq
          simp only [bind_eq_ok, pure_eq_ok, Prod.mk.injEq] at h
          obtain ⟨vm₃, hres, rfl, rfl⟩ := h
          refine Or.inr ⟨i, vm₂, Nat.le_refl i, hi, rfl, fun k hk => ?_, fun j' h1 h2 => by omega,
            hG.trans hg hg', hres⟩
          rcases Nat.eq_zero_or_pos k with rfl | hk0
          · rwa [Nat.add_zero, Nat.mod_eq_of_lt hi]
          · exact h3 k hk0 hk
        · rename_i hne
          -- the run that starts here is too short: the page behind it is used
          exact FirstFit.skip hG (hG.trans hg hg') (by omega) (h4 (by omega)) (ih (by omega) h)
    · simp only [Except.ok.injEq, Prod.mk.injEq] at h
      obtain ⟨rfl, rfl⟩ := h
      exact Or.inl ⟨rfl, hG.refl vm, fun j h1 h2 => by omega⟩

end Search

/-- The reservation loop stores `PAGE_VALUE_RESERVED` to the pages from `start` to `stop` and nowhere else. -/
theorem reserveVspace_ok {dir : DirPtr} {start stop : Nat} {vm vm' : Vm} (hs : start % 4096 = 0)
    (h : reserveVspace dir start stop vm = .ok vm') (d : DirPtr) (m : Nat) :
    vm'.entry d m = if d = dir ∧ start / 4096 ≤ m ∧ m < start / 4096 + (stop - start) / 4096 then pageValueReserved
      else vm.entry d m := by
  have hinv := forRange_inv (P := fun k u => u.entry d m =
    if d = dir ∧ start / 4096 ≤ m ∧ m < start / 4096 + k then pageValueReserved else vm.entry d m) ?_ h ?_
  · rwa [Nat.zero_add] at hinv
  · intro k u u' _ _ hu hstep
    obtain ⟨-, ht, rfl⟩ := mapPage_ok hstep
    have hpage : (start + k * 4096) / 4096 = start / 4096 + k := by omega
    rw [hpage] at ht ⊢
    rw [entry_setEntry ht, hu]
    by_cases hd : d = dir
    · by_cases hm : m = start / 4096 + k
      · rw [if_pos ⟨hd, hm⟩, if_pos ⟨hd, by omega, by omega⟩]; rfl
      · rw [if_neg (fun hc => hm hc.2)]
        exact if_congr (by constructor <;> (rintro ⟨h1, h2, h3⟩; exact ⟨h1, h2, by omega⟩)) rfl rfl
    · rw [if_neg (fun hc => hd hc.1), if_neg (fun hc => hd hc.1), if_neg (fun hc => hd hc.1)]
  · rw [if_neg (by omega)]

/-! ## The kernel directory -/

theorem quiet_eq (dir : DirPtr) : Quiet dir Eq :=
  ⟨fun _ => rfl, fun h h' => h.trans h', fun h m => by rw [h]⟩

/-- On the kernel directory no table is added. -/
theorem kernelTable_spec : TableSpec .kernel Eq kernelTable := by
  intro vm v t vm' _ h
  unfold kernelTable at h
  cases ht : getTable vm v .kernel with
  | none => rw [ht] at h; simp at h
  | some table =>
    rw [ht] at h
    simp only [pure_eq_ok, Prod.mk.injEq] at h
    exact ⟨h.1 ▸ (getTable_eq_some.1 ht).2, h.2⟩

/-- The tables of the kernel directory are there already. -/
theorem getTableAlloc_kernel {vm vm' : Vm} {v : Nat} {t : TablePtr} (h : getTableAlloc .kernel vm v = .ok (t, vm')) :
    vm' = vm ∧ getTable vm v .kernel = some t := by
  unfold getTableAlloc at h
  cases htab : getTable vm v .kernel with
  | none => rw [htab] at h; simp at h
  | some table =>
    rw [htab] at h
    simp only [pure_eq_ok, Prod.mk.injEq] at h
    exact ⟨h.2.symm, by rw [h.1]⟩

/-- `find_vspace(kernel_directory, n)` is the search in which a missing table is a failed assertion. -/
theorem findVspace_kernel {vm : Vm} {n : Nat} : findVspace .kernel n vm = findVspaceKernel vm n := by
  have htable : getTableAlloc .kernel = kernelTable := by
    funext vm v
    unfold getTableAlloc kernelTable
    cases getTable vm v .kernel <;> rfl
  unfold findVspace findVspaceKernel
  rw [htable]

/-- `find_vspace(kernel_directory, 1)` takes the first free page and reserves it, unless it is the last page. -/
theorem findVspaceKernel_one {vm vm' : Vm} {v : Nat} (h : findVspaceKernel vm 1 = .ok (v, vm')) :
    (v = noVspace ∧ vm' = vm) ∨ ∃ j, 1 ≤ j ∧ j < 0x100000 ∧ v = j * 4096 ∧ vm.entry .kernel j = 0#32 ∧
      (j = 0xFFFFF ∧ vm' = vm ∨
        j < 0xFFFFF ∧ vm.HasTable .kernel (j / 1024) ∧ vm' = vm.setEntry .kernel j pageValueReserved) := by
  simp only [findVspaceKernel, findVspaceWith, bind_eq_ok, assert_eq_ok] at h
  obtain ⟨-, hn, h⟩ := h
  rcases vspaceFrom_spec (quiet_eq .kernel) kernelTable_spec hn (by omega) h with
    ⟨hv, hvm, -⟩ | ⟨j, vm₁, h1, h2, h3, h4, -, rfl, h7⟩
  · exact Or.inl ⟨hv, hvm.symm⟩
  · have hfree := h4 0 (by omega)
    rw [Nat.add_zero, Nat.mod_eq_of_lt h2] at hfree
    refine Or.inr ⟨j, h1, h2, h3, hfree, ?_⟩
    unfold reserveVspace at h7
    by_cases hlast : j = 0xFFFFF
    · -- the end of the loop is address 0: no page is stored
      have hzero : ((j * 4096 + 1 * 4096) % 0x100000000 - j * 4096) / 4096 = 0 := by omega
      rw [hzero] at h7
      simp only [forRange, Except.ok.injEq] at h7
      exact Or.inl ⟨hlast, h7.symm⟩
    · have hone : ((j * 4096 + 1 * 4096) % 0x100000000 - j * 4096) / 4096 = 1 := by omega
      rw [hone] at h7
      simp only [forRange, bind_eq_ok, Except.ok.injEq] at h7
      obtain ⟨vm₂, hmap, rfl⟩ := h7
      obtain ⟨-, ht, hvm⟩ := mapPage_ok hmap
      have hpage : (j * 4096 + 0 * 4096) / 4096 = j := by omega
      rw [hpage] at ht hvm
      exact Or.inr ⟨by omega, ht, hvm⟩

/-- All tables of the kernel directory are there and aligned, as `vmm_init` leaves them. -/
def KernelTables (vm : Vm) : Prop := ∀ k < 1024, vm.HasTable .kernel k ∧ vm.tableVirt ⟨.kernel, k⟩ % 1024 = 0

section Total

variable {vm : Vm} {n j : Nat}

theorem KernelTables.setEntry (hk : KernelTables vm) {d : DirPtr} {w : Word} : KernelTables (vm.setEntry d n w) := by
  intro k hlt
  rw [hasTable_setEntry, tableVirt_setEntry]
  exact hk k hlt

theorem kernelTable_eq (hk : KernelTables vm) {v : Nat} (hv : v < 0x100000000) :
    kernelTable vm v = .ok (⟨.kernel, v / 0x400000⟩, vm) := by
  have hsome : getTable vm v .kernel = some ⟨.kernel, v / 0x400000⟩ :=
    getTable_eq_some.2 ⟨(hk _ (by omega)).1, rfl⟩
  simp only [kernelTable, hsome]
  rfl

theorem vspaceLength_total (hk : KernelTables vm) (v rest length : Nat) :
    ∃ r, vspaceLength kernelTable v rest length vm = .ok (r, vm) := by
  induction rest generalizing length with
  | zero => exact ⟨length, rfl⟩
  | succ rest ih =>
    simp only [vspaceLength, kernelTable_eq hk (Nat.mod_lt _ (by omega : 0 < 0x100000000)), ok_bind, getPage_table]
    split
    · exact ih (length + 1)
    · exact ⟨length, rfl⟩

theorem reserveVspace_total (hk : KernelTables vm) {start stop : Nat} (hs : start % 4096 = 0)
    (hstop : stop < 0x100000000) : ∃ vm', reserveVspace .kernel start stop vm = .ok vm' ∧ KernelTables vm' := by
  apply forRange_ok (P := fun _ u => KernelTables u) _ hk
  intro k u _ hlt hu
  have hindex : (start + k * 4096) / 0x400000 < 1024 := by omega
  exact ⟨_, mapPage_eq (by omega) (hu _ hindex).1 (hu _ hindex).2, hu.setEntry⟩

/-- On the kernel directory the search returns. -/
theorem vspaceFrom_total (hk : KernelTables vm) (n rounds i : Nat) :
    ∃ v vm', vspaceFrom kernelTable .kernel n rounds i vm = .ok (v, vm') ∧ KernelTables vm' := by
  induction rounds generalizing i with
  | zero => exact ⟨noVspace, vm, rfl, hk⟩
  | succ rounds ih =>
    unfold vspaceFrom
    split
    · rename_i hi
      simp only [kernelTable_eq hk (show i * 4096 < 0x100000000 by omega), ok_bind, getPage_table]
      split
      · exact ih (i + 1)
      · obtain ⟨r, hr⟩ := vspaceLength_total hk (i * 4096) (n - 1) 1
        simp only [hr, ok_bind]
        split
        · have hmod := Nat.mod_lt (i * 4096 + r * 4096) (by omega : 0 < 0x100000000)
          obtain ⟨vm', hres, hk'⟩ := reserveVspace_total hk (by omega : i * 4096 % 4096 = 0) hmod
          exact ⟨i * 4096, vm', by rw [hres]; rfl, hk'⟩
        · exact ih (i + r + 1)
    · exact ⟨noVspace, vm, rfl, hk⟩

/-- `find_vspace(kernel_directory, n)` returns. -/
theorem findVspaceKernel_total (hk : KernelTables vm) (hn : n ≠ 0) :
    ∃ v vm', findVspaceKernel vm n = .ok (v, vm') ∧ KernelTables vm' := by
  obtain ⟨v, vm', h, hk'⟩ := vspaceFrom_total hk n 0x100000 1
  exact ⟨v, vm', by simp only [findVspaceKernel, findVspaceWith, assert_pos hn, ok_bind, h], hk'⟩

/-- The first free page `j` of the kernel directory is returned, and reserved unless it is the last one. -/
theorem findVspaceKernel_first (hk : KernelTables vm) (h1 : 1 ≤ j) (h2 : j < 0x100000)
    (hfree : vm.entry .kernel j = 0#32) (hused : ∀ i, 1 ≤ i → i < j → vm.entry .kernel i ≠ 0#32) :
    findVspaceKernel vm 1 =
      .ok (j * 4096, if j = 0xFFFFF then vm else vm.setEntry .kernel j pageValueReserved) := by
  have hrun : ∀ i, i < 0x100000 → (FreeRun vm .kernel i 1 ↔ vm.entry .kernel i = 0#32) := by
    intro i hi
    have hmod : (i + 0) % 0x100000 = i := by omega
    constructor
    · intro h; rw [← hmod]; exact h 0 (by omega)
    · intro h k hk1
      rw [show k = 0 by omega, hmod]
      exact h
  obtain ⟨v, vm', h, -⟩ := findVspaceKernel_total hk (by omega : 1 ≠ 0)
  have hv : v = j * 4096 := by
    simp only [findVspaceKernel, findVspaceWith, bind_eq_ok, assert_eq_ok] at h
    obtain ⟨-, hn, h⟩ := h
    rcases vspaceFrom_spec (quiet_eq .kernel) kernelTable_spec hn (by omega) h with
      ⟨-, -, hno⟩ | ⟨i, vm₁, hi1, hi2, hi3, hi4, hi5, -, -⟩
    · exact absurd ((hrun j h2).2 hfree) (hno j h1 h2)
    · rcases Nat.lt_trichotomy i j with hij | rfl | hij
      · exact absurd ((hrun i hi2).1 hi4) (hused i hi1 hij)
      · exact hi3
      · exact absurd ((hrun j h2).2 hfree) (hi5 j h1 hij)
  subst hv
  rw [h]
  rcases findVspaceKernel_one h with ⟨hno, -⟩ | ⟨i, -, -, hi, -, ⟨hlast, hvm⟩ | ⟨hlt, -, hvm⟩⟩
  · unfold noVspace at hno; omega
  · rw [if_pos (by omega), hvm]
  · have hij : i = j := by omega
    rw [if_neg (by omega), hvm, hij]

end Total

/-! ## Tables on demand -/

/-- What `get_table_alloc` does when table `k` of user directory `a` is missing: a block for the table, a page `j` of
the kernel directory at which the kernel sees it, and an empty table in the slot. -/
structure TableAdded (vm : Vm) (a k phys j : Nat) (vm' : Vm) : Prop where
  block : pmmAllocBlocksSafe vm.pmm 1 = .ok (phys, vm'.pmm)
  page : 1 ≤ j ∧ j < 0x100000
  page_free : vm.entry .kernel j = 0#32
  kernel : ∀ m, vm'.entry .kernel m =
    if m = j then BitVec.ofNat 32 phys ||| (pagePresent ||| pageReadwrite) else vm.entry .kernel m
  dir : vm'.dirs (.user a) = { vm.dirs (.user a) with
    physicalTables := Function.update (vm.dirs (.user a)).physicalTables k
      (BitVec.ofNat 32 phys ||| (pagePresent ||| pageReadwrite ||| pageUser))
    tables := Function.update (vm.dirs (.user a)).tables k (some ⟨j * 4096, fun _ => 0#32⟩) }
  others : ∀ b, b ≠ a → vm'.dirs (.user b) = vm.dirs (.user b)
  frames : vm'.frames = vm.frames
  nextDir : vm'.nextDir = vm.nextDir

section Tables

variable {vm vm' : Vm} {a k phys j : Nat}

/-- A directory other than the kernel's is not touched by a store to the kernel's entries. -/
theorem dirs_setEntry_kernel {b n : Nat} {w : Word} : (vm.setEntry .kernel n w).dirs (.user b) = vm.dirs (.user b) :=
  dirs_setEntry_of_ne (by simp)

theorem addTable_kernel {virt n : Nat} : (vm.addTable (.user a) k phys virt).entry .kernel n = vm.entry .kernel n := by
  simp [Vm.addTable, Vm.entry, Vm.pageAt]

/-- **`get_table_alloc`** on a user directory. -/
theorem getTableAlloc_ok {v : Nat} {t : TablePtr} (hv : v < 0x100000000)
    (h : getTableAlloc (.user a) vm v = .ok (t, vm')) : t = ⟨.user a, v / 0x400000⟩ ∧
      (vm.HasTable (.user a) (v / 0x400000) ∧ vm' = vm ∨
        ¬ vm.HasTable (.user a) (v / 0x400000) ∧ ∃ phys j, TableAdded vm a (v / 0x400000) phys j vm') := by
  unfold getTableAlloc at h
  cases ht : getTable vm v (.user a) with
  | some table =>
    rw [ht] at h
    simp only [pure_eq_ok, Prod.mk.injEq] at h
    obtain ⟨rfl, rfl⟩ := h
    obtain ⟨hex, rfl⟩ := getTable_eq_some.1 ht
    exact ⟨rfl, Or.inl ⟨hex, rfl⟩⟩
  | none =>
    rw [ht] at h
    have hindex : v / 0x400000 % 1024 = v / 0x400000 := by omega
    simp only [bind_eq_ok, assert_eq_ok, pure_eq_ok, Prod.exists, Prod.mk.injEq, hindex] at h
    obtain ⟨-, -, phys, pmm, hblock, virt, vm₁, hfind, -, -, vm₂, hmap, -, -, rfl, rfl⟩ := h
    refine ⟨rfl, Or.inr ⟨getTable_eq_none.1 ht, phys, ?_⟩⟩
    obtain ⟨hal, hkt, rfl⟩ := mapPage_ok hmap
    rcases findVspaceKernel_one hfind with ⟨rfl, -⟩ | ⟨j, h1, h2, rfl, hfree, hvm⟩
    · -- `-1` is not aligned
      exact absurd hal (by decide)
    · have hpage : j * 4096 / 4096 = j := by omega
      rw [hpage] at hkt ⊢
      -- reserved or not, the page gets its mapping now
      have hent : ∀ m, m ≠ j → vm₁.entry .kernel m = vm.entry .kernel m := by
        intro m hm
        rcases hvm with ⟨-, rfl⟩ | ⟨-, ht', rfl⟩
        · rfl
        · rw [entry_setEntry ht', if_neg (fun hc => hm hc.2)]; rfl
      have hdirs : ∀ b, vm₁.dirs (.user b) = vm.dirs (.user b) := by
        intro b
        rcases hvm with ⟨-, rfl⟩ | ⟨-, -, rfl⟩
        · rfl
        · rw [dirs_setEntry_kernel]
      have hrest : vm₁.pmm = pmm ∧ vm₁.frames = vm.frames ∧ vm₁.nextDir = vm.nextDir := by
        rcases hvm with ⟨-, rfl⟩ | ⟨-, -, rfl⟩ <;> exact ⟨rfl, rfl, rfl⟩
      refine ⟨j, ⟨by rw [hblock]; simp [Vm.addTable, hrest.1], ⟨h1, h2⟩, hfree, fun m => ?_, ?_, fun b hb => ?_,
        hrest.2.1, hrest.2.2⟩⟩
      · rw [entry_setEntry hkt, addTable_kernel]
        by_cases hm : m = j
        · rw [if_pos ⟨rfl, hm⟩, if_pos hm]
        · rw [if_neg (fun hc => hm hc.2), if_neg hm, hent m hm]
      · rw [dirs_setEntry_kernel]
        simp [Vm.addTable, hdirs]
      · rw [dirs_setEntry_kernel]
        simp [Vm.addTable, hb, hdirs]

/-- Adding a table changes no entry of its directory: the entries were 0, and are. -/
theorem TableAdded.entry_same (h : TableAdded vm a k phys j vm') (hk : ¬ vm.HasTable (.user a) k) (m : Nat) :
    vm'.entry (.user a) m = vm.entry (.user a) m := by
  have hnone : (vm.dirs (.user a)).tables k = none := by
    cases ht : (vm.dirs (.user a)).tables k with
    | none => rfl
    | some t => exact absurd ⟨t, ht⟩ hk
  unfold Vm.entry Vm.pageAt
  simp only [h.dir]
  by_cases hm : m / 1024 = k
  · rw [hm, Function.update_self, hnone]
  · rw [Function.update_of_ne hm]

end Tables

/-- What looking up and adding tables of `dir` does: entries of `dir` stay, and so does every entry that is not 0. -/
structure Grows (dir : DirPtr) (vm vm' : Vm) : Prop where
  same : ∀ m, vm'.entry dir m = vm.entry dir m
  keeps : ∀ d m, vm.entry d m ≠ 0#32 → vm'.entry d m = vm.entry d m

theorem quiet_grows (dir : DirPtr) : Quiet dir (Grows dir) where
  refl _ := ⟨fun _ => rfl, fun _ _ _ => rfl⟩
  trans h h' := by
    refine ⟨fun m => (h'.same m).trans (h.same m), fun d m hm => ?_⟩
    have heq := h.keeps d m hm
    rw [h'.keeps d m (by rw [heq]; exact hm), heq]
  same h := h.same

theorem getTableAlloc_spec (dir : DirPtr) : TableSpec dir (Grows dir) (getTableAlloc dir) := by
  intro vm v t vm' hv h
  cases dir with
  | kernel =>
    obtain ⟨rfl, ht⟩ := getTableAlloc_kernel h
    exact ⟨(getTable_eq_some.1 ht).2, (quiet_grows _).refl _⟩
  | user a =>
    obtain ⟨rfl, ⟨-, rfl⟩ | ⟨hk, phys, j, hadd⟩⟩ := getTableAlloc_ok hv h
    · exact ⟨rfl, (quiet_grows _).refl _⟩
    · refine ⟨rfl, hadd.entry_same hk, fun d m hm => ?_⟩
      cases d with
      | kernel =>
        have hne : m ≠ j := by
          intro hmj
          rw [hmj] at hm
          exact hm hadd.page_free
        rw [hadd.kernel, if_neg hne]
      | user b =>
        by_cases hb : b = a
        · rw [hb]; exact hadd.entry_same hk m
        · unfold Vm.entry Vm.pageAt
          simp only [hadd.others b hb]

/-- `find_vspace` takes the first run of `n` free pages, or fails when there is none. -/
theorem findVspace_ok {vm vm' : Vm} {dir : DirPtr} {n v : Nat} (h : findVspace dir n vm = .ok (v, vm')) :
    n ≠ 0 ∧ FirstFit (Grows dir) dir n 1 vm v vm' := by
  simp only [findVspace, findVspaceWith, bind_eq_ok, assert_eq_ok] at h
  obtain ⟨-, hn, h⟩ := h
  exact ⟨hn, vspaceFrom_spec (quiet_grows dir) (getTableAlloc_spec dir) hn (by omega) h⟩

end Myunix.Vmm
