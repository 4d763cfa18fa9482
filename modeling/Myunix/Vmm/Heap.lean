import Myunix.Vmm.FindVspace

/-!
# Pages of the kernel heap (`liballoc.c`)

The heap takes its pages from `liballoc_alloc` and gives them back with `liballoc_free`. Both change the kernel
directory alone: `liballocAlloc_ok` and `liballocFree_ok` say at which pages.
-/

namespace Myunix.Vmm

open Lib Pmm

/-! ## The code -/

/-- The loop body of `liballoc_alloc`. Without a block it halts. -/
def liballocPage (vaddr : Nat) (vm : Vm) : Kernel Vm := do
  let (realBlock, pmm) ← pmmAllocBlocks vm.pmm 1
  if realBlock = 0 then throw .assertion
  else
    let (table, vm) ← getTableAlloc .kernel { vm with pmm := pmm } vaddr
    mapPage vm (some table) vaddr realBlock (pagePresent ||| pageReadwrite)

/-- `liballoc_alloc`. -/
def liballocAlloc (pages : Nat) (vm : Vm) : Kernel (Nat × Vm) := do
  let (vStart, vm) ← findVspace .kernel pages vm
  let vm ← forRange (fun i vm => liballocPage ((vStart + i * 4096) % 0x100000000) vm) 0 pages vm
  return (vStart, vm)

/-- The loop body of `liballoc_free`. -/
def liballocFreePage (vaddr : Nat) (vm : Vm) : Kernel Vm := do
  let table := getTable vm vaddr .kernel
  let page ← getPage vm table vaddr
  if page = pageValueReserved then mapPage vm table vaddr 0 0#32
  else
    let vm ← mapPage vm table vaddr 0 0#32
    let pmm ← pmmFreeBlocks vm.pmm (page &&& ~~~ 0xFFF#32).toNat 1
    return { vm with pmm := pmm }

/-- `liballoc_free`. -/
def liballocFree (v pages : Nat) (vm : Vm) : Kernel Vm := do
  kassert (v ≠ 0)
  forRange (fun i vm => liballocFreePage ((v + i * 4096) % 0x100000000) vm) 0 pages vm

/-! ## Stores to the kernel directory -/

/-- Page `m` is one of the `n` pages from page `j` on, modulo the number of pages. -/
def InRun (j n m : Nat) : Prop := ∃ k < n, m = (j + k) % 0x100000

theorem InRun.lt {j n m : Nat} (h : InRun j n m) : m < 0x100000 := by
  obtain ⟨k, -, rfl⟩ := h
  exact Nat.mod_lt _ (by omega)

theorem not_inRun_zero (j m : Nat) : ¬ InRun j 0 m := by
  rintro ⟨k, hk, -⟩
  exact Nat.not_lt_zero k hk

/-- Of the directories only the kernel's changes, and only at the pages `touched`. -/
structure KernelStores (touched : Nat → Prop) (s s' : Vm) : Prop where
  users : ∀ b, s'.dirs (.user b) = s.dirs (.user b)
  nextDir : s'.nextDir = s.nextDir
  kernel : ∀ m, ¬ touched m → s'.entry .kernel m = s.entry .kernel m

section Stores

variable {T : Nat → Prop} {s s' s'' : Vm} {v p n j : Nat} {f w : Word}

theorem KernelStores.refl (T : Nat → Prop) (s : Vm) : KernelStores T s s := ⟨fun _ => rfl, rfl, fun _ _ => rfl⟩

theorem KernelStores.trans (h : KernelStores T s s') (h' : KernelStores T s' s'') : KernelStores T s s'' :=
  ⟨fun b => (h'.users b).trans (h.users b), h'.nextDir.trans h.nextDir,
    fun m hm => (h'.kernel m hm).trans (h.kernel m hm)⟩

theorem KernelStores.imp {U : Nat → Prop} (h : KernelStores T s s') (himp : ∀ m, T m → U m) : KernelStores U s s' :=
  ⟨h.users, h.nextDir, fun m hm => h.kernel m fun ht => hm (himp m ht)⟩

/-- Blocks and frames are no part of a directory. -/
theorem kernelStores_of_dirs (hdirs : s'.dirs = s.dirs) (hnext : s'.nextDir = s.nextDir) : KernelStores T s s' := by
  refine ⟨fun b => by rw [hdirs], hnext, fun m _ => ?_⟩
  unfold Vm.entry Vm.pageAt
  rw [hdirs]

theorem kernelStores_setEntry (hn : T n) (ht : s.HasTable .kernel (n / 1024)) :
    KernelStores T s (s.setEntry .kernel n w) := by
  refine ⟨fun b => dirs_setEntry_kernel, rfl, fun m hm => ?_⟩
  rw [entry_setEntry ht, if_neg]
  rintro ⟨-, rfl⟩
  exact hm hn

theorem kernelStores_mapPage (hv : v % 1024 = 0 → T (v / 4096)) (h : mapPage s (getTable s v .kernel) v p f = .ok s') :
    KernelStores T s s' ∧ s'.entry .kernel (v / 4096) = BitVec.ofNat 32 p ||| f := by
  obtain ⟨hal, ht, rfl⟩ := mapPage_ok h
  exact ⟨kernelStores_setEntry (hv hal) ht, by rw [entry_setEntry ht, if_pos ⟨rfl, rfl⟩]⟩

/-- `find_vspace` on the kernel directory takes the first run of free pages; as far as it reserves them, it stores to
these. -/
theorem findVspace_stores (h : findVspace .kernel n s = .ok (v, s')) :
    (v = noVspace ∧ s' = s) ∨ ∃ j, 1 ≤ j ∧ j < 0x100000 ∧ v = j * 4096 ∧ FreeRun s .kernel j n ∧
      (∀ j', 1 ≤ j' → j' < j → ¬ FreeRun s .kernel j' n) ∧ KernelStores (InRun j n) s s' := by
  rw [findVspace_kernel] at h
  simp only [findVspaceKernel, findVspaceWith, bind_eq_ok, assert_eq_ok] at h
  obtain ⟨-, hn, h⟩ := h
  rcases vspaceFrom_spec (quiet_eq .kernel) kernelTable_spec hn (by omega) h with
    ⟨hv, hvm, -⟩ | ⟨j, s₁, h1, h2, h3, h4, h5, rfl, hres⟩
  · exact .inl ⟨hv, hvm.symm⟩
  · refine .inr ⟨j, h1, h2, h3, h4, h5, ?_⟩
    refine forRange_keeps (I := fun u => KernelStores (InRun j n) s u) ?_ hres (KernelStores.refl _ s)
    intro k u u' _ hk hu hmap
    have hpage : (j * 4096 + k * 4096) / 4096 = j + k := by omega
    refine hu.trans (kernelStores_mapPage (fun _ => ?_) hmap).1
    -- a run that reaches the last page is reserved only if it ends there, and then not at all
    rw [hpage]
    exact ⟨k, by omega, by omega⟩

/-- A page that is taken was free. -/
theorem FreeRun.of_inRun {m : Nat} (h : FreeRun s .kernel j n) (hm : InRun j n m) : s.entry .kernel m = 0#32 := by
  obtain ⟨k, hk, rfl⟩ := hm
  exact h k hk

end Stores

/-! ## What the heap does -/

section Heap

variable {s s' : Vm} {v pages : Nat}

/-- A new entry is present. -/
theorem entry_ne_zero {x f : Word} (hf : f.getLsbD 0 = true) : x ||| f ≠ 0#32 := by
  intro h
  have hbit := congrArg (fun w => w.getLsbD 0) h
  simp only [BitVec.getLsbD_or, hf, Bool.or_true] at hbit
  exact absurd hbit (by decide)

theorem liballocPage_ok {m : Nat} (h : liballocPage (m * 4096) s = .ok s') :
    KernelStores (· = m) s s' ∧ s'.entry .kernel m ≠ 0#32 := by
  simp only [liballocPage, bind_eq_ok, Prod.exists] at h
  obtain ⟨block, pmm, -, h⟩ := h
  split at h
  · simp at h
  · simp only [bind_eq_ok, Prod.exists] at h
    obtain ⟨table, s₁, htable, hmap⟩ := h
    have hpage : m * 4096 / 4096 = m := Nat.mul_div_cancel m (by omega)
    obtain ⟨rfl, htab⟩ := getTableAlloc_kernel htable
    rw [← htab] at hmap
    obtain ⟨hstores, hentry⟩ := kernelStores_mapPage (T := (· = m)) (fun _ => hpage) hmap
    rw [hpage] at hentry
    have hpmm : KernelStores (· = m) s { s with pmm := pmm } := kernelStores_of_dirs rfl rfl
    refine ⟨hpmm.trans hstores, ?_⟩
    rw [hentry]
    exact entry_ne_zero (by decide)

/-- **`liballoc_alloc`** takes pages that were free. -/
theorem liballocAlloc_ok (h : liballocAlloc pages s = .ok (v, s')) :
    ∃ j, v = j * 4096 ∧ (∀ m, InRun j pages m → s.entry .kernel m = 0#32 ∧ s'.entry .kernel m ≠ 0#32) ∧
      KernelStores (InRun j pages) s s' := by
  simp only [liballocAlloc, bind_eq_ok, pure_eq_ok, Prod.exists, Prod.mk.injEq] at h
  obtain ⟨v', s₁, hfind, s₂, hloop, rfl, rfl⟩ := h
  have hn : pages ≠ 0 := (findVspace_ok hfind).1
  rcases findVspace_stores hfind with ⟨rfl, rfl⟩ | ⟨j, h1, h2, rfl, hfree, -, hstores⟩
  · -- `-1` is not aligned
    obtain ⟨n, rfl⟩ : ∃ n, pages = n + 1 := ⟨pages - 1, by omega⟩
    simp only [forRange_succ, bind_eq_ok] at hloop
    obtain ⟨s₃, hfirst, -⟩ := hloop
    simp only [liballocPage, bind_eq_ok, Prod.exists] at hfirst
    obtain ⟨block, pmm, -, hfirst⟩ := hfirst
    split at hfirst
    · simp at hfirst
    · simp only [bind_eq_ok, Prod.exists] at hfirst
      obtain ⟨table, s₄, -, hmap⟩ := hfirst
      simp only [mapPage, bind_eq_ok, assert_eq_ok] at hmap
      obtain ⟨-, hal, -⟩ := hmap
      exact absurd hal (by decide)
  · refine ⟨j, rfl, ?_⟩
    have hpage : ∀ k, (j * 4096 + k * 4096) % 0x100000000 = (j + k) % 0x100000 * 4096 := fun k => by omega
    have hinv := forRange_inv (P := fun i u => KernelStores (InRun j pages) s u ∧
      ∀ m, InRun j i m → u.entry .kernel m ≠ 0#32) ?_ hloop
      ⟨hstores, fun m hm => absurd hm (not_inRun_zero j m)⟩
    · rw [Nat.zero_add] at hinv
      exact ⟨fun m hm => ⟨hfree.of_inRun hm, hinv.2 m hm⟩, hinv.1⟩
    · rintro i u u' - hi ⟨hu, hused⟩ hstep
      rw [hpage i] at hstep
      obtain ⟨hpageStores, hnew⟩ := liballocPage_ok hstep
      refine ⟨hu.trans (hpageStores.imp ?_), ?_⟩
      · rintro m rfl
        exact ⟨i, by omega, rfl⟩
      · rintro m ⟨k, hk, rfl⟩
        by_cases hsame : (j + k) % 0x100000 = (j + i) % 0x100000
        · rw [hsame]
          exact hnew
        · rw [hpageStores.kernel _ hsame]
          refine hused _ ⟨k, ?_, rfl⟩
          rcases Nat.lt_succ_iff_lt_or_eq.1 hk with hk | rfl
          · exact hk
          · exact absurd rfl hsame

/-- **`liballoc_free`** stores to the pages it is given. -/
theorem liballocFree_ok {j : Nat} (h : liballocFree (j * 4096) pages s = .ok s') :
    KernelStores (InRun j pages) s s' := by
  simp only [liballocFree, bind_eq_ok, assert_eq_ok] at h
  obtain ⟨-, -, hloop⟩ := h
  refine forRange_keeps (I := fun u => KernelStores (InRun j pages) s u) ?_ hloop (KernelStores.refl _ s)
  intro i u u' _ hi hu hstep
  have hpage : (j * 4096 + i * 4096) % 0x100000000 / 4096 = (j + i) % 0x100000 := by omega
  have hrun : ∀ x : Nat, x = (j * 4096 + i * 4096) % 0x100000000 → InRun j pages (x / 4096) := by
    rintro x rfl
    exact ⟨i, by omega, hpage⟩
  apply hu.trans
  simp only [liballocFreePage, bind_eq_ok] at hstep
  obtain ⟨page, -, hstep⟩ := hstep
  split at hstep
  · exact (kernelStores_mapPage (fun _ => hrun _ rfl) hstep).1
  · simp only [bind_eq_ok, pure_eq_ok] at hstep
    obtain ⟨u₁, hmap, pmm, -, rfl⟩ := hstep
    exact (kernelStores_mapPage (fun _ => hrun _ rfl) hmap).1.trans (kernelStores_of_dirs rfl rfl)

end Heap

end Myunix.Vmm
