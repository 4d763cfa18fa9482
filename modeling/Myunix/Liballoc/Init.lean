import Myunix.Liballoc.State

/-!
# `liballoc_init`

The heap starts with one major of sixteen pages, which has no minors.

* **`liballocInit_spec`**: what it leaves, or that there are no pages for it.
* `freshHeap_started`: how the heap starts on a machine where nothing is mapped.
-/

namespace Myunix.Liballoc

open Lib Pmm Vmm Syscall Process

/-- The heap before `liballoc_init`. -/
structure Unused (h : Heap) : Prop where
  tables : KernelTables h.vm
  zero : h.vm.pmm.used 0 = true
  root : h.memRoot = 0
  bet : h.bestBet = 0
  allocated : h.allocated = 0
  inuse : h.inuse = 0
  unlocked : h.spinlock = 0#32

section Init

variable {h : Heap}

/-- A heap without majors. -/
theorem Unused.holds (hu : Unused h) (m : Memory) : Holds h [] m := by
  have hno : ∀ n, ¬ HeapPage [] n := fun n ⟨M, hM, _⟩ => List.not_mem_nil hM
  exact ⟨hu.tables, hu.zero, ⟨fun n hn => absurd hn (hno n), fun n hn => absurd hn (hno n),
    fun n _ hn => absurd hn (hno n), fun n hn => absurd hn (hno n), fun n hn => absurd hn (hno n)⟩,
    fun a ha => absurd ha (hno _), ⟨fun M hM => absurd hM List.not_mem_nil, trivial, List.Pairwise.nil⟩, hu.root,
    Or.inl hu.bet, hu.allocated, hu.inuse⟩

/-- **`liballoc_init`**: one major without minors, or there are no pages for it. -/
theorem liballocInit_spec (hu : Unused h) (htop : RunBelowTop h.vm .kernel 16) :
    Yields (liballocInit h) (fun h' => ∃ N m, Holds h' [N] m ∧ N.minors = [] ∧ N.pages = 16 ∧ h'.spinlock = 0#32 ∧
        Spares h.vm (HeapPage []) h'.vm (HeapPage [N]))
      fun e => e = .failure .assertion ∧ ¬ PagesLeft h.vm 16 := by
  have hpages : newPages (16 + 16) = 16 := rfl
  have hh := hu.holds fun _ => 0#8
  unfold liballocInit
  rw [assert_bind hu.root]
  rcases allocateNewPage_spec hh (by omega : 16 + 16 + 48 < 0x100000000) (hpages ▸ htop) with
    ⟨N, vm₁, vm₂, m₂, hrun, hnew, -⟩ | ⟨hrun, hleft⟩
  · have hat := hh.headers.append hnew.major hnew.apart hnew.prevLink hnew.nextLink (fun c hc => by cases hc)
      fun a ha _ => hnew.others a ha
    obtain ⟨hholds, hspares⟩ := hnew.joins hh hnew.sees hat (Eq.refl N.addr) 0#32
    have hend : ((do
        let h : Heap := { h with
          vm := vm₂, memRoot := N.addr, allocated := (h.allocated + newPages (16 + 16) * 4096) % 0x10000000000000000 }
        heapAssert (h.memRoot ≠ 0)
        return h) : HeapM Heap) = .ok ⟨vm₂, N.addr, h.bestBet,
          (h.allocated + newPages (16 + 16) * 4096) % 0x10000000000000000, h.inuse, 0#32⟩ := by
      rw [← hu.unlocked]
      exact assert_bind N.nonzero
    rw [hrun, ok_bind]
    dsimp only
    rw [hend]
    exact ⟨N, m₂, hholds, hnew.empty, hnew.size.trans hpages, rfl, hspares⟩
  · rw [hrun]
    exact ⟨rfl, hpages ▸ hleft⟩

end Init

/-! ## A machine where nothing is mapped -/

/-- A machine with 63 free blocks, and an unused heap. -/
def freshHeap : Heap := ⟨{ kernelVm (fun _ => 0#32) with pmm := mostlyFree }, 0, 0, 0, 0, 0#32⟩

theorem freshHeap_unused : Unused freshHeap := ⟨fun _ _ => ⟨⟨_, rfl⟩, rfl⟩, rfl, rfl, rfl, rfl, rfl, rfl⟩

theorem freshHeap_entry (n : Nat) : freshHeap.vm.entry .kernel n = 0#32 := by
  show (kernelVm fun _ => 0#32).entry .kernel n = 0#32
  exact kernelVm_entry

theorem freshHeap_below (n : Nat) (hn : n < 0xFFFFF) : RunBelowTop freshHeap.vm .kernel n :=
  fun _ => ⟨1, by omega, by omega, fun _ _ => freshHeap_entry _⟩

theorem freshHeap_left : PagesLeft freshHeap.vm 16 :=
  ⟨⟨1, by omega, by omega, fun _ _ => freshHeap_entry _⟩, by decide⟩

/-- **The heap starts there**, and leaves room for as many pages as one asks for, up to a quarter of all. -/
theorem freshHeap_started : ∃ h N m, liballocInit freshHeap = .ok h ∧ Holds h [N] m ∧ N.minors = [] ∧ N.pages = 16 ∧
    h.spinlock = 0#32 ∧ ∀ n ≤ 0x40000, RunBelowTop h.vm .kernel n := by
  have hspec := liballocInit_spec freshHeap_unused (freshHeap_below 16 (by omega))
  cases hinit : liballocInit freshHeap with
  | error e =>
    rw [hinit] at hspec
    exact absurd freshHeap_left hspec.2
  | ok h =>
    rw [hinit] at hspec
    obtain ⟨N, m, hh, hempty, hsize, hlock, hspares⟩ := hspec
    refine ⟨h, N, m, rfl, hh, hempty, hsize, hlock, fun n hn _ => ?_⟩
    have hnone : ∀ k, ¬ HeapPage [] k := fun k ⟨M, hM, _⟩ => List.not_mem_nil hM
    have hfree : ∀ k, ¬ PageIn (N.addr / 4096) N.pages k → h.vm.entry .kernel k = 0#32 := fun k hk => by
      rw [hspares.entry k (hnone k) fun ⟨M, hM, hin⟩ => hk (List.mem_singleton.1 hM ▸ hin)]
      exact freshHeap_entry k
    -- in front of the pages of the heap or behind them
    by_cases hN : n < N.addr / 4096
    · exact ⟨1, by omega, by omega, fun k hk => hfree _ (by unfold PageIn; omega)⟩
    · exact ⟨N.addr / 4096 + 16, by omega, by omega, fun k hk => hfree _ (by unfold PageIn; omega)⟩

end Myunix.Liballoc
